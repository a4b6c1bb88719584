import ServerFlow.Lib.GoMap
import ServerFlow.Lib.Word
import ServerFlow.Resilience.Window

/-!
# Signals.Tracker

The in-flight ledger of a gateway (`internal/scheduler/signals/tracker.go`): for each worker
registration the requests in flight, their estimated cost, and a history of starts and finishes
from which a worker's report is corrected to the present.

The clock reading is an argument. The sums that a caller's durations and costs enter are `int64`
values (`Word.wrap`). The capacity estimate, which does not enter the active count, and
the counters for metrics are left out; a heartbeat age is a rational number of seconds.
-/

namespace ServerFlow.Signals

open Resilience (Time Duration second)
open Word (wrap wrap_eq)

/-- Bounds the counts taken from a worker's report. -/
def maxCount : Int := 2 ^ 31 - 1

/-- Bounds a heartbeat age, in seconds. -/
def maxReportAge : ℚ := 1000000

structure Config where
  bucket : Duration
  window : Duration
  maxWorkers : Int

/-- What `New` makes of a configuration. -/
def Config.normalize (cfg : Config) : Config :=
  let bucket := if cfg.bucket ≤ 0 then second.tdiv 10 else cfg.bucket
  { bucket := bucket
    window := if cfg.window < wrap (2 * bucket) then wrap (2 * bucket) else cfg.window
    maxWorkers := if cfg.maxWorkers ≤ 0 then 4096 else cfg.maxWorkers }

/-- One incarnation of a worker. -/
structure Key where
  workerID : String
  registered : Int
  deriving Repr, DecidableEq

/-- Proof that an entry was added to the ledger. -/
structure Token where
  key : Key
  gen : Nat
  deriving Repr, DecidableEq

/-- The zero `Token`. -/
def Token.zero : Token := ⟨⟨"", 0⟩, 0⟩

def Token.valid (t : Token) : Bool := t.gen ≠ 0

/-! ### The history -/

/-- The totals up to and including a bucket. -/
structure Rec where
  idx : Int
  cumS : Nat
  cumF : Nat

/-- Cumulative starts and finishes by bucket. `recs` are the live records, oldest first. -/
structure History where
  recs : List Rec
  totS : Nat
  totF : Nat
  baseS : Nat
  baseF : Nat
  /-- The last bucket that was trimmed away. -/
  dropped : Option Int

def History.empty : History := ⟨[], 0, 0, 0, 0, none⟩

/-- The loop of `record` that trims buckets before `bound`. -/
def History.trim (bound : Int) : List Rec → History → History
  | [], h => { h with recs := [] }
  | r :: recs, h =>
    if r.idx < bound then
      trim bound recs { h with baseS := r.cumS, baseF := r.cumF, dropped := some r.idx }
    else { h with recs := r :: recs }

/-- `record`: one start or finish in bucket `idx`. An `idx` before the last record counts there. -/
def History.record (h : History) (idx : Int) (start : Bool) (keep : Int) : History :=
  let totS := if start then h.totS + 1 else h.totS
  let totF := if start then h.totF else h.totF + 1
  let appended : History :=
    History.trim (idx - keep) (h.recs ++ [⟨idx, totS, totF⟩]) { h with totS := totS, totF := totF }
  match h.recs.getLast? with
  | some last =>
    if idx ≤ last.idx then
      { h with totS := totS, totF := totF, recs := h.recs.dropLast ++ [⟨last.idx, totS, totF⟩] }
    else appended
  | none => appended

/-- `since`: the starts (or finishes) in buckets at or after `pivot`; `none` if the history no
longer reaches back to it. The records are in order, so the binary search of the source finds the
end of the ones before `pivot`. -/
def History.since (h : History) (pivot : Int) (start : Bool) : Option Nat :=
  let count (cumS cumF : Nat) : Nat := if start then h.totS - cumS else h.totF - cumF
  match (h.recs.takeWhile fun r => r.idx < pivot).getLast? with
  | some r => some (count r.cumS r.cumF)
  | none => if h.dropped.any (pivot ≤ ·) then none else some (count h.baseS h.baseF)

/-! ### The ledger -/

structure Entry where
  gen : Nat
  inflight : Int
  work : Int
  /-- The earliest report time the history can answer for. -/
  validFrom : Time
  lastHB : Option Time
  hist : History

structure Tracker where
  cfg : Config
  epoch : Option Time
  entries : GoMap Key Entry
  nextGen : Nat

/-- `New`. -/
def newTracker (cfg : Config) : Tracker := ⟨cfg.normalize, none, ∅, 0⟩

/-- `ReportTime`: when a report was made, on the clock of the view. -/
def reportTime (now : Time) (heartbeatAgeSeconds : ℚ) : Time :=
  if ¬ heartbeatAgeSeconds > 0 then now
  else now - ⌊min heartbeatAgeSeconds maxReportAge * second⌋

def Tracker.setEpoch (t : Tracker) (now : Time) : Tracker :=
  { t with epoch := some (t.epoch.getD now) }

/-- `Time.Sub`, which saturates. -/
def timeSub (x y : Int) : Int := max (min (x - y) (2 ^ 63 - 1)) (-2 ^ 63)

/-- `bucket`: the history bucket of an instant. -/
def Tracker.bucket (t : Tracker) (x : Time) : Int :=
  let d := timeSub x (t.epoch.getD 0)
  let b := d.tdiv t.cfg.bucket
  if d < 0 ∧ d.tmod t.cfg.bucket ≠ 0 then b - 1 else b

def Tracker.window (t : Tracker) : Int := wrap (t.cfg.window.tdiv t.cfg.bucket + 2)

def clampCount (n : Int) : Int := min (max n 0) maxCount

/-- `create`: a new entry, unless the cap is reached. -/
def Tracker.create (t : Tracker) (k : Key) (now : Time) : Tracker × Option Entry :=
  if (t.entries.len : Int) ≥ t.cfg.maxWorkers then (t, none)
  else
    let e : Entry := ⟨t.nextGen + 1, 0, 0, now, none, .empty⟩
    ({ t with nextGen := t.nextGen + 1, entries := t.entries.insert k e }, some e)

/-- The entry of a worker, created if it has none. -/
def Tracker.entry (t : Tracker) (k : Key) (now : Time) : Tracker × Option Entry :=
  match t.entries.lookup k with
  | some e => (t, some e)
  | none => t.create k now

/-- `Begin`: one more request in flight. -/
def Tracker.begin (t : Tracker) (now : Time) (k : Key) : Tracker × Token :=
  let t := t.setEpoch now
  match t.entry k now with
  | (t, none) => (t, .zero)
  | (t, some e) =>
    let e := { e with inflight := e.inflight + 1, hist := e.hist.record (t.bucket now) true t.window }
    ({ t with entries := t.entries.insert k e }, ⟨k, e.gen⟩)

/-- `AddCost`. Returns whether the cost was added. -/
def Tracker.addCost (t : Tracker) (tok : Token) (cost : Int) : Tracker × Bool :=
  if !tok.valid || decide (cost ≤ 0) then (t, false)
  else
    match t.entries.lookup tok.key with
    | none => (t, false)
    | some e =>
      if e.gen ≠ tok.gen then (t, false)
      else ({ t with entries := t.entries.insert tok.key { e with work := wrap (e.work + cost) } },
        true)

/-- `End`: the request that holds the token is finished. -/
def Tracker.finish (t : Tracker) (now : Time) (tok : Token) (cost : Int) : Tracker :=
  if !tok.valid then t
  else
    let t := t.setEpoch now
    match t.entries.lookup tok.key with
    | none => t
    | some e =>
      if e.gen ≠ tok.gen then t
      else
        let e := { e with
          inflight := if e.inflight > 0 then e.inflight - 1 else e.inflight
          work := if cost > 0 then max (wrap (e.work - cost)) 0 else e.work
          hist := e.hist.record (t.bucket now) false t.window }
        { t with entries := t.entries.insert tok.key e }

/-! ### The overlay -/

/-- Why the ledger rule gave way to `max(local, reported)`. -/
inductive Fallback
  | none
  | untracked
  | history
  deriving Repr, DecidableEq

/-- One worker as the overlay sees it. -/
structure Input where
  key : Key
  localCount : Int
  reported : Int
  reportedAt : Time

structure Result where
  active : Int
  inflight : Int
  work : Int
  fallback : Fallback

/-- How many buckets after the report's bucket a finish must be to count as after the report. -/
def finishLag : Int := 0

/-- `Overlay`: the effective active count of a worker. -/
def Tracker.overlay (t : Tracker) (now : Time) (inp : Input) : Tracker × Result :=
  let t := t.setEpoch now
  let own := clampCount inp.localCount
  let reported := clampCount inp.reported
  let plain := max own reported
  match t.entries.lookup inp.key with
  | none => (t, ⟨plain, 0, 0, .untracked⟩)
  | some e =>
    let reportedAt := min inp.reportedAt now
    if reportedAt < e.validFrom ∨ timeSub now reportedAt > t.cfg.window then
      (t, ⟨plain, e.inflight, e.work, .history⟩)
    else
      let b := t.bucket reportedAt
      match e.hist.since b true with
      | none => (t, ⟨plain, e.inflight, e.work, .history⟩)
      | some started =>
        let finished := (e.hist.since (b + finishLag) false).getD 0
        let eff := reported + started - finished
        (t, ⟨min (max eff own) maxCount, e.inflight, e.work, .none⟩)

theorem clampCount_le (n : Int) : clampCount n ≤ maxCount := min_le_right _ _

theorem clampCount_nonneg (n : Int) : 0 ≤ clampCount n :=
  le_min (le_max_right n 0) (by decide)

theorem clampCount_eq {n : Int} (h : 0 ≤ n) (hmax : n ≤ maxCount) : clampCount n = n := by
  rw [clampCount, max_eq_left h, min_eq_left hmax]

/-- The effective count is never below the gateway's own. -/
theorem Tracker.overlay_active (t : Tracker) (now : Time) (inp : Input) :
    clampCount inp.localCount ≤ (t.overlay now inp).2.active := by
  simp only [Tracker.overlay]
  split
  · exact le_max_left _ _
  · split
    · exact le_max_left _ _
    · split
      · exact le_max_left _ _
      · exact le_min (le_max_right _ _) (clampCount_le _)

/-! ### The registry view -/

/-- A worker in a registry snapshot. -/
structure Observation where
  key : Key
  lastHeartbeat : Option Time

/-- The last heartbeat went backwards. -/
def Entry.wentBack (e : Entry) (o : Observation) : Bool :=
  match o.lastHeartbeat, e.lastHB with
  | some hb, some last => hb < last
  | _, _ => false

/-- The loop of `Sync` over one worker of the snapshot. -/
def Tracker.observe (now : Time) (t : Tracker) (o : Observation) : Tracker :=
  match t.entry o.key now with
  | (t, none) => t
  | (t, some e) =>
    let e := if e.wentBack o then { e with hist := .empty, validFrom := now } else e
    { t with entries := t.entries.insert o.key { e with lastHB := o.lastHeartbeat } }

/-- `Sync`: reconcile the tracker with a registry snapshot. -/
def Tracker.sync (t : Tracker) (now : Time) (members : List Observation) : Tracker :=
  let t := members.foldl (Tracker.observe now) (t.setEpoch now)
  { t with entries := t.entries.keep fun k _ => k ∈ members.map Observation.key }

end ServerFlow.Signals
