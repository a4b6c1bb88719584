import ServerFlow.Lib.Machine
import ServerFlow.Signals.Tracker

/-!
# Signals.OverlayReference

The naive reference for the load overlay. An entry keeps the unbounded list of its starts and
finishes, with their times, and the overlay counts in that list. Which workers are tracked, and when
an entry is created or reset, follows the rules of the tracker; nothing is ever trimmed.
-/

namespace ServerFlow.Signals

open Resilience (Time Duration)

/-! ### Calls of a tracker -/

inductive Call
  | sync (now : Time) (members : List Observation)
  | begin (now : Time) (k : Key)
  | addCost (tok : Token) (cost : Int)
  | finish (now : Time) (tok : Token) (cost : Int)
  | overlay (now : Time) (inp : Input)

/-- What a call returns. Of an overlay: the active count, and why it is not from the history. -/
inductive Answer
  | done
  | token (tok : Token)
  | added (ok : Bool)
  | load (active : Int) (fallback : Fallback)
  deriving Repr, DecidableEq

/-- The clock reading of a call. -/
def Call.now : Call → Option Time
  | .sync now _ => some now
  | .begin now _ => some now
  | .addCost _ _ => none
  | .finish now _ _ => some now
  | .overlay now _ => some now

def Tracker.step (t : Tracker) : Call → Tracker × Answer
  | .sync now members => (t.sync now members, .done)
  | .begin now k => ((t.begin now k).1, .token (t.begin now k).2)
  | .addCost tok cost => ((t.addCost tok cost).1, .added (t.addCost tok cost).2)
  | .finish now tok cost => (t.finish now tok cost, .done)
  | .overlay now inp =>
    ((t.overlay now inp).1, .load (t.overlay now inp).2.active (t.overlay now inp).2.fallback)

/-- The clock does not go back; `last` is its last reading. -/
def Call.InOrder (last : Option Time) (c : Call) : Prop := ∀ l ∈ last, ∀ n ∈ c.now, l ≤ n

instance (last : Option Time) (c : Call) : Decidable (c.InOrder last) := by
  unfold Call.InOrder
  infer_instance

/-- The last clock reading after a call. -/
def lastReading (last : Option Time) (c : Call) (_ : Answer) : Option Time := c.now.or last

/-! ### The reference -/

/-- A start or a finish of a request. -/
structure Event where
  time : Time
  start : Bool

structure RefEntry where
  gen : Nat
  /-- When the entry was created, or its history was last reset. -/
  validFrom : Time
  lastHB : Option Time
  /-- Everything since then. -/
  events : List Event

/-- A registry that restarted reports an earlier heartbeat. -/
def RefEntry.wentBack (e : RefEntry) (o : Observation) : Bool :=
  match o.lastHeartbeat, e.lastHB with
  | some hb, some last => hb < last
  | _, _ => false

structure Reference where
  cfg : Config
  epoch : Option Time
  entries : GoMap Key RefEntry
  nextGen : Nat

def newReference (cfg : Config) : Reference := ⟨cfg.normalize, none, ∅, 0⟩

namespace Reference

variable (r : Reference)

def setEpoch (now : Time) : Reference := { r with epoch := some (r.epoch.getD now) }

/-- Buckets are counted from the first call, rounding down. -/
def bucket (x : Time) : Int := timeSub x (r.epoch.getD 0) / r.cfg.bucket

/-- The entry of a worker; a new one if there is room. -/
def entry (k : Key) (now : Time) : Reference × Option RefEntry :=
  match r.entries.lookup k with
  | some e => (r, some e)
  | none =>
    if (r.entries.len : Int) ≥ r.cfg.maxWorkers then (r, none)
    else
      let e : RefEntry := ⟨r.nextGen + 1, now, none, []⟩
      ({ r with entries := r.entries.insert k e, nextGen := r.nextGen + 1 }, some e)

/-- The entry that a token is for. -/
def holder (tok : Token) : Option RefEntry :=
  if tok.valid then (r.entries.lookup tok.key).filter fun e => e.gen = tok.gen else none

def begin (now : Time) (k : Key) : Reference × Token :=
  match (r.setEpoch now).entry k now with
  | (r, none) => (r, .zero)
  | (r, some e) =>
    ({ r with entries := r.entries.insert k { e with events := e.events ++ [⟨now, true⟩] } },
      ⟨k, e.gen⟩)

def finish (now : Time) (tok : Token) : Reference :=
  if tok.valid then
    match r.holder tok with
    | none => r.setEpoch now
    | some e =>
      let r := r.setEpoch now
      { r with entries := r.entries.insert tok.key { e with events := e.events ++ [⟨now, false⟩] } }
  else r

/-- The starts, or the finishes, of an entry in the bucket of `x` or later. -/
def countSince (e : RefEntry) (x : Time) (start : Bool) : Nat :=
  e.events.countP fun v => v.start == start && decide (r.bucket x ≤ r.bucket v.time)

/-- The effective active count, by its definition. -/
def load (now : Time) (inp : Input) : Int × Fallback :=
  let own := clampCount inp.localCount
  let reported := clampCount inp.reported
  match r.entries.lookup inp.key with
  | none => (max own reported, .untracked)
  | some e =>
    let reportedAt := min inp.reportedAt now
    if reportedAt < e.validFrom ∨
      timeSub now reportedAt > r.cfg.window then (max own reported, .history)
    else
      (clampCount (max own
        (reported + r.countSince e reportedAt true - r.countSince e reportedAt false)), .none)

def observe (now : Time) (r : Reference) (o : Observation) : Reference :=
  match r.entry o.key now with
  | (r, none) => r
  | (r, some e) =>
    let e := if e.wentBack o then { e with events := [], validFrom := now } else e
    { r with entries := r.entries.insert o.key { e with lastHB := o.lastHeartbeat } }

def sync (now : Time) (members : List Observation) : Reference :=
  let r := members.foldl (observe now) (r.setEpoch now)
  { r with entries := r.entries.keep fun k _ => k ∈ members.map Observation.key }

def step : Call → Reference × Answer
  | .sync now members => (r.sync now members, .done)
  | .begin now k => ((r.begin now k).1, .token (r.begin now k).2)
  | .addCost tok cost => (r, .added (decide (0 < cost) && (r.holder tok).isSome))
  | .finish now tok _ => (r.finish now tok, .done)
  | .overlay now inp =>
    let r := r.setEpoch now
    (r, .load (r.load now inp).1 (r.load now inp).2)

end Reference

end ServerFlow.Signals
