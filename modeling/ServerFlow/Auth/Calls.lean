import ServerFlow.Lib.Machine
import ServerFlow.Auth.Authenticator

/-!
# Auth.Calls

The goroutines of the authenticator: any number of `Authenticate` calls and the detached lookups
they start, with a clock that every reading of `now` asks.

A goroutine runs alone while it holds the lock, so a critical section is one step. Between its
sections a call is at a `Pc`, a lookup at a `Phase`, and everything else may happen. What happened
is kept in a log, the latest event first, which no step reads.
-/

namespace ServerFlow.Auth

open Resilience (Time Duration)

variable {stale : Option PosEntry}

/-! ### The system -/

/-- Where a call of `Authenticate` is. -/
inductive Pc
  /-- Before `record` reads the clock. -/
  | start
  /-- Before the lock of `record`. -/
  | checking (now : Time)
  /-- Before the lock of `fetch`, with the stale copy it can fall back on. -/
  | fetching (stale : Option PosEntry)
  /-- In `await`, before the timer is made. -/
  | arming (f : Nat) (stale : Option PosEntry)
  /-- At the `select` of `await`; `parked` once no case was ready. -/
  | waiting (f : Nat) (stale : Option PosEntry) (budget : Option Time) (parked : Bool)
  /-- It has a record, and has not checked the secret and the status. -/
  | verifying (k : KeyRecord)
  /-- Before `noteUse`. -/
  | noting (k : KeyRecord) (now : Time)
  | done (res : Except AuthErr Principal)

structure Call where
  pfx : Pfx
  hash : Hash
  /-- The clock when it was made. -/
  began : Time
  pc : Pc

/-- Where the goroutine of `lookup` is. -/
inductive Phase
  /-- In `LookupKey`, or not there yet. -/
  | asking
  | answered (ans : Answer)
  /-- It has read the clock and waits for the lock. -/
  | stamped (ans : Answer) (now : Time)
  /-- It has left the lock, and has not closed `done`. -/
  | recorded (ans : Answer)
  | closed (ans : Answer)

/-- A flight and its lookup. -/
structure Lookup where
  pfx : Pfx
  refresh : Bool
  /-- The clock when the flight was registered. -/
  started : Time
  phase : Phase

/-- The answer that is recorded in the caches. Until then the flight is in the table. -/
def Phase.told : Phase → Option Answer
  | .recorded ans => some ans
  | .closed ans => some ans
  | _ => none

/-- What is read from a flight once `done` is closed. -/
def Phase.result : Phase → Option (Except RecordErr KeyRecord)
  | .closed ans => some ans.result
  | _ => none

inductive Event
  | began (c : Nat) (pfx : Pfx)
  /-- A call has looked at the caches, where the prefix had the record `found`. -/
  | checked (c : Nat) (pfx : Pfx) (found : Option PosEntry) (now : Time)
  /-- A call that has a stale copy has found the key being refreshed. -/
  | slow (c : Nat)
  | shed (c : Nat)
  /-- A waiting call has given up: its context has ended. -/
  | ctxEnded (c : Nat)
  /-- A waiting call has given up: `RefreshWait` is over. -/
  | ranOut (c : Nat)
  | started (f : Nat) (pfx : Pfx)
  | completed (f : Nat) (pfx : Pfx) (ans : Answer)
  | succeeded (c : Nat) (pfx : Pfx) (k : KeyRecord)
  deriving DecidableEq

structure Sys where
  a : Authenticator
  clock : Time
  calls : List Call
  lookups : List Lookup
  log : List Event

def Sys.start (cfg : Config) (toucher : Bool) (clock : Time) : Sys :=
  ⟨.new cfg toucher, clock, [], [], []⟩

/-- The ready case a `select` takes. -/
inductive Choice
  | done
  | ctx
  | budget
  /-- No case is ready. -/
  | park

/-- The next step of a call. -/
inductive Move
  | read
  | check
  | fetch
  | arm
  | select (ch : Choice)
  | verify
  | note

inductive Act
  | begin (pfx : Pfx) (hash : Hash)
  | tick (t : Time)
  | call (c : Nat) (m : Move)
  /-- The store answers with what it had at the instant `asOf`. -/
  | answer (f : Nat) (ans : Answer) (asOf : Time)
  | stamp (f : Nat)
  | record (f : Nat)
  | close (f : Nat)

/-! ### What a call does -/

/-- What one step of a call does. -/
structure Effect where
  a : Authenticator
  pc : Pc
  events : List Event
  /-- The lookup it starts. -/
  spawn : Option Lookup

/-- `Authenticate` with an error of `record`. -/
def RecordErr.toAuth : RecordErr → AuthErr
  | .notFound => .invalid
  | .badRecord => .badRecord
  | .unavailable why => .unavailable why

/-- `Authenticate` with the answer of `record`. -/
def Pc.ofRecord : Except RecordErr KeyRecord → Pc
  | .ok k => .verifying k
  | .error err => .done (.error err.toAuth)

/-- The end of `record`: a store that is down or too busy leaves the stale copy. -/
def settle (stale : Option PosEntry) : Except RecordErr KeyRecord → Pc
  | .error (.unavailable why) =>
    match stale with
    | some e => .verifying e.record
    | none => .ofRecord (.error (.unavailable why))
  | res => .ofRecord res

/-- The first section of `record`. -/
def Sys.check (s : Sys) (c : Nat) (call : Call) (now : Time) : Effect :=
  let (a, out) := s.a.cachedLocked call.pfx now
  let pc := match out with
    | .hit res => .ofRecord res
    | .stale e =>
      if s.a.down now then settle (some e) (.error (.unavailable .down)) else .fetching (some e)
    | .miss => if s.a.down now then settle none (.error (.unavailable .down)) else .fetching none
  ⟨a, pc, [.checked c call.pfx (s.a.pos.lookup call.pfx) now], none⟩

/-- The section of `fetch`, which reads the clock under the lock. -/
def Sys.fetch (s : Sys) (c : Nat) (call : Call) (stale : Option PosEntry) : Effect :=
  let f := s.lookups.length
  let look := Event.checked c call.pfx (s.a.pos.lookup call.pfx) s.clock
  match s.a.fetch call.pfx stale.isSome s.clock f with
  | (a, .hit res) => ⟨a, settle stale res, [look], none⟩
  | (a, .slow) => ⟨a, settle stale (.error (.unavailable .slowRefresh)), [.slow c, look], none⟩
  | (a, .join f') => ⟨a, .arming f' stale, [look], none⟩
  | (a, .shed) => ⟨a, settle stale (.error (.unavailable .shed)), [.shed c, look], none⟩
  | (a, .start) =>
    ⟨a, .arming f stale, [.started f call.pfx, look],
      some ⟨call.pfx, stale.isSome, s.clock, .asking⟩⟩

/-- `done` of the flight `f` is closed, with this result. -/
def Sys.result (s : Sys) (f : Nat) : Option (Except RecordErr KeyRecord) :=
  s.lookups[f]?.bind fun l => l.phase.result

/-- The `select` of `await`. Any ready case may be taken; a call that is parked is woken by the
first to become ready, so for it the flight comes first once it is closed. -/
def Sys.select (s : Sys) (c : Nat) (f : Nat) (stale : Option PosEntry) (budget : Option Time)
    (parked : Bool) : Choice → Option Effect
  | .done => (s.result f).map fun res => ⟨s.a, settle stale res, [], none⟩
  | .ctx =>
    if parked = true ∧ (s.result f).isSome then none
    else some ⟨s.a, settle stale (.error (.unavailable .ctx)), [.ctxEnded c], none⟩
  | .budget =>
    if (parked = true ∧ (s.result f).isSome) ∨ (budget.any fun t => decide (t ≤ s.clock)) = false
    then none
    else some ⟨s.a, settle stale (.error (.unavailable .slowRefresh)), [.ranOut c], none⟩
  | .park =>
    if parked = true ∨ (s.result f).isSome ∨ (budget.any fun t => decide (t ≤ s.clock)) = true
    then none
    else some ⟨s.a, .waiting f stale budget true, [], none⟩

/-- One step of a call; `none` if the move is not the one it is at. -/
def Sys.effect (s : Sys) (c : Nat) (call : Call) (m : Move) : Option Effect :=
  match m, call.pc with
  | .read, .start => some ⟨s.a, .checking s.clock, [], none⟩
  | .check, .checking now => some (s.check c call now)
  | .fetch, .fetching stale => some (s.fetch c call stale)
  | .arm, .arming f stale =>
    -- Only a caller that has a stale copy makes a timer.
    some ⟨s.a, .waiting f stale (stale.map fun _ => s.clock + s.a.cfg.refreshWait) false, [], none⟩
  | .select ch, .waiting f stale budget parked => s.select c f stale budget parked ch
  | .verify, .verifying k =>
    match k.verify call.hash s.clock with
    | .error err => some ⟨s.a, .done (.error err), [], none⟩
    | .ok () => some ⟨s.a, .noting k s.clock, [], none⟩
  | .note, .noting k now =>
    some ⟨s.a.noteUse call.pfx now, .done (.ok k.principal), [.succeeded c call.pfx k], none⟩
  | _, _ => none

def Sys.apply (s : Sys) (c : Nat) (call : Call) (e : Effect) : Sys :=
  { s with
    a := e.a
    calls := s.calls.set c { call with pc := e.pc }
    lookups := s.lookups ++ e.spawn.toList
    log := e.events ++ s.log }

/-! ### The steps -/

/-- One step of one goroutine, or of the clock; `none` if there is no such step. -/
def Sys.step (s : Sys) : Act → Option Sys
  | .begin pfx hash =>
    some { s with
      calls := s.calls ++ [⟨pfx, hash, s.clock, .start⟩]
      log := .began s.calls.length pfx :: s.log }
  | .tick t => some { s with clock := t }
  | .call c m =>
    match s.calls[c]? with
    | none => none
    | some call => (s.effect c call m).map (s.apply c call)
  | .answer f ans _ =>
    match s.lookups[f]? with
    | some ⟨pfx, refresh, started, .asking⟩ =>
      some { s with lookups := s.lookups.set f ⟨pfx, refresh, started, .answered ans⟩ }
    | _ => none
  | .stamp f =>
    match s.lookups[f]? with
    | some ⟨pfx, refresh, started, .answered ans⟩ =>
      some { s with lookups := s.lookups.set f ⟨pfx, refresh, started, .stamped ans s.clock⟩ }
    | _ => none
  | .record f =>
    match s.lookups[f]? with
    | some ⟨pfx, refresh, started, .stamped ans now⟩ =>
      some { s with
        a := s.a.finishLookup pfx refresh ans now
        lookups := s.lookups.set f ⟨pfx, refresh, started, .recorded ans⟩
        log := .completed f pfx ans :: s.log }
    | _ => none
  | .close f =>
    match s.lookups[f]? with
    | some ⟨pfx, refresh, started, .recorded ans⟩ =>
      some { s with lookups := s.lookups.set f ⟨pfx, refresh, started, .closed ans⟩ }
    | _ => none

/-! ### What one step of a call can do -/

/-- The event tells of a look at the caches or of how a call ended. -/
def Event.isNote : Event → Bool
  | .began _ _ => false
  | .started _ _ => false
  | .completed _ _ _ => false
  | _ => true

/-- The step starts the lookup of the prefix, which has no flight. -/
def Effect.Starts (s : Sys) (c : Nat) (call : Call) (e : Effect) : Prop :=
  ∃ stale b, call.pc = .fetching stale ∧ s.a.flights.lookup call.pfx = none ∧ Quiet s.a b ∧
    e.a.flights = b.flights.insert call.pfx s.lookups.length ∧ e.a.pos = b.pos ∧ e.a.neg = b.neg ∧
    e.a.cfg = b.cfg ∧ e.a.downUntil = b.downUntil ∧ e.pc = .arming s.lookups.length stale ∧
    e.events = [.started s.lookups.length call.pfx,
      .checked c call.pfx (s.a.pos.lookup call.pfx) s.clock] ∧
    e.spawn = some ⟨call.pfx, stale.isSome, s.clock, .asking⟩

/-- The step starts no lookup and adds nothing to the caches. -/
structure Effect.Plain (s : Sys) (e : Effect) : Prop where
  spawn : e.spawn = none
  quiet : Quiet s.a e.a
  notes : ∀ ev ∈ e.events, ev.isNote = true

theorem check_plain (s : Sys) (c : Nat) (call : Call) (now : Time) : (s.check c call now).Plain s :=
  ⟨rfl, cachedLocked_quiet s.a call.pfx now, by simp [Sys.check, Event.isNote]⟩

theorem fetch_cases (s : Sys) (c : Nat) (call : Call) (hpc : call.pc = .fetching stale) :
    (s.fetch c call stale).Plain s ∨ (s.fetch c call stale).Starts s c call := by
  have hok := fetch_ok s.a call.pfx stale.isSome s.clock s.lookups.length
  rcases hout : s.a.fetch call.pfx stale.isSome s.clock s.lookups.length with ⟨a, out⟩
  rw [hout] at hok
  simp only [Sys.fetch, hout]
  cases out with
  | hit res => exact .inl ⟨rfl, hok.1, by simp [Event.isNote]⟩
  | slow => exact .inl ⟨rfl, hok.1, by simp [Event.isNote]⟩
  | join f' => exact .inl ⟨rfl, hok.1, by simp [Event.isNote]⟩
  | shed => exact .inl ⟨rfl, hok, by simp [Event.isNote]⟩
  | start =>
    obtain ⟨hf, b, hq, rfl⟩ := hok
    exact .inr ⟨stale, b, hpc, hf, hq, rfl, rfl, rfl, rfl, rfl, rfl, rfl, rfl⟩

theorem select_plain {s : Sys} {c f : Nat} {budget : Option Time} {parked : Bool} {ch : Choice}
    {e : Effect} (h : s.select c f stale budget parked ch = some e) : e.Plain s := by
  revert h
  fun_cases Sys.select s c f stale budget parked ch <;> intro h <;> try with_reducible cases h
  next =>
    obtain ⟨res, -, rfl⟩ := Option.map_eq_some_iff.mp h
    exact ⟨rfl, .refl _, by simp⟩
  all_goals exact ⟨rfl, .refl _, by simp [Event.isNote]⟩

theorem effect_cases {s : Sys} {c : Nat} {call : Call} {m : Move} {e : Effect}
    (h : s.effect c call m = some e) : e.Plain s ∨ e.Starts s c call := by
  revert h
  fun_cases Sys.effect s c call m <;> intro h <;> try with_reducible cases h
  next => exact .inl ⟨rfl, .refl _, by simp⟩
  next => exact .inl (check_plain s c call _)
  next hpc => exact fetch_cases s c call hpc
  next => exact .inl ⟨rfl, .refl _, by simp⟩
  next => exact .inl (select_plain h)
  next => exact .inl ⟨rfl, .refl _, by simp⟩
  next => exact .inl ⟨rfl, .refl _, by simp⟩
  next => exact .inl ⟨rfl, noteUse_quiet s.a call.pfx _, by simp [Event.isNote]⟩

end ServerFlow.Auth
