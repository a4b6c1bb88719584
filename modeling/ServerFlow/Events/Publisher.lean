import Mathlib
import ServerFlow.Lib.Machine
import ServerFlow.Lib.Table

/-!
# Events.Publisher

The publisher of lifecycle events (`internal/events`): a bounded queue in front of a sink, shared by
the goroutines that call `Enqueue`, the drain goroutine, the sink's acknowledgements and `Close`.

They have no common lock. Every atomic operation, channel operation and counter update is one step,
and a goroutine is at a program counter between its steps. `Encode` is a parameter; what is logged
and the latency histogram are left out.
-/

namespace ServerFlow.Events

/-- Why an event was not delivered. -/
inductive Reason
  | bufferFull
  | producerFull
  | deliveryFailed
  | encode
  | shutdown
  deriving Repr, DecidableEq

/-- A call of `Enqueue`. -/
inductive EnqueuePc
  /-- Before `closed.Load`. -/
  | start
  /-- Before the `select`. -/
  | sending
  /-- Before the counter of the drop. -/
  | dropping (r : Reason)
  | done (accepted : Bool)
  deriving Repr, DecidableEq

/-- The drain goroutine; `last` once it has seen `stop`. -/
inductive DrainPc (E : Type)
  /-- At a `select`. -/
  | idle (last : Bool)
  /-- In `send`, before `Encode`. -/
  | holding (last : Bool) (ev : E)
  /-- Before `Produce`; the record is counted in flight. -/
  | producing (last : Bool)
  /-- `Produce` has failed; before the in-flight count is taken back. -/
  | refused (last : Bool) (r : Reason)
  /-- Before the counter of the drop. -/
  | dropping (last : Bool) (r : Reason)
  /-- It has closed `done`. -/
  | finished

def DrainPc.isFinished {E : Type} : DrainPc E → Bool
  | .finished => true
  | _ => false

/-- The acknowledgement of a record the sink has taken: a call of `delivered`. -/
inductive AckPc
  /-- It has not come yet, and may never come. -/
  | pending
  /-- The in-flight count is taken back; before `abandoned.Load`. -/
  | landed (ok : Bool)
  /-- Before the counter. -/
  | counting (ok : Bool)
  | done

/-- The call of `Close`. -/
inductive ClosePc
  | idle
  /-- `closed` is set; before `stop` is closed. -/
  | closing
  /-- At the `select` for `done` and the context. -/
  | waiting
  /-- In `Flush`. -/
  | flushing
  /-- Before `abandoned.Store`. -/
  | givingUp
  /-- Before `len(p.ch)`. -/
  | abandoned
  /-- Before `inflight.Load`; `n` events are buffered. -/
  | measured (n : Nat)
  /-- Before the counter of the drop. -/
  | dropping (lost : Nat)
  | returned
  deriving Repr, DecidableEq

structure Sys (E : Type) where
  /-- `BufferSize`. -/
  cap : Nat
  ch : List E
  stop : Bool
  closed : Bool
  inflight : Int
  abandoned : Bool
  published : Nat
  failures : Reason → Nat
  calls : List (E × EnqueuePc)
  drain : DrainPc E
  acks : List AckPc
  close : ClosePc

variable {E : Type}

/-- `NewPublisher`. -/
def Sys.start (bufferSize : Int) : Sys E where
  cap := if bufferSize < 1 then 1 else bufferSize.toNat
  ch := []
  stop := false
  closed := false
  inflight := 0
  abandoned := false
  published := 0
  failures := fun _ => 0
  calls := []
  drain := .idle false
  acks := []
  close := .idle

def Sys.drop (s : Sys E) (r : Reason) (n : Nat) : Sys E :=
  { s with failures := Function.update s.failures r (s.failures r + n) }

/-- The sum of the failure counters over all reasons. -/
def Sys.failed (s : Sys E) : Nat :=
  s.failures .bufferFull + s.failures .producerFull + s.failures .deliveryFailed +
    s.failures .encode + s.failures .shutdown

/-- What `Produce` returns. -/
inductive Produced
  | ok
  | full
  | error

inductive DrainAct
  | receive
  | seeStop
  /-- The buffer is empty after `stop`. -/
  | exit
  | encode
  | produce (p : Produced)
  | takeBack
  | drop

inductive Act (E : Type)
  /-- A goroutine calls `Enqueue`. -/
  | offer (ev : E)
  | enqueue (c : Nat)
  | drain (a : DrainAct)
  /-- The acknowledgement of a record arrives. -/
  | ack (i : Nat) (ok : Bool)
  | delivered (i : Nat)
  /-- The next step of `Close`. -/
  | close
  /-- The context of `Close` expires while it waits for the drain goroutine. -/
  | expire

/-! ### The goroutines -/

/-- The next step of `Enqueue`. -/
def Sys.enqueue (s : Sys E) (c : Nat) (ev : E) : EnqueuePc → Option (Sys E)
  | .start =>
    let pc := if s.closed then .dropping .shutdown else .sending
    some { s with calls := s.calls.set c (ev, pc) }
  | .sending =>
    if s.ch.length < s.cap then
      some { s with ch := s.ch ++ [ev], calls := s.calls.set c (ev, .done true) }
    else some { s with calls := s.calls.set c (ev, .dropping .bufferFull) }
  | .dropping r => some ({ s with calls := s.calls.set c (ev, .done false) }.drop r 1)
  | .done _ => none

/-- `run` and `send`. -/
def Sys.drainStep (encodes : E → Bool) (s : Sys E) : DrainAct → Option (Sys E)
  | .receive =>
    match s.drain, s.ch with
    | .idle last, ev :: ch => some { s with ch := ch, drain := .holding last ev }
    | _, _ => none
  | .seeStop =>
    match s.drain with
    | .idle false => if s.stop then some { s with drain := .idle true } else none
    | _ => none
  | .exit =>
    match s.drain, s.ch with
    | .idle true, [] => some { s with drain := .finished }
    | _, _ => none
  | .encode =>
    match s.drain with
    | .holding last ev =>
      if encodes ev then some { s with inflight := s.inflight + 1, drain := .producing last }
      else some { s with drain := .dropping last .encode }
    | _ => none
  | .produce p =>
    match s.drain, p with
    | .producing last, .ok => some { s with acks := s.acks ++ [.pending], drain := .idle last }
    | .producing last, .full => some { s with drain := .refused last .producerFull }
    | .producing last, .error => some { s with drain := .refused last .deliveryFailed }
    | _, _ => none
  | .takeBack =>
    match s.drain with
    | .refused last r => some { s with inflight := s.inflight - 1, drain := .dropping last r }
    | _ => none
  | .drop =>
    match s.drain with
    | .dropping last r => some ({ s with drain := .idle last }.drop r 1)
    | _ => none

/-- The rest of `delivered`. -/
def Sys.deliveredStep (s : Sys E) (i : Nat) : AckPc → Option (Sys E)
  | .landed ok =>
    let pc := if s.abandoned then .done else .counting ok
    some { s with acks := s.acks.set i pc }
  | .counting true =>
    some { s with acks := s.acks.set i .done, published := s.published + 1 }
  | .counting false => some ({ s with acks := s.acks.set i .done }.drop .deliveryFailed 1)
  | _ => none

def Sys.closeStep (s : Sys E) : Option (Sys E) :=
  match s.close with
  | .idle => some { s with closed := true, close := .closing }
  | .closing => some { s with stop := true, close := .waiting }
  | .waiting => if s.drain.isFinished then some { s with close := .flushing } else none
  -- `Flush` returns when everything is acknowledged or the context ends: at any time.
  | .flushing => some { s with close := .givingUp }
  | .givingUp => some { s with abandoned := true, close := .abandoned }
  | .abandoned => some { s with close := .measured s.ch.length }
  | .measured n => some { s with close := .dropping (n + (max s.inflight 0).toNat) }
  | .dropping lost =>
    some (if lost > 0 then { s with close := .returned }.drop .shutdown lost
      else { s with close := .returned })
  | .returned => none

/-- One step of one goroutine; `none` if it cannot be taken. -/
def Sys.step (encodes : E → Bool) (s : Sys E) : Act E → Option (Sys E)
  | .offer ev => some { s with calls := s.calls ++ [(ev, .start)] }
  | .enqueue c =>
    match s.calls[c]? with
    | some (ev, pc) => s.enqueue c ev pc
    | none => none
  | .drain a => s.drainStep encodes a
  | .ack i ok =>
    match s.acks[i]? with
    | some .pending =>
      some { s with inflight := s.inflight - 1, acks := s.acks.set i (.landed ok) }
    | _ => none
  | .delivered i =>
    match s.acks[i]? with
    | some pc => s.deliveredStep i pc
    | none => none
  | .close => s.closeStep
  | .expire =>
    match s.close with
    | .waiting => some { s with close := .givingUp }
    | _ => none

/-! ### When everything has ended -/

def EnqueuePc.isDone : EnqueuePc → Bool
  | .done _ => true
  | _ => false

/-- The acknowledgement has ended, or never comes. -/
def AckPc.atRest : AckPc → Bool
  | .pending => true
  | .done => true
  | _ => false

/-- `Close` has returned, and nothing that has begun is still going on. -/
def Sys.quiescent (s : Sys E) : Bool :=
  decide (s.close = .returned) && s.drain.isFinished && (s.calls.all fun c => c.2.isDone) &&
    s.acks.all AckPc.atRest

/-- Every event offered is counted once. -/
def Sys.Accounted (s : Sys E) : Prop := s.calls.length = s.published + s.failed

end ServerFlow.Events
