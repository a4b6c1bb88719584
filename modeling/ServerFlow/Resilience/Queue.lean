import ServerFlow.Lib.GoMap
import ServerFlow.Lib.Machine
import ServerFlow.Resilience.Window

/-!
# Resilience.Queue

The admission queue (`internal/resilience/queue.go`): for each model a FIFO queue of waiting
requests. A freed slot is handed to the head waiter; a waiter that was woken routes on its own,
and slots freed meanwhile are kept as credit.

Waiters are heap objects: `heap` maps an address to the waiter and `next` is the first address
that is not used yet. A waiter's channel has room for one grant (`ch`). The list element of a
waiter (`elem`) is not nil exactly while the waiter is in the list of its model, so it is not a
field. The values handed over are of any type.
-/

namespace ServerFlow.Resilience

open Function

/-- What a waiter receives. -/
inductive Grant (α : Type)
  /-- A slot: the waiter owns it and has left the queue. -/
  | handoff (value : α)
  /-- Route again; the waiter stays in place until `Done` or `Park`. -/
  | reroute
  /-- The wait ends without a slot. -/
  | flushed

structure Waiter (α : Type) where
  model : String
  tenant : String
  enqueued : Time
  ch : Option (Grant α)
  /-- A `Reroute` is out: the waiter may not receive a hand-off. -/
  woken : Bool
  /-- No longer in the queue. -/
  left : Bool

structure ModelQueue where
  waiters : List Nat
  tenants : GoMap String Int
  /-- Slots released while the head waiter was routing. -/
  credit : Nat

structure QueueParams where
  maxModelDepth : Int
  maxTenantShare : ℚ
  /-- The models that may have waiters at once; `0` means unbounded. -/
  maxModels : Int

/-- Why an `Enqueue` was refused. -/
inductive QueueError
  | noQueue
  | queueFull
  | tenantShare
  | draining

structure Queue (α : Type) where
  p : QueueParams
  heap : Nat → Waiter α
  next : Nat
  models : GoMap String ModelQueue
  closed : Bool

variable {α : Type}

def newQueue (p : QueueParams) : Queue α :=
  ⟨p, fun _ => ⟨"", "", 0, none, false, true⟩, 0, ∅, false⟩

/-- The waiters of a model, head first. -/
def Queue.waitersOf (q : Queue α) (model : String) : List Nat :=
  ((q.models.lookup model).map (·.waiters)).getD []

/-- `Busy`. -/
def Queue.busy (q : Queue α) (model : String) : Bool := q.waitersOf model ≠ []

def Queue.creditOf (q : Queue α) (model : String) : Nat :=
  ((q.models.lookup model).map (·.credit)).getD 0

/-- The most waiters one tenant may hold; `0` means no guard. -/
def QueueParams.tenantCap (p : QueueParams) : Int :=
  if p.maxTenantShare ≤ 0 ∨ p.maxTenantShare ≥ 1 then 0
  else max 1 ⌊p.maxTenantShare * p.maxModelDepth + 1 / 1000000000⌋

/-- `refuseLocked`. -/
def Queue.refuse (q : Queue α) (model tenant : String) : Option QueueError :=
  if q.closed then some .draining
  else if q.p.maxModelDepth ≤ 0 then some .noQueue
  else
    match q.models.lookup model with
    | none =>
      if q.p.maxModels > 0 ∧ (q.models.len : Int) ≥ q.p.maxModels then some .noQueue else none
    | some mq =>
      if (mq.waiters.length : Int) ≥ q.p.maxModelDepth then some .queueFull
      else if q.p.tenantCap > 0 ∧ tenant ≠ "" ∧
          (mq.tenants.lookup tenant).getD 0 ≥ q.p.tenantCap then some .tenantShare
      else none

/-- The model's queue with a waiter at its tail. -/
def ModelQueue.pushBack (mq : ModelQueue) (w : Nat) (tenant : String) : ModelQueue :=
  { mq with
    waiters := mq.waiters ++ [w]
    tenants :=
      if tenant ≠ "" then mq.tenants.insert tenant ((mq.tenants.lookup tenant).getD 0 + 1)
      else mq.tenants }

/-- `Enqueue`: the waiter at the tail, or the reason for refusing it. -/
def Queue.enqueue (q : Queue α) (model tenant : String) (now : Time) :
    Queue α × Except QueueError Nat :=
  match q.refuse model tenant with
  | some err => (q, .error err)
  | none =>
    let mq := (q.models.lookup model).getD ⟨[], ∅, 0⟩
    ({ q with
        heap := update q.heap q.next ⟨model, tenant, now, none, false, false⟩
        next := q.next + 1
        models := q.models.insert model (mq.pushBack q.next tenant) },
      .ok q.next)

/-- `send`: a pending grant that was not read yet is replaced. -/
def Waiter.send (w : Waiter α) (g : Grant α) : Waiter α := { w with ch := some g }

/-- `settle`: spend credit on the first waiters that are not routing. Each one is told to route,
through its channel or, if it is `self`, through the result. Returns the waiters, the credit
left and whether `self` routes. -/
def settle (self : Option Nat) (ws : List Nat) :
    Nat → (Nat → Waiter α) → (Nat → Waiter α) × Nat × Bool
  | 0, heap => (heap, 0, false)
  | credit + 1, heap =>
    match ws.find? fun w => !(heap w).woken with
    | none => (heap, credit + 1, false)
    | some w =>
      let woken := { heap w with woken := true }
      if self = some w then
        let r := settle self ws credit (update heap w woken)
        (r.1, r.2.1, true)
      else settle self ws credit (update heap w (woken.send .reroute))

/-- The model's queue without a waiter. -/
def ModelQueue.remove (mq : ModelQueue) (w : Nat) (tenant : String) : ModelQueue :=
  let n := (mq.tenants.lookup tenant).getD 0 - 1
  { mq with
    waiters := mq.waiters.erase w
    tenants :=
      if tenant = "" then mq.tenants
      else if n ≤ 0 then mq.tenants.erase tenant
      else mq.tenants.insert tenant n }

/-- `leaveLocked`: take a waiter out of its queue. With `settleAfter` the credit is spent on the
waiters that remain; with `giveBack` a waiter that was woken leaves its wake-up to them. -/
def Queue.leaveLocked (q : Queue α) (w : Nat) (settleAfter giveBack : Bool) : Queue α :=
  let wtr := q.heap w
  let heap := update q.heap w { wtr with left := true, woken := false }
  match q.models.lookup wtr.model with
  | none => { q with heap := heap }
  | some mq =>
    if w ∉ mq.waiters then { q with heap := heap }
    else
      let mq := mq.remove w wtr.tenant
      if mq.waiters = [] then { q with heap := heap, models := q.models.erase wtr.model }
      else if settleAfter then
        -- it was woken for a slot and never used it: somebody else may
        let credit := if giveBack && wtr.woken then mq.credit + 1 else mq.credit
        let r := settle none mq.waiters credit heap
        { q with heap := r.1, models := q.models.insert wtr.model { mq with credit := r.2.1 } }
      else { q with heap := heap, models := q.models.insert wtr.model mq }

/-- Send a grant to a waiter. -/
def Queue.send (q : Queue α) (w : Nat) (g : Grant α) : Queue α :=
  { q with heap := update q.heap w ((q.heap w).send g) }

/-- Empty a waiter's channel. -/
def Queue.drain (q : Queue α) (w : Nat) : Queue α :=
  { q with heap := update q.heap w { q.heap w with ch := none } }

/-- `Handoff`: give a value to the head waiter, unless there is none or it is routing. -/
def Queue.handoff (q : Queue α) (model : String) (value : α) : Queue α × Bool :=
  match q.models.lookup model with
  | none => (q, false)
  | some mq =>
    match mq.waiters with
    | [] => (q, false)
    | head :: _ =>
      if (q.heap head).woken then
        let r := settle none mq.waiters (mq.credit + 1) q.heap
        ({ q with heap := r.1, models := q.models.insert model { mq with credit := r.2.1 } }, false)
      else ((q.leaveLocked head false false).send head (.handoff value), true)

/-- The loop of `Wake`: ask up to `n` waiters that are not routing to route again. -/
def wakeLoop : List Nat → Nat → (Nat → Waiter α) → (Nat → Waiter α) × Nat
  | [], _, heap => (heap, 0)
  | _ :: _, 0, heap => (heap, 0)
  | w :: ws, n + 1, heap =>
    if (heap w).woken then wakeLoop ws (n + 1) heap
    else
      let r := wakeLoop ws n
        (update heap w ({ heap w with woken := true } |>.send .reroute))
      (r.1, r.2 + 1)

/-- `Wake`: returns how many waiters were asked. -/
def Queue.wake (q : Queue α) (model : String) (n : Int) : Queue α × Nat :=
  match q.models.lookup model with
  | none => (q, 0)
  | some mq =>
    let r := wakeLoop mq.waiters n.toNat q.heap
    ({ q with heap := r.1 }, r.2)

/-- `Park`: a woken waiter found every worker still full. Returns whether it must route
again. -/
def Queue.park (q : Queue α) (w : Nat) : Queue α × Bool :=
  let wtr := q.heap w
  if wtr.left then (q, false)
  else
    let heap := update q.heap w { wtr with woken := false }
    match q.models.lookup wtr.model with
    | none => ({ q with heap := heap }, false)
    | some mq =>
      let r := settle (some w) mq.waiters mq.credit heap
      ({ q with heap := r.1, models := q.models.insert wtr.model { mq with credit := r.2.1 } },
        r.2.2)

/-- `leave`: remove a waiter. A hand-off that it did not read is returned. -/
def Queue.leave (q : Queue α) (w : Nat) (giveBack : Bool) : Queue α × Option (Grant α) :=
  if !(q.heap w).left then
    let q := q.leaveLocked w true giveBack
    -- a pending `Reroute` is moot
    (q.drain w, (q.heap w).ch.filter fun g => match g with
      | .reroute => false
      | _ => true)
  else
    (q.drain w, (q.heap w).ch.filter fun g => match g with
      | .handoff _ => true
      | _ => false)

/-- The loop of `Flush` over one model's waiters. -/
def Queue.flushAll (q : Queue α) (ws : List Nat) : Queue α :=
  ws.foldl (fun q w => (q.leaveLocked w false false).send w .flushed) q

/-- `Flush`: all waiters of the model, or of all models for `""`. -/
def Queue.flush (q : Queue α) (model : String) : Queue α :=
  (q.models.keys.filter fun m => decide (model = "" ∨ m = model)).foldl
    (fun q m => q.flushAll (q.waitersOf m)) q

def Queue.close (q : Queue α) : Queue α := { q with closed := true }

end ServerFlow.Resilience
