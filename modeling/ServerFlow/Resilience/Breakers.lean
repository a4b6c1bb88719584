import ServerFlow.Resilience.Breaker

/-!
# Resilience.Breakers

The set of circuit breakers of a gateway (`internal/resilience/breakers.go`), one for each
worker registration, with the per-model cap on how many of them may be ejected.

Every operation reads the clock once; the reading is an argument. So is the order in which a
loop visits a Go map, where it can be observed. An operation returns the changes it delivers
to the hook. Jitter comes from a fixed sequence of draws.
-/

namespace ServerFlow.Resilience

/-- One worker of the registry view, as reported to `Sync`. -/
structure Member where
  key : Key
  model : String
  eligible : Bool

/-- The right to send one attempt to a worker. -/
structure Ticket where
  key : Key
  id : Nat
  epoch : Nat
  probe : Bool
  valid : Bool
  deriving Repr, DecidableEq

/-- The zero `Ticket`. -/
def Ticket.zero : Ticket := ⟨⟨"", 0⟩, 0, 0, false, false⟩

/-- One breaker that is not closed. -/
structure Info where
  key : Key
  state : State
  eligible : Bool
  openUntil : Time
  level : Nat
  probes : Nat
  deriving Repr, DecidableEq

structure Breakers where
  p : BreakerParams
  /-- The jitter draws. -/
  rnd : Nat → ℚ
  /-- How many draws were taken. -/
  draws : Nat
  byID : GoMap String Breaker
  /-- Eligible workers, all models. -/
  eligible : Int
  /-- Eligible workers for each model: the ejection cap's denominator. -/
  eligibleBy : GoMap String Int
  /-- Trips the ejection cap has held back. -/
  suppressed : Nat

/-- `NewBreakers`. -/
def Breakers.new (p : BreakerParams) (rnd : Nat → ℚ) : Breakers := ⟨p.normalize, rnd, 0, ∅, 0, ∅, 0⟩

/-- `lookup`: the breaker of a registration. -/
def Breakers.find (bs : Breakers) (k : Key) : Option Breaker :=
  (bs.byID.lookup k.id).filter fun b => decide (b.key = k)

/-- Store a breaker under a worker ID. -/
def Breakers.set (bs : Breakers) (id : String) (b : Breaker) : Breakers :=
  { bs with byID := bs.byID.insert id b }

/-! ### The ejection cap -/

/-- The breaker is in the ejection-cap group of `model`. -/
def Breaker.inGroup (model : String) (b : Breaker) : Bool := b.eligible && decide (b.model = model)

/-- The breaker takes room under the cap of `model`. -/
def Breaker.ejected (model : String) (b : Breaker) : Bool :=
  b.inGroup model && decide (b.state ≠ .closed)

/-- `MaxOpen`: the most breakers that may be open or half-open among `eligible` workers. -/
def maxOpen (fraction : ℚ) (eligible : Int) : Int :=
  if fraction ≤ 0 ∨ eligible ≤ 0 then 0
  else if fraction ≥ 1 then eligible
  else ⌊fraction * eligible + 1 / 1000000000⌋

/-- The number of eligible workers of a model at the last recount. -/
def Breakers.eligibleOf (bs : Breakers) (model : String) : Int :=
  (bs.eligibleBy.lookup model).getD 0

/-- How many eligible breakers of the model are open or half-open. -/
def Breakers.openCount (bs : Breakers) (model : String) : Nat := bs.byID.count (·.ejected model)

/-- `roomToOpen`: the ejection cap lets this breaker open. -/
def Breakers.roomToOpen (bs : Breakers) (b : Breaker) : Bool :=
  !b.eligible ||
    decide ((bs.openCount b.model : Int) < maxOpen bs.p.maxOpenFraction (bs.eligibleOf b.model))

/-- The loop of `recountEligible`. -/
def countEligible (m : GoMap String Int) (b : Breaker) : GoMap String Int :=
  if b.eligible then m.insert b.model ((m.lookup b.model).getD 0 + 1) else m

def Breakers.recountEligible (bs : Breakers) : Breakers :=
  { bs with
    eligible := bs.byID.count (·.eligible)
    eligibleBy := bs.byID.vals.foldl countEligible ∅ }

/-- `b` was ejected more recently than `victim` (ties: the larger worker ID). -/
def Breaker.moreRecent (b victim : Breaker) : Bool :=
  decide (b.ejectedAt > victim.ejectedAt) ||
    decide (b.ejectedAt = victim.ejectedAt ∧ victim.key.id < b.key.id)

/-- One round of the inner loop of `enforceCap`. -/
def pickVictim (model : String) (v : Option (String × Breaker)) (e : Σ _ : String, Breaker) :
    Option (String × Breaker) :=
  if e.2.ejected model then
    match v with
    | none => some (e.1, e.2)
    | some v => if e.2.moreRecent v.2 then some (e.1, e.2) else some v
  else v

/-- The most recently ejected breaker of the model. IDs are distinct, so the order in which
the loop visits the map does not matter. -/
def Breakers.victim (bs : Breakers) (model : String) : Option (String × Breaker) :=
  bs.byID.entries.foldl (pickVictim model) none

/-- The loop of `enforceCap` for one model: close the victim while too many are ejected. Each
round closes one, so as many rounds as there are breakers suffice. -/
def Breakers.relax (now : Time) (model : String) (limit : Int) :
    Nat → Breakers → List Change → Breakers × List Change
  | 0, bs, chs => (bs, chs)
  | fuel + 1, bs, chs =>
    match bs.victim model with
    | none => (bs, chs)
    | some (id, b) =>
      if (bs.openCount model : Int) ≤ limit then (bs, chs)
      else relax now model limit fuel (bs.set id (b.close now))
        (chs ++ [Change.plain b.key b.state .closed .capRelaxed 0])

/-- One model's turn in `enforceCap`. -/
def Breakers.relaxModel (now : Time) (s : Breakers × List Change) (model : String) :
    Breakers × List Change :=
  s.1.relax now model (maxOpen s.1.p.maxOpenFraction (s.1.eligibleOf model)) s.1.byID.len s.2

/-- `enforceCap`: close breakers until the ejected ones of every model are within the cap. -/
def Breakers.enforceCap (bs : Breakers) (now : Time) (order : List String) :
    Breakers × List Change :=
  (bs.eligibleBy.rangeKeys order).foldl (Breakers.relaxModel now) (bs, [])

/-! ### The registry view -/

/-- The loop of `Sync`: a member with a new registration starts closed. -/
def Breakers.syncMember (bs : Breakers) (m : Member) : Breakers :=
  let b := (bs.find m.key).getD (newBreaker m.key bs.p)
  bs.set m.key.id { b with eligible := m.eligible, model := m.model }

/-- The worker IDs of a registry view. -/
def memberIDs (members : List Member) : List String := members.map fun m => m.key.id

/-- `Sync`. -/
def Breakers.sync (bs : Breakers) (now : Time) (order : List String) (members : List Member) :
    Breakers × List Change :=
  let bs := members.foldl Breakers.syncMember bs
  let bs := { bs with byID := bs.byID.keep fun id _ => decide (id ∈ memberIDs members) }
  bs.recountEligible.enforceCap now order

/-- `Prune`. -/
def Breakers.prune (bs : Breakers) (now : Time) (order : List String) (keep : List Key) :
    Breakers × List Change :=
  let bs := { bs with byID := bs.byID.keep fun _ b => decide (b.key ∈ keep) }
  bs.recountEligible.enforceCap now order

/-! ### Operations on one breaker -/

/-- What an operation answers. -/
inductive BreakersReply
  | done
  | admissible (ok : Bool)
  | ticket (t : Ticket) (ok : Bool)
  | state (s : State)
  | infos (is : List Info)
  | counts (eligible opened halfOpen : Int)
  | retryAfter (secs : Int)
  deriving Repr, DecidableEq

/-- What an operation does to the breaker it found: the breaker it leaves, its answer, its
changes, and how many jitter draws and suppressed trips it adds. -/
structure Acted where
  b : Breaker
  reply : BreakersReply
  changes : List Change
  draws : Nat
  suppressed : Nat

/-- The operation leaves the breaker alone, but for a new value. -/
def Acted.quiet (b : Breaker) (reply : BreakersReply) : Acted := ⟨b, reply, [], 0, 0⟩

/-- Look a breaker up, apply its lazy transitions, and act on it. -/
def Breakers.onBreaker (bs : Breakers) (k : Key) (now : Time) (missing : BreakersReply)
    (act : Breakers → Breaker → Acted) : Breakers × BreakersReply × List Change :=
  match bs.find k with
  | none => (bs, missing, [])
  | some b =>
    let adv := b.advance now bs.p
    let r := act (bs.set k.id adv.1) adv.1
    ({ bs.set k.id r.b with draws := bs.draws + r.draws, suppressed := bs.suppressed + r.suppressed },
      r.reply, adv.2 ++ r.changes)

/-- `Admissible`. -/
def admissibleAct (bs : Breakers) (b : Breaker) : Acted :=
  .quiet b (.admissible (decide (b.state = .closed) || b.probeFree bs.p))

/-- `Acquire`. -/
def acquireAct (k : Key) (now : Time) (bs : Breakers) (b : Breaker) : Acted :=
  match b.state with
  | .closed => .quiet b (.ticket ⟨k, 0, b.epoch, false, true⟩ true)
  | .halfOpen =>
    if b.probeFree bs.p then
      .quiet { b with nextID := b.nextID + 1, tickets := b.tickets.insert (b.nextID + 1) now }
        (.ticket ⟨k, b.nextID + 1, b.epoch, true, true⟩ true)
    else .quiet b (.ticket Ticket.zero false)
  | .open => .quiet b (.ticket Ticket.zero false)

/-- `State`. -/
def stateAct (_ : Breakers) (b : Breaker) : Acted := .quiet b (.state b.state)

/-- A failed probe: open again, with a longer cool-down. -/
def probeFailed (now : Time) (bs : Breakers) (b : Breaker) : Acted :=
  let b' := b.openNow now true bs.p (bs.rnd bs.draws)
  ⟨b', .done, [Change.plain b.key .halfOpen .open .probeFailed b'.coolDown], 1, 0⟩

/-- The rest of `countClosed`: trip the breaker if a rule asked for it and the cap has room.
Counting changes no state and no eligibility, so the room is the one before. -/
def tripped (now : Time) (bs : Breakers) (b : Breaker) : Option (Reason × Int) → Acted
  | none => .quiet { b with suppressed := false } .done
  | some (reason, failures) =>
    if bs.roomToOpen b then
      let b' := b.openNow now false bs.p (bs.rnd bs.draws)
      ⟨b', .done, [⟨b.key, .closed, .open, reason, failures, b'.coolDown, false⟩], 1, 0⟩
    else if b.suppressed then .quiet b .done
    else
      ⟨{ b with suppressed := true }, .done,
        [⟨b.key, .closed, .closed, .suppressed, failures, 0, true⟩], 0, 1⟩

/-- `countClosed`: count an outcome of a closed breaker. -/
def countClosed (now : Time) (v : Verdict) (bs : Breakers) (b : Breaker) : Acted :=
  if b.state ≠ .closed ∨ v = .neutral then .quiet b .done
  else
    let r := b.recordClosed now v bs.p
    tripped now bs r.1 r.2

/-- A successful probe, counted towards closing. -/
def probePassed (now : Time) (bs : Breakers) (b : Breaker) : Acted :=
  let b := { b with successes := b.successes + 1 }
  if b.successes ≥ bs.p.probeSuccesses then
    ⟨b.close now, .done, [Change.plain b.key .halfOpen .closed .probesPassed 0], 0, 0⟩
  else .quiet b .done

/-- `recordLocked`. -/
def recordAct (t : Ticket) (v : Verdict) (now : Time) (bs : Breakers) (b : Breaker) : Acted :=
  if t.probe then
    if b.state ≠ .halfOpen ∨ b.epoch ≠ t.epoch ∨ b.tickets.lookup t.id = none then .quiet b .done
    else
      let b := { b with tickets := b.tickets.erase t.id }
      match v with
      | .ok => probePassed now bs b
      | .fault => probeFailed now bs b
      | .ratioFault => probeFailed now bs b
      | .neutral => .quiet b .done
  else if b.epoch ≠ t.epoch then .quiet b .done
  else countClosed now v bs b

/-- `RecordLate`, for a fault. -/
def lateAct (t : Ticket) (v : Verdict) (now : Time) (bs : Breakers) (b : Breaker) : Acted :=
  if b.epoch ≠ t.epoch then .quiet b .done
  else if t.probe && decide (b.state = .halfOpen) then probeFailed now bs b
  else countClosed now v bs b

/-- `RecordAbort`, for a ticket that is not a probe. -/
def abortAct (t : Ticket) (okAt now : Time) (bs : Breakers) (b : Breaker) : Acted :=
  if b.epoch ≠ t.epoch ∨ b.state ≠ .closed then .quiet b .done
  else countClosed now .fault bs { b with win := b.win.add okAt now .all (-1) }

/-- `Release`. It applies no lazy transition. -/
def Breakers.release (bs : Breakers) (t : Ticket) : Breakers :=
  if !t.probe then bs
  else
    match bs.find t.key with
    | none => bs
    | some b =>
      if b.state = .halfOpen ∧ b.epoch = t.epoch then
        bs.set t.key.id { b with tickets := b.tickets.erase t.id }
      else bs

/-! ### Operations on all breakers -/

/-- `advanceLocked` of the breaker under a worker ID. -/
def Breakers.advanceID (bs : Breakers) (now : Time) (id : String) : Breakers × List Change :=
  match bs.byID.lookup id with
  | none => (bs, [])
  | some b => (bs.set id (b.advance now bs.p).1, (b.advance now bs.p).2)

/-- Apply the lazy transitions of all breakers, in the order given. -/
def Breakers.advanceAll (now : Time) : List String → Breakers → Breakers × List Change
  | [], bs => (bs, [])
  | id :: ids, bs =>
    let r := bs.advanceID now id
    let rest := Breakers.advanceAll now ids r.1
    (rest.1, r.2 ++ rest.2)

/-- What `Snapshot` lists of a breaker. -/
def Breaker.info (b : Breaker) : Option Info :=
  if b.state = .closed then none
  else some ⟨b.key, b.state, b.eligible, b.openUntil, b.level, b.tickets.len⟩

/-- `Snapshot`. -/
def Breakers.snapshot (bs : Breakers) (now : Time) (order : List String) :
    Breakers × BreakersReply × List Change :=
  let ids := bs.byID.rangeKeys order
  let r := Breakers.advanceAll now ids bs
  (r.1, .infos (ids.filterMap fun id => (r.1.byID.lookup id).bind Breaker.info), r.2)

/-- `Counts`. -/
def Breakers.counts (bs : Breakers) (now : Time) (order : List String) :
    Breakers × BreakersReply × List Change :=
  let r := Breakers.advanceAll now (bs.byID.rangeKeys order) bs
  (r.1, .counts r.1.eligible
    (r.1.byID.count fun b => b.eligible && decide (b.state = .open))
    (r.1.byID.count fun b => b.eligible && decide (b.state = .halfOpen)), r.2)

/-- The time until an eligible breaker becomes half-open, into the earliest so far (negative
for none). -/
def Breaker.earlier (b : Breaker) (now : Time) (earliest : Duration) : Duration :=
  match b.state with
  | .halfOpen => 0
  | .open => if earliest < 0 ∨ b.openUntil - now < earliest then b.openUntil - now else earliest
  | .closed => earliest

/-- The loop of `RetryAfter`. It stops at a breaker that makes the wait `0`, and the breakers
after it are not looked at. -/
def Breakers.retryLoop (now : Time) :
    List String → Breakers → Duration → Breakers × Duration × List Change
  | [], bs, earliest => (bs, earliest, [])
  | id :: ids, bs, earliest =>
    let r := bs.advanceID now id
    let skip := Breakers.retryLoop now ids r.1 earliest
    match r.1.byID.lookup id with
    | none => (skip.1, skip.2.1, r.2 ++ skip.2.2)
    | some b =>
      if !b.eligible then (skip.1, skip.2.1, r.2 ++ skip.2.2)
      else if b.earlier now earliest = 0 then (r.1, 0, r.2)
      else
        let rest := Breakers.retryLoop now ids r.1 (b.earlier now earliest)
        (rest.1, rest.2.1, r.2 ++ rest.2.2)

/-- `RetryAfter`: whole seconds, clamped to 1-30. -/
def Breakers.retryAfter (bs : Breakers) (now : Time) (order : List String) :
    Breakers × BreakersReply × List Change :=
  let r := Breakers.retryLoop now (bs.byID.rangeKeys order) bs (-1)
  (r.1, .retryAfter (min (max ⌈(r.2.1 : ℚ) / second⌉ 1) 30), r.2.2)

/-! ### Runs -/

inductive BreakersOp
  | sync (members : List Member)
  | prune (keep : List Key)
  | admissible (k : Key)
  | acquire (k : Key)
  | record (t : Ticket) (v : Verdict)
  | recordLate (t : Ticket) (v : Verdict)
  | recordAbort (t : Ticket) (okAt : Time)
  | release (t : Ticket)
  | state (k : Key)
  | snapshot
  | counts
  | retryAfter

/-- An operation with the clock reading it makes and the order its loops visit maps in. -/
structure BreakersCall where
  now : Time
  order : List String
  op : BreakersOp

/-- `RecordLate`. -/
def Breakers.recordLate (bs : Breakers) (now : Time) (t : Ticket) (v : Verdict) :
    Breakers × BreakersReply × List Change :=
  if !t.valid || (decide (v ≠ .fault) && decide (v ≠ .ratioFault)) then (bs, .done, [])
  else bs.onBreaker t.key now .done (lateAct t v now)

/-- One operation: the set after it, its answer and the changes it delivers. -/
def Breakers.step (bs : Breakers) (c : BreakersCall) : Breakers × BreakersReply × List Change :=
  match c.op with
  | .sync members => ((bs.sync c.now c.order members).1, .done, (bs.sync c.now c.order members).2)
  | .prune keep => ((bs.prune c.now c.order keep).1, .done, (bs.prune c.now c.order keep).2)
  | .admissible k => bs.onBreaker k c.now (.admissible true) admissibleAct
  | .acquire k => bs.onBreaker k c.now (.ticket ⟨k, 0, 0, false, true⟩ true) (acquireAct k c.now)
  | .record t v =>
    if !t.valid then (bs, .done, []) else bs.onBreaker t.key c.now .done (recordAct t v c.now)
  | .recordLate t v => bs.recordLate c.now t v
  | .recordAbort t okAt =>
    if !t.valid then (bs, .done, [])
    else if t.probe then bs.recordLate c.now t .fault
    else bs.onBreaker t.key c.now .done (abortAct t okAt c.now)
  | .release t => (bs.release t, .done, [])
  | .state k => bs.onBreaker k c.now (.state .closed) stateAct
  | .snapshot => bs.snapshot c.now c.order
  | .counts => bs.counts c.now c.order
  | .retryAfter => bs.retryAfter c.now c.order

end ServerFlow.Resilience
