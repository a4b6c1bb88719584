import ServerFlow.Resilience.Breakers

/-!
# Resilience.Reference

The breaker rules restated in the most naive way (`refModel` of
`internal/resilience/breaker_model_test.go`): every outcome is kept in a list and the list is
rescanned at every decision, with no ring buffers, buckets or cached counters.

Three things go beyond the test. The ejection cap is applied to each model by itself. Every
operation looks a worker up by its registration. And the changes carry the counts and the
cool-downs that the hook is given, so that whole changes can be compared.
-/

namespace ServerFlow.Resilience

/-- One outcome of a closed breaker. -/
structure RefEvent where
  t : Time
  v : Verdict
  /-- An OK that a later stream abort turned into a fault: it still ends a streak of faults but
  no longer counts in the ratio window. -/
  converted : Bool

structure RefBreaker where
  key : Key
  model : String
  eligible : Bool
  state : State
  /-- Every outcome since the breaker was last closed, oldest first. -/
  events : List RefEvent
  level : Nat
  everOpened : Bool
  closedAt : Time
  ejectedAt : Time
  openUntil : Time
  coolDown : Duration
  epoch : Nat
  nextID : Nat
  tickets : GoMap Nat Time
  successes : Int
  suppressed : Bool

structure RefModel where
  p : BreakerParams
  br : GoMap String RefBreaker
  rnd : Nat → ℚ
  draws : Nat

def RefModel.new (p : BreakerParams) (rnd : Nat → ℚ) : RefModel := ⟨p.normalize, ∅, rnd, 0⟩

def newRefBreaker (k : Key) : RefBreaker where
  key := k
  model := ""
  eligible := false
  state := .closed
  events := []
  level := 0
  everOpened := false
  closedAt := zeroTime
  ejectedAt := zeroTime
  openUntil := zeroTime
  coolDown := 0
  epoch := 0
  nextID := 0
  tickets := ∅
  successes := 0
  suppressed := false

/-! ### The rules -/

def BreakerParams.ticketBackstopRef (p : BreakerParams) : Duration :=
  let a := 2 * p.coolDown
  let b := p.headerTimeout + 5 * second
  if a > b then a else b

def RefBreaker.advance (b : RefBreaker) (now : Time) (p : BreakerParams) :
    RefBreaker × List Change :=
  let r : RefBreaker × List Change :=
    if b.state = .open ∧ now ≥ b.openUntil then
      ({ b with state := .halfOpen, successes := 0, tickets := ∅ },
        [Change.plain b.key .open .halfOpen .coolDown b.coolDown])
    else (b, [])
  if r.1.state = .halfOpen then
    ({ r.1 with tickets := r.1.tickets.keep fun _ at_ => decide (now - at_ ≤ p.ticketBackstopRef) },
      r.2)
  else r

/-- The loop of `coolDownFor`: double, then compare. -/
def doubledUpTo (cap : Duration) : Nat → Duration → Duration
  | 0, d => if d > cap then cap else d
  | level + 1, d => if d * 2 ≥ cap then cap else doubledUpTo cap level (d * 2)

def BreakerParams.coolDownFor (p : BreakerParams) (level : Nat) : Duration :=
  doubledUpTo p.maxCoolDown level p.coolDown

/-- The loop of `topLevel`, bounded by `fuel`. -/
def BreakerParams.topLevelFrom (p : BreakerParams) : Nat → Nat → Nat
  | 0, l => l
  | fuel + 1, l => if p.coolDownFor l < p.maxCoolDown then p.topLevelFrom fuel (l + 1) else l

def BreakerParams.topLevel (p : BreakerParams) : Nat :=
  p.topLevelFrom (p.maxCoolDown.toNat.log2 + 1) 0

/-- `open`, with the jitter draw `r`. -/
def RefBreaker.openNow (b : RefBreaker) (now : Time) (probeFailed : Bool) (p : BreakerParams)
    (r : ℚ) : RefBreaker :=
  let level :=
    if probeFailed then if b.level < p.topLevel then b.level + 1 else b.level
    else if b.everOpened = false ∨ now - b.closedAt ≥ p.maxCoolDown then 0
    else b.level
  let d := truncate (p.coolDownFor level * (1 + 1 / 5 * (2 * r - 1)))
  let d := if d < 1 then 1 else d
  let d := if d > p.maxCoolDown then p.maxCoolDown else d
  { b with
    level := level
    everOpened := true
    ejectedAt := if probeFailed then b.ejectedAt else now
    state := .open
    openUntil := now + d
    coolDown := d
    epoch := b.epoch + 1
    tickets := ∅
    successes := 0
    suppressed := false }

def RefBreaker.close (b : RefBreaker) (now : Time) : RefBreaker :=
  { b with
    state := .closed
    closedAt := now
    events := []
    tickets := ∅
    successes := 0
    suppressed := false }

/-- The times of the faults since the last OK, newest first. -/
def faultsSinceOK (events : List RefEvent) : List Time :=
  ((events.reverse.takeWhile fun e => decide (e.v ≠ .ok)).filter fun e =>
    decide (e.v = .fault)).map (·.t)

/-- The last `ConsecutiveFailures` faults since the last OK are all within the window. -/
def RefBreaker.consecutive (b : RefBreaker) (now : Time) (p : BreakerParams) : Bool :=
  decide (((faultsSinceOK b.events).length : Int) ≥ p.consecutiveFailures) &&
    ((faultsSinceOK b.events)[(p.consecutiveFailures - 1).toNat]?).any fun oldest =>
      decide (now - oldest ≤ p.window)

/-- The event is in the ratio window. -/
def RefEvent.inWindow (e : RefEvent) (now : Time) (p : BreakerParams) : Bool :=
  !e.converted &&
    decide (e.t.tdiv second > now.tdiv second - (p.window + second - 1).tdiv second)

def RefEvent.isFault (e : RefEvent) : Bool := decide (e.v = .fault) || decide (e.v = .ratioFault)

/-- The reason to trip, with the faults counted by the rule. -/
def RefBreaker.tripReason (b : RefBreaker) (now : Time) (v : Verdict) (p : BreakerParams) :
    Option (Reason × Int) :=
  let total : Int := b.events.countP (·.inWindow now p)
  let faults : Int := b.events.countP fun e => e.inWindow now p && e.isFault
  if v ≠ .ok ∧ b.consecutive now p = true then some (.consecutive, p.consecutiveFailures)
  else if p.failureRatio > 0 ∧ total ≥ p.minVolume ∧ (faults : ℚ) ≥ p.failureRatio * total then
    some (.ratio, faults)
  else none

/-- Convert the first OK recorded at `okAt` that is not converted yet. -/
def convertOK (okAt : Time) : List RefEvent → List RefEvent
  | [] => []
  | e :: es =>
    if e.v = .ok ∧ e.converted = false ∧ e.t = okAt then { e with converted := true } :: es
    else e :: convertOK okAt es

/-! ### The ejection cap -/

def RefBreaker.inGroup (model : String) (b : RefBreaker) : Bool :=
  b.eligible && decide (b.model = model)

def RefBreaker.ejected (model : String) (b : RefBreaker) : Bool :=
  b.inGroup model && decide (b.state ≠ .closed)

def RefModel.openCount (m : RefModel) (model : String) : Int := m.br.count (·.ejected model)

/-- How many breakers of the model may be ejected. -/
def RefModel.limit (m : RefModel) (model : String) : Int :=
  ⌊m.p.maxOpenFraction * (m.br.count (·.inGroup model) : Nat) + 1 / 1000000000⌋

/-- One round of the scan for the most recently ejected breaker (ties: the larger ID). -/
def pickWorst (model : String) (worst : Option (String × RefBreaker))
    (e : Σ _ : String, RefBreaker) : Option (String × RefBreaker) :=
  if e.2.ejected model then
    match worst with
    | none => some (e.1, e.2)
    | some w =>
      if e.2.ejectedAt > w.2.ejectedAt ∨ e.2.ejectedAt = w.2.ejectedAt ∧
        w.2.key.id < e.2.key.id then some (e.1, e.2)
      else some w
  else worst

def RefModel.worst (m : RefModel) (model : String) : Option (String × RefBreaker) :=
  m.br.entries.foldl (pickWorst model) none

/-- The loop of `enforceCap`, for one model. -/
def RefModel.relax (now : Time) (model : String) :
    Nat → RefModel → List Change → RefModel × List Change
  | 0, m, chs => (m, chs)
  | fuel + 1, m, chs =>
    match m.worst model with
    | none => (m, chs)
    | some (id, b) =>
      if m.openCount model ≤ m.limit model then (m, chs)
      else relax now model fuel { m with br := m.br.insert id (b.close now) }
        (chs ++ [Change.plain b.key b.state .closed .capRelaxed 0])

/-- The models that have an eligible worker. -/
def RefModel.models (m : RefModel) : GoMap String Unit :=
  m.br.vals.foldl (fun ms b => if b.eligible then ms.insert b.model () else ms) ∅

def RefModel.relaxModel (now : Time) (s : RefModel × List Change) (model : String) :
    RefModel × List Change :=
  s.1.relax now model s.1.br.len s.2

/-- `enforceCap`, one model after the other. -/
def RefModel.enforceCap (m : RefModel) (now : Time) (order : List String) :
    RefModel × List Change :=
  (m.models.rangeKeys order).foldl (RefModel.relaxModel now) (m, [])

/-! ### Operations -/

def RefModel.find (m : RefModel) (k : Key) : Option RefBreaker :=
  (m.br.lookup k.id).filter fun b => decide (b.key = k)

/-- A member with another registration than the breaker has starts afresh. -/
def RefModel.syncMember (m : RefModel) (mem : Member) : RefModel :=
  let b := (m.find mem.key).getD (newRefBreaker mem.key)
  { m with br := m.br.insert mem.key.id { b with eligible := mem.eligible, model := mem.model } }

def RefModel.sync (m : RefModel) (now : Time) (order : List String) (members : List Member) :
    RefModel × List Change :=
  let m := members.foldl RefModel.syncMember m
  let m := { m with br := m.br.keep fun id _ => decide (id ∈ memberIDs members) }
  m.enforceCap now order

def RefModel.prune (m : RefModel) (now : Time) (order : List String) (keep : List Key) :
    RefModel × List Change :=
  let m := { m with br := m.br.keep fun _ b => decide (b.key ∈ keep) }
  m.enforceCap now order

/-- What an operation does to the breaker it found. -/
structure RefActed where
  b : RefBreaker
  reply : BreakersReply
  changes : List Change
  draws : Nat

def RefActed.quiet (b : RefBreaker) (reply : BreakersReply) : RefActed := ⟨b, reply, [], 0⟩

/-- Look a breaker up, apply its lazy transitions, and act on it. -/
def RefModel.onBreaker (m : RefModel) (k : Key) (now : Time) (missing : BreakersReply)
    (act : RefModel → RefBreaker → RefActed) : RefModel × BreakersReply × List Change :=
  match m.find k with
  | none => (m, missing, [])
  | some b =>
    let adv := b.advance now m.p
    let r := act { m with br := m.br.insert k.id adv.1 } adv.1
    ({ m with br := m.br.insert k.id r.b, draws := m.draws + r.draws }, r.reply, adv.2 ++ r.changes)

def RefModel.admissible (m : RefModel) (b : RefBreaker) : RefActed :=
  .quiet b (.admissible (decide (b.state = .closed) ||
    decide (b.state = .halfOpen ∧ (b.tickets.len : Int) < m.p.probeConcurrency)))

def RefModel.acquire (k : Key) (now : Time) (m : RefModel) (b : RefBreaker) : RefActed :=
  match b.state with
  | .closed => .quiet b (.ticket ⟨k, 0, b.epoch, false, true⟩ true)
  | .halfOpen =>
    if (b.tickets.len : Int) ≥ m.p.probeConcurrency then .quiet b (.ticket Ticket.zero false)
    else
      .quiet { b with nextID := b.nextID + 1, tickets := b.tickets.insert (b.nextID + 1) now }
        (.ticket ⟨k, b.nextID + 1, b.epoch, true, true⟩ true)
  | .open => .quiet b (.ticket Ticket.zero false)

def RefModel.state (_ : RefModel) (b : RefBreaker) : RefActed := .quiet b (.state b.state)

/-- A failed probe. -/
def RefModel.reopen (now : Time) (m : RefModel) (b : RefBreaker) : RefActed :=
  let b' := b.openNow now true m.p (m.rnd m.draws)
  ⟨b', .done, [Change.plain b.key .halfOpen .open .probeFailed b'.coolDown], 1⟩

/-- Trip if a rule asks for it, unless the cap forbids it. -/
def RefModel.tripped (now : Time) (m : RefModel) (b : RefBreaker) : Option (Reason × Int) → RefActed
  | none => .quiet { b with suppressed := false } .done
  | some (why, failures) =>
    if b.eligible = true ∧ m.openCount b.model ≥ m.limit b.model then
      if b.suppressed then .quiet b .done
      else
        ⟨{ b with suppressed := true }, .done,
          [⟨b.key, .closed, .closed, .suppressed, failures, 0, true⟩], 0⟩
    else
      let b' := b.openNow now false m.p (m.rnd m.draws)
      ⟨b', .done, [⟨b.key, .closed, .open, why, failures, b'.coolDown, false⟩], 1⟩

def RefModel.countClosed (now : Time) (v : Verdict) (m : RefModel) (b : RefBreaker) : RefActed :=
  if b.state ≠ .closed ∨ v = .neutral then .quiet b .done
  else
    let b := { b with events := b.events ++ [(⟨now, v, false⟩ : RefEvent)] }
    m.tripped now b (b.tripReason now v m.p)

def RefModel.record (t : Ticket) (v : Verdict) (now : Time) (m : RefModel) (b : RefBreaker) :
    RefActed :=
  if t.probe then
    if b.state ≠ .halfOpen ∨ b.epoch ≠ t.epoch then .quiet b .done
    else if b.tickets.lookup t.id = none then .quiet b .done
    else
      let b := { b with tickets := b.tickets.erase t.id }
      match v with
      | .ok =>
        let b := { b with successes := b.successes + 1 }
        if b.successes ≥ m.p.probeSuccesses then
          ⟨b.close now, .done, [Change.plain b.key .halfOpen .closed .probesPassed 0], 0⟩
        else .quiet b .done
      | .fault => m.reopen now b
      | .ratioFault => m.reopen now b
      | .neutral => .quiet b .done
  else if b.epoch ≠ t.epoch then .quiet b .done
  else m.countClosed now v b

/-- `late`: a fault known only after the verdict was taken. -/
def RefModel.late (t : Ticket) (v : Verdict) (now : Time) (m : RefModel) (b : RefBreaker) :
    RefActed :=
  if t.probe = true ∧ b.epoch = t.epoch ∧ b.state = .halfOpen then m.reopen now b
  else if b.epoch ≠ t.epoch then .quiet b .done
  else m.countClosed now v b

/-- `abort`, for a ticket that is not a probe: the OK recorded at `okAt` becomes a fault. -/
def RefModel.abort (t : Ticket) (okAt now : Time) (m : RefModel) (b : RefBreaker) : RefActed :=
  if b.epoch ≠ t.epoch ∨ b.state ≠ .closed then .quiet b .done
  else m.countClosed now .fault { b with events := convertOK okAt b.events }

def RefModel.release (m : RefModel) (t : Ticket) : RefModel :=
  match m.find t.key with
  | none => m
  | some b =>
    if t.probe = false ∨ b.state ≠ .halfOpen ∨ b.epoch ≠ t.epoch then m
    else { m with br := m.br.insert t.key.id { b with tickets := b.tickets.erase t.id } }

/-! ### Operations on all breakers -/

def RefModel.advanceID (m : RefModel) (now : Time) (id : String) : RefModel × List Change :=
  match m.br.lookup id with
  | none => (m, [])
  | some b => ({ m with br := m.br.insert id (b.advance now m.p).1 }, (b.advance now m.p).2)

def RefModel.advanceAll (now : Time) : List String → RefModel → RefModel × List Change
  | [], m => (m, [])
  | id :: ids, m =>
    let r := m.advanceID now id
    let rest := RefModel.advanceAll now ids r.1
    (rest.1, r.2 ++ rest.2)

def RefBreaker.info (b : RefBreaker) : Option Info :=
  if b.state = .closed then none
  else some ⟨b.key, b.state, b.eligible, b.openUntil, b.level, b.tickets.len⟩

def RefModel.snapshot (m : RefModel) (now : Time) (order : List String) :
    RefModel × BreakersReply × List Change :=
  let ids := m.br.rangeKeys order
  let r := RefModel.advanceAll now ids m
  (r.1, .infos (ids.filterMap fun id => (r.1.br.lookup id).bind RefBreaker.info), r.2)

def RefModel.counts (m : RefModel) (now : Time) (order : List String) :
    RefModel × BreakersReply × List Change :=
  let r := RefModel.advanceAll now (m.br.rangeKeys order) m
  (r.1, .counts (r.1.br.count (·.eligible))
    (r.1.br.count fun b => b.eligible && decide (b.state = .open))
    (r.1.br.count fun b => b.eligible && decide (b.state = .halfOpen)), r.2)

def RefBreaker.earlier (b : RefBreaker) (now : Time) (earliest : Duration) : Duration :=
  match b.state with
  | .halfOpen => 0
  | .open => if earliest < 0 ∨ b.openUntil - now < earliest then b.openUntil - now else earliest
  | .closed => earliest

def RefModel.retryLoop (now : Time) :
    List String → RefModel → Duration → RefModel × Duration × List Change
  | [], m, earliest => (m, earliest, [])
  | id :: ids, m, earliest =>
    let r := m.advanceID now id
    let skip := RefModel.retryLoop now ids r.1 earliest
    match r.1.br.lookup id with
    | none => (skip.1, skip.2.1, r.2 ++ skip.2.2)
    | some b =>
      if !b.eligible then (skip.1, skip.2.1, r.2 ++ skip.2.2)
      else if b.earlier now earliest = 0 then (r.1, 0, r.2)
      else
        let rest := RefModel.retryLoop now ids r.1 (b.earlier now earliest)
        (rest.1, rest.2.1, r.2 ++ rest.2.2)

def RefModel.retryAfter (m : RefModel) (now : Time) (order : List String) :
    RefModel × BreakersReply × List Change :=
  let r := RefModel.retryLoop now (m.br.rangeKeys order) m (-1)
  (r.1, .retryAfter (min (max ⌈(r.2.1 : ℚ) / second⌉ 1) 30), r.2.2)

/-! ### Runs -/

def RefModel.recordLate (m : RefModel) (now : Time) (t : Ticket) (v : Verdict) :
    RefModel × BreakersReply × List Change :=
  if t.valid = true ∧ (v = .fault ∨ v = .ratioFault) then
    m.onBreaker t.key now .done (RefModel.late t v now)
  else (m, .done, [])

/-- One operation of the reference. -/
def RefModel.step (m : RefModel) (c : BreakersCall) : RefModel × BreakersReply × List Change :=
  match c.op with
  | .sync members => ((m.sync c.now c.order members).1, .done, (m.sync c.now c.order members).2)
  | .prune keep => ((m.prune c.now c.order keep).1, .done, (m.prune c.now c.order keep).2)
  | .admissible k => m.onBreaker k c.now (.admissible true) RefModel.admissible
  | .acquire k =>
    m.onBreaker k c.now (.ticket ⟨k, 0, 0, false, true⟩ true) (RefModel.acquire k c.now)
  | .record t v =>
    if t.valid then m.onBreaker t.key c.now .done (RefModel.record t v c.now) else (m, .done, [])
  | .recordLate t v => m.recordLate c.now t v
  | .recordAbort t okAt =>
    if !t.valid then (m, .done, [])
    else if t.probe then m.recordLate c.now t .fault
    else m.onBreaker t.key c.now .done (RefModel.abort t okAt c.now)
  | .release t => (m.release t, .done, [])
  | .state k => m.onBreaker k c.now (.state .closed) RefModel.state
  | .snapshot => m.snapshot c.now c.order
  | .counts => m.counts c.now c.order
  | .retryAfter => m.retryAfter c.now c.order

end ServerFlow.Resilience
