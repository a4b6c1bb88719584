import ServerFlow.Lib.GoMap
import ServerFlow.Lib.RingBuffer
import ServerFlow.Resilience.Window

/-!
# Resilience.Breaker

One worker's circuit breaker (`internal/resilience/breaker.go`): closed, open for a cool-down
that doubles with failed probes, then half-open with a limited number of probe tickets.

The clock reading and the jitter draw are arguments. Fractions (`FailureRatio`, the jitter) are
rationals, so that ratios are compared exactly; counters are unbounded.
-/

namespace ServerFlow.Resilience

/-- A worker registration: its ID and when it registered. -/
structure Key where
  id : String
  registered : Int
  deriving Repr, DecidableEq

inductive State
  | closed
  | halfOpen
  | open
  deriving Repr, DecidableEq

/-- How one attempt counts for its worker's breaker. -/
inductive Verdict
  /-- Says nothing about the worker. -/
  | neutral
  /-- A first byte. -/
  | ok
  /-- Feeds both trip rules. -/
  | fault
  /-- Feeds the ratio rule only; it neither extends nor breaks a streak. -/
  | ratioFault
  deriving Repr, DecidableEq

/-- Why a state changed. -/
inductive Reason
  | consecutive
  | ratio
  | coolDown
  | probeFailed
  | probesPassed
  | suppressed
  | capRelaxed
  deriving Repr, DecidableEq

structure BreakerParams where
  consecutiveFailures : Int
  /-- `0` switches the ratio rule off. -/
  failureRatio : ℚ
  minVolume : Int
  window : Duration
  coolDown : Duration
  maxCoolDown : Duration
  probeConcurrency : Int
  probeSuccesses : Int
  maxOpenFraction : ℚ
  headerTimeout : Duration

/-- Replace values that would break the arithmetic. -/
def BreakerParams.normalize (p : BreakerParams) : BreakerParams :=
  let coolDown := if p.coolDown ≤ 0 then 1000000 else p.coolDown
  { p with
    consecutiveFailures := if p.consecutiveFailures < 1 then 1 else p.consecutiveFailures
    minVolume := if p.minVolume < 1 then 1 else p.minVolume
    window := if p.window < bucketWidth then bucketWidth else p.window
    coolDown := coolDown
    maxCoolDown := if p.maxCoolDown < coolDown then coolDown else p.maxCoolDown
    probeConcurrency := if p.probeConcurrency < 1 then 1 else p.probeConcurrency
    probeSuccesses := if p.probeSuccesses < 1 then 1 else p.probeSuccesses }

/-- How long a probe ticket may stay outstanding before it counts as lost. -/
def BreakerParams.ticketBackstop (p : BreakerParams) : Duration :=
  max (2 * p.coolDown) (p.headerTimeout + 5 * second)

/-- A state transition, or a trip that the ejection cap suppressed. -/
structure Change where
  key : Key
  before : State
  after : State
  reason : Reason
  /-- Faults counted by the rule that tripped. -/
  failures : Int
  coolDown : Duration
  suppressed : Bool
  deriving Repr, DecidableEq

/-- A transition that carries no counts. -/
def Change.plain (key : Key) (before after : State) (reason : Reason) (coolDown : Duration) :
    Change :=
  ⟨key, before, after, reason, 0, coolDown, false⟩

structure Breaker where
  key : Key
  /-- The ejection-cap group. -/
  model : String
  eligible : Bool
  state : State
  /-- The outcomes of a closed breaker: all counted ones, and the faults among them. -/
  win : SlidingWindow
  /-- The times of the most recent consecutive faults (`streak`, `streakPos`, `streakLen`). -/
  streak : RingBuffer Time
  /-- A trip is wanted but the ejection cap forbids it. -/
  suppressed : Bool
  /-- Indexes the doubling of the cool-down. -/
  level : Nat
  everOpened : Bool
  closedAt : Time
  /-- When the breaker last tripped from closed. -/
  ejectedAt : Time
  openUntil : Time
  /-- The jittered duration of the current open period. -/
  coolDown : Duration
  /-- Changes on every open, so that a ticket of an earlier period is recognised. -/
  epoch : Nat
  nextID : Nat
  /-- The outstanding probe tickets and when each was taken. -/
  tickets : GoMap Nat Time
  successes : Int
  deriving DecidableEq

/-- The zero `time.Time`. -/
def zeroTime : Time := -62135596800 * second

def newBreaker (k : Key) (p : BreakerParams) : Breaker where
  key := k
  model := ""
  eligible := false
  state := .closed
  win := newSlidingWindow p.window
  streak := RingBuffer.new p.consecutiveFailures.toNat zeroTime
  suppressed := false
  level := 0
  everOpened := false
  closedAt := zeroTime
  ejectedAt := zeroTime
  openUntil := zeroTime
  coolDown := 0
  epoch := 0
  nextID := 0
  tickets := ∅
  successes := 0

/-! ### Methods -/

/-- Release the probe tickets that count as lost. -/
def lostReleased (now : Time) (p : BreakerParams) (tickets : GoMap Nat Time) : GoMap Nat Time :=
  tickets.keep fun _ at_ => !decide (now - at_ > p.ticketBackstop)

/-- `advance`: open to half-open once the cool-down has elapsed, and the release of lost
tickets. -/
def Breaker.advance (b : Breaker) (now : Time) (p : BreakerParams) : Breaker × List Change :=
  if b.state = .open ∧ ¬ now < b.openUntil then
    ({ b with state := .halfOpen, successes := 0, tickets := ∅ },
      [Change.plain b.key .open .halfOpen .coolDown b.coolDown])
  else if b.state = .halfOpen then ({ b with tickets := lostReleased now p b.tickets }, [])
  else (b, [])

/-- A probe ticket can be issued now. -/
def Breaker.probeFree (b : Breaker) (p : BreakerParams) : Bool :=
  decide (b.state = .halfOpen) && decide ((b.tickets.len : Int) < p.probeConcurrency)

/-- Count an outcome in the window and the streak. -/
def Breaker.count (b : Breaker) (now : Time) (v : Verdict) : Breaker :=
  match v with
  | .neutral => b
  | .ok => { b with win := b.win.add now now .all 1, streak := b.streak.clear }
  | .fault =>
    { b with
      win := (b.win.add now now .all 1).add now now .faults 1
      streak := b.streak.push now }
  | .ratioFault => { b with win := (b.win.add now now .all 1).add now now .faults 1 }

/-- The consecutive rule: a full streak whose oldest fault is still in the window. -/
def Breaker.streakTrips (b : Breaker) (now : Time) (v : Verdict) (p : BreakerParams) : Bool :=
  decide (v ≠ .ok) && b.streak.full &&
    match b.streak.oldest with
    | some oldest => decide (now - oldest ≤ p.window)
    | none => false

/-- The ratio rule, over the given numbers of outcomes and faults. -/
def BreakerParams.ratioTrips (p : BreakerParams) (total faults : Int) : Bool :=
  decide (p.failureRatio > 0) && decide (total ≥ p.minVolume) && decide (total > 0) &&
    decide ((faults : ℚ) ≥ p.failureRatio * total)

/-- The reason to trip, with the faults counted by the rule. -/
def Breaker.tripReason (b : Breaker) (now : Time) (v : Verdict) (p : BreakerParams) :
    Option (Reason × Int) :=
  if b.streakTrips now v p then some (.consecutive, b.streak.len)
  else if p.ratioTrips (b.win.sum now .all) (b.win.sum now .faults) then
    some (.ratio, b.win.sum now .faults)
  else none

/-- `recordClosed`: count an outcome of a closed breaker and return the reason to trip. -/
def Breaker.recordClosed (b : Breaker) (now : Time) (v : Verdict) (p : BreakerParams) :
    Breaker × Option (Reason × Int) :=
  if v = .neutral then (b, none) else (b.count now v, (b.count now v).tripReason now v p)

/-- The loop of `baseCoolDown`: double the cool-down until it reaches the cap. -/
def coolDownLoop (cap : Duration) : Nat → Duration → Duration
  | 0, d => min d cap
  | level + 1, d =>
    -- the next doubling reaches the cap
    if d ≥ cap.tdiv 2 + cap.tmod 2 then cap else coolDownLoop cap level (d * 2)

/-- The cool-down at a doubling level, before jitter. -/
def BreakerParams.baseCoolDown (p : BreakerParams) (level : Nat) : Duration :=
  coolDownLoop p.maxCoolDown level p.coolDown

/-- The loop of `maxLevel`, bounded by `fuel`. -/
def BreakerParams.maxLevelFrom (p : BreakerParams) : Nat → Nat → Nat
  | 0, l => l
  | fuel + 1, l => if p.baseCoolDown l < p.maxCoolDown then p.maxLevelFrom fuel (l + 1) else l

/-- The first level whose cool-down is the cap. It is reached after as many doublings as the
cap has bits (`maxLevelFrom_eq`). -/
def BreakerParams.maxLevel (p : BreakerParams) : Nat :=
  p.maxLevelFrom (p.maxCoolDown.toNat.log2 + 1) 0

/-- The cool-down is multiplied by a factor in `[1 - jitterSpan, 1 + jitterSpan]`. -/
def jitterSpan : ℚ := 1 / 5

/-- Conversion to an integer, towards zero. -/
def truncate (q : ℚ) : Int := q.num.tdiv q.den

/-- The jittered cool-down, at least `1` and at most the cap. -/
def BreakerParams.jittered (p : BreakerParams) (base : Duration) (r : ℚ) : Duration :=
  min (max (truncate (base * (1 + jitterSpan * (2 * r - 1)))) 1) p.maxCoolDown

/-- The cool-down level of the next open period: a failed probe grows it, a trip after a long
closed period resets it. -/
def Breaker.nextLevel (b : Breaker) (now : Time) (fromProbe : Bool) (p : BreakerParams) : Nat :=
  if fromProbe then if b.level < p.maxLevel then b.level + 1 else b.level
  else if !b.everOpened || decide (now - b.closedAt ≥ p.maxCoolDown) then 0
  else b.level

/-- `open`, with the jitter draw `r`. -/
def Breaker.openNow (b : Breaker) (now : Time) (fromProbe : Bool) (p : BreakerParams) (r : ℚ) :
    Breaker :=
  let level := b.nextLevel now fromProbe p
  let d := p.jittered (p.baseCoolDown level) r
  { b with
    level := level
    everOpened := true
    ejectedAt := if fromProbe then b.ejectedAt else now
    state := .open
    coolDown := d
    openUntil := now + d
    epoch := b.epoch + 1
    tickets := ∅
    successes := 0
    suppressed := false }

/-- `close`: closed, with a fresh window and streak. -/
def Breaker.close (b : Breaker) (now : Time) : Breaker :=
  { b with
    state := .closed
    closedAt := now
    tickets := ∅
    successes := 0
    win := b.win.reset
    streak := b.streak.clear
    suppressed := false }

end ServerFlow.Resilience
