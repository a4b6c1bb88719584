import ServerFlow.Resilience.Window

/-!
# Sim.Engine

The simulated inference engine of the mock worker (`internal/sim/engine`): a state machine over
virtual time with continuous batching, chunked prefill, a KV-cache budget and recompute preemption.

A request is referred to by its ID, which indexes the heap of sequences; the lists hold IDs, as the
source's lists hold pointers. What the seed determines is an argument (`Draws`): any noise and any
output lengths. Parameters and draws are rational numbers. The clock is an integer number of
nanoseconds; `maxDuration` is where the source's saturates. The rate window and the other statistics
that nothing decides on are left out, as is the seed.
-/

namespace ServerFlow.Sim

open Resilience (Duration)

/-! ### Configuration -/

/-- `Params`: the physics of a simulated worker. -/
structure Params where
  name : String
  provenance : String
  stepBaseMs : ℚ
  stepPerSeqMs : ℚ
  stepNoiseCV : ℚ
  prefillFixedMs : ℚ
  prefillPerTokenMs : ℚ
  prefillNoiseCV : ℚ
  prefillChunkTokens : Int
  kvBudgetTokens : Int
  kvBytesPerToken : Int
  weightsMB : Int
  outputCV : ℚ
  outputFraction : ℚ

structure Config where
  params : Params
  maxSeqs : Int
  maxQueue : Int
  outputMeanTokens : Int

/-- Which check of `Validate` failed, with the values that its message shows. -/
inductive ConfigError
  | name
  | provenance
  | stepMs (base perSeq : ℚ)
  | stepZero
  | prefillMs (fixed perToken : ℚ)
  | noiseCV
  | prefillChunk (n : Int)
  | kvBudget (n : Int)
  | kvBytes (n : Int)
  | weights (n : Int)
  | outputFraction (f : ℚ)
  | maxSeqs (n : Int)
  | maxQueue (n : Int)
  | outputMean (n : Int)

def okMs (v : ℚ) : Bool := 0 ≤ v ∧ v ≤ 60000

def okCV (v : ℚ) : Bool := 0 ≤ v ∧ v ≤ 2

/-- `okText`, where the text must not be empty. U+FFFD is what a broken encoding decodes to. -/
def okText (s : String) : Bool :=
  s ≠ "" ∧ s.utf8ByteSize ≤ 256 ∧ s.toList.all fun c =>
    0x20 ≤ c.toNat ∧ c.toNat ≠ 0x7f ∧ c.toNat ≠ 0xfffd

/-- `Params.Validate`: the first invalid value. -/
def Params.validate (p : Params) : Option ConfigError :=
  if !okText p.name then some .name
  else if !okText p.provenance then some .provenance
  else if !okMs p.stepBaseMs || !okMs p.stepPerSeqMs then
    some (.stepMs p.stepBaseMs p.stepPerSeqMs)
  else if p.stepBaseMs + p.stepPerSeqMs ≤ 0 then some .stepZero
  else if !okMs p.prefillFixedMs || !okMs p.prefillPerTokenMs then
    some (.prefillMs p.prefillFixedMs p.prefillPerTokenMs)
  else if !okCV p.stepNoiseCV || !okCV p.prefillNoiseCV || !okCV p.outputCV then some .noiseCV
  else if p.prefillChunkTokens < 0 ∨ p.prefillChunkTokens > 2 ^ 20 then
    some (.prefillChunk p.prefillChunkTokens)
  else if p.kvBudgetTokens < 2 ∨ p.kvBudgetTokens > 2 ^ 26 then some (.kvBudget p.kvBudgetTokens)
  else if p.kvBytesPerToken < 0 ∨ p.kvBytesPerToken > 2 ^ 30 then some (.kvBytes p.kvBytesPerToken)
  else if p.weightsMB < 0 ∨ p.weightsMB > 2 ^ 30 then some (.weights p.weightsMB)
  else if p.outputFraction < 0 ∨ p.outputFraction > 1 then some (.outputFraction p.outputFraction)
  else none

/-- `Config.Validate`. -/
def Config.validate (c : Config) : Option ConfigError :=
  match c.params.validate with
  | some err => some err
  | none =>
    if c.maxSeqs < 1 ∨ c.maxSeqs > 2 ^ 14 then some (.maxSeqs c.maxSeqs)
    else if c.maxQueue < 0 ∨ c.maxQueue > 2 ^ 20 then some (.maxQueue c.maxQueue)
    else if c.outputMeanTokens < 1 ∨ c.outputMeanTokens > 2 ^ 20 then
      some (.outputMean c.outputMeanTokens)
    else none

def Config.budget (c : Config) : Int := c.params.kvBudgetTokens

/-! ### Time and chance -/

/-- The largest `time.Duration`. -/
def maxDuration : Duration := 2 ^ 63 - 1

/-- A microsecond, and a day. -/
def minIteration : Duration := 1000

def maxIteration : Duration := 86400000000000

/-- What the seed determines: the factors for iteration times, in the order they are drawn, and the
one for the output length of each request. -/
structure Draws where
  noise : Nat → ℚ
  output : Nat → ℚ

/-- `math.Round`: halves go away from zero. -/
def goRound (x : ℚ) : Int := if 0 ≤ x then ⌊x + 1 / 2⌋ else ⌈x - 1 / 2⌉

/-- The bounds that `lognormal` puts on a factor. -/
def clampNoise (f : ℚ) : ℚ := min (max f (1 / 20)) 20

/-- `lognormal` on the engine's stream, of which `n` factors are drawn: none without variation. -/
def Draws.lognormal (d : Draws) (n : Nat) (cv : ℚ) : Nat × ℚ :=
  if cv ≤ 0 then (n, 1) else (n + 1, clampNoise (d.noise n))

/-- `ms`: milliseconds as a duration. -/
def ms (v : ℚ) : Duration :=
  let ns := goRound (v * 1000000)
  if ns ≥ maxIteration then maxIteration else ns

/-- `addDuration`, which saturates. -/
def addDuration (t dur : Duration) : Duration :=
  if t > maxDuration - dur then maxDuration else t + dur

/-! ### Requests and events -/

inductive Finish
  | stop
  | length
  deriving Repr, DecidableEq

structure Request where
  inputTokens : Int
  maxTokens : Int

structure Info where
  id : Nat
  outputTokens : Int
  finish : Finish
  deriving Repr, DecidableEq

inductive EventKind
  | start
  | token
  | preempt
  | done
  deriving Repr, DecidableEq

structure Event where
  time : Duration
  id : Nat
  kind : EventKind
  index : Nat
  finish : Option Finish

inductive SeqState
  | waiting
  | prefilling
  | running
  | gone
  deriving Repr, DecidableEq

/-- `seq`: an accepted request. -/
structure Seq where
  input : Int
  target : Int
  finish : Finish
  generated : Nat
  kvHeld : Int
  prefillTarget : Int
  prefilled : Int
  prefillBegun : Bool
  started : Bool
  state : SeqState

/-- What the heap has where no request was accepted. -/
def Seq.absent : Seq := ⟨0, 0, .stop, 0, 0, 0, 0, false, false, .gone⟩

/-! ### The engine -/

structure Iteration where
  prefill : Option Nat
  chunk : Int
  decode : List Nat

/-- No iteration. -/
def Iteration.none : Iteration := ⟨.none, 0, []⟩

structure Engine where
  cfg : Config
  now : Duration
  next : Nat
  /-- How many noise factors were drawn. -/
  drawn : Nat
  heap : Nat → Seq
  waiting : List Nat
  prefilling : List Nat
  running : List Nat
  byID : Finset Nat
  kvUsed : Int
  busy : Bool
  iterEnd : Duration
  iter : Iteration
  submitted : Nat
  completed : Nat
  rejected : Nat
  cancelled : Nat
  preemptions : Nat
  kvEnded : Nat
  tokens : Nat
  /-- The events of all calls so far, in order. -/
  evs : List Event
  /-- A loop of `startIteration` used up its guard. -/
  guardSpent : Bool

/-- `New`, for a valid configuration. -/
def newEngine (cfg : Config) : Engine :=
  { cfg := cfg, now := 0, next := 0, drawn := 0, heap := fun _ => .absent, waiting := [],
    prefilling := [], running := [], byID := ∅, kvUsed := 0, busy := false, iterEnd := 0,
    iter := .none, submitted := 0, completed := 0, rejected := 0, cancelled := 0, preemptions := 0,
    kvEnded := 0, tokens := 0, evs := [], guardSpent := false }

namespace Engine

variable (e : Engine)

def set (i : Nat) (s : Seq) : Engine := { e with heap := Function.update e.heap i s }

def emit (ev : Event) : Engine := { e with evs := e.evs ++ [ev] }

/-- Sequences that hold a slot. -/
def active : Int := e.prefilling.length + e.running.length

/-! #### Ending and emitting -/

/-- `remove`: out of its list, its KV tokens freed. -/
def remove (i : Nat) : Engine :=
  let s := e.heap i
  let e :=
    match s.state with
    | .waiting => { e with waiting := e.waiting.erase i }
    | .prefilling => { e with prefilling := e.prefilling.erase i }
    | .running => { e with running := e.running.erase i }
    | .gone => e
  { e.set i { s with kvHeld := 0, state := .gone } with
    kvUsed := e.kvUsed - s.kvHeld
    byID := e.byID.erase i }

/-- `finish`: a live request ends. -/
def finish (t : Duration) (i : Nat) (reason : Finish) : Engine :=
  let e := e.remove i
  e.emit ⟨t, i, .done, (e.heap i).generated, some reason⟩

/-- `emitToken`. -/
def emitToken (t : Duration) (i : Nat) : Engine :=
  let s := e.heap i
  let e := e.emit ⟨t, i, .token, s.generated, none⟩
  let e := { e.set i { s with generated := s.generated + 1 } with tokens := e.tokens + 1 }
  if ((s.generated + 1 : Nat) : Int) ≥ s.target then
    { e with completed := e.completed + 1 }.finish t i s.finish
  else e

/-! #### Admission and preemption -/

/-- The head of the queue gets a slot. -/
def admitHead (t : Duration) (i : Nat) (rest : List Nat) : Engine :=
  let s := e.heap i
  let need := s.prefillTarget + 1
  let e := { e.set i { s with
        kvHeld := need, state := .prefilling, prefilled := 0, prefillBegun := false,
        started := true } with
      waiting := rest
      kvUsed := e.kvUsed + need
      prefilling := e.prefilling ++ [i] }
  if s.started then e else e.emit ⟨t, i, .start, 0, none⟩

/-- The loop of `admit`, over the wait queue. -/
def admitLoop (t : Duration) : List Nat → Engine → Engine
  | [], e => e
  | i :: rest, e =>
    if e.active < e.cfg.maxSeqs then
      if e.kvUsed + ((e.heap i).prefillTarget + 1) > e.cfg.budget then e
      else admitLoop t rest (e.admitHead t i rest)
    else e

/-- `admit`. -/
def admitWaiting (t : Duration) : Engine := admitLoop t e.waiting e

/-- The sequence that started last loses its KV tokens and goes back to the head of the queue. -/
def preempt (t : Duration) (v : Nat) : Engine :=
  let s := e.heap v
  let e := { e.set v { s with
        kvHeld := 0, state := .waiting, prefillTarget := s.input + s.generated, prefilled := 0,
        prefillBegun := false } with
      running := e.running.dropLast
      kvUsed := e.kvUsed - s.kvHeld
      waiting := v :: e.waiting
      preemptions := e.preemptions + 1 }
  e.emit ⟨t, v, .preempt, s.generated, none⟩

/-- The loop of `reserveDecodeKV`, over the running sequences from the last one on. -/
def reserveLoop (t : Duration) : List Nat → Engine → Bool → Engine × Bool
  | [], e, changed => (e, changed)
  | v :: rest, e, changed =>
    if e.kvUsed + e.running.length > e.cfg.budget then
      if e.running.length = 1 ∧ e.prefilling = [] then
        reserveLoop t rest ({ e with kvEnded := e.kvEnded + 1 }.finish t v .length) true
      else reserveLoop t rest (e.preempt t v) true
    else (e, changed)

/-- `reserveDecodeKV`. -/
def reserveDecodeKV (t : Duration) : Engine × Bool := reserveLoop t e.running.reverse e false

/-! #### Iterations -/

/-- Whether the next iteration has a decode step. -/
def decoding : Bool :=
  e.running ≠ [] ∧ (e.prefilling = [] ∨ e.cfg.params.prefillChunkTokens > 0)

/-- How the loop of `startIteration` ended. -/
inductive Prepared
  /-- Nothing holds a slot: the engine goes idle. -/
  | idle
  | ready
  /-- The guard was used up. -/
  | spent
  deriving Repr, DecidableEq

/-- The loop of `startIteration`: ending or preempting a sequence may let others in. -/
def prepareLoop (t : Duration) : Nat → Engine → Engine × Prepared
  | 0, e => (e, .spent)
  | guard + 1, e =>
    let e := e.admitWaiting t
    if e.prefilling = [] ∧ e.running = [] then (e, .idle)
    else if e.decoding then
      match e.reserveDecodeKV t with
      | (e, true) => prepareLoop t guard e
      | (e, false) => (e, .ready)
    else (e, .ready)

/-- How much of its prompt a sequence processes in the coming iteration. -/
def chunkOf (p : Nat) : Int :=
  let chunk := (e.heap p).prefillTarget - (e.heap p).prefilled
  let c := e.cfg.params.prefillChunkTokens
  if c > 0 ∧ chunk > c then c else chunk

/-- `prefillDuration`, with the number of factors drawn after it. -/
def prefillDuration (d : Draws) (n : Nat) (chunk : Int) (first : Bool) : Nat × Duration :=
  let p := e.cfg.params
  let v := p.prefillPerTokenMs * chunk + if first then p.prefillFixedMs else 0
  let f := d.lognormal n p.prefillNoiseCV
  (f.1, min (max (ms (v * f.2)) minIteration) maxIteration)

/-- `decodeDuration`. -/
def decodeDuration (d : Draws) (n : Nat) (b : Nat) : Nat × Duration :=
  let p := e.cfg.params
  let f := d.lognormal n p.stepNoiseCV
  (f.1, min (max (ms ((p.stepBaseMs + p.stepPerSeqMs * b) * f.2)) minIteration) maxIteration)

/-- How long the coming iteration takes, with the number of factors drawn after it. -/
def iterationDuration (d : Draws) : Nat × Duration :=
  let prefill :=
    match e.prefilling with
    | [] => (e.drawn, 0)
    | p :: _ => e.prefillDuration d e.drawn (e.chunkOf p) (!(e.heap p).prefillBegun)
  let decode := if e.decoding then e.decodeDuration d prefill.1 e.running.length else (prefill.1, 0)
  (decode.1, prefill.2 + decode.2)

/-- The iteration to come. -/
def plan : Iteration :=
  { prefill := e.prefilling.head?
    chunk := (e.prefilling.head?.map e.chunkOf).getD 0
    decode := if e.decoding then e.running else [] }

/-- A running sequence takes the KV token that its next token needs. -/
def hold (i : Nat) : Engine :=
  { e.set i { e.heap i with kvHeld := (e.heap i).kvHeld + 1 } with kvUsed := e.kvUsed + 1 }

/-- The iteration is launched. -/
def launch (t dur : Duration) : Engine :=
  let it := e.plan
  let e :=
    match it.prefill with
    | some p => e.set p { e.heap p with prefillBegun := true }
    | none => e
  let e := it.decode.foldl hold e
  { e with iter := it, busy := true, iterEnd := addDuration t dur }

/-- `startIteration`. `dur` says how long the iteration takes, and how many factors are drawn
then. -/
def startIteration (dur : Engine → Nat × Duration) (t : Duration) : Engine :=
  match prepareLoop t (4 * e.cfg.maxSeqs + 8).toNat { e with busy := false } with
  | (e, .idle) => e
  | (e, out) =>
    let e := { e with guardSpent := e.guardSpent || decide (out = .spent) }
    if e.prefilling = [] ∧ e.running = [] then e
    else { e with drawn := (dur e).1 }.launch t (dur e).2

/-- A sequence of the decode step that ends gets its token, unless it was cancelled. -/
def decodeOne (t : Duration) (i : Nat) : Engine :=
  if (e.heap i).state = .running then e.emitToken t i else e

/-- The prefill of `p` advances by `chunk` tokens, and may be complete. -/
def prefillOne (t : Duration) (p : Nat) (chunk : Int) : Engine :=
  if (e.heap p).state = .prefilling then
    let s := { e.heap p with prefilled := (e.heap p).prefilled + chunk }
    if s.prefilled ≥ s.prefillTarget then
      { e.set p { s with state := .running } with
        prefilling := e.prefilling.erase p
        running := e.running ++ [p] }.emitToken t p
    else e.set p s
  else e

/-- `finishIteration`. -/
def finishIteration (t : Duration) : Engine :=
  let it := e.iter
  let e := it.decode.foldl (fun e i => e.decodeOne t i) { e with iter := .none, busy := false }
  match it.prefill with
  | some p => e.prefillOne t p it.chunk
  | none => e

/-- One turn of the loop of `advanceTo`. -/
def turn (dur : Engine → Nat × Duration) : Engine :=
  (e.finishIteration e.iterEnd).startIteration dur e.iterEnd

/-- The loop of `advanceTo`; `none` if it takes more than `fuel` turns. -/
def advanceLoop (dur : Engine → Nat × Duration) (now : Duration) : Nat → Engine → Option Engine
  | 0, _ => none
  | fuel + 1, e =>
    if e.busy ∧ e.iterEnd ≤ now then advanceLoop dur now fuel (e.turn dur)
    else some { e with now := now }

/-! #### Calls -/

/-- `drawOutput`: the output length of a request, and why it will end. -/
def drawOutput (d : Draws) (id : Nat) (maxTokens : Int) : Int × Finish :=
  let p := e.cfg.params
  let f := if p.outputCV ≤ 0 then 1 else clampNoise (d.output id)
  let natural :=
    if p.outputFraction > 0 ∧ maxTokens > 0 then min (p.outputFraction * f) 1 * maxTokens
    else e.cfg.outputMeanTokens * f
  let n := max (goRound (min natural (2 ^ 30))) 1
  if maxTokens > 0 ∧ maxTokens ≤ n then (maxTokens, .length) else (n, .stop)

end Engine

inductive EngineError
  | queueFull
  | tooLarge
  | invalidRequest (input maxTokens : Int)
  | timeRegression (now clock : Duration)
  deriving Repr, DecidableEq

inductive Call
  | advance (now : Duration)
  | submit (now : Duration) (r : Request)
  | cancel (now : Duration) (id : Nat)

def Call.now : Call → Duration
  | .advance now => now
  | .submit now _ => now
  | .cancel now _ => now

/-- What a call returns, but for its events. -/
inductive Answer
  | advanced
  | accepted (info : Info)
  | cancelled (live : Bool)
  | refused (err : EngineError)
  deriving Repr, DecidableEq

namespace Engine

variable (e : Engine)

/-- A request joins the queue. -/
def enqueue (d : Draws) (r : Request) : Engine :=
  let id := e.next + 1
  let out := e.drawOutput d id r.maxTokens
  { e.set id ⟨r.inputTokens, out.1, out.2, 0, 0, r.inputTokens, 0, false, false, .waiting⟩ with
    next := id
    byID := insert id e.byID
    waiting := e.waiting ++ [id]
    submitted := e.submitted + 1 }

/-- `Submit`, after advancing. -/
def submit (d : Draws) (now : Duration) (r : Request) : Engine × Answer :=
  if r.inputTokens < 1 ∨ r.maxTokens < 0 then
    (e, .refused (.invalidRequest r.inputTokens r.maxTokens))
  else if r.inputTokens > e.cfg.budget - 1 then
    ({ e with rejected := e.rejected + 1 }, .refused .tooLarge)
  else if (e.waiting.length : Int) ≥ e.cfg.maxQueue + max (e.cfg.maxSeqs - e.active) 0 then
    ({ e with rejected := e.rejected + 1 }, .refused .queueFull)
  else
    let id := e.next + 1
    let out := e.drawOutput d id r.maxTokens
    let e := e.enqueue d r
    (if e.busy then e else e.startIteration (fun e => e.iterationDuration d) now,
      .accepted ⟨id, out.1, out.2⟩)

/-- `Cancel`, after advancing. -/
def cancel (id : Nat) : Engine × Answer :=
  if id ∈ e.byID then
    let e := e.remove id
    ({ e with cancelled := e.cancelled + 1 }, .cancelled true)
  else (e, .cancelled false)

/-- What a call does once the clock is there. -/
def serve (d : Draws) : Call → Engine × Answer
  | .advance _ => (e, .advanced)
  | .submit now r => e.submit d now r
  | .cancel _ id => e.cancel id

/-- A call; `none` if `fuel` does not suffice for its `advanceTo`. -/
def call (d : Draws) (fuel : Nat) (c : Call) : Option (Engine × Answer) :=
  if c.now < e.now then some (e, .refused (.timeRegression c.now e.now))
  else (advanceLoop (fun e => e.iterationDuration d) c.now fuel e).map fun e => e.serve d c

end Engine

/-- A call in a run, with the turns its `advanceTo` may take. -/
structure Move where
  call : Call
  fuel : Nat

/-- One call of a run. Its time is a `time.Duration`. -/
def Engine.step (d : Draws) (e : Engine) (m : Move) : Option Engine :=
  if m.call.now ≤ maxDuration then (e.call d m.fuel m.call).map Prod.fst else none

/-! ### `CheckInvariants` -/

inductive ListName
  | waiting
  | prefilling
  | running
  deriving Repr, DecidableEq

inductive Violation
  | inTwoLists (id : Nat) (second : ListName)
  | notIndexed (id : Nat) (list : ListName)
  | waitingHolds (id : Nat) (kv : Int)
  | liveIndexed (live indexed : Nat)
  | kvSum (kv used : Int)
  | kvRange (used budget : Int)
  | tooManySeqs (active maxSeqs : Int)
  | runningHolds (id : Nat) (held want : Int)

namespace Engine

variable (e : Engine)

def list : ListName → List Nat
  | .waiting => e.waiting
  | .prefilling => e.prefilling
  | .running => e.running

/-- What the loops of `CheckInvariants` gather. -/
structure Census where
  seen : List Nat
  live : Nat
  kv : Int

def checkSeq (c : Census) (entry : ListName × Nat) : Except Violation Census :=
  let (name, i) := entry
  if i ∈ c.seen then .error (.inTwoLists i name)
  else if i ∉ e.byID then .error (.notIndexed i name)
  else if name = .waiting ∧ (e.heap i).kvHeld ≠ 0 then .error (.waitingHolds i (e.heap i).kvHeld)
  else .ok ⟨i :: c.seen, c.live + 1, c.kv + (e.heap i).kvHeld⟩

/-- The KV tokens that a running sequence should hold. -/
def wants (i : Nat) : Int :=
  (e.heap i).input + (e.heap i).generated + if i ∈ e.iter.decode then 1 else 0

/-- `CheckInvariants`. The lists are visited in the order `order`, which the language leaves
open. -/
def checkInvariants (order : List ListName) : Option Violation :=
  match (order.flatMap fun n => (e.list n).map fun i => (n, i)).foldlM e.checkSeq ⟨[], 0, 0⟩ with
  | .error v => some v
  | .ok c =>
    if c.live ≠ e.byID.card then some (.liveIndexed c.live e.byID.card)
    else if c.kv ≠ e.kvUsed then some (.kvSum c.kv e.kvUsed)
    else if e.kvUsed < 0 ∨ e.kvUsed > e.cfg.budget then some (.kvRange e.kvUsed e.cfg.budget)
    else if e.active > e.cfg.maxSeqs then some (.tooManySeqs e.active e.cfg.maxSeqs)
    else e.running.findSome? fun i =>
      if (e.heap i).kvHeld ≠ e.wants i then some (.runningHolds i (e.heap i).kvHeld (e.wants i))
      else none

end Engine

end ServerFlow.Sim
