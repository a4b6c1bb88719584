import ServerFlow.Gateway.Router

/-!
# Protocol.Worker

What a worker and the registry tell each other (`pkg/protocol/worker.go`): registrations,
heartbeats, and the states a worker may report one after the other.

Rates and percentages are rational numbers: the wire format has no others. The check of an address
is an argument (`okAddress`) and the texts of the errors are left out, so a check is passed or not.
-/

namespace ServerFlow.Protocol

open Resilience (Time)
open Gateway (WorkerState)

/-! ### States -/

/-- `Reportable`: a worker may report it. -/
def reportable : WorkerState → Bool
  | .registering | .loadingModel | .warming | .ready | .draining | .failed => true
  | _ => false

/-- `CanTransition`, judged on one step. -/
def canTransition (last next : WorkerState) : Bool :=
  if !reportable next then false
  else
    match last with
    | .registering => true
    | .loadingModel => next ≠ .registering
    | .warming => next = .warming ∨ next = .ready ∨ next = .draining ∨ next = .failed
    | .ready => next = .ready ∨ next = .draining ∨ next = .failed
    | .draining => next = .draining ∨ next = .failed
    | .failed => next ≠ .registering
    | _ => false

/-! ### Texts -/

def maxWorkerIDLen : Nat := 64

def maxModelLen : Nat := 128

def maxConcurrencyCap : Int := 100000

def maxQueueSizeCap : Int := 1000000

def maxReasonLen : Nat := 256

def maxRegistrationLen : Nat := 128

def maxCounter : Int := 2 ^ 40

/-- A letter or a digit. -/
def isAlnum (c : Char) : Bool :=
  ('A' ≤ c ∧ c ≤ 'Z') ∨ ('a' ≤ c ∧ c ≤ 'z') ∨ ('0' ≤ c ∧ c ≤ '9')

/-- `ValidWorkerID`: the pattern `[A-Za-z0-9][A-Za-z0-9._-]{0,63}`. -/
def validWorkerID (id : String) : Bool :=
  match id.toList with
  | [] => false
  | c :: cs => isAlnum c ∧ cs.length < maxWorkerIDLen ∧
      cs.all fun c => isAlnum c || c = '.' || c = '_' || c = '-'

/-- `unicode.IsControl`. -/
def isControl (c : Char) : Bool := c.toNat < 0x20 ∨ (0x7f ≤ c.toNat ∧ c.toNat < 0xa0)

/-- `unicode.IsSpace`. -/
def isSpace (c : Char) : Bool :=
  (0x09 ≤ c.toNat ∧ c.toNat ≤ 0x0d) ∨ (0x2000 ≤ c.toNat ∧ c.toNat ≤ 0x200a) ∨
    c.toNat ∈ [0x20, 0x85, 0xa0, 0x1680, 0x2028, 0x2029, 0x202f, 0x205f, 0x3000]

/-- The ranges of `unicode.Cf`: invisible formatting characters. -/
def formatRanges : List (Nat × Nat) :=
  [(0xad, 0xad), (0x600, 0x605), (0x61c, 0x61c), (0x6dd, 0x6dd), (0x70f, 0x70f), (0x890, 0x891),
    (0x8e2, 0x8e2), (0x180e, 0x180e), (0x200b, 0x200f), (0x202a, 0x202e), (0x2060, 0x2064),
    (0x2066, 0x206f), (0xfeff, 0xfeff), (0xfff9, 0xfffb), (0x110bd, 0x110bd), (0x110cd, 0x110cd),
    (0x13430, 0x1343f), (0x1bca0, 0x1bca3), (0x1d173, 0x1d17a), (0xe0001, 0xe0001),
    (0xe0020, 0xe007f)]

def isFormat (c : Char) : Bool := formatRanges.any fun r => r.1 ≤ c.toNat ∧ c.toNat ≤ r.2

/-- `cleanText`. -/
def cleanText (s : String) (allowSpace : Bool) : Bool :=
  s.toList.all fun c => !isControl c && !isFormat c && (allowSpace || !isSpace c)

/-- `validModel`. -/
def validModel (m : String) : Bool :=
  m ≠ "" ∧ m.utf8ByteSize ≤ maxModelLen ∧ cleanText m false

/-! ### Messages -/

/-- `WorkerInfo`: what a worker states when it registers. -/
structure WorkerInfo where
  workerID : String
  model : String
  address : String
  maxConcurrency : Int
  queueSize : Int

/-- `WorkerInfo.Validate`. -/
def WorkerInfo.validate (okAddress : String → Bool) (w : WorkerInfo) : Bool :=
  validWorkerID w.workerID && validModel w.model && okAddress w.address &&
    decide (1 ≤ w.maxConcurrency ∧ w.maxConcurrency ≤ maxConcurrencyCap) &&
    decide (0 ≤ w.queueSize ∧ w.queueSize ≤ maxQueueSizeCap)

/-- `Metrics`: a worker's load as it reports it. -/
structure Metrics where
  activeRequests : Int
  queueDepth : Int
  queuedInputTokens : Int
  recentTokensPerSecond : ℚ
  gpuUtilization : Option ℚ
  gpuMemoryUsedMB : Option Int
  deriving Repr, DecidableEq

def Metrics.zero : Metrics := ⟨0, 0, 0, 0, none, none⟩

/-- `Metrics.Validate`. -/
def Metrics.validate (m : Metrics) : Bool :=
  ([m.activeRequests, m.queueDepth, m.queuedInputTokens].all fun v => 0 ≤ v ∧ v ≤ maxCounter) &&
    decide (0 ≤ m.recentTokensPerSecond ∧ m.recentTokensPerSecond ≤ 10 ^ 9) &&
    (m.gpuUtilization.all fun v => 0 ≤ v ∧ v ≤ 100) &&
    (m.gpuMemoryUsedMB.all fun v => 0 ≤ v ∧ v ≤ maxCounter)

/-- `Heartbeat`: a worker's periodic report. -/
structure Heartbeat where
  registrationID : String
  state : WorkerState
  metrics : Metrics
  reason : String

/-- `Heartbeat.Validate`. -/
def Heartbeat.validate (h : Heartbeat) : Bool :=
  decide (h.registrationID ≠ "" ∧ h.registrationID.utf8ByteSize ≤ maxRegistrationLen) &&
    reportable h.state &&
    (decide (h.reason.utf8ByteSize ≤ maxReasonLen) && cleanText h.reason true) && h.metrics.validate

/-- `WorkerSnapshot`, whole: what the router reads, and the rest. -/
structure WorkerSnapshot extends Gateway.WorkerSnapshot where
  address : String
  queueSize : Int
  metrics : Metrics
  reason : String
  lastHeartbeat : Time

end ServerFlow.Protocol
