import ServerFlow.Protocol.Worker

/-!
# ControlPlane.Registry

The registry of workers (`internal/registry`): who they are, what they report, and whether they are
still alive. Health is derived from the age of the last heartbeat and computed on read.

Every function holds the registry's lock, so a run is a sequence of calls. What the clock reads is
an argument, and so is the registration ID that `Register` draws. Durations are integers; the sum of
the two that decide on eviction is taken not to overflow. Logging and the counters for Prometheus
are left out, but for `observed`, which logging is decided on.
-/

namespace ServerFlow.ControlPlane

open Resilience (Time Duration)
open Gateway (WorkerState Health)
open Protocol (WorkerInfo Metrics Heartbeat WorkerSnapshot)

/-! ### Configuration -/

structure Config where
  suspect : Duration
  unhealthy : Duration
  lost : Duration
  retention : Duration
  maxWorkers : Int
  heartbeatInterval : Duration
  suspectEligible : Bool

inductive ConfigError
  | durations
  | thresholds
  | maxWorkers

/-- `Config.Validate`. -/
def Config.validate (c : Config) : Option ConfigError :=
  if c.suspect ≤ 0 ∨ c.unhealthy ≤ 0 ∨ c.lost ≤ 0 ∨ c.retention ≤ 0 ∨ c.heartbeatInterval ≤ 0 then
    some .durations
  else if c.suspect ≥ c.unhealthy ∨ c.unhealthy ≥ c.lost then some .thresholds
  else if c.maxWorkers < 1 then some .maxWorkers
  else none

/-- `healthAt`. -/
def Config.healthAt (c : Config) (age : Duration) : Health :=
  if age > c.lost then .lost
  else if age > c.unhealthy then .unhealthy
  else if age ≥ c.suspect then .suspect
  else .healthy

/-! ### Entries -/

structure Entry where
  info : WorkerInfo
  regID : String
  /-- As last reported by the worker. -/
  state : WorkerState
  metrics : Metrics
  reason : String
  registeredAt : Time
  lastBeat : Time
  /-- The effective state last logged. -/
  observed : WorkerState
  /-- It has reported `DRAINING`. -/
  drained : Bool

structure Registry where
  cfg : Config
  workers : GoMap String Entry

/-- `NewWithClock`, for a valid configuration. -/
def newRegistry (cfg : Config) : Registry := ⟨cfg, ∅⟩

inductive RegistryError
  | invalid
  | unknownWorker
  | staleRegistration
  | illegalTransition (last next : WorkerState)
  | full
  deriving Repr, DecidableEq

/-- `age`: how long the worker has been silent. -/
def Entry.age (e : Entry) (now : Time) : Duration :=
  if now - e.lastBeat > 0 then now - e.lastBeat else 0

/-- A new entry. -/
def Entry.new (info : WorkerInfo) (regID : String) (now : Time) : Entry :=
  { info := info, regID := regID, state := .registering, metrics := .zero, reason := "",
    registeredAt := now, lastBeat := now, observed := .registering, drained := false }

namespace Registry

variable (r : Registry)

/-- `effective`: the state that clients see. -/
def effective (e : Entry) (now : Time) : WorkerState :=
  match r.cfg.healthAt (e.age now) with
  | .lost => .lost
  | .unhealthy => .unhealthy
  | _ => e.state

/-- `observeLocked`. -/
def observe (e : Entry) (now : Time) : Entry := { e with observed := r.effective e now }

/-- The entry has been silent for longer than it is retained. -/
def expired (e : Entry) (now : Time) : Bool := e.age now > r.cfg.lost + r.cfg.retention

/-- `evictLocked`. -/
def evict (now : Time) : Registry :=
  { r with workers := r.workers.keep fun _ e => !r.expired e now }

/-! ### Calls -/

/-- `register`, with the lock held: a long-lost worker makes room for a new one. -/
def register (info : WorkerInfo) (regID : String) (now : Time) :
    Registry × Except RegistryError String :=
  let known := (r.workers.lookup info.workerID).isSome
  let r' := if !known && decide ((r.workers.len : Int) ≥ r.cfg.maxWorkers) then r.evict now else r
  if !known && decide ((r'.workers.len : Int) ≥ r.cfg.maxWorkers) then (r', .error .full)
  else
    ({ r' with workers := r'.workers.insert info.workerID (.new info regID now) }, .ok regID)

/-- `Register`. -/
def registerCall (okAddress : String → Bool) (info : WorkerInfo) (regID : String) (now : Time) :
    Registry × Except RegistryError String :=
  if !info.validate okAddress then (r, .error .invalid) else r.register info regID now

/-- A drained worker may only keep draining or fail. -/
def allowed (e : Entry) (next : WorkerState) : Bool :=
  Protocol.canTransition e.state next &&
    !(e.drained && decide (next ≠ .draining) && decide (next ≠ .failed))

/-- What an accepted heartbeat makes of the entry. -/
def beat (e : Entry) (hb : Heartbeat) (now : Time) : Entry :=
  r.observe { e with
    state := hb.state
    metrics := hb.metrics
    reason := hb.reason
    lastBeat := now
    drained := e.drained || decide (hb.state = .draining) } now

/-- `heartbeat`. -/
def heartbeat (id regID : String) (hb : Heartbeat) (now : Time) :
    Registry × Except RegistryError Unit :=
  match r.workers.lookup id with
  | none => (r, .error .unknownWorker)
  | some e =>
    if e.regID ≠ regID then (r, .error .staleRegistration)
    else if !allowed e hb.state then (r, .error (.illegalTransition e.state hb.state))
    else ({ r with workers := r.workers.insert id (r.beat e hb now) }, .ok ())

/-- `Heartbeat`. -/
def heartbeatCall (id regID : String) (hb : Heartbeat) (now : Time) :
    Registry × Except RegistryError Unit :=
  if !hb.validate then (r, .error .invalid) else r.heartbeat id regID hb now

/-- `Deregister`. -/
def deregister (id regID : String) : Registry × Except RegistryError Unit :=
  match r.workers.lookup id with
  | none => (r, .error .unknownWorker)
  | some e =>
    if e.regID ≠ regID then (r, .error .staleRegistration)
    else ({ r with workers := r.workers.erase id }, .ok ())

/-- `Sweep`, with the number of workers evicted. -/
def sweep (now : Time) : Registry × Nat :=
  let seen := { r with workers := r.workers.mapVals fun e => r.observe e now }
  (seen.evict now, seen.workers.len - (seen.evict now).workers.len)

/-! ### Reading -/

/-- `snapshot`. -/
def snapshot (e : Entry) (now : Time) : WorkerSnapshot :=
  let health := r.cfg.healthAt (e.age now)
  let state := r.effective e now
  { workerID := e.info.workerID, model := e.info.model, maxConcurrency := e.info.maxConcurrency,
    state := state, health := health,
    eligible := decide (state = .ready) &&
      (decide (health = .healthy) || decide (health = .suspect) && r.cfg.suspectEligible),
    activeRequests := e.metrics.activeRequests, registeredAt := e.registeredAt,
    heartbeatAgeSeconds := (e.age now : ℚ) / 10 ^ 9, address := e.info.address,
    queueSize := e.info.queueSize, metrics := e.metrics, reason := e.reason,
    lastHeartbeat := e.lastBeat }

/-- `ListFilter`. An empty field matches everything. -/
structure ListFilter where
  model : String
  state : Option WorkerState
  eligibleOnly : Bool

def ListFilter.all : ListFilter := ⟨"", none, false⟩

def ListFilter.passes (f : ListFilter) (s : WorkerSnapshot) : Bool :=
  !((decide (f.model ≠ "") && decide (s.model ≠ f.model)) ||
    (f.state.any fun st => s.state ≠ st) || (f.eligibleOnly && !s.eligible))

/-- `List`: the workers that pass the filter, by ID. -/
def list (f : ListFilter) (now : Time) : List WorkerSnapshot :=
  ((r.workers.vals.map fun e => r.snapshot e now).filter f.passes).insertionSort
    fun a b => a.workerID ≤ b.workerID

/-- `Get`. -/
def get (id : String) (now : Time) : Option WorkerSnapshot :=
  (r.workers.lookup id).map fun e => r.snapshot e now

end Registry

end ServerFlow.ControlPlane
