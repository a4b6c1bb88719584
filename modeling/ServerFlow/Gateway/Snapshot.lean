import ServerFlow.Lib.Search
import ServerFlow.Protocol.Worker

/-!
# Gateway.Snapshot

The gateway's copy of the registry (`internal/gateway/snapshot.go`). Trust in a snapshot is bounded:
one that is older than `maxStale` is not used, and within that bound every heartbeat age is advanced
by the age of the snapshot, so that a worker that fell silent stops being eligible when it would
have turned suspect.

Seconds are rational numbers, so an age is never `NaN` or infinite. The functions are those of one
goroutine after the other: a report that `syncAged` leaves to somebody else does not occur. What the
clock reads, what the registry served and the order in which a loop visits a map are arguments.
Refreshes that fail leave the snapshot alone and are left out, and so are the hooks other than
`onSync`, whose calls are returned (`Report`). Two workers of one ID are sorted as they were served.
-/

namespace ServerFlow.Gateway

open List
open Resilience (Time Duration Member)

variable {w : Protocol.WorkerSnapshot} {ws view : List Protocol.WorkerSnapshot}
  {okAddress : String → Bool}

/-- `Duration.Seconds`. -/
def seconds (d : Duration) : ℚ := d / 10 ^ 9

def maxInt64 : Int := 2 ^ 63 - 1

/-! ### Snapshots -/

/-- `snapshot`. -/
structure Snapshot where
  byModel : GoMap String (List Protocol.WorkerSnapshot)
  /-- When the request that produced it was sent. -/
  fetched : Time
  /-- The age at which the next worker that is eligible now turns suspect. -/
  nextAge : Int

def Snapshot.workers (s : Snapshot) (model : String) : List Protocol.WorkerSnapshot :=
  (s.byModel.lookup model).getD []

/-- What `onSync` is called with. -/
structure Report where
  members : List Member
  models : GoMap String String

structure SnapshotCache where
  maxStale : Duration
  suspectAfter : Duration
  /-- `onSync` is set. -/
  onSync : Bool
  cur : Option Snapshot

/-- `newSnapshotCache`. -/
def newSnapshotCache (maxStale suspectAfter : Duration) (onSync : Bool) : SnapshotCache :=
  ⟨maxStale, suspectAfter, onSync, none⟩

/-- `believable`. -/
def believable (okAddress : String → Bool) (w : Protocol.WorkerSnapshot) : Bool :=
  !decide (w.heartbeatAgeSeconds < 0) &&
    !decide (w.maxConcurrency < 1 ∨ w.metrics.activeRequests < 0 ∨ w.metrics.queueDepth < 0) &&
    okAddress w.address

/-- A worker that is not believable is not eligible. -/
def judged (okAddress : String → Bool) (w : Protocol.WorkerSnapshot) : Protocol.WorkerSnapshot :=
  if !believable okAddress w then { w with eligible := false } else w

/-- The loop of `Refresh` that groups the workers by model. -/
def groupByModel (okAddress : String → Bool) (ws : List Protocol.WorkerSnapshot) :
    GoMap String (List Protocol.WorkerSnapshot) :=
  ws.foldl (fun m w => m.insert w.model ((m.lookup w.model).getD [] ++ [judged okAddress w])) ∅

def sortByID (ws : List Protocol.WorkerSnapshot) : List Protocol.WorkerSnapshot :=
  ws.insertionSort fun a b => a.workerID ≤ b.workerID

/-- The snapshot that `Refresh` makes of what the registry served. -/
def takeSnapshot (okAddress : String → Bool) (started : Time) (ws : List Protocol.WorkerSnapshot) :
    Snapshot :=
  ⟨(groupByModel okAddress ws).mapVals sortByID, started, maxInt64⟩

namespace SnapshotCache

variable (c : SnapshotCache)

/-! ### Reports -/

/-- The worker is schedulable at the given age of the snapshot, as `runSync` judges. -/
def syncEligible (age : Duration) (w : Protocol.WorkerSnapshot) : Bool :=
  if schedulable w.toWorkerSnapshot &&
      decide (w.heartbeatAgeSeconds + seconds age ≥ seconds c.suspectAfter) then false
  else schedulable w.toWorkerSnapshot

/-- The age at which the worker turns suspect, if a duration can be that long. -/
def turnsAt (w : Protocol.WorkerSnapshot) : Option Int :=
  let secs := seconds c.suspectAfter - w.heartbeatAgeSeconds
  if secs < 2 ^ 63 / 10 ^ 9 then some ⌈secs * 10 ^ 9⌉ else none

/-- The variables of the loop of `runSync`. -/
structure Syncing where
  members : List Member
  models : GoMap String String
  next : Int

def syncWorker (age : Duration) (model : String) (a : Syncing) (w : Protocol.WorkerSnapshot) :
    Syncing :=
  let eligible := c.syncEligible age w
  { members := a.members ++ [⟨keyOf w.toWorkerSnapshot, model, eligible⟩]
    models := a.models.insert w.workerID model
    next := if eligible then ((c.turnsAt w).elim a.next fun n => min a.next n) else a.next }

def syncModel (s : Snapshot) (age : Duration) (a : Syncing) (model : String) : Syncing :=
  (s.workers model).foldl (c.syncWorker age model) a

/-- `runSync`. -/
def runSync (order : List String) (s : Snapshot) (age : Duration) : Snapshot × Report :=
  let a := (s.byModel.rangeKeys order).foldl (c.syncModel s age) ⟨[], ∅, maxInt64⟩
  ({ s with nextAge := a.next }, ⟨a.members, a.models⟩)

/-- `Refresh`, when the registry served `ws`: the request was sent at `started`. -/
def refresh (okAddress : String → Bool) (order : List String) (started now : Time)
    (ws : List Protocol.WorkerSnapshot) : SnapshotCache × List Report :=
  let s := takeSnapshot okAddress started ws
  if c.onSync then
    let r := c.runSync order s (now - started)
    ({ c with cur := some r.1 }, [r.2])
  else ({ c with cur := some s }, [])

/-- `syncAged`. -/
def syncAged (order : List String) (s : Snapshot) (age : Duration) : SnapshotCache × List Report :=
  if !c.onSync || decide (age < s.nextAge) then (c, [])
  else
    let r := c.runSync order s age
    ({ c with cur := some r.1 }, [r.2])

/-! ### Views -/

/-- `fresh`: the snapshot and its age, if it may be used. -/
def fresh (now : Time) : Option (Snapshot × Duration) :=
  c.cur.bind fun s => if now - s.fetched ≤ c.maxStale then some (s, now - s.fetched) else none

/-- One round of `age`. -/
def ageWorker (age : Duration) (w : Protocol.WorkerSnapshot) : Protocol.WorkerSnapshot :=
  let w := { w with heartbeatAgeSeconds := w.heartbeatAgeSeconds + seconds age }
  if w.eligible && decide (w.heartbeatAgeSeconds ≥ seconds c.suspectAfter) then
    { w with eligible := false, health := .suspect }
  else w

/-- `age`. -/
def aged (ws : List Protocol.WorkerSnapshot) (age : Duration) : List Protocol.WorkerSnapshot :=
  ws.map (c.ageWorker age)

/-- `viewAt`: the workers of a model and the instant their ages were advanced to. -/
def viewAt (order : List String) (model : String) (now : Time) :
    SnapshotCache × List Report × Option (List Protocol.WorkerSnapshot × Time) :=
  match c.fresh now with
  | none => (c, [], none)
  | some (s, age) =>
    let r := c.syncAged order s age
    (r.1, r.2, some (c.aged (s.workers model) age, s.fetched + age))

/-- `worker`: one worker of a model. -/
def worker (model id : String) (now : Time) : Option Protocol.WorkerSnapshot :=
  (c.fresh now).bind fun (s, age) =>
    let list := s.workers model
    let i := Search.search list.length fun i => (list[i]?).all fun w => decide (w.workerID ≥ id)
    (list[i]?).bind fun w => if w.workerID ≠ id then none else some (c.ageWorker age w)

/-- `Models`: the models that have an eligible worker. -/
def models (order : List String) (now : Time) : Option (List String) :=
  (c.fresh now).map fun (s, age) =>
    ((s.byModel.rangeKeys order).filter fun m =>
      (c.aged (s.workers m) age).any (·.eligible)).insertionSort (· ≤ ·)

end SnapshotCache

/-! ### What a snapshot has -/

theorem mem_groupByModel {model : String} : w ∈ ((groupByModel okAddress ws).lookup model).getD [] ↔
      ∃ w₀ ∈ ws, w₀.model = model ∧ judged okAddress w₀ = w := by
  -- the groups so far have the workers so far
  suffices h : ∀ m : GoMap String (List Protocol.WorkerSnapshot),
      w ∈ ((ws.foldl (fun m w => m.insert w.model
        ((m.lookup w.model).getD [] ++ [judged okAddress w])) m).lookup model).getD [] ↔
      w ∈ (m.lookup model).getD [] ∨ ∃ w₀ ∈ ws, w₀.model = model ∧ judged okAddress w₀ = w by
    simpa [groupByModel] using h ∅
  induction ws with
  | nil => simp
  | cons w₁ ws ih =>
    intro m
    rw [foldl_cons, ih, AList.lookup_insert_ite]
    by_cases hmodel : model = w₁.model
    · subst hmodel
      simp only [if_true, Option.getD_some, mem_append, mem_cons, not_mem_nil, false_or,
        exists_eq_or_imp, true_and, or_assoc, @eq_comm _ w (judged okAddress w₁)]
    · simp only [if_neg hmodel, mem_cons, exists_eq_or_imp, Ne.symm hmodel, false_and, false_or]

theorem mem_takeSnapshot {started : Time} {model : String} :
    w ∈ (takeSnapshot okAddress started ws).workers model ↔
      ∃ w₀ ∈ ws, w₀.model = model ∧ judged okAddress w₀ = w := by
  rw [← mem_groupByModel]
  simp only [takeSnapshot, Snapshot.workers, AList.lookup_mapVals]
  cases (groupByModel okAddress ws).lookup model with
  | none => simp
  | some l => simp [sortByID]

namespace SnapshotCache

variable {c : SnapshotCache} {now : Time} {order : List String} {model : String} {age : Duration}
  {okAddress : String → Bool}

/-- Views see a refreshed cache with the snapshot that was taken, whatever was reported. -/
theorem cur_refresh (okAddress : String → Bool) (order : List String) (started now : Time)
    (ws : List Protocol.WorkerSnapshot) : ∃ nextAge,
      (c.refresh okAddress order started now ws).1 =
        { c with cur := some { takeSnapshot okAddress started ws with nextAge := nextAge } } := by
  unfold refresh
  split
  · exact ⟨_, rfl⟩
  · exact ⟨_, rfl⟩

variable {s : Snapshot} {at_ : Time}

theorem fresh_eq_some :
    c.fresh now = some (s, age) ↔
      c.cur = some s ∧ age = now - s.fetched ∧ now - s.fetched ≤ c.maxStale := by
  unfold fresh
  cases c.cur with
  | none => simp
  | some s' =>
    by_cases hle : now - s'.fetched ≤ c.maxStale
    · simp only [Option.bind_some, if_pos hle, Option.some.injEq, Prod.mk.injEq]
      constructor
      · rintro ⟨rfl, rfl⟩
        exact ⟨rfl, rfl, hle⟩
      · rintro ⟨rfl, rfl, -⟩
        exact ⟨rfl, rfl⟩
    · simp only [Option.bind_some, if_neg hle, Option.some.injEq, reduceCtorEq, false_iff]
      rintro ⟨rfl, rfl, hle'⟩
      exact hle hle'

theorem refresh_of_onSync (hon : c.onSync = true) (okAddress : String → Bool) (order : List String)
    (started now : Time) (ws : List Protocol.WorkerSnapshot) :
    c.refresh okAddress order started now ws =
      ({ c with cur := some (c.runSync order (takeSnapshot okAddress started ws) (now - started)).1
        },
        [(c.runSync order (takeSnapshot okAddress started ws) (now - started)).2]) := by
  unfold refresh
  rw [if_pos hon]

theorem syncAged_of_lt (h : age < s.nextAge) : c.syncAged order s age = (c, []) := by
  unfold syncAged
  rw [if_pos (by simp [h])]

theorem syncAged_of_le (hon : c.onSync = true)
    (h : s.nextAge ≤ age) : c.syncAged order s age =
      ({ c with cur := some (c.runSync order s age).1 }, [(c.runSync order s age).2]) := by
  unfold syncAged
  rw [if_neg (by simp [hon, h])]

/-- What is read from a refreshed cache is the snapshot that was taken. -/
theorem fresh_refresh {started : Time}
    (h : (c.refresh okAddress order started now ws).1.fresh at_ = some (s, age)) :
    s.workers = (takeSnapshot okAddress started ws).workers ∧ age = at_ - started := by
  obtain ⟨nextAge, hcur⟩ := c.cur_refresh okAddress order started now ws
  rw [hcur, fresh_eq_some] at h
  obtain ⟨hs, rfl, -⟩ := h
  rw [← Option.some.inj hs]
  exact ⟨rfl, rfl⟩

theorem viewAt_eq_some (h : (c.viewAt order model now).2.2 = some (view, at_)) :
    ∃ s age, c.fresh now = some (s, age) ∧ view = c.aged (s.workers model) age ∧
      at_ = s.fetched + age := by
  unfold viewAt at h
  cases hfresh : c.fresh now with
  | none =>
    rw [hfresh] at h
    cases h
  | some r =>
    obtain ⟨s, age⟩ := r
    rw [hfresh] at h
    cases h
    exact ⟨s, age, rfl, rfl, rfl⟩

@[simp] theorem ageWorker_workerID (age : Duration) (w : Protocol.WorkerSnapshot) :
    (c.ageWorker age w).workerID = w.workerID := by
  unfold ageWorker
  dsimp only
  split <;> rfl

theorem worker_eq_some {id : String} (h : c.worker model id now = some w) :
    ∃ s age, c.fresh now = some (s, age) ∧ w ∈ c.aged (s.workers model) age ∧ w.workerID = id := by
  simp only [worker, Option.bind_eq_some_iff] at h
  obtain ⟨⟨s, age⟩, hfresh, w₀, hw₀, hid⟩ := h
  split at hid
  next => cases hid
  next hne =>
    cases hid
    refine ⟨s, age, hfresh, mem_map_of_mem (mem_of_getElem? hw₀), ?_⟩
    rw [ageWorker_workerID]
    exact not_not.mp hne

theorem models_eq_some {ms : List String} {m : String}
    (h : c.models order now = some ms) (hm : m ∈ ms) :
    ∃ s age, c.fresh now = some (s, age) ∧ ∃ w ∈ c.aged (s.workers m) age, w.eligible = true := by
  obtain ⟨⟨s, age⟩, hfresh, rfl⟩ := Option.map_eq_some_iff.mp h
  rw [mem_insertionSort, mem_filter, any_eq_true] at hm
  exact ⟨s, age, hfresh, hm.2⟩

/-! ### Aging -/

/-- An aged worker is eligible if it was and has not turned suspect. -/
theorem ageWorker_eligible (age : Duration) (w : Protocol.WorkerSnapshot) :
    (c.ageWorker age w).eligible =
      (w.eligible && decide (w.heartbeatAgeSeconds + seconds age < seconds c.suspectAfter)) := by
  unfold ageWorker
  dsimp only
  cases hw : w.eligible with
  | false => simp
  | true =>
    by_cases hlt : w.heartbeatAgeSeconds + seconds age < seconds c.suspectAfter
    · simp [hlt, not_le.mpr hlt]
    · simp [hlt, not_lt.mp hlt]

/-- In one snapshot, a worker that is eligible at some age was so at every smaller age. -/
theorem viewAt_antitone {later : Time} (hle : now ≤ later)
    (hview : (c.viewAt order model later).2.2 = some (view, at_)) :
    ∃ view₀ at₀, (c.viewAt order model now).2.2 = some (view₀, at₀) ∧
      ∀ (i : Nat) (w : Protocol.WorkerSnapshot), view[i]? = some w → w.eligible = true →
        ∃ w₀, view₀[i]? = some w₀ ∧ w₀.workerID = w.workerID ∧ w₀.eligible = true := by
  obtain ⟨s, age, hfresh, rfl, -⟩ := viewAt_eq_some hview
  obtain ⟨hcur, rfl, hstale⟩ := fresh_eq_some.mp hfresh
  have hfresh₀ : c.fresh now = some (s, now - s.fetched) :=
    fresh_eq_some.mpr ⟨hcur, rfl, by linarith⟩
  refine ⟨c.aged (s.workers model) (now - s.fetched), s.fetched + (now - s.fetched), ?_, ?_⟩
  · simp only [viewAt, hfresh₀]
  · intro i w hw helig
    rw [aged, List.getElem?_map, Option.map_eq_some_iff] at hw
    obtain ⟨w₁, hw₁, rfl⟩ := hw
    refine ⟨c.ageWorker (now - s.fetched) w₁, ?_, ?_, ?_⟩
    · rw [aged, List.getElem?_map, hw₁, Option.map_some]
    · rw [ageWorker_workerID, ageWorker_workerID]
    · rw [ageWorker_eligible, Bool.and_eq_true, decide_eq_true_eq] at helig ⊢
      have hsecs : seconds (now - s.fetched) ≤ seconds (later - s.fetched) := by
        unfold seconds
        gcongr
      exact ⟨helig.1, by linarith [helig.2]⟩

theorem eligible_of_schedulable {w : WorkerSnapshot} (h : schedulable w = true) :
    w.state = .ready ∧ w.eligible = true := by
  simp only [schedulable, Bool.and_eq_true, decide_eq_true_eq] at h
  exact h.1

theorem judged_eligible (h : (judged okAddress w).eligible = true) : judged okAddress w = w := by
  unfold judged at h ⊢
  split
  next hbad =>
    rw [if_pos hbad] at h
    cases h
  next => rfl

end SnapshotCache

end ServerFlow.Gateway
