import ServerFlow.Lib.Search
import ServerFlow.Protocol.Worker

/-!
# Scheduler.Strategies

The choice of a worker (`internal/scheduler/scheduler.go`): the filter that all strategies share,
the rotor, and the strategies that take turns, round robin and the least loaded ones.

Indices into the view are the workers themselves here, and Go's `sort.Slice`, whose order among
equal elements is not specified, is an insertion sort: the two agree on views with different worker
IDs. IDs are compared byte by byte in Go and by code point here, which is the same order. The random
strategy and the work-aware ones are left out.
-/

namespace ServerFlow.Scheduler

open List
open Protocol (WorkerSnapshot)

variable {workers : List WorkerSnapshot}

/-! ### The filter -/

/-- `NoWorkerError`: why nothing was selected. -/
structure NoWorkerError where
  model : String
  serving : Int
  eligible : Int
  atCapacity : Int

/-- An error of `SelectWorker`. -/
inductive SelectError
  /-- The request's context is over. -/
  | cancelled
  | noWorker (why : NoWorkerError)

/-- `READY`, offered by the registry and of acceptable health. -/
def offered (w : WorkerSnapshot) : Bool := Gateway.schedulable w.toWorkerSnapshot

def full (w : WorkerSnapshot) : Bool := decide (w.activeRequests ≥ w.maxConcurrency)

/-- The loop of `eligible`: the counts and the workers kept. -/
def filterStep (acc : NoWorkerError × List WorkerSnapshot) (w : WorkerSnapshot) :
    NoWorkerError × List WorkerSnapshot :=
  let (why, kept) := acc
  if w.model ≠ why.model then (why, kept)
  else if !offered w then ({ why with serving := why.serving + 1 }, kept)
  else if full w then
    ({ why with serving := why.serving + 1, eligible := why.eligible + 1, atCapacity := why.atCapacity + 1 }, kept)
  else ({ why with serving := why.serving + 1, eligible := why.eligible + 1 }, kept ++ [w])

def byID (w w' : WorkerSnapshot) : Prop := w.workerID ≤ w'.workerID

instance : DecidableRel byID := fun w w' => inferInstanceAs (Decidable (w.workerID ≤ w'.workerID))

/-- `eligible`: the workers that may serve the model, by worker ID. -/
def eligible (model : String) (workers : List WorkerSnapshot) :
    Except NoWorkerError (List WorkerSnapshot) :=
  let (why, kept) := workers.foldl filterStep (⟨model, 0, 0, 0⟩, [])
  if kept.isEmpty then .error why else .ok (kept.insertionSort byID)

/-! ### The rotor -/

/-- `rotor`: by model, the last worker handed out. -/
structure Rotor where
  last : GoMap String String

def newRotor : Rotor := ⟨∅⟩

/-- The ID handed out last for a model, the empty one if there is none. -/
def Rotor.lastOf (r : Rotor) (model : String) : String := (r.last.lookup model).getD ""

/-- `rotor.next`: the position of the first ID after the one handed out last, wrapping around. -/
def Rotor.next (r : Rotor) (model : String) (ids : List String) : Rotor × Nat :=
  let last := r.lastOf model
  let i := Search.search ids.length fun i => (ids[i]?).all fun id => decide (last < id)
  let i := if i = ids.length then 0 else i
  (⟨r.last.insert model (ids[i]?.getD "")⟩, i)

/-- Hand out the worker whose turn it is. There is one to choose from. -/
def Rotor.hand (r : Rotor) (model : String) (workers : List WorkerSnapshot) :
    Rotor × Option WorkerSnapshot :=
  let (r, i) := r.next model (workers.map (·.workerID))
  (r, workers[i]?)

/-! ### Strategies -/

/-- What the strategies have in common: the context, the filter, and then a choice among the workers
that are left. -/
def selectWith (choose : Rotor → List WorkerSnapshot → Rotor × Option WorkerSnapshot) (r : Rotor)
    (cancelled : Bool) (model : String) (workers : List WorkerSnapshot) :
    Rotor × Except SelectError WorkerSnapshot :=
  if cancelled then (r, .error .cancelled)
  else
    match eligible model workers with
    | .error why => (r, .error (.noWorker why))
    | .ok kept =>
      match choose r kept with
      | (r, some w) => (r, .ok w)
      | (r, none) => (r, .error (.noWorker ⟨model, 0, 0, 0⟩))

/-- `roundRobin.SelectWorker`. -/
def roundRobin (r : Rotor) (cancelled : Bool) (model : String) (workers : List WorkerSnapshot) :
    Rotor × Except SelectError WorkerSnapshot :=
  selectWith (fun r kept => r.hand model kept) r cancelled model workers

/-- The first loop of `chooseWith`: the least load. -/
def leastLoad (load : WorkerSnapshot → Int) : List WorkerSnapshot → Int
  | [] => 0
  | w :: ws => ws.foldl (fun m w => if load w < m then load w else m) (load w)

/-- `leastLoaded.chooseWith`: those with the least load take turns. -/
def chooseWith (load : WorkerSnapshot → Int) (r : Rotor) (model : String)
    (kept : List WorkerSnapshot) : Rotor × Option WorkerSnapshot :=
  r.hand model (kept.filter fun w => decide (load w = leastLoad load kept))

/-- `leastLoaded.SelectWorker`. -/
def leastLoaded (load : WorkerSnapshot → Int) (r : Rotor) (cancelled : Bool) (model : String)
    (workers : List WorkerSnapshot) : Rotor × Except SelectError WorkerSnapshot :=
  selectWith (fun r kept => chooseWith load r model kept) r cancelled model workers

def activeLoad (w : WorkerSnapshot) : Int := w.activeRequests

/-- The strategy `least-active`. -/
def leastActive :
    Rotor → Bool → String → List WorkerSnapshot → Rotor × Except SelectError WorkerSnapshot :=
  leastLoaded activeLoad

/-- The strategy `least-queue`. -/
def leastQueue :
    Rotor → Bool → String → List WorkerSnapshot → Rotor × Except SelectError WorkerSnapshot :=
  leastLoaded fun w => w.metrics.queueDepth

/-! ### What the filter keeps -/

/-- The worker may serve the model. -/
def candidate (model : String) (w : WorkerSnapshot) : Bool :=
  decide (w.model = model) && offered w && !full w

theorem filterStep_spec (why : NoWorkerError) (kept : List WorkerSnapshot) (w : WorkerSnapshot) :
    (filterStep (why, kept) w).1.model = why.model ∧
      (filterStep (why, kept) w).2 = kept ++ [w].filter (candidate why.model) := by
  unfold filterStep
  dsimp only
  by_cases hmodel : w.model = why.model
  · rw [if_neg (not_not.mpr hmodel)]
    cases hoffered : offered w with
    | false => simp [candidate, hoffered]
    | true =>
      cases hfull : full w with
      | true => simp [candidate, hfull]
      | false => simp [candidate, hmodel, hoffered, hfull]
  · rw [if_pos hmodel]
    simp [candidate, hmodel]

theorem foldl_filterStep (workers : List WorkerSnapshot) (why : NoWorkerError)
    (kept : List WorkerSnapshot) :
    (workers.foldl filterStep (why, kept)).2 = kept ++ workers.filter (candidate why.model) := by
  induction workers generalizing why kept with
  | nil => simp
  | cons w workers ih =>
    obtain ⟨hmodel, hkept⟩ := filterStep_spec why kept w
    rw [foldl_cons, ← Prod.mk.eta (p := filterStep (why, kept) w), ih, hmodel, hkept, append_assoc,
      ← filter_append]
    rfl

/-- The candidates, in the order of their IDs. -/
def candidates (model : String) (workers : List WorkerSnapshot) : List WorkerSnapshot :=
  (workers.filter (candidate model)).insertionSort byID

theorem mem_candidates {model : String} {w : WorkerSnapshot} :
    w ∈ candidates model workers ↔ w ∈ workers ∧ candidate model w = true := by
  unfold candidates
  rw [mem_insertionSort, mem_filter]

/-- `eligible` returns the candidates, or an error if there are none. -/
theorem eligible_eq (model : String) (workers : List WorkerSnapshot) :
    (candidates model workers = [] ∧ ∃ why, eligible model workers = .error why) ∨
      candidates model workers ≠ [] ∧ eligible model workers = .ok (candidates model workers) := by
  have hkept := foldl_filterStep workers ⟨model, 0, 0, 0⟩ []
  rw [nil_append] at hkept
  unfold eligible candidates
  cases hfilter : workers.filter (candidate model) with
  | nil =>
    refine .inl ⟨rfl, (workers.foldl filterStep (⟨model, 0, 0, 0⟩, [])).1, ?_⟩
    dsimp only
    rw [hkept, hfilter]
    rfl
  | cons w ws =>
    refine .inr ⟨?_, ?_⟩
    · intro hnil
      have hlen := congrArg List.length hnil
      rw [length_insertionSort] at hlen
      simp at hlen
    · dsimp only
      rw [hkept, hfilter]
      rfl

/-- With different IDs, the candidates are in strict order. -/
theorem candidates_sorted (model : String) (hids : (workers.map (·.workerID)).Nodup) :
    (candidates model workers).Pairwise fun w w' => w.workerID < w'.workerID := by
  have hperm : (candidates model workers).Perm (workers.filter (candidate model)) :=
    perm_insertionSort _ _
  have hnodup : ((candidates model workers).map (·.workerID)).Nodup :=
    (hperm.map _).nodup_iff.mpr (hids.sublist (filter_sublist.map _))
  have htotal : Std.Total byID := ⟨fun w w' => le_total w.workerID w'.workerID⟩
  have htrans : IsTrans WorkerSnapshot byID := ⟨fun _ _ _ h h' => le_trans h h'⟩
  have hsorted : (candidates model workers).Pairwise byID := pairwise_insertionSort byID _
  refine (hsorted.and (pairwise_map.mp hnodup)).imp ?_
  intro w w' h
  exact lt_of_le_of_ne h.1 h.2

end ServerFlow.Scheduler
