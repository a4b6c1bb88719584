import ServerFlow.Lib.Rotation
import ServerFlow.Scheduler.Strategies

/-!
# Scheduler.Fairness

How the strategies share out the selections for one model while workers come and go.

The rotor hands out the worker that `Rotation.IsNext` names (`Rotor.hand_spec`), and remembers its
ID. So the IDs that a strategy chooses are turns in the sense of `Rotation.Turns`: among the
candidates for round robin, among the candidates of least load for the others. What is said about
turns is then said about the choices. Last, what the order of the view has to do with them, and what
a refusal says.
-/

namespace ServerFlow.Scheduler

open List
open Protocol (WorkerSnapshot)
open Rotation (IsNext Turns Before)

variable {pool : List WorkerSnapshot → List WorkerSnapshot} {views : List (List WorkerSnapshot)}

/-! ### The rotor hands out the next one -/

theorem Rotor.next_spec (r : Rotor) (model : String) (ids : List String) (hne : ids ≠ [])
    (hsorted : ids.Pairwise (· < ·)) :
    ∃ id, ids[(r.next model ids).2]? = some id ∧ IsNext (r.lastOf model) ids id ∧
      (r.next model ids).1.lastOf model = id := by
  obtain ⟨last, hlast⟩ : ∃ last, last = r.lastOf model := ⟨_, rfl⟩
  have htest : (fun i : Nat => (ids[i]?).all fun id => decide (last < id)) =
      fun i : Nat => (ids[i]?).all fun id => !decide (id ≤ last) := by
    funext i
    congr 1
    funext id
    rw [← decide_not]
    exact decide_eq_decide.mpr not_le.symm
  have hmono : ids.Pairwise fun x y => decide (y ≤ last) = true → decide (x ≤ last) = true := by
    refine hsorted.imp ?_
    intro x y hxy hy
    exact decide_eq_true (hxy.le.trans (of_decide_eq_true hy))
  have hsearch := Search.search_eq_length_takeWhile hmono
  have hfound : (r.next model ids).2 =
      if (ids.takeWhile fun id => decide (id ≤ last)).length = ids.length then 0
      else (ids.takeWhile fun id => decide (id ≤ last)).length := by
    show (if Search.search ids.length _ = ids.length then 0 else Search.search ids.length _) = _
    rw [← hlast, htest, hsearch]
  -- whatever is at the position becomes the last one
  have hstore : ∀ id, ids[(r.next model ids).2]? = some id →
      (r.next model ids).1.lastOf model = id := by
    intro id hid
    show ((AList.insert model ((ids[(r.next model ids).2]?).getD "") r.last).lookup model).getD "" =
      id
    rw [AList.lookup_insert, hid]
    rfl
  rw [← hlast]
  by_cases hall : (ids.takeWhile fun id => decide (id ≤ last)).length = ids.length
  · -- nobody is after the last one: start over
    rw [if_pos hall] at hfound
    have hle : ∀ x ∈ ids, x ≤ last := by
      have heq := ( takeWhile_prefix _).eq_of_length hall
      intro x hx
      rw [← heq] at hx
      have hpass := mem_takeWhile_imp hx
      exact of_decide_eq_true hpass
    obtain ⟨id, rest, rfl⟩ := exists_cons_of_ne_nil hne
    refine ⟨id, by rw [hfound]; rfl, ⟨mem_cons_self, ?_⟩, hstore id (by rw [hfound]; rfl)⟩
    intro x hx hxne
    have hlt : id < x := by
      rcases mem_cons.mp hx with rfl | hx
      · exact absurd rfl hxne
      · exact (pairwise_cons.mp hsorted).1 x hx
    unfold Before
    rw [if_neg (not_lt.mpr (hle id mem_cons_self))]
    exact ⟨hle x hx, hlt⟩
  · rw [if_neg hall] at hfound
    have hlen : (ids.takeWhile fun id => decide (id ≤ last)).length < ids.length :=
      lt_of_le_of_ne ( takeWhile_prefix _).length_le hall
    have hget : ids[(r.next model ids).2]? =
        some ids[(ids.takeWhile fun id => decide (id ≤ last)).length] := by
      rw [hfound, List.getElem?_eq_getElem hlen]
    have hafter : last < ids[(ids.takeWhile fun id => decide (id ≤ last)).length] := by
      have hfail := Search.getElem?_length_takeWhile (fun id => decide (id ≤ last)) ids
      rw [List.getElem?_eq_getElem hlen, Option.all_some] at hfail
      simpa using hfail
    refine ⟨_, hget, ⟨getElem_mem hlen, ?_⟩, hstore _ hget⟩
    intro x hx hxne
    unfold Before
    rw [if_pos hafter]
    -- one that is not after the last one is left for the next round, and the others are further on
    obtain ⟨m, hm, rfl⟩ := getElem_of_mem hx
    rcases Nat.lt_trichotomy m (ids.takeWhile fun id => decide (id ≤ last)).length with hlt | heq |
      hgt
    · have hpass := mem_takeWhile_imp (getElem_mem hlt)
      rw [List.IsPrefix.getElem ( takeWhile_prefix _) hlt] at hpass
      exact .inl (of_decide_eq_true hpass)
    · subst heq
      exact absurd rfl hxne
    · exact .inr (pairwise_iff_getElem.mp hsorted _ _ hlen hm hgt)

variable {workers kept : List WorkerSnapshot} {model : String}

theorem Rotor.hand_spec (r : Rotor) (model : String) (hne : workers ≠ [])
    (hsorted : workers.Pairwise fun w w' => w.workerID < w'.workerID) :
    ∃ w ∈ workers, (r.hand model workers).2 = some w ∧
      IsNext (r.lastOf model) (workers.map (·.workerID)) w.workerID ∧
      (r.hand model workers).1.lastOf model = w.workerID := by
  obtain ⟨id, hid, hnext, hlast⟩ :=
    r.next_spec model (workers.map (·.workerID)) (by simpa using hne) (pairwise_map.mpr hsorted)
  rw [List.getElem?_map] at hid
  obtain ⟨w, hw, rfl⟩ := Option.map_eq_some_iff.mp hid
  exact ⟨w, mem_of_getElem? hw, hw, hnext, hlast⟩

/-! ### The least load -/

theorem foldl_least (load : WorkerSnapshot → Int) (ws : List WorkerSnapshot) (m : Int) :
    let least := ws.foldl (fun m w => if load w < m then load w else m) m
    least ≤ m ∧ (∀ w ∈ ws, least ≤ load w) ∧ (least = m ∨ ∃ w ∈ ws, load w = least) := by
  induction ws generalizing m with
  | nil => exact ⟨le_rfl, (fun w hw => absurd hw not_mem_nil), .inl rfl⟩
  | cons w ws ih =>
    rw [foldl_cons]
    obtain ⟨hle, hall, hfrom⟩ := ih (if load w < m then load w else m)
    have hstep : (if load w < m then load w else m) ≤ m ∧
        (if load w < m then load w else m) ≤ load w := by
      split <;> omega
    refine ⟨hle.trans hstep.1, ?_, ?_⟩
    · intro u hu
      rcases mem_cons.mp hu with rfl | hu
      · exact hle.trans hstep.2
      · exact hall u hu
    · rcases hfrom with heq | ⟨u, hu, hload⟩
      · by_cases hlt : load w < m
        · rw [if_pos hlt] at heq ⊢
          exact .inr ⟨w, mem_cons_self, heq.symm⟩
        · rw [if_neg hlt] at heq ⊢
          exact .inl heq
      · exact .inr ⟨u, mem_cons_of_mem w hu, hload⟩

theorem leastLoad_spec (load : WorkerSnapshot → Int) (hne : kept ≠ []) :
    (∀ w ∈ kept, leastLoad load kept ≤ load w) ∧ ∃ w ∈ kept, load w = leastLoad load kept := by
  obtain ⟨w, ws, rfl⟩ := exists_cons_of_ne_nil hne
  obtain ⟨hle, hall, hfrom⟩ := foldl_least load ws (load w)
  refine ⟨?_, ?_⟩
  · intro u hu
    rcases mem_cons.mp hu with rfl | hu
    · exact hle
    · exact hall u hu
  · rcases hfrom with heq | ⟨u, hu, hload⟩
    · exact ⟨w, mem_cons_self, heq.symm⟩
    · exact ⟨u, mem_cons_of_mem w hu, hload⟩

/-- Those of the workers that no other has less load than. -/
def leastOf (load : WorkerSnapshot → Int) (kept : List WorkerSnapshot) : List WorkerSnapshot :=
  kept.filter fun w => kept.all fun u => decide (load w ≤ load u)

theorem tied_eq_leastOf (load : WorkerSnapshot → Int) (hne : kept ≠ []) :
    kept.filter (fun w => decide (load w = leastLoad load kept)) = leastOf load kept := by
  obtain ⟨hle, u, hu, hload⟩ := leastLoad_spec load hne
  refine filter_congr ?_
  intro w hw
  rw [Bool.eq_iff_iff, decide_eq_true_eq, all_eq_true]
  constructor
  · intro heq x hx
    exact decide_eq_true (heq ▸ hle x hx)
  · intro hall
    have := of_decide_eq_true (hall u hu)
    have := hle w hw
    omega

theorem leastOf_ne_nil (load : WorkerSnapshot → Int) (hne : kept ≠ []) :
    leastOf load kept ≠ [] := by
  obtain ⟨-, u, hu, hload⟩ := leastLoad_spec load hne
  rw [← tied_eq_leastOf load hne]
  exact ne_nil_of_mem (mem_filter.mpr ⟨hu, decide_eq_true hload⟩)

/-! ### Choices are turns -/

/-- A strategy, for one model and requests that are not cancelled. -/
abbrev Strategy := Rotor → List WorkerSnapshot → Rotor × Except SelectError WorkerSnapshot

/-- The strategy lets the workers of a pool take turns. -/
def TakesTurns (model : String) (select : Strategy)
    (pool : List WorkerSnapshot → List WorkerSnapshot) : Prop :=
  ∀ r view, (view.map (·.workerID)).Nodup → pool view ≠ [] →
    ∃ w ∈ pool view, (select r view).2 = .ok w ∧
      IsNext (r.lastOf model) ((pool view).map (·.workerID)) w.workerID ∧
      (select r view).1.lastOf model = w.workerID

/-- A choice by the rotor among the candidates, of whom there is one. -/
theorem selectWith_eq (choose : Rotor → List WorkerSnapshot → Rotor × Option WorkerSnapshot)
    {r : Rotor} {view : List WorkerSnapshot} {w : WorkerSnapshot} (hne : candidates model view ≠ [])
    (hw : (choose r (candidates model view)).2 = some w) :
    (selectWith choose r false model view).2 = .ok w ∧
      (selectWith choose r false model view).1 = (choose r (candidates model view)).1 := by
  rcases eligible_eq model view with ⟨hnil, -⟩ | ⟨-, heq⟩
  · exact absurd hnil hne
  · obtain ⟨r', hchoose⟩ : ∃ r', choose r (candidates model view) = (r', some w) :=
      ⟨_, Prod.ext rfl hw⟩
    unfold selectWith
    rw [if_neg (by decide), heq]
    dsimp only
    rw [hchoose]
    exact ⟨rfl, rfl⟩

theorem takesTurns_roundRobin (model : String) :
    TakesTurns model (fun r view => roundRobin r false model view) (candidates model) := by
  intro r view hids hne
  obtain ⟨w, hmem, hw, hnext, hlast⟩ := r.hand_spec model hne (candidates_sorted model hids)
  obtain ⟨hok, hr⟩ := selectWith_eq (fun r kept => r.hand model kept) hne hw
  exact ⟨w, hmem, hok, hnext, (congrArg (Rotor.lastOf · model) hr).trans hlast⟩

theorem takesTurns_leastLoaded (load : WorkerSnapshot → Int) (model : String) :
    TakesTurns model (fun r view => leastLoaded load r false model view)
      (fun view => leastOf load (candidates model view)) := by
  intro r view hids hne
  have hcand : candidates model view ≠ [] := by
    intro hnil
    refine hne ?_
    show leastOf load (candidates model view) = []
    rw [hnil]
    rfl
  have hsorted : (leastOf load (candidates model view)).Pairwise fun w w' =>
    w.workerID < w'.workerID :=
    (candidates_sorted model hids).sublist filter_sublist
  obtain ⟨w, hmem, hw, hnext, hlast⟩ := r.hand_spec model hne hsorted
  have hchoose : chooseWith load r model (candidates model view) =
      r.hand model (leastOf load (candidates model view)) := by
    unfold chooseWith
    rw [tied_eq_leastOf load hcand]
  obtain ⟨hok, hr⟩ := selectWith_eq (fun r kept => chooseWith load r model kept) hcand
    ((congrArg Prod.snd hchoose).trans hw)
  refine ⟨w, hmem, hok, hnext, ?_⟩
  exact (congrArg (Rotor.lastOf · model) (hr.trans (congrArg Prod.fst hchoose))).trans hlast

/-- The IDs that a strategy chooses in a run, in order. -/
def chosenIDs (select : Strategy) (r : Rotor) (views : List (List WorkerSnapshot)) : List String :=
  (Machine.outputs select r views).filterMap fun o => o.toOption.map (·.workerID)

theorem TakesTurns.turns {select : Strategy} (h : TakesTurns model select pool)
    (hids : ∀ view ∈ views, (view.map (·.workerID)).Nodup) (hne : ∀ view ∈ views, pool view ≠ [])
    (r : Rotor) :
    Turns (r.lastOf model) (views.map fun view => (pool view).map (·.workerID))
      (chosenIDs select r views) := by
  induction views generalizing r with
  | nil => exact .nil
  | cons view views ih =>
    obtain ⟨w, -, hok, hnext, hlast⟩ := h r view (hids view mem_cons_self) (hne view mem_cons_self)
    have hrest := ih (fun v hv => hids v (mem_cons_of_mem view hv))
      (fun v hv => hne v (mem_cons_of_mem view hv)) (select r view).1
    rw [hlast] at hrest
    have hchosen : chosenIDs select r (view :: views) =
        w.workerID :: chosenIDs select (select r view).1 views := by
      unfold chosenIDs
      rw [Machine.outputs_cons, hok]
      rfl
    rw [hchosen]
    exact .cons hnext hrest

/-! ### Fairness -/

/-- The choices are fair to a worker: it is chosen if there are at least as many selections as
workers that may ever be chosen, and between two choices of it no other is chosen twice. -/
structure Fair (id : String) (pools : List (List String)) (chosen : List String) : Prop where
  served : pools.flatten.dedup.length ≤ pools.length → id ∈ chosen
  alternates : ∀ before mid after, chosen = before ++ id :: (mid ++ id :: after) → id ∉ mid →
    ∀ other, mid.count other ≤ 1

theorem TakesTurns.fair {select : Strategy} (h : TakesTurns model select pool) (hviews : views ≠ [])
    (hids : ∀ view ∈ views, (view.map (·.workerID)).Nodup) {id : String}
    (hid : ∀ view ∈ views, id ∈ (pool view).map (·.workerID)) (r : Rotor) :
    Fair id (views.map fun view => (pool view).map (·.workerID)) (chosenIDs select r views) := by
  have hne : ∀ view ∈ views, pool view ≠ [] := by
    intro view hview hnil
    have hmem := hid view hview
    rw [hnil] at hmem
    cases hmem
  have hturns := h.turns hids hne r
  have hw : ∀ S ∈ views.map (fun view => (pool view).map (·.workerID)), id ∈ S := by
    intro S hS
    obtain ⟨view, hview, rfl⟩ := mem_map.mp hS
    exact hid view hview
  refine ⟨fun hlen => hturns.mem_of_length hw (by simpa using hviews) hlen, ?_⟩
  intro before mid after heq hmid other
  exact nodup_iff_count_le_one.mp (hturns.nodup_between hw heq hmid) other

/-- **Round robin is fair under churn**, and so are the least loaded strategies to a worker that
always has the least load; these choose a candidate of least load every time. The rotor may start in
any state and the candidates change arbitrarily from one selection to the next. -/
theorem selection_is_fair (model : String) (r : Rotor) (views : List (List WorkerSnapshot))
    (hviews : views ≠ []) (hids : ∀ view ∈ views, (view.map (·.workerID)).Nodup) (id : String) :
    ((∀ view ∈ views, id ∈ (candidates model view).map (·.workerID)) →
      Fair id (views.map fun view => (candidates model view).map (·.workerID))
        (chosenIDs (fun r view => roundRobin r false model view) r views)) ∧
    ∀ load : WorkerSnapshot → Int,
      ((∀ view ∈ views, id ∈ (leastOf load (candidates model view)).map (·.workerID)) →
        Fair id (views.map fun view => (leastOf load (candidates model view)).map (·.workerID))
          (chosenIDs (fun r view => leastLoaded load r false model view) r views)) ∧
      ∀ view ∈ views, candidates model view ≠ [] → ∀ r : Rotor,
        ∃ w ∈ candidates model view, (leastLoaded load r false model view).2 = .ok w ∧
          ∀ u ∈ candidates model view, load w ≤ load u := by
  refine ⟨fun hid => (takesTurns_roundRobin model).fair hviews hids hid r, fun load => ⟨?_, ?_⟩⟩
  · intro hid
    exact (takesTurns_leastLoaded load model).fair hviews hids hid r
  · intro view hview hne r
    obtain ⟨w, hmem, hok, -, -⟩ :=
      takesTurns_leastLoaded load model r view (hids view hview) (leastOf_ne_nil load hne)
    obtain ⟨hcand, hleast⟩ := mem_filter.mp hmem
    exact ⟨w, hcand, hok, fun u hu => of_decide_eq_true (all_eq_true.mp hleast u hu)⟩

/-- A worker of the sample below. -/
def sampleWorker (id : String) (active : Int) : WorkerSnapshot :=
  ⟨⟨id, "m", 4, .ready, .healthy, true, active, 0, 0⟩, "", 0, ⟨active, 0, 0, 0, none, none⟩, "", 0⟩

/-- Three selections among `a`, `b` and `c`, of which only `b` is there every time and always among
the least loaded: `b` was the last one before, and is chosen again in these three. -/
theorem selection_is_fair_three_workers : let views :=
  [[sampleWorker "a" 1, sampleWorker "b" 1], [sampleWorker "c" 3, sampleWorker "b" 2],
      [sampleWorker "b" 0, sampleWorker "a" 0]]
    "b" ∈ chosenIDs (fun r view => roundRobin r false "m" view) ⟨AList.insert "m" "b" ∅⟩ views ∧
      "b" ∈ chosenIDs (fun r view => leastActive r false "m" view)
          ⟨AList.insert "m" "b" ∅⟩ views := by
  intro views
  obtain ⟨hround, hleast⟩ :=
    selection_is_fair "m" ⟨AList.insert "m" "b" ∅⟩ views (by decide) (by decide +kernel) "b"
  exact ⟨(hround (by decide +kernel)).served (by decide +kernel),
    ((hleast activeLoad).1 (by decide +kernel)).served (by decide +kernel)⟩

/-! ### The view as a set -/

theorem foldl_filterStep_counts (workers : List WorkerSnapshot) (why : NoWorkerError)
    (kept : List WorkerSnapshot) :
    (workers.foldl filterStep (why, kept)).1 =
      { why with
        serving := why.serving + workers.countP fun w => decide (w.model = why.model)
        eligible := why.eligible + workers.countP fun w => decide (w.model = why.model) && offered w
        atCapacity := why.atCapacity + workers.countP fun w =>
          decide (w.model = why.model) && offered w && full w } := by
  induction workers generalizing why kept with
  | nil => simp
  | cons w workers ih =>
    rw [foldl_cons, ← Prod.mk.eta (p := filterStep (why, kept) w), ih,
      (filterStep_spec why kept w).1]
    simp only [countP_cons, filterStep]
    by_cases hmodel : w.model =
      why.model <;> cases offered w <;> cases full w <;> simp [hmodel] <;> omega

/-- **A refusal says why.** `eligible` refuses exactly if no worker may serve the model, with the
number of workers that serve it and the number of those that are offered. Each of the latter is
full. -/
theorem eligible_refuses_iff (model : String) (workers : List WorkerSnapshot)
    (why : NoWorkerError) :
    eligible model workers = .error why ↔ (∀ w ∈ workers, candidate model w = false) ∧
      why = ⟨model, workers.countP fun w => decide (w.model = model),
        workers.countP fun w => decide (w.model = model) && offered w,
        workers.countP fun w => decide (w.model = model) && offered w⟩ := by
  simp only [eligible, foldl_filterStep, foldl_filterStep_counts, nil_append, zero_add,
    List.isEmpty_iff, filter_eq_nil_iff, Bool.not_eq_true]
  by_cases hnone : ∀ w ∈ workers, candidate model w = false
  · have hfull : workers.countP (fun w => decide (w.model = model) && offered w && full w) =
        workers.countP fun w => decide (w.model = model) && offered w :=
      countP_congr fun w hw => by simpa [candidate] using hnone w hw
    rw [if_pos hnone, hfull]
    exact ⟨fun h => ⟨hnone, (Except.error.inj h).symm⟩, fun h => congrArg _ h.2.symm⟩
  · simp [hnone]

theorem eligible_of_perm {workers' : List WorkerSnapshot} (hperm : workers.Perm workers')
    (hids : (workers.map (·.workerID)).Nodup) :
    eligible model workers = eligible model workers' := by
  have hsorted : candidates model workers = candidates model workers' :=
    ((perm_insertionSort _ _).trans
      ((hperm.filter _).trans (perm_insertionSort _ _).symm)).eq_of_pairwise
      (fun _ _ _ _ h h' => absurd h' h.asymm) (candidates_sorted model hids)
      (candidates_sorted model ((hperm.map _).nodup_iff.mp hids))
  unfold candidates at hsorted
  simp only [eligible, foldl_filterStep, foldl_filterStep_counts, nil_append, hperm.countP_eq,
    hsorted, (hperm.filter (candidate model)).isEmpty_eq]

/-- **The order of the view does not matter.** On two views with the same workers, of different IDs,
a strategy gives the same answer, refusals included, and leaves the same rotor. -/
theorem selection_ignores_order (r : Rotor) (cancelled : Bool) (model : String)
    {workers' : List WorkerSnapshot} (hperm : workers.Perm workers')
    (hids : (workers.map (·.workerID)).Nodup) :
    roundRobin r cancelled model workers = roundRobin r cancelled model workers' ∧
      ∀ load, leastLoaded load r cancelled model workers =
        leastLoaded load r cancelled model workers' := by
  simp [roundRobin, leastLoaded, selectWith, eligible_of_perm hperm hids]

theorem selection_ignores_order_two_workers :
    leastActive newRotor false "m" [sampleWorker "b" 1, sampleWorker "a" 1] =
      leastActive newRotor false "m" [sampleWorker "a" 1, sampleWorker "b" 1] :=
  (selection_ignores_order _ _ _ (.swap ..) (by decide)).2 _

end ServerFlow.Scheduler
