import ServerFlow.Lib.Machine
import ServerFlow.Resilience.BreakerSteps

/-!
# Resilience.BreakersCap

The ejection cap: whatever operations are made on a set of breakers, at whatever times and
with whatever tickets, the open and half-open breakers among the eligible workers of a model
stay within `maxOpen`, so that a model keeps a closed one whenever the cap is below the number
of its workers.

A walk over the breakers can only use up room that `roomToOpen` found (`Breaker.Act.allowed`);
`Sync` and `Prune`, which move the cap itself, end with a loop that closes breakers until the
bound holds again (`relax_spec`).
-/

namespace ServerFlow.Resilience

open List AList

/-- How many workers of the model are eligible. -/
def Breakers.eligibleCount (bs : Breakers) (model : String) : Nat := bs.byID.count (·.inGroup model)

/-- The recount is up to date, and the ejected breakers of every model are within the cap. -/
structure CapOk (bs : Breakers) : Prop where
  recount : ∀ model, bs.eligibleOf model = bs.eligibleCount model
  total : bs.eligible = bs.byID.count (·.eligible)
  cap : ∀ model, (bs.openCount model : Int) ≤
    maxOpen bs.p.maxOpenFraction (bs.eligibleCount model)

theorem maxOpen_nonneg (f : ℚ) (n : Int) : 0 ≤ maxOpen f n := by
  unfold maxOpen
  split
  · exact le_rfl
  · next h =>
    rw [not_or, not_le, not_le] at h
    split
    · exact h.2.le
    · have hn : (0 : ℚ) < n := by exact_mod_cast h.2
      have := h.1
      exact Int.floor_nonneg.mpr (by positivity)

/-! ### One breaker -/

section One

variable {bs : Breakers} {id : String} {b b' : Breaker}

/-- A breaker keeps its place in the cap's groups. -/
structure Breaker.SameGroup (b b' : Breaker) : Prop where
  model : b'.model = b.model
  eligible : b'.eligible = b.eligible

theorem Breaker.SameGroup.refl (b : Breaker) : b.SameGroup b := ⟨rfl, rfl⟩

theorem Breaker.SameGroup.inGroup_eq (h : b.SameGroup b') (model : String) :
    b'.inGroup model = b.inGroup model := by
  unfold Breaker.inGroup
  rw [h.model, h.eligible]

section

variable (hb : bs.byID.lookup id = some b)
include hb

theorem eligibleCount_set (h : b.SameGroup b') (model : String) :
    (bs.set id b').eligibleCount model = bs.eligibleCount model :=
  count_insert_of_eq _ hb (h.inGroup_eq model)

theorem total_set (h : b.SameGroup b') :
    (bs.set id b').byID.count (·.eligible) = bs.byID.count (·.eligible) :=
  count_insert_of_eq _ hb h.eligible

/-- Replacing a breaker adds at most itself to the ejected ones. -/
theorem openCount_set (b' : Breaker) (model : String) :
    (bs.set id b').openCount model + (if b.ejected model then 1 else 0) =
      bs.openCount model + if b'.ejected model then 1 else 0 := by
  unfold Breakers.openCount
  rw [show (bs.set id b').byID = bs.byID.insert id b' from rfl, AList.count_insert,
    count_of_lookup _ hb]
  omega

end

/-- A breaker that is closed, or was not closed before, takes no new room. -/
theorem CapOk.set_of_calm (h : CapOk bs) (hb : bs.byID.lookup id = some b) (hs : b.SameGroup b')
    (hcalm : b'.state ≠ .closed → b.state ≠ .closed) : CapOk (bs.set id b') := by
  refine ⟨fun model => ?_, h.total.trans (by rw [total_set hb hs]), fun model => ?_⟩
  · rw [eligibleCount_set hb hs]
    exact h.recount model
  · have hcount := openCount_set hb b' model
    have hle : (if b'.ejected model then 1 else 0) ≤ if b.ejected model then 1 else 0 := by
      unfold Breaker.ejected
      rw [hs.inGroup_eq model]
      by_cases hst : b'.state = .closed
      · simp [hst]
      · simp [hst, hcalm hst]
    have := h.cap model
    rw [eligibleCount_set hb hs]
    show ((bs.set id b').openCount model : Int) ≤ maxOpen bs.p.maxOpenFraction _
    omega

/-- A breaker may open where `roomToOpen` found room. -/
theorem CapOk.set_of_room (h : CapOk bs) (hb : bs.byID.lookup id = some b) (hs : b.SameGroup b')
    (hroom : bs.roomToOpen b = true) : CapOk (bs.set id b') := by
  refine ⟨fun model => ?_, h.total.trans (by rw [total_set hb hs]), fun model => ?_⟩
  · rw [eligibleCount_set hb hs]
    exact h.recount model
  · have hcount := openCount_set hb b' model
    have hcap := h.cap model
    rw [eligibleCount_set hb hs]
    show ((bs.set id b').openCount model : Int) ≤ maxOpen bs.p.maxOpenFraction _
    by_cases hgroup : b.inGroup model = true
    · -- the breaker counts under this model's cap, and there was room
      have hg := hgroup
      simp only [Breaker.inGroup, Bool.and_eq_true, decide_eq_true_eq] at hg
      rw [Breakers.roomToOpen, hg.1, hg.2, h.recount model] at hroom
      have hlt : (bs.openCount model : Int) <
          maxOpen bs.p.maxOpenFraction (bs.eligibleCount model) := by
        simpa using hroom
      have hone : (if b'.ejected model then 1 else 0) ≤ 1 := by split <;> omega
      omega
    · have hnot : b'.ejected model = false := by
        unfold Breaker.ejected
        rw [hs.inGroup_eq model, Bool.eq_false_iff.mpr hgroup, Bool.false_and]
      rw [hnot] at hcount
      simp only [Bool.false_eq_true, if_false] at hcount
      omega

end One

/-! ### Walks -/

theorem Breaker.advance_calm (b : Breaker) (now : Time) (p : BreakerParams) :
    b.SameGroup (b.advance now p).1 ∧
      ((b.advance now p).1.state ≠ .closed → b.state ≠ .closed) := by
  unfold Breaker.advance
  split
  next h => exact ⟨⟨rfl, rfl⟩, fun _ => by rw [h.1]; decide⟩
  next =>
    split
    · exact ⟨⟨rfl, rfl⟩, id⟩
    · exact ⟨.refl b, id⟩

variable {bs bs' : Breakers}

/-- An act leaves a breaker in its group, and takes it out of closed only where the cap has room. -/
theorem Breaker.Act.allowed {e : Errand} {now : Time} {b b' : Breaker}
    {cs : List Change} (h : b.Act e bs now b' cs) : b.SameGroup b' ∧
      ((b'.state ≠ .closed → b.state ≠ .closed) ∨ bs.roomToOpen b = true) := by
  cases h with
  | recover => exact ⟨⟨rfl, rfl⟩, .inl fun h => absurd rfl h⟩
  | reopen hhalf => exact ⟨⟨rfl, rfl⟩, .inl fun _ => by rw [hhalf]; decide⟩
  | count hclosed okAt v => rw [b.tallied_eq]; exact ⟨⟨rfl, rfl⟩, .inl id⟩
  | suppress hclosed okAt v => rw [b.tallied_eq]; exact ⟨⟨rfl, rfl⟩, .inl id⟩
  | trip hclosed hroom okAt v => rw [b.tallied_eq]; exact ⟨⟨rfl, rfl⟩, .inr hroom⟩
  | _ => exact ⟨⟨rfl, rfl⟩, .inl id⟩

theorem CapOk.walk {e : Errand} {now : Time} {cs : List Change} (h : CapOk bs)
    (hwalk : Breakers.Walk e now bs bs' cs) : CapOk bs' := by
  induction hwalk with
  | refl bs => exact h
  | advance he hb hwalk ih =>
    exact ih (h.set_of_calm hb (Breaker.advance_calm ..).1 (Breaker.advance_calm ..).2)
  | relax he hb hej hwalk ih => exact ih (h.set_of_calm hb ⟨rfl, rfl⟩ fun hopen => absurd rfl hopen)
  | @act bs id b b' cs d n he hb hact =>
    obtain ⟨hsame, hroom⟩ := hact.allowed
    have hset : CapOk (bs.set id b') := by
      rcases hroom with hcalm | hroom
      · exact h.set_of_calm hb hsame hcalm
      · exact h.set_of_room hb hsame hroom
    exact ⟨hset.recount, hset.total, hset.cap⟩

/-! ### Relaxation -/

/-- What relaxing keeps: the groups, the recount and the parameters; and it ejects nobody. -/
structure Relaxed (bs bs' : Breakers) : Prop where
  p : bs'.p = bs.p
  eligible : bs'.eligible = bs.eligible
  eligibleBy : bs'.eligibleBy = bs.eligibleBy
  total : bs'.byID.count (·.eligible) = bs.byID.count (·.eligible)
  eligibleCount : ∀ model, bs'.eligibleCount model = bs.eligibleCount model
  openCount_le : ∀ model, bs'.openCount model ≤ bs.openCount model

theorem Relaxed.refl (bs : Breakers) : Relaxed bs bs := 
  ⟨rfl, rfl, rfl, rfl, fun _ => rfl, fun _ => le_rfl⟩

theorem Relaxed.eligibleOf (h : Relaxed bs bs') (model : String) :
    bs'.eligibleOf model = bs.eligibleOf model := by
  unfold Breakers.eligibleOf
  rw [h.eligibleBy]

theorem Relaxed.trans {bs'' : Breakers} (h : Relaxed bs bs') (h' : Relaxed bs' bs'') :
    Relaxed bs bs'' :=
  ⟨h'.p.trans h.p, h'.eligible.trans h.eligible, h'.eligibleBy.trans h.eligibleBy,
    h'.total.trans h.total,
    fun m => (h'.eligibleCount m).trans (h.eligibleCount m),
    fun m => (h'.openCount_le m).trans (h.openCount_le m)⟩

/-- Closing an ejected breaker makes room for one in its group. -/
theorem relaxed_close {id : String} {b : Breaker} (hb : bs.byID.lookup id = some b)
    (now : Time) : Relaxed bs (bs.set id (b.close now)) ∧ ∀ model, b.ejected model = true →
      (bs.set id (b.close now)).openCount model + 1 = bs.openCount model := by
  have hclosed : ∀ model, (b.close now).ejected model = false := fun model => by
    simp [Breaker.ejected, Breaker.close]
  have hcount : ∀ model, (bs.set id (b.close now)).openCount model +
      (if b.ejected model then 1 else 0) = bs.openCount model := fun model => by
    rw [openCount_set hb _ model, hclosed model]
    rfl
  refine ⟨⟨rfl, rfl, rfl, total_set hb ⟨rfl, rfl⟩, eligibleCount_set hb ⟨rfl, rfl⟩,
    fun model => ?_⟩, fun model hej => ?_⟩
  · have := hcount model
    omega
  · have := hcount model
    rwa [hej, if_pos rfl] at this

/-- The loop of one model: given rounds for every ejected breaker, it ends within the limit. -/
theorem relax_spec (now : Time) (model : String) {limit : Int} (hlimit : 0 ≤ limit) (fuel : Nat)
    (bs : Breakers) (chs : List Change) (hfuel : bs.openCount model ≤ fuel) :
    Relaxed bs (Breakers.relax now model limit fuel bs chs).1 ∧
      ((Breakers.relax now model limit fuel bs chs).1.openCount model : Int) ≤ limit := by
  induction fuel generalizing bs chs with
  | zero => exact ⟨.refl bs, by simp only [Breakers.relax]; omega⟩
  | succ fuel ih =>
    unfold Breakers.relax
    cases hvic : bs.victim model with
    | none =>
      have hzero := (victim_spec bs model).2 hvic
      exact ⟨.refl bs, by dsimp only; omega⟩
    | some v =>
      have hv := (victim_spec bs model).1 v hvic
      obtain ⟨id, b⟩ := v
      dsimp only
      split
      next hle => exact ⟨.refl bs, hle⟩
      next =>
        obtain ⟨hrel, hone⟩ := relaxed_close hv.1 now
        have hnext := ih (bs.set id (b.close now))
          (chs ++ [Change.plain b.key b.state .closed .capRelaxed 0])
          (by have := hone model hv.2; dsimp only at this; omega)
        exact ⟨hrel.trans hnext.1, hnext.2⟩

theorem openCount_le_len (bs : Breakers) (model : String) : bs.openCount model ≤ bs.byID.len :=
  countP_le_length

theorem openCount_le_eligibleCount (bs : Breakers) (model : String) :
    bs.openCount model ≤ bs.eligibleCount model := by
  refine countP_mono_left fun e _ h => ?_
  simp only [Breaker.ejected, Bool.and_eq_true] at h
  exact h.1

/-- The outer loop: every model that was visited is within its cap. -/
theorem relaxModels_spec (now : Time) (models : List String) (s : Breakers × List Change) :
    Relaxed s.1 (models.foldl (Breakers.relaxModel now) s).1 ∧ ∀ model ∈ models,
      ((models.foldl (Breakers.relaxModel now) s).1.openCount model : Int) ≤
        maxOpen s.1.p.maxOpenFraction (s.1.eligibleOf model) := by
  induction models generalizing s with
  | nil => exact ⟨.refl _, nofun⟩
  | cons m models ih =>
    obtain ⟨hrel, hle⟩ := relax_spec now m
      (maxOpen_nonneg s.1.p.maxOpenFraction (s.1.eligibleOf m)) s.1.byID.len s.1 s.2
      (openCount_le_len s.1 m)
    obtain ⟨hrel', hle'⟩ := ih (Breakers.relaxModel now s m)
    refine ⟨hrel.trans hrel', fun model hmem => ?_⟩
    rw [foldl_cons]
    rcases mem_cons.mp hmem with rfl | hmem
    · have := hrel'.openCount_le model
      exact le_trans (by exact_mod_cast this) hle
    · have := hle' model hmem
      rwa [show (Breakers.relaxModel now s m).1.p = s.1.p from hrel.p,
        show (Breakers.relaxModel now s m).1.eligibleOf model = s.1.eligibleOf model from
          hrel.eligibleOf model] at this

/-- The recount counts. -/
theorem eligibleOf_recountEligible (bs : Breakers) (model : String) :
    bs.recountEligible.eligibleOf model = bs.eligibleCount model := by
  have hloop : ∀ (l : List Breaker) (m : GoMap String Int),
      ((l.foldl countEligible m).lookup model).getD 0 =
        (m.lookup model).getD 0 + (l.countP (·.inGroup model) : Nat) := by
    intro l
    induction l with
    | nil => simp
    | cons b l ih =>
      intro m
      rw [foldl_cons, ih, countP_cons]
      unfold countEligible Breaker.inGroup
      cases b.eligible with
      | false => simp
      | true =>
        by_cases hm : b.model = model
        · subst hm
          simp
          omega
        · simp [hm, lookup_insert_ne (Ne.symm hm)]
  have hcount : bs.eligibleCount model = bs.byID.vals.countP (·.inGroup model) := by
    unfold Breakers.eligibleCount AList.count AList.vals
    rw [countP_map]
    rfl
  rw [hcount]
  exact (hloop bs.byID.vals ∅).trans (by simp)

/-- A recount followed by the relaxation establishes the cap, from any set of breakers. -/
theorem capOk_enforceCap (bs : Breakers) (now : Time) (order : List String) :
    CapOk (bs.recountEligible.enforceCap now order).1 := by
  have hrecount := eligibleOf_recountEligible bs
  obtain ⟨hrel, hle⟩ := relaxModels_spec now (bs.recountEligible.eligibleBy.rangeKeys order)
    (bs.recountEligible, [])
  have heligible : ∀ model, (bs.recountEligible.enforceCap now order).1.eligibleOf model =
      (bs.recountEligible.enforceCap now order).1.eligibleCount model := by
    intro model
    unfold Breakers.eligibleOf Breakers.enforceCap
    rw [hrel.eligibleBy, hrel.eligibleCount]
    exact hrecount model
  refine ⟨heligible, hrel.eligible.trans (by rw [Breakers.enforceCap, hrel.total]; rfl),
    fun model => ?_⟩
  by_cases hmem : model ∈ bs.recountEligible.eligibleBy
  · rw [← heligible]
    unfold Breakers.eligibleOf Breakers.enforceCap
    rw [hrel.p, hrel.eligibleBy]
    exact hle model (mem_rangeKeys.mpr hmem)
  · -- a model that was not visited has no eligible worker
    have hzero : (bs.recountEligible.enforceCap now order).1.eligibleCount model = 0 := by
      have hof : (bs.recountEligible.enforceCap now order).1.eligibleOf model = 0 := by
        unfold Breakers.eligibleOf Breakers.enforceCap
        rw [hrel.eligibleBy, lookup_eq_none.mpr hmem]
        rfl
      rw [heligible] at hof
      exact_mod_cast hof
    have hopen := openCount_le_eligibleCount (bs.recountEligible.enforceCap now order).1 model
    have hnn := maxOpen_nonneg (bs.recountEligible.enforceCap now order).1.p.maxOpenFraction
      ((bs.recountEligible.enforceCap now order).1.eligibleCount model)
    omega

/-! ### Runs -/

/-- Every operation keeps the cap. -/
theorem CapOk.step (h : CapOk bs) (c : BreakersCall) : CapOk (bs.step c).1 := by
  cases hop : c.op.registry with
  | false => exact h.walk (bs.step_walk c hop)
  | true =>
    obtain ⟨now, order, op⟩ := c
    cases op with
    | sync members => exact capOk_enforceCap _ _ _
    | prune keep => exact capOk_enforceCap _ _ _
    | _ => cases hop

theorem capOk_new (p : BreakerParams) (rnd : Nat → ℚ) : CapOk (Breakers.new p rnd) :=
  ⟨fun _ => rfl, rfl, fun model => by
    show ((0 : Nat) : Int) ≤ _
    exact_mod_cast maxOpen_nonneg _ _⟩

/-- **The ejection cap holds after every operation of every run**, and so a model whose cap is
below the number of its eligible workers keeps one whose breaker is closed. -/
theorem ejection_cap (p : BreakerParams) (rnd : Nat → ℚ) (calls : List BreakersCall)
    (model : String) :
    let bs := Machine.final Breakers.step (Breakers.new p rnd) calls
    (bs.openCount model : Int) ≤ maxOpen p.maxOpenFraction (bs.eligibleCount model) ∧
      (1 ≤ bs.eligibleCount model →
        maxOpen p.maxOpenFraction (bs.eligibleCount model) < bs.eligibleCount model →
        ∃ id b, bs.byID.lookup id = some b ∧ b.eligible = true ∧ b.model = model ∧
          b.state = .closed) := by
  intro bs
  obtain ⟨hok, hp⟩ : CapOk bs ∧ bs.p.maxOpenFraction = p.maxOpenFraction :=
    Machine.final_invariant (P := fun bs => CapOk bs ∧ bs.p.maxOpenFraction = p.maxOpenFraction)
      (A := fun _ => True) (fun s c _ hs => ⟨hs.1.step c, by rw [(s.step_p c).1]; exact hs.2⟩)
      (fun _ _ => trivial) ⟨capOk_new p rnd, rfl⟩
  have hcap := hok.cap model
  rw [hp] at hcap
  refine ⟨hcap, fun _ hlt => ?_⟩
  -- fewer breakers are ejected than are in the group, so one of the group is not
  have hsplit : bs.eligibleCount model =
      bs.openCount model + bs.byID.count fun b =>
          b.inGroup model && decide (b.state = .closed) := by
    unfold Breakers.eligibleCount Breakers.openCount AList.count
    rw [countP_eq_countP_filter_add _ _ fun e => decide (e.2.state ≠ .closed), countP_filter,
      countP_filter]
    congr 1
    refine countP_congr fun e _ => ?_
    simp
  have hpos : 0 < bs.byID.count fun b => b.inGroup model && decide (b.state = .closed) := by omega
  obtain ⟨id, b, hb, hin⟩ := exists_of_count_pos hpos
  simp only [Breaker.inGroup, Bool.and_eq_true, decide_eq_true_eq] at hin
  exact ⟨id, b, hb, hin.1.1, hin.1.2, hin.2⟩

/-- Two workers of one model, of which one may be ejected. Both report a fault that trips a
breaker: the second trip is suppressed, and a closed breaker remains. -/
theorem ejection_cap_two_workers :
    let p : BreakerParams := ⟨1, 0, 1, second, second, second, 1, 1, 1 / 2, 0⟩
    let a : Key := ⟨"a", 1⟩
    let b : Key := ⟨"b", 1⟩
    let bs := Machine.final Breakers.step (Breakers.new p fun _ => 1 / 2)
      [⟨second, [], .sync [⟨a, "m", true⟩, ⟨b, "m", true⟩]⟩,
        ⟨second, [], .record ⟨a, 0, 0, false, true⟩ .fault⟩,
        ⟨second, [], .record ⟨b, 0, 0, false, true⟩ .fault⟩]
    bs.openCount "m" = 1 ∧ bs.suppressed = 1 ∧
      ∃ id b, bs.byID.lookup id = some b ∧ b.eligible = true ∧ b.model = "m" ∧
        b.state = .closed :=
  ⟨by decide +kernel, by decide +kernel,
    (ejection_cap _ _ _ "m").2 (by decide +kernel) (by decide +kernel)⟩

end ServerFlow.Resilience
