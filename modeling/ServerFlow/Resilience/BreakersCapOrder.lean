import ServerFlow.Resilience.BreakersLazy

/-!
# Resilience.BreakersCapOrder

`enforceCap` loops over maps, whose order is left open. Which breakers it closes does not depend on
it: the victim of a round is the maximum of a linear order (`Breaker.rank`), and the loop of one
model neither sees nor touches the breakers of another. Nor does it depend on which lazy transitions
have been applied.
-/

namespace ServerFlow.Resilience

open List Option AList

variable {now : Time} {model id model : String} {bs bs' bs : Breakers} {b : Breaker}

/-! ### The victim of a round -/

/-- When a breaker was ejected, and its worker. -/
def Breaker.rank (b : Breaker) : Time ×ₗ String := toLex (b.ejectedAt, b.key.id)

theorem Breaker.moreRecent_iff (b v : Breaker) : b.moreRecent v = true ↔ v.rank < b.rank := by
  unfold Breaker.moreRecent Breaker.rank
  rw [Prod.Lex.toLex_lt_toLex, Bool.or_eq_true, decide_eq_true_eq, decide_eq_true_eq]
  exact or_congr Iff.rfl (and_congr eq_comm Iff.rfl)

/-- A round of the inner loop: the breaker it holds then comes before neither of the two it chose
from. -/
theorem pickVictim_max {v : Option (String × Breaker)} {e : Σ _ : String, Breaker}
    {w : String × Breaker} (h : v = some w ∨ e.2.ejected model = true ∧ w = (e.1, e.2)) :
    ∃ u, pickVictim model v e = some u ∧ w.2.rank ≤ u.2.rank := by
  fun_cases pickVictim model v e with
  | case1 hej =>
    obtain ⟨-, rfl⟩ := h.resolve_left nofun
    exact ⟨_, rfl, le_rfl⟩
  | case2 hej v hmore =>
    refine ⟨_, rfl, ?_⟩
    rcases h with h | ⟨-, rfl⟩
    · cases h
      exact ((Breaker.moreRecent_iff _ _).mp hmore).le
    · exact le_rfl
  | case3 hej v hmore =>
    refine ⟨_, rfl, ?_⟩
    rcases h with h | ⟨-, rfl⟩
    · cases h
      exact le_rfl
    · exact not_lt.mp fun hlt => hmore ((Breaker.moreRecent_iff _ _).mpr hlt)
  | case4 v hej =>
    obtain rfl := h.resolve_right fun hboth => hej hboth.1
    exact ⟨w, rfl, le_rfl⟩

/-- The inner loop finds a breaker that no ejected one comes after. -/
theorem foldl_pickVictim_max (model : String) (es : List (Σ _ : String, Breaker))
    (v : Option (String × Breaker)) {u : String × Breaker}
    (hu : es.foldl (pickVictim model) v = some u) :
    (∀ w, v = some w → w.2.rank ≤ u.2.rank) ∧
      ∀ e ∈ es, e.2.ejected model = true → e.2.rank ≤ u.2.rank := by
  induction es generalizing v with
  | nil =>
    obtain rfl : v = some u := hu
    exact ⟨fun w hw => by rw [some.inj hw], forall_mem_nil _⟩
  | cons e es ih =>
    obtain ⟨hfirst, hrest⟩ := ih _ hu
    refine ⟨fun w hw => ?_, fun d hd hej => ?_⟩
    · obtain ⟨u, hu, hle⟩ := pickVictim_max (.inl hw)
      exact hle.trans (hfirst u hu)
    · rcases mem_cons.mp hd with rfl | hd
      · obtain ⟨u, hu, hle⟩ := pickVictim_max (v := v) (.inr ⟨hej, rfl⟩)
        exact hle.trans (hfirst u hu)
      · exact hrest d hd hej

theorem victim_max {v : String × Breaker} (hv : bs.victim model = some v)
    (hb : bs.byID.lookup id = some b) (hej : b.ejected model = true) : b.rank ≤ v.2.rank :=
  (foldl_pickVictim_max model bs.byID.entries none hv).2 ⟨id, b⟩
    (AList.lookup_eq_some_iff.mp hb) hej

/-- The ejected breakers of a model. -/
def Breakers.ejectedOf (bs : Breakers) (model : String) : GoMap String Breaker :=
  bs.byID.keep fun _ b => b.ejected model

/-- The same breakers of a model are ejected, up to lazy transitions. -/
def SameEjected (model : String) (bs bs' : Breakers) : Prop :=
  AList.Alike (fun b b' => b.core = b'.core) (bs.ejectedOf model) (bs'.ejectedOf model)

theorem lookup_ejectedOf : (bs.ejectedOf model).lookup id = some b ↔
    bs.byID.lookup id = some b ∧ b.ejected model = true := by
  unfold Breakers.ejectedOf
  rw [lookup_keep, filter_eq_some_iff]

theorem openCount_eq_len (bs : Breakers) (model : String) :
    bs.openCount model = (bs.ejectedOf model).len := countP_eq_length_filter

theorem SameEjected.openCount_eq (h : SameEjected model bs bs') :
    bs'.openCount model = bs.openCount model := by
  rw [openCount_eq_len, openCount_eq_len, AList.Alike.len_eq h]

theorem victim_eq_none_iff : bs.victim model = none ↔ bs.openCount model = 0 := by
  refine ⟨(victim_spec bs model).2, fun hzero => ?_⟩
  by_contra hne
  obtain ⟨v, hv⟩ := ne_none_iff_exists'.mp hne
  obtain ⟨hb, hej⟩ := (victim_spec bs model).1 v hv
  have hpos : 0 < bs.openCount model := count_pos_of_lookup hb hej
  omega

/-- Both sets of breakers have the same victim. -/
theorem SameEjected.victim (h : SameEjected model bs bs') (hk : bs.Keyed) (hk' : bs'.Keyed) :
    (bs.victim model = none ∧ bs'.victim model = none) ∨ ∃ id b b',
      bs.victim model = some (id, b) ∧ bs'.victim model = some (id, b') ∧ b.core = b'.core := by
  cases hv : bs.victim model with
  | none =>
    left
    rw [victim_eq_none_iff] at hv
    exact ⟨rfl, victim_eq_none_iff.mpr (h.openCount_eq.trans hv)⟩
  | some v =>
    cases hv' : bs'.victim model with
    | none =>
      rw [victim_eq_none_iff, h.openCount_eq, ← victim_eq_none_iff, hv] at hv'
      cases hv'
    | some v' =>
      obtain ⟨id, b⟩ := v
      obtain ⟨id', b'⟩ := v'
      obtain ⟨hb, hej⟩ := (victim_spec bs model).1 _ hv
      obtain ⟨hb', hej'⟩ := (victim_spec bs' model).1 _ hv'
      -- each victim is an ejected breaker of the other set
      obtain ⟨c', hc', hcore⟩ : ∃ c', (bs'.ejectedOf model).lookup id = some c' ∧
          b.core = c'.core := by
        rcases h.lookup id with ⟨hnone, -⟩ | ⟨c, c', hc, hc', hcore⟩
        · rw [lookup_ejectedOf.mpr ⟨hb, hej⟩] at hnone
          cases hnone
        · obtain rfl := some.inj (hc.symm.trans (lookup_ejectedOf.mpr ⟨hb, hej⟩))
          exact ⟨c', hc', hcore⟩
      obtain ⟨c, hc, hcore'⟩ : ∃ c, (bs.ejectedOf model).lookup id' = some c ∧
          c.core = b'.core := by
        rcases h.lookup id' with ⟨-, hnone⟩ | ⟨c, c', hc, hc', hcore⟩
        · rw [lookup_ejectedOf.mpr ⟨hb', hej'⟩] at hnone
          cases hnone
        · obtain rfl := some.inj (hc'.symm.trans (lookup_ejectedOf.mpr ⟨hb', hej'⟩))
          exact ⟨c, hc, hcore⟩
      have hrank : ∀ {x y : Breaker}, x.core = y.core → x.rank = y.rank := fun hxy =>
        (congrArg Breaker.rank hxy : _ = _)
      have hle := victim_max hv' (lookup_ejectedOf.mp hc').1 (lookup_ejectedOf.mp hc').2
      have hle' := victim_max hv (lookup_ejectedOf.mp hc).1 (lookup_ejectedOf.mp hc).2
      rw [← hrank hcore] at hle
      rw [hrank hcore'] at hle'
      have heq : b.rank = b'.rank := le_antisymm hle hle'
      have hid : id = id' := by
        rw [← hk id b hb, ← hk' id' b' hb']
        exact congrArg (fun r => (ofLex r).2) heq
      subst hid
      obtain rfl := some.inj ((lookup_ejectedOf.mp hc').1.symm.trans hb')
      exact .inr ⟨id, b, c', rfl, rfl, hcore⟩

/-! ### The loop of one model -/

/-- Close the breaker under an ID. -/
def Breakers.closeID (now : Time) (bs : Breakers) (id : String) : Breakers :=
  match bs.byID.lookup id with
  | none => bs
  | some b => bs.set id (b.close now)

/-- The breakers that the loop of one model closes. -/
def Breakers.relaxVictims (now : Time) (model : String) (limit : Int) :
    Nat → Breakers → List (String × Breaker)
  | 0, _ => []
  | fuel + 1, bs =>
    match bs.victim model with
    | none => []
    | some v =>
      if (bs.openCount model : Int) ≤ limit then []
      else v :: relaxVictims now model limit fuel (bs.set v.1 (v.2.close now))

section Relax

variable {limit : Int}

theorem Breakers.Keyed.close (h : bs.Keyed) (hb : bs.byID.lookup id = some b)
    (now : Time) : (bs.set id (b.close now)).Keyed := by
  intro id' c hc
  rcases of_lookup_insert hc with ⟨rfl, rfl⟩ | ⟨-, hc⟩
  · exact h id' b hb
  · exact h id' c hc

/-- Closing breakers leaves them under their IDs. -/
theorem Breakers.Keyed.of_closed (h : bs.Keyed) {m : GoMap String Breaker}
    {q : String → Breaker → Prop} [∀ id b, Decidable (q id b)]

    (hlook : ∀ id, m.lookup id =
      (bs.byID.lookup id).map fun b => if q id b then b.close now else b) :
    ({ bs with byID := m } : Breakers).Keyed := by
  intro id b hb
  change m.lookup id = some b at hb
  rw [hlook id] at hb
  obtain ⟨c, hc, rfl⟩ := map_eq_some_iff.mp hb
  split <;> exact h id c hc

theorem relax_eq (fuel : Nat) (bs : Breakers) (chs : List Change) :
    Breakers.relax now model limit fuel bs chs =
      (((Breakers.relaxVictims now model limit fuel bs).map Prod.fst).foldl
        (Breakers.closeID now) bs,
        chs ++ (Breakers.relaxVictims now model limit fuel bs).map fun v =>
          Change.plain v.2.key v.2.state .closed .capRelaxed 0) := by
  induction fuel generalizing bs chs with
  | zero => simp [Breakers.relax, Breakers.relaxVictims]
  | succ fuel ih =>
    unfold Breakers.relax Breakers.relaxVictims
    cases hv : bs.victim model with
    | none => simp
    | some v =>
      obtain ⟨id, b⟩ := v
      have hb := ((victim_spec bs model).1 _ hv).1
      dsimp only at hb ⊢
      split
      · simp
      · rw [ih, map_cons, foldl_cons, map_cons, append_assoc, singleton_append]
        have hclose : Breakers.closeID now bs id = bs.set id (b.close now) := by
          unfold Breakers.closeID
          rw [hb]
        rw [hclose]

/-- The loop closes breakers that are ejected, when it starts and when their turn comes. -/
theorem relaxVictims_ejected (fuel : Nat) {v : String × Breaker}
    (hv : v ∈ Breakers.relaxVictims now model limit fuel bs) :
    v.2.ejected model = true ∧ ∃ b, bs.byID.lookup v.1 = some b ∧ b.ejected model = true := by
  fun_induction Breakers.relaxVictims now model limit fuel bs with
  | case1 | case2 | case3 => cases hv
  | case4 fuel bs u hvic _ ih =>
    rcases mem_cons.mp hv with rfl | hv
    · have hej := (victim_spec bs model).1 _ hvic
      exact ⟨hej.2, v.2, hej⟩
    · obtain ⟨hopen, b, hb, hej⟩ := ih hv
      refine ⟨hopen, b, ?_, hej⟩
      rcases of_lookup_insert hb with ⟨-, rfl⟩ | ⟨-, hb⟩
      · simp [Breaker.ejected, Breaker.close] at hej
      · exact hb

/-- Closing a victim takes it out of the ejected breakers. -/
theorem SameEjected.close (h : SameEjected model bs bs') (b b' : Breaker) :
    SameEjected model (bs.set id (b.close now)) (bs'.set id (b'.close now)) := by
  intro id'
  have hother : ∀ (bs : Breakers) (b : Breaker),
    ((bs.set id (b.close now)).ejectedOf model).lookup id' =
      if id' = id then none else (bs.ejectedOf model).lookup id' := by
    intro bs b
    unfold Breakers.ejectedOf Breakers.set
    rw [lookup_keep, lookup_insert_ite, lookup_keep]
    split
    · rw [filter_some]
      simp [Breaker.ejected, Breaker.close]
    · rfl
  rw [hother bs b, hother bs' b']
  split
  · exact .none
  · exact h id'

/-- Both loops close the same breakers. -/
theorem SameEjected.relaxVictims (fuel : Nat) {bs' : Breakers} (h : SameEjected model bs bs')
    (hk : bs.Keyed) (hk' : bs'.Keyed) :
    (Breakers.relaxVictims now model limit fuel bs').map (fun v => (v.1, v.2.core)) =
      (Breakers.relaxVictims now model limit fuel bs).map fun v => (v.1, v.2.core) := by
  induction fuel generalizing bs bs' with
  | zero => rfl
  | succ fuel ih =>
    unfold Breakers.relaxVictims
    rcases h.victim hk hk' with ⟨hv, hv'⟩ | ⟨id, b, b', hv, hv', hcore⟩
    · rw [hv, hv']
    · have hb := ((victim_spec bs model).1 _ hv).1
      have hb' := ((victim_spec bs' model).1 _ hv').1
      rw [hv, hv', h.openCount_eq]
      dsimp only
      split
      · rfl
      · rw [map_cons, map_cons, ih (h.close b b') (hk.close hb now) (hk'.close hb' now), hcore]

theorem Breaker.close_close (b : Breaker) (now : Time) : (b.close now).close now = b.close now := by
  unfold Breaker.close SlidingWindow.reset
  simp only [List.map_map]
  rfl

/-- The breakers after some were closed, and that nothing else changed. -/
theorem foldl_closeID (now : Time) (ids : List String) (bs : Breakers) :
    ∃ m, ids.foldl (Breakers.closeID now) bs = { bs with byID := m } ∧
      ∀ id, m.lookup id =
        (bs.byID.lookup id).map fun b => if id ∈ ids then b.close now else b := by
  induction ids generalizing bs with
  | nil => exact ⟨bs.byID, rfl, fun id => by simp⟩
  | cons i ids ih =>
    obtain ⟨m, hm, hlook⟩ := ih (Breakers.closeID now bs i)
    have hone : ∃ m₁, Breakers.closeID now bs i = { bs with byID := m₁ } ∧
        ∀ id, m₁.lookup id = (bs.byID.lookup id).map fun b =>
            if id = i then b.close now else b := by
      unfold Breakers.closeID
      cases hb : bs.byID.lookup i with
      | none =>
        refine ⟨bs.byID, rfl, fun id => ?_⟩
        by_cases hid : id = i
        · rw [hid, hb]
          rfl
        · simp [hid]
      | some b =>
        refine ⟨bs.byID.insert i (b.close now), rfl, fun id => ?_⟩
        rw [lookup_insert_ite]
        split
        next hid => rw [hid, hb, map_some]
        next => simp
    obtain ⟨m₁, hm₁, hlook₁⟩ := hone
    refine ⟨m, by rw [foldl_cons, hm, hm₁], fun id => ?_⟩
    rw [hlook id, hm₁]
    show (m₁.lookup id).map _ = _
    rw [hlook₁ id, Option.map_map]
    congr 1
    funext b
    simp only [Function.comp, mem_cons]
    by_cases hid : id = i
    · by_cases hmem : id ∈ ids
      · simp [hid, hid ▸ hmem, Breaker.close_close]
      · simp [hid, hid ▸ hmem]
    · simp [hid]

end Relax

/-! ### All models -/

/-- The breakers that `enforceCap` closes for a model. -/
def Breakers.relaxedIn (bs : Breakers) (now : Time) (model : String) : List (String × Breaker) :=
  Breakers.relaxVictims now model (maxOpen bs.p.maxOpenFraction (bs.eligibleOf model)) bs.byID.len
    bs

/-- Their workers. -/
def Breakers.relaxedIDs (bs : Breakers) (now : Time) (model : String) : List String :=
  (bs.relaxedIn now model).map Prod.fst

/-- The notifications of their closing. -/
def Breakers.relaxNotices (bs : Breakers) (now : Time) (model : String) : Multiset Change :=
  ((bs.relaxedIn now model).map fun v => Change.plain v.2.key .halfOpen .closed .capRelaxed 0 : List
    Change)

/-- What the loop of a model reads. -/
structure SameModel (model : String) (bs bs' : Breakers) : Prop where
  p : bs'.p = bs.p
  eligibleOf : bs'.eligibleOf model = bs.eligibleOf model
  len : bs'.byID.len = bs.byID.len
  keyed : bs.Keyed
  keyed' : bs'.Keyed
  ejected : SameEjected model bs bs'

theorem SameModel.relaxedIn (h : SameModel model bs bs') (now : Time) :
    (bs'.relaxedIn now model).map (fun v => (v.1, v.2.core)) =
      (bs.relaxedIn now model).map fun v => (v.1, v.2.core) := by
  unfold Breakers.relaxedIn
  rw [h.p, h.eligibleOf, h.len]
  exact h.ejected.relaxVictims _ h.keyed h.keyed'

theorem SameModel.relaxedIDs (h : SameModel model bs bs') :
    bs'.relaxedIDs now model = bs.relaxedIDs now model := by
  have hmap := congrArg (List.map Prod.fst) (h.relaxedIn now)
  rwa [List.map_map, List.map_map] at hmap

theorem SameModel.relaxNotices (h : SameModel model bs bs') :
    bs'.relaxNotices now model = bs.relaxNotices now model := by
  have hmap := congrArg (List.map fun v : String × Breaker =>
    Change.plain v.2.key .halfOpen .closed .capRelaxed 0) (h.relaxedIn now)
  rw [List.map_map, List.map_map] at hmap
  exact congrArg (fun l : List Change => (l : Multiset Change)) hmap

theorem Change.blurred_plain {st : State} (h : st ≠ .closed) (key : Key) (after : State)
    (reason : Reason) (coolDown : Duration) : (Change.plain key st after reason coolDown).blurred =
      Change.plain key .halfOpen after reason coolDown := by
  cases st with
  | closed => exact absurd rfl h
  | halfOpen => rfl
  | «open» => rfl

/-- The loop of one model: the breakers it closes, and their notifications. -/
theorem relaxModel_spec (now : Time) (s : Breakers × List Change) (model : String) :
    (∃ m, (Breakers.relaxModel now s model).1 = { s.1 with byID := m } ∧
      ∀ id, m.lookup id =
        (s.1.byID.lookup id).map fun b => if id ∈ s.1.relaxedIDs now model then b.close now else b)
          ∧
    notices (Breakers.relaxModel now s model).2 = notices s.2 + s.1.relaxNotices now model := by
  unfold Breakers.relaxModel
  rw [relax_eq]
  refine ⟨foldl_closeID now _ s.1, ?_⟩
  rw [notices_append]
  congr 1
  unfold notices Breakers.relaxNotices Breakers.relaxedIn
  rw [filter_eq_self.mpr fun c hc => ?_, List.map_map]
  · congr 1
    refine map_congr_left fun v hv => ?_
    -- a victim is open or half-open, and the blurred notification does not tell
    have hej := (relaxVictims_ejected _ hv).1
    simp only [Breaker.ejected, Bool.and_eq_true, decide_eq_true_eq] at hej
    exact Change.blurred_plain hej.2 _ _ _ _
  · obtain ⟨v, -, rfl⟩ := List.mem_map.mp hc
    rfl

/-- The loop of a model closes breakers of the model. -/
theorem model_of_relaxedIDs (hb : bs.byID.lookup id = some b)
    (hid : id ∈ bs.relaxedIDs now model) : b.model = model := by
  obtain ⟨v, hv, rfl⟩ := List.mem_map.mp hid
  obtain ⟨-, c, hc, hej⟩ := relaxVictims_ejected _ hv
  obtain rfl := some.inj (hc.symm.trans hb)
  simp only [Breaker.ejected, Breaker.inGroup, Bool.and_eq_true, decide_eq_true_eq] at hej
  exact hej.1.2

/-- The loop of one model leaves the others alone. -/
theorem sameModel_relaxModel (hk : bs.Keyed) {chs : List Change} {other : String}
    (hne : model ≠ other) : SameModel model bs (Breakers.relaxModel now (bs, chs) other).1 := by
  obtain ⟨⟨m, hm, hlook⟩, -⟩ := relaxModel_spec now (bs, chs) other
  rw [hm]
  dsimp only at hlook
  refine ⟨rfl, rfl, ?_, hk, hk.of_closed hlook, fun id => ?_⟩
  · have halike : AList.Alike (fun _ _ => True) bs.byID m := by
      intro id
      rw [hlook id]
      cases bs.byID.lookup id with
      | none => exact .none
      | some b => exact .some trivial
    exact halike.len_eq.symm
  · show Option.Rel _ ((bs.ejectedOf model).lookup id)
      ((m.keep fun _ b => b.ejected model).lookup id)
    unfold Breakers.ejectedOf
    rw [lookup_keep, lookup_keep, hlook id]
    cases hb : bs.byID.lookup id with
    | none => exact .none
    | some b =>
      rw [map_some]
      by_cases hid : id ∈ bs.relaxedIDs now other
      · have hout : ∀ c : Breaker, c.model = other → c.ejected model = false := by
          intro c hc
          simp [Breaker.ejected, Breaker.inGroup, hc, Ne.symm hne]
        have hmodel := model_of_relaxedIDs hb hid
        rw [if_pos hid, filter_some, filter_some, hout b hmodel,
          hout (b.close now) hmodel]
        exact .none
      · rw [if_neg hid, filter_some]
        split
        · exact .some rfl
        · exact .none

/-- All loops of `enforceCap`, in terms of the breakers they start with. -/
theorem relaxModels_lookup (now : Time) {models : List String} (hnd : models.Nodup)
    (s : Breakers × List Change) (hk : s.1.Keyed) :
    (∃ m, (models.foldl (Breakers.relaxModel now) s).1 = { s.1 with byID := m } ∧
      ∀ id, m.lookup id = (s.1.byID.lookup id).map fun b =>
        if b.model ∈ models ∧ id ∈ s.1.relaxedIDs now b.model then b.close now else b) ∧
    notices (models.foldl (Breakers.relaxModel now) s).2 =
      notices s.2 + (models.map (s.1.relaxNotices now)).sum := by
  induction models generalizing s with
  | nil => exact ⟨⟨s.1.byID, rfl, fun id => by simp⟩, by simp⟩
  | cons model models ih =>
    obtain ⟨hnot, hnd⟩ := nodup_cons.mp hnd
    obtain ⟨⟨m₁, hm₁, hlook₁⟩, hnotices₁⟩ := relaxModel_spec now s model
    have hframe : ∀ other, other ≠ model →
      SameModel other s.1 (Breakers.relaxModel now s model).1 :=
      fun other hne => sameModel_relaxModel hk hne
    have hk₁ : (Breakers.relaxModel now s model).1.Keyed := by
      rw [hm₁]
      exact hk.of_closed hlook₁
    obtain ⟨⟨m, hm, hlook⟩, hnotices⟩ := ih hnd (Breakers.relaxModel now s model) hk₁
    refine ⟨⟨m, by rw [foldl_cons, hm, hm₁], fun id => ?_⟩, ?_⟩
    · have hbyID : (Breakers.relaxModel now s model).1.byID = m₁ := by rw [hm₁]
      rw [hlook id, hbyID, hlook₁ id, Option.map_map]
      cases hb : s.1.byID.lookup id with
      | none => rfl
      | some b =>
        simp only [map_some, Function.comp]
        congr 1
        by_cases hmodel : b.model = model
        · -- its own loop was the first, and no later one touches it
          have hlast : ∀ c : Breaker, c.model = model →
              ¬ (c.model ∈ models ∧
                id ∈ (Breakers.relaxModel now s model).1.relaxedIDs now c.model) :=
            fun c hc hboth => hnot (hc ▸ hboth.1)
          by_cases hid : id ∈ s.1.relaxedIDs now model
          · rw [if_pos hid, if_neg (hlast (b.close now) hmodel),
              if_pos ⟨by rw [hmodel]; exact mem_cons_self, by rw [hmodel]; exact hid⟩]
          · rw [if_neg hid, if_neg (hlast b hmodel), if_neg fun hboth => hid (hmodel ▸ hboth.2)]
        · rw [if_neg fun hid => hmodel (model_of_relaxedIDs hb hid),
            (hframe b.model hmodel).relaxedIDs]
          refine if_congr (and_congr_left fun _ => ?_) rfl rfl
          exact ⟨mem_cons_of_mem _, fun hmem => (mem_cons.mp hmem).resolve_left hmodel⟩
    · rw [foldl_cons, hnotices, hnotices₁, map_cons, sum_cons, add_assoc]
      congr 3
      refine map_congr_left fun other hother => ?_
      exact (hframe other fun heq => hnot (heq ▸ hother)).relaxNotices

/-! ### The registry view -/

theorem mem_recountEligible :
    model ∈ bs.recountEligible.eligibleBy ↔ 0 < bs.eligibleCount model := by
  have hloop : ∀ (l : List Breaker) (m : GoMap String Int), model ∈ l.foldl countEligible m ↔
      model ∈ m ∨ 0 < l.countP (·.inGroup model) := by
    intro l
    induction l with
    | nil => simp
    | cons b l ih =>
      intro m
      rw [foldl_cons, ih, countP_cons]
      unfold countEligible Breaker.inGroup
      cases b.eligible with
      | false => simp
      | true =>
        by_cases hm : b.model = model
        · subst hm
          simp
        · simp [hm, Ne.symm hm]
  have hcount : bs.eligibleCount model = bs.byID.vals.countP (·.inGroup model) := by
    unfold Breakers.eligibleCount AList.count AList.vals
    rw [countP_map]
    rfl
  rw [hcount]
  refine (hloop bs.byID.vals ∅).trans ⟨fun h => h.resolve_left (notMem_empty model), .inr⟩

namespace SameBreakers

variable {t : Time}

variable (h : SameBreakers t bs bs')
include h

theorem sameModel (model : String) : SameModel model bs bs' :=
  ⟨h.p, h.eligibleOf model, h.byID.len_eq.symm, h.keyed, h.symm.keyed,
    (h.byID.keep fun _ _ _ hb => hb.ejected_eq model).imp fun _ _ hb => hb.core_eq⟩

/-- `enforceCap` closes the same breakers in both, whatever the order of the maps. -/
theorem enforceCap (hmodels : ∀ m, m ∈ bs.eligibleBy ↔ m ∈ bs'.eligibleBy)
    (now : Time) (order order' : List String) :
    SameBreakers t (bs.enforceCap now order).1 (bs'.enforceCap now order').1 ∧
      notices (bs'.enforceCap now order').2 = notices (bs.enforceCap now order).2 := by
  have hperm : (bs'.eligibleBy.rangeKeys order').Perm (bs.eligibleBy.rangeKeys order) :=
    (perm_ext_iff_of_nodup (nodup_rangeKeys _ _) (nodup_rangeKeys _ _)).mpr fun m => by
      rw [mem_rangeKeys, mem_rangeKeys, hmodels]
  obtain ⟨⟨m, hm, hlook⟩, hnotices⟩ :=
    relaxModels_lookup now (nodup_rangeKeys order bs.eligibleBy) (bs, []) h.keyed
  obtain ⟨⟨m', hm', hlook'⟩, hnotices'⟩ :=
    relaxModels_lookup now (nodup_rangeKeys order' bs'.eligibleBy) (bs', []) h.symm.keyed
  unfold Breakers.enforceCap
  constructor
  · rw [hm, hm']
    refine ⟨h.p, h.rnd, h.draws, h.eligible, h.suppressed, h.eligibleOf, h.keyed.of_closed hlook,
      fun id => ?_⟩
    show Option.Rel (Breaker.SameAt t bs.p) (m.lookup id) (m'.lookup id)
    rw [hlook id, hlook' id]
    rcases h.byID.lookup id with ⟨hb, hb'⟩ | ⟨b, b', hb, hb', hsame⟩
    · rw [hb, hb']
      exact .none
    · have hiff : (b'.model ∈ bs'.eligibleBy.rangeKeys order' ∧ id ∈ bs'.relaxedIDs now b'.model) ↔
          (b.model ∈ bs.eligibleBy.rangeKeys order ∧ id ∈ bs.relaxedIDs now b.model) := by
        rw [← hsame.model_eq, (h.sameModel b.model).relaxedIDs, hperm.mem_iff]
      rw [hb, hb', map_some, map_some, if_congr hiff rfl rfl]
      split
      · rw [hsame.close_eq now]
        exact .some (.refl _)
      · exact .some hsame
  · rw [hnotices, hnotices']
    congr 1
    refine ((hperm.map _).sum_eq).trans (congrArg List.sum (map_congr_left fun model _ => ?_))
    exact (h.sameModel model).relaxNotices

/-- The recount counts the same workers. -/
theorem recountEligible :
    SameBreakers t bs.recountEligible bs'.recountEligible ∧
      ∀ m, m ∈ bs.recountEligible.eligibleBy ↔ m ∈ bs'.recountEligible.eligibleBy := by
  have hcount : ∀ model, bs.eligibleCount model = bs'.eligibleCount model := fun model =>
    h.byID.count_eq fun _ _ hb => by
      unfold Breaker.inGroup
      rw [hb.eligible_eq, hb.model_eq]
  refine ⟨⟨h.p, h.rnd, h.draws, ?_, h.suppressed, fun model => ?_, h.keyed, h.byID⟩,
    fun model => ?_⟩
  · exact congrArg Nat.cast (h.byID.count_eq fun _ _ hb => hb.eligible_eq).symm
  · rw [eligibleOf_recountEligible, eligibleOf_recountEligible, hcount]
  · rw [mem_recountEligible, mem_recountEligible, hcount]

theorem syncMember (m : Member) : SameBreakers t (bs.syncMember m) (bs'.syncMember m) := by
  unfold Breakers.syncMember
  rcases h.find m.key with ⟨hb, hb'⟩ | ⟨b, b', hb, hb', hsame⟩
  · rw [hb, hb', h.p]
    exact h.set (.refl _) rfl
  · rw [hb, hb']
    exact h.set (hsame.view m.eligible m.model) (congrArg Key.id (find_eq_some hb).2)

theorem syncMembers (members : List Member) :
    SameBreakers t (members.foldl Breakers.syncMember bs)
      (members.foldl Breakers.syncMember bs') := by
  induction members generalizing bs bs' with
  | nil => exact h
  | cons m members ih => exact ih (h.syncMember m)

theorem keep {q q' : String → Breaker → Bool}
    (hq : ∀ id b b', b.SameAt t bs.p b' → q id b = q' id b') :
    SameBreakers t { bs with byID := bs.byID.keep q } { bs' with byID := bs'.byID.keep q' } := by
  refine ⟨h.p, h.rnd, h.draws, h.eligible, h.suppressed, h.eligibleOf, fun id b hb => ?_,
    h.byID.keep hq⟩
  exact h.keyed id b (of_lookup_keep hb).1

theorem sync (now : Time) (order order' : List String) (members : List Member) :
    SameBreakers t (bs.sync now order members).1 (bs'.sync now order' members).1 ∧
      notices (bs'.sync now order' members).2 = notices (bs.sync now order members).2 := by
  have hkeep := (h.syncMembers members).keep (q := fun id _ => decide (id ∈ memberIDs members))
    fun _ _ _ _ => rfl
  obtain ⟨hcount, hmodels⟩ := hkeep.recountEligible
  exact hcount.enforceCap hmodels now order order'

theorem prune (now : Time) (order order' : List String) (keys : List Key) :
    SameBreakers t (bs.prune now order keys).1 (bs'.prune now order' keys).1 ∧
      notices (bs'.prune now order' keys).2 = notices (bs.prune now order keys).2 := by
  have hkeep : SameBreakers t { bs with byID := bs.byID.keep fun _ b => decide (b.key ∈ keys) }
      { bs' with byID := bs'.byID.keep fun _ b => decide (b.key ∈ keys) } :=
    h.keep fun _ _ _ hb => by rw [hb.key_eq]
  obtain ⟨hcount, hmodels⟩ := hkeep.recountEligible
  exact hcount.enforceCap hmodels now order order'

end SameBreakers

end ServerFlow.Resilience
