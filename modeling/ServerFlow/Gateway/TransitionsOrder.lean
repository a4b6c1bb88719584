import ServerFlow.Gateway.Transitions

/-!
# Gateway.TransitionsOrder

Between the release of the breakers' lock and `push` another operation may change the same breaker
and hand its change over first. So the observers see a registration's changes in the order in which
they were made exactly in the runs in which every `push` is of the oldest change of its registration
that was not yet handed over (`Transitions.Oldest`). Two goroutines break that: a request records
the fault that trips a breaker, a registry refresh closes it again because the ejection cap shrank,
and the refresh reaches `push` first. The last state delivered is then not the breaker's.

Three facts carry the proof: what was not handed over is with the goroutines, each item with one of
them (`Transitions.Held`); what was handed over and what was not make up what was made, in this
order, as long as the oldest goes first (`Transitions.InOrder`); and once a change stands in the
place of another one it stays there (`Transitions.Swapped`).
-/

namespace ServerFlow.Gateway

open Resilience List Machine

variable {i : Item}

namespace Transitions

variable {n : Nat} {s t : Transitions n} {g : Fin n}

/-! ### What is still to be handed over -/

/-- What was not handed over is with the goroutines, each item with one of them. -/
structure Held (s : Transitions n) : Prop where
  nodup : s.unpushed.Nodup
  early : ∀ i ∈ s.unpushed, i.serial < s.made.length
  mem : ∀ i, i ∈ s.unpushed ↔ ∃ g, i ∈ (s.phase g).handed
  own : ∀ g, (s.phase g).handed.Nodup
  apart : ∀ g g' i, i ∈ (s.phase g).handed → i ∈ (s.phase g').handed → g = g'

/-- A step in which no change is made or handed over. -/
structure Still (s t : Transitions n) : Prop where
  breakers : t.breakers = s.breakers
  made : t.made = s.made
  unpushed : t.unpushed = s.unpushed
  pushed : t.pushed = s.pushed
  handed : ∀ g, (t.phase g).handed = (s.phase g).handed

theorem handed_enter {ph : Phase} (h : (s.phase g).handed = ph.handed) (g' : Fin n) :
    ((s.enter g ph).phase g').handed = (s.phase g').handed := by
  by_cases hg : g' = g
  · rw [hg, enter_self, h]
  · rw [enter_other hg]

/-- What a step can do to the changes. -/
theorem go_cases (ht : s.go g = some t) :
    (∃ i rest, s.phase g = .handing (i :: rest) ∧ t = (s.push i).enter g (.handing rest)) ∨
      (∀ i rest, s.phase g ≠ .handing (i :: rest)) ∧ s.Still t := by
  have hstill : ∀ {u : Transitions n} {old ph : Phase}, s.phase g = old → old.handed = ph.handed →
      u.breakers = s.breakers → u.made = s.made → u.unpushed = s.unpushed → u.pushed = s.pushed →
      u.phase = s.phase → s.Still (u.enter g ph) := by
    intro u old ph hph hsame hb hm hu hp hphase
    refine ⟨hb, hm, hu, hp, fun g' => ?_⟩
    rw [enter, hphase]
    exact handed_enter (by rw [hph]; exact hsame) g'
  revert ht
  fun_cases Transitions.go s g <;> intro ht <;> cases ht
  case case3 i rest hph => exact .inl ⟨i, rest, hph, rfl⟩
  all_goals
    rename s.phase g = _ => hph
    refine .inr ⟨fun i rest hhanding => ?_, hstill hph rfl rfl rfl rfl rfl rfl⟩
    cases hph.symm.trans hhanding

theorem still_flush (ht : s.step (.flush g) = some t) : s.Still t := by
  obtain ⟨hidle, rfl⟩ := step_flush ht
  exact ⟨rfl, rfl, rfl, rfl, handed_enter (by rw [hidle]; rfl)⟩

theorem numbered_nodup (cs : List Change) : (s.numbered cs).Nodup := by
  have hserials : (s.numbered cs).map Item.serial = List.range' s.made.length cs.length := by
    refine ext_getElem (by simp [numbered]) fun m hm hm' => ?_
    simp [numbered]
  exact List.Nodup.of_map Item.serial (hserials ▸ nodup_range')

theorem le_of_mem_numbered {cs : List Change} (h : i ∈ s.numbered cs) :
    s.made.length ≤ i.serial ∧ i.serial < s.made.length + cs.length := by
  obtain ⟨m, hm, rfl⟩ := mem_mapIdx.mp h
  exact ⟨Nat.le_add_right _ _, Nat.add_lt_add_left hm _⟩

namespace Held

theorem still (h : s.Held) (hstill : s.Still t) : t.Held where
  nodup := hstill.unpushed ▸ h.nodup
  early := by
    rw [hstill.unpushed, hstill.made]
    exact h.early
  mem := by
    intro i
    simp only [hstill.unpushed, hstill.handed]
    exact h.mem i
  own := by
    intro g
    rw [hstill.handed]
    exact h.own g
  apart := by
    intro g g' i
    rw [hstill.handed, hstill.handed]
    exact h.apart g g' i

theorem operate (h : s.Held) (hidle : s.phase g = .idle) (c : BreakersCall) :
    (s.operate g c).Held := by
  generalize hcs : (s.breakers.step c).2.2 = cs
  have hunp : (s.operate g c).unpushed = s.unpushed ++ s.numbered cs := by rw [← hcs]; rfl
  have hmade : (s.operate g c).made.length = s.made.length + cs.length := by
    rw [← hcs]
    change (s.made ++ s.numbered _).length = _
    rw [length_append, numbered, length_mapIdx]
  have hown : ((s.operate g c).phase g).handed = s.numbered cs := by
    rw [Transitions.operate, enter_self, hcs]
    rfl
  have hother : ∀ g', g' ≠ g → ((s.operate g c).phase g').handed = (s.phase g').handed := by
    intro g' hg'
    rw [Transitions.operate, enter_other hg']
  have hnone : (s.phase g).handed = [] := by
    rw [hidle]
    rfl
  -- A new number is not the number of something that is still to be handed over.
  have hfresh : ∀ g' i, i ∈ (s.phase g').handed → i ∉ s.numbered cs := by
    intro g' i hi hnew
    have hearly := h.early i ((h.mem i).mpr ⟨g', hi⟩)
    exact absurd hearly (Nat.not_lt.mpr (le_of_mem_numbered hnew).1)
  constructor
  · rw [hunp, nodup_append']
    refine ⟨h.nodup, numbered_nodup cs, fun i hi hnew => ?_⟩
    obtain ⟨g', hg'⟩ := (h.mem i).mp hi
    exact hfresh g' i hg' hnew
  · intro i hi
    rw [hmade]
    rw [hunp, mem_append] at hi
    rcases hi with hi | hi
    · exact Nat.lt_add_right _ (h.early i hi)
    · exact (le_of_mem_numbered hi).2
  · intro i
    rw [hunp, mem_append, h.mem]
    constructor
    · rintro (⟨g', hg'⟩ | hi)
      · refine ⟨g', ?_⟩
        have hne : g' ≠ g := by
          rintro rfl
          rw [hnone] at hg'
          cases hg'
        rw [hother g' hne]
        exact hg'
      · exact ⟨g, hown ▸ hi⟩
    · rintro ⟨g', hg'⟩
      by_cases hne : g' = g
      · subst hne
        rw [hown] at hg'
        exact .inr hg'
      · rw [hother g' hne] at hg'
        exact .inl ⟨g', hg'⟩
  · intro g'
    by_cases hne : g' = g
    · rw [hne, hown]
      exact numbered_nodup cs
    · rw [hother g' hne]
      exact h.own g'
  · intro g₁ g₂ i h₁ h₂
    by_cases hne₁ : g₁ = g
    · by_cases hne₂ : g₂ = g
      · exact hne₁.trans hne₂.symm
      · rw [hne₁, hown] at h₁
        rw [hother g₂ hne₂] at h₂
        exact absurd h₁ (hfresh g₂ i h₂)
    · rw [hother g₁ hne₁] at h₁
      by_cases hne₂ : g₂ = g
      · rw [hne₂, hown] at h₂
        exact absurd h₂ (hfresh g₁ i h₁)
      · rw [hother g₂ hne₂] at h₂
        exact h.apart g₁ g₂ i h₁ h₂

theorem push (h : s.Held) {rest : List Item} (hph : s.phase g = .handing (i :: rest)) :
    ((s.push i).enter g (.handing rest)).Held := by
  have hunp : ((s.push i).enter g (.handing rest)).unpushed = s.unpushed.erase i := by
    unfold Transitions.push
    split <;> rfl
  have hmade : ((s.push i).enter g (.handing rest)).made = s.made := by
    unfold Transitions.push
    split <;> rfl
  have hother : ∀ g', g' ≠ g → (((s.push i).enter g (.handing rest)).phase g') = s.phase g' := by
    intro g' hg'
    rw [enter_other hg']
    unfold Transitions.push
    split <;> rfl
  have hnow : (s.phase g).handed = i :: rest := by rw [hph]; rfl
  have hnd := h.own g
  rw [hnow, nodup_cons] at hnd
  -- The handed item is with nobody else, and not with `g` a second time.
  have hleft : ∀ g' j, j ∈ ((((s.push i).enter g (.handing rest)).phase g').handed) ↔
      j ∈ (s.phase g').handed ∧ j ≠ i := by
    intro g' j
    by_cases hg' : g' = g
    · subst hg'
      rw [enter_self, hnow, mem_cons]
      constructor
      · intro hj
        exact ⟨.inr hj, fun heq => hnd.1 (heq ▸ hj)⟩
      · rintro ⟨hj, hne⟩
        exact hj.resolve_left hne
    · rw [hother g' hg']
      refine ⟨fun hj => ⟨hj, ?_⟩, And.left⟩
      rintro rfl
      exact hg' (h.apart g' g j hj (hnow ▸ mem_cons_self))
  constructor
  · rw [hunp]
    exact h.nodup.erase i
  · intro j hj
    rw [hunp] at hj
    rw [hmade]
    exact h.early j (mem_of_mem_erase hj)
  · intro j
    rw [hunp, h.nodup.mem_erase_iff, h.mem]
    simp only [hleft]
    constructor
    · rintro ⟨hne, g', hg'⟩
      exact ⟨g', hg', hne⟩
    · rintro ⟨g', hg', hne⟩
      exact ⟨hne, g', hg'⟩
  · intro g'
    by_cases hg' : g' = g
    · rw [hg', enter_self]
      exact hnd.2
    · rw [hother g' hg']
      exact h.own g'
  · intro g₁ g₂ j h₁ h₂
    exact h.apart g₁ g₂ j ((hleft g₁ j).mp h₁).1 ((hleft g₂ j).mp h₂).1

theorem step (h : s.Held) {a : TransitionsAct n} (ht : s.step a = some t) : t.Held := by
  cases a with
  | call g c =>
    obtain ⟨hidle, rfl⟩ := step_call ht
    exact h.operate hidle c
  | flush g => exact h.still (still_flush ht)
  | go g =>
    rcases go_cases ht with ⟨i, rest, hph, rfl⟩ | ⟨-, hstill⟩
    · exact h.push hph
    · exact h.still hstill

theorem start (p : BreakerParams) (rnd : Nat → ℚ) : (Transitions.start n p rnd).Held where
  nodup := nodup_nil
  early := fun _ hi => absurd hi not_mem_nil
  mem := fun _ => ⟨fun hi => absurd hi not_mem_nil, fun ⟨_, hi⟩ => absurd hi not_mem_nil⟩
  own := fun _ => nodup_nil
  apart := fun _ _ _ hi => absurd hi not_mem_nil

end Held

/-! ### The order of one registration's changes -/

section Order

variable {k : Key}

theorem ofKey_append (k : Key) (is js : List Item) :
    ofKey k (is ++ js) = ofKey k is ++ ofKey k js :=
  filter_append _ _

@[simp] theorem ofKey_nil (k : Key) : ofKey k [] = [] := rfl

theorem mem_ofKey {k : Key} {is : List Item} : i ∈ ofKey k is ↔ i ∈ is ∧ i.change.key = k := by
  simp only [ofKey, mem_filter, decide_eq_true_eq]

theorem ofKey_cons (k : Key) (i : Item) (is : List Item) :
    ofKey k (i :: is) = if i.change.key = k then i :: ofKey k is else ofKey k is := by
  simp only [ofKey, filter_cons, decide_eq_true_eq]

/-- What was handed over comes first, and what was not after it: so the changes of a registration
were handed over in the order in which they were made. -/
def InOrder (s : Transitions n) : Prop :=
  ∀ k, ofKey k s.made = ofKey k s.pushed ++ ofKey k s.unpushed

/-- A change was handed over in the place of another one. -/
def Swapped (s : Transitions n) : Prop :=
  ∃ k first i j, i ≠ j ∧ first ++ [i] <+: ofKey k s.pushed ∧ first ++ [j] <+: ofKey k s.made

theorem pushed_of_room (hroom : s.queue.length < maxPendingChanges) :
    (s.push i).made = s.made ∧ (s.push i).pushed = s.pushed ++ [i] ∧
      (s.push i).unpushed = s.unpushed.erase i := by
  unfold push
  rw [if_neg (Nat.not_le.mpr hroom)]
  exact ⟨rfl, rfl, rfl⟩

theorem ofKey_erase (i : Item) (is : List Item) : ofKey k (is.erase i) = (ofKey k is).erase i := by
  induction is with
  | nil => rfl
  | cons j is ih =>
    by_cases hj : j = i
    · subst hj
      rw [erase_cons_head]
      rw [ofKey_cons]
      split
      next => rw [erase_cons_head]
      next hk => rw [erase_of_not_mem fun hmem => hk (mem_ofKey.mp hmem).2]
    · have hbeq : ¬ (j == i) = true := fun h => hj (beq_iff_eq.mp h)
      rw [erase_cons_tail hbeq, ofKey_cons, ofKey_cons]
      split
      · rw [erase_cons_tail hbeq, ih]
      · exact ih

theorem InOrder.still (h : s.InOrder) (hstill : s.Still t) : t.InOrder := by
  intro k
  rw [hstill.made, hstill.pushed, hstill.unpushed]
  exact h k

theorem InOrder.operate (h : s.InOrder) (g : Fin n) (c : BreakersCall) :
    (s.operate g c).InOrder := by
  intro k
  change ofKey k (s.made ++ s.numbered _) = ofKey k s.pushed ++ ofKey k (s.unpushed ++ s.numbered _)
  rw [ofKey_append, ofKey_append, h k, append_assoc]

theorem InOrder.push (h : s.InOrder) (hroom : s.queue.length < maxPendingChanges)
    (holdest : (ofKey i.change.key s.unpushed).head? = some i) : (s.push i).InOrder := by
  intro k
  obtain ⟨hmade, hpushed, hunp⟩ := pushed_of_room (i := i) hroom
  rw [hmade, hpushed, hunp, ofKey_append, ofKey_cons, ofKey_erase, h k]
  split
  next hk =>
    subst hk
    obtain ⟨rest, hrest⟩ := List.head?_eq_some_iff.mp holdest
    rw [hrest, erase_cons_head, append_cons, ofKey_nil]
  next hk =>
    have hout : i ∉ ofKey k s.unpushed := fun hi => hk (mem_ofKey.mp hi).2
    rw [erase_of_not_mem hout, ofKey_nil, append_nil]

/-- The first change that is handed over too early stands in the place of an older one. -/
theorem InOrder.swapped (h : s.InOrder) (hheld : s.Held) {g : Fin n} {rest : List Item}
    (hph : s.phase g = .handing (i :: rest)) (hroom : s.queue.length < maxPendingChanges)
    (hlate : (ofKey i.change.key s.unpushed).head? ≠ some i) : (s.push i).Swapped := by
  obtain ⟨hmade, hpushed, -⟩ := pushed_of_room (i := i) hroom
  have hmem : i ∈ ofKey i.change.key s.unpushed := by
    refine mem_ofKey.mpr ⟨(hheld.mem i).mpr ⟨g, ?_⟩, rfl⟩
    rw [hph]
    exact mem_cons_self
  cases hunp : ofKey i.change.key s.unpushed with
  | nil =>
    rw [hunp] at hmem
    cases hmem
  | cons j older =>
    refine ⟨i.change.key, ofKey i.change.key s.pushed, i, j, ?_, ?_, ?_⟩
    · rintro rfl
      exact hlate (by rw [hunp]; rfl)
    · rw [hpushed, ofKey_append, ofKey_cons, if_pos rfl, ofKey_nil]
    · rw [hmade, h, hunp]
      exact ⟨older, (append_cons _ _ _).symm⟩

/-- Both logs only grow. -/
theorem Swapped.step (h : s.Swapped) {a : TransitionsAct n} (ht : s.step a = some t) :
    t.Swapped := by
  obtain ⟨k, first, i, j, hne, hpushed, hmade⟩ := h
  have hgrow : s.pushed <+: t.pushed ∧ s.made <+: t.made := by
    cases a with
    | call g c =>
      obtain ⟨-, rfl⟩ := step_call ht
      exact ⟨prefix_rfl, prefix_append _ _⟩
    | flush g =>
      have hstill := still_flush ht
      rw [hstill.pushed, hstill.made]
      exact ⟨prefix_rfl, prefix_rfl⟩
    | go g =>
      rcases go_cases ht with ⟨m, rest, -, rfl⟩ | ⟨-, hstill⟩
      · change s.pushed <+: (s.push m).pushed ∧ s.made <+: (s.push m).made
        unfold Transitions.push
        split
        · exact ⟨prefix_rfl, prefix_rfl⟩
        · exact ⟨prefix_append _ _, prefix_rfl⟩
      · rw [hstill.pushed, hstill.made]
        exact ⟨prefix_rfl, prefix_rfl⟩
  exact ⟨k, first, i, j, hne, hpushed.trans (hgrow.1.filter _), hmade.trans (hgrow.2.filter _)⟩

theorem Swapped.ne (h : s.Swapped) : ∃ k, ofKey k s.pushed ≠ ofKey k s.made := by
  obtain ⟨k, first, i, j, hne, hpushed, hmade⟩ := h
  refine ⟨k, fun heq => hne ?_⟩
  rw [heq] at hpushed
  have hpair : first ++ [i] = first ++ [j] :=
    (prefix_of_prefix_length_le hpushed hmade (by simp)).eq_of_length (by simp)
  exact singleton_inj.mp (append_cancel_left hpair)

end Order

/-! ### The breakers' states -/

/-- The changes that were made say what state each breaker is in. -/
structure Told (s : Transitions n) : Prop where
  keyed : s.breakers.Keyed
  path : ∀ id b, s.breakers.byID.lookup id = some b →
    follow .closed ((ofKey b.key s.made).map Item.change) = some b.state

theorem map_ofKey_numbered (k : Key) (cs : List Change) :
    (ofKey k (s.numbered cs)).map Item.change = changesOf k cs := by
  have hcs : (s.numbered cs).map Item.change = cs := by
    refine ext_getElem (by simp [numbered]) fun m hm hm' => ?_
    simp [numbered]
  nth_rewrite 2 [← hcs]
  unfold ofKey changesOf
  rw [filter_map]
  rfl

theorem Told.still (h : s.Told) (hstill : s.Still t) : t.Told := by
  refine ⟨hstill.breakers ▸ h.keyed, fun id b hb => ?_⟩
  rw [hstill.breakers] at hb
  rw [hstill.made]
  exact h.path id b hb

theorem Told.operate (h : s.Told) {c : BreakersCall} (hret : s.NoReturn (.call g c)) :
    (s.operate g c).Told := by
  obtain ⟨hkeyed, htracks⟩ := Breakers.step_tracks h.keyed hret.1
  refine ⟨hkeyed, fun id b' hb' => ?_⟩
  change follow .closed ((ofKey b'.key (s.made ++ s.numbered _)).map Item.change) = some b'.state
  rw [ofKey_append, map_append, map_ofKey_numbered, follow_append]
  rcases htracks id b' hb' with ⟨b, hb, hkey, hpath⟩ | ⟨hlisted, hnone, hpath⟩
  · rw [← hkey, h.path id b hb, hkey]
    exact hpath
  · rw [hret.2 b'.key hlisted hnone]
    exact hpath

theorem Told.step (h : s.Told) {a : TransitionsAct n} (hret : s.NoReturn a)
    (ht : s.step a = some t) :
    t.Told := by
  cases a with
  | call g c =>
    obtain ⟨-, rfl⟩ := step_call ht
    exact h.operate hret
  | flush g => exact h.still (still_flush ht)
  | go g =>
    rcases go_cases ht with ⟨i, rest, -, rfl⟩ | ⟨-, hstill⟩
    · have hpush : (s.push i).breakers = s.breakers ∧ (s.push i).made = s.made := by
        unfold Transitions.push
        split <;> exact ⟨rfl, rfl⟩
      refine ⟨hpush.1 ▸ h.keyed, fun id b hb => ?_⟩
      change (s.push i).breakers.byID.lookup id = some b at hb
      rw [hpush.1] at hb
      change follow .closed ((ofKey b.key (s.push i).made).map Item.change) = some b.state
      rw [hpush.2]
      exact h.path id b hb
    · exact h.still hstill

/-! ### Whole runs -/

section Runs

variable {p : BreakerParams} {rnd : Nat → ℚ} {acts : List (TransitionsAct n)}

/-- What holds in every run: the flag excludes, somebody attends to the queue, and what was not
handed over is held. -/
theorem sound_run (hrun : runActs step (start n p rnd) acts = some s) :
    s.Drained ∧ s.Attended ∧ s.Held := by
  refine (reach_of_runActs .refl acts hrun).invariant
    (P := fun s => s.Drained ∧ s.Attended ∧ s.Held)
    ⟨.start p rnd, fun hne => absurd rfl hne, .start p rnd⟩ ?_
  rintro s t a ⟨hd, ha, hh⟩ ht
  exact ⟨hd.step ht, ha.step hd ht, hh.step ht⟩

/-- When everything is quiet, what was made was handed over, and what was handed over was
delivered. -/
theorem Quiet.settled (hq : s.Quiet) (h : s.Drained ∧ s.Attended ∧ s.Held) :
    s.unpushed = [] ∧ s.delivered = s.pushed := by
  obtain ⟨hd, ha, hh⟩ := h
  have hunp : s.unpushed = [] := by
    refine eq_nil_iff_forall_not_mem.mpr fun i hi => ?_
    obtain ⟨g, hg⟩ := (hh.mem i).mp hi
    rw [hq.1 g] at hg
    cases hg
  exact ⟨hunp, (hq.delivered hd ha).2⟩

/-- In a run with room, the changes are in order as long as each one handed over is the oldest;
after the first that is not, one stands in the place of another. -/
theorem order_run (hrun : runActs step (start n p rnd) acts = some s)
    (hroom : Machine.Along step Room (start n p rnd) acts) :
    Machine.Along step Oldest (start n p rnd) acts ∧ s.InOrder ∨
      ¬ Machine.Along step Oldest (start n p rnd) acts ∧ s.Swapped := by
  have hsplit : Machine.Along step Oldest (start n p rnd) acts ∧ (s.Held ∧ s.InOrder) ∨
      ¬ Machine.Along step Oldest (start n p rnd) acts ∧ s.Swapped := by
    refine along_or (P := fun s => s.Held ∧ s.InOrder) (Q := Swapped) ?_ ?_
      (fun s t a h ht => h.step ht) hrun hroom ⟨.start p rnd, fun _ => rfl⟩
    · rintro s t a ⟨hh, ho⟩ hroom hok ht
      refine ⟨hh.step ht, ?_⟩
      cases a with
      | call g c =>
        obtain ⟨-, rfl⟩ := step_call ht
        exact ho.operate g c
      | flush g => exact ho.still (still_flush ht)
      | go g =>
        rcases go_cases ht with ⟨i, rest, hph, rfl⟩ | ⟨-, hstill⟩
        · simp only [Oldest, hph] at hok
          exact ho.push hroom hok
        · exact ho.still hstill
    · rintro s t a ⟨hh, ho⟩ hroom hok ht
      cases a with
      | call g c => exact absurd trivial hok
      | flush g => exact absurd trivial hok
      | go g =>
        rcases go_cases ht with ⟨i, rest, hph, rfl⟩ | ⟨hnot, -⟩
        · simp only [Oldest, hph] at hok
          exact ho.swapped hh hph hroom hok
        · refine absurd ?_ hok
          unfold Oldest
          dsimp only
          split
          next i rest hph => exact absurd hph (hnot i rest)
          next => trivial
  exact hsplit.imp (fun h => ⟨h.1, h.2.2⟩) id

theorem told_run (hrun : runActs step (start n p rnd) acts = some s)
    (hret : Machine.Along step NoReturn (start n p rnd) acts) : s.Told := by
  refine hret.invariant (P := Told) (fun s t a h hok ht => h.step hok ht) hrun ⟨?_, ?_⟩
  · exact fun _ _ h => by cases h
  · exact fun id b hb => by cases hb

/-- **Transitions are delivered in order exactly if they are handed over in order.** In every run of
goroutines that never fills the queue: if each change handed over is the oldest of its registration
that was not, then what was delivered for a registration is at all times the first part of what its
breakers made. Once everything is quiet it is all of it, and only in such runs. For a breaker whose
registration was not dropped and listed again the delivered changes then form a path from the closed
state to the breaker's own, and the last state delivered is the breaker's. -/
theorem transitions_delivered_in_order {n : Nat} {p : BreakerParams} {rnd : Nat → ℚ}
    {acts : List (TransitionsAct n)} {s : Transitions n}
    (hrun : runActs step (start n p rnd) acts = some s)
    (hroom : Machine.Along step Room (start n p rnd) acts) :
    (Machine.Along step Oldest (start n p rnd) acts → ∀ k, ofKey k s.delivered <+: ofKey k s.made) ∧
      (s.Quiet → ((∀ k, ofKey k s.delivered = ofKey k s.made) ↔
        Machine.Along step Oldest (start n p rnd) acts)) ∧
      (s.Quiet → Machine.Along step Oldest (start n p rnd) acts →
        Machine.Along step NoReturn (start n p rnd) acts →
        ∀ id b, s.breakers.byID.lookup id = some b →
          follow .closed ((ofKey b.key s.delivered).map Item.change) = some b.state ∧
            s.lastDelivered b.key = b.state) := by
  have hsound := sound_run hrun
  have hsplit := order_run hrun hroom
  have hall : s.Quiet → ((∀ k, ofKey k s.delivered = ofKey k s.made) ↔
      Machine.Along step Oldest (start n p rnd) acts) := by
    intro hq
    obtain ⟨hunp, hdel⟩ := hq.settled hsound
    rw [hdel]
    rcases hsplit with ⟨hold, hord⟩ | ⟨hnot, hswap⟩
    · refine iff_of_true (fun k => ?_) hold
      rw [hord k, hunp, ofKey_nil, append_nil]
    · refine iff_of_false (fun hsame => ?_) hnot
      obtain ⟨k, hne⟩ := hswap.ne
      exact hne (hsame k)
  refine ⟨fun hold k => ?_, hall, fun hq hold hret id b hb => ?_⟩
  · rcases hsplit with ⟨-, hord⟩ | ⟨hnot, -⟩
    · have hpart : s.delivered <+: s.pushed := by
        by_cases hdrain : ∃ g, (s.phase g).drains = true
        · obtain ⟨g, hg⟩ := hdrain
          rw [(hsound.1.held g hg).2, append_assoc]
          exact prefix_append _ _
        · rw [(hsound.1.free fun g => Bool.eq_false_of_not_eq_true fun hg => hdrain ⟨g, hg⟩).2]
          exact prefix_append _ _
      rw [hord k]
      exact (hpart.filter _).trans (prefix_append _ _)
    · exact absurd hold hnot
  · have hpath := (told_run hrun hret).path id b hb
    rw [← (hall hq).mpr hold b.key] at hpath
    refine ⟨hpath, ?_⟩
    unfold lastDelivered
    cases hnil : ofKey b.key s.delivered with
    | nil =>
      rw [hnil] at hpath
      exact Option.some.inj hpath
    | cons i rest =>
      rw [hnil] at hpath
      have hlast := follow_getLast hpath (cons_ne_nil _ _)
      rw [List.getLast?_map, Option.map_map] at hlast
      exact (congrArg (·.getD State.closed) hlast :)

end Runs

/-! ### Two goroutines -/

/-- One fault trips, and at most half of the workers may be ejected. -/
def tripsAtOnce : BreakerParams :=
  ⟨1, 0, 1, 1000000000, 1000000000, 1000000000, 1, 1, 1 / 2, 1000000000⟩

def firstWorker : Key := ⟨"w1", 1⟩

def secondWorker : Key := ⟨"w2", 1⟩

/-- All steps of a `flush` that finds one batch of `m` changes. -/
def flushOf {n : Nat} (g : Fin n) (m : Nat) : List (TransitionsAct n) :=
  .flush g :: List.replicate (m + 7) (.go g)

/-- Two workers are listed, and an attempt is sent to the first one. -/
def attemptSent : List (TransitionsAct 2) :=
  [.call 1 ⟨0, [], .sync [⟨firstWorker, "m", true⟩, ⟨secondWorker, "m", true⟩]⟩, .go 1,
    .call 0 ⟨1, [], .acquire firstWorker⟩, .go 0]

/-- Its fault trips the breaker. -/
def faultRecorded : TransitionsAct 2 :=
  .call 0 ⟨2, [], .record ⟨firstWorker, 0, 0, false, true⟩ .fault⟩

/-- The second worker is gone, so the cap closes the breaker. -/
def workerGone : TransitionsAct 2 := .call 1 ⟨3, ["m"], .sync [⟨firstWorker, "m", true⟩]⟩

/-- The goroutine that recorded the fault is stopped before `push`, and the refresh comes in
between. -/
def overtakenRun : List (TransitionsAct 2) :=
  attemptSent ++ [faultRecorded, workerGone, .go 1, .go 1] ++ flushOf 1 1 ++
    [.go 0, .go 0] ++ flushOf 0 1

/-- The same, but it goes on in time. -/
def punctualRun : List (TransitionsAct 2) :=
  attemptSent ++ [faultRecorded, workerGone, .go 0, .go 0] ++ flushOf 0 1 ++
    [.go 1, .go 1] ++ flushOf 1 1

/-- In the first run the observers are told that the breaker closed and then that it opened, and it
is closed. -/
theorem refresh_overtakes_trip :
    Machine.Along step Room (start 2 tripsAtOnce fun _ => 0) overtakenRun ∧
      Machine.Along step NoReturn (start 2 tripsAtOnce fun _ => 0) overtakenRun ∧
      ∃ s, runActs step (start 2 tripsAtOnce fun _ => 0) overtakenRun = some s ∧ s.Quiet ∧
        (ofKey firstWorker s.made).map (fun i => i.change.after) = [.open, .closed] ∧
        (ofKey firstWorker s.delivered).map (fun i => i.change.after) = [.closed, .open] ∧
        (s.breakers.find firstWorker).map Breaker.state = some .closed ∧
          s.lastDelivered firstWorker = .open := by
  refine ⟨by decide +kernel, by decide +kernel, ?_⟩
  show ∃ s ∈ runActs step (start 2 tripsAtOnce fun _ => 0) overtakenRun, _
  decide +kernel

/-- In the second one the last state delivered is the breaker's. -/
theorem transitions_delivered_in_order_punctual :
    ∃ s b, runActs step (start 2 tripsAtOnce fun _ => 0) punctualRun = some s ∧ s.Quiet ∧
      s.breakers.byID.lookup "w1" = some b ∧ (ofKey b.key s.made).length = 2 ∧
      ofKey b.key s.delivered = ofKey b.key s.made ∧ s.lastDelivered b.key = b.state := by
  obtain ⟨s, hs, b, hb, hquiet, hlength⟩ : ∃ s ∈ runActs step
    (start 2 tripsAtOnce fun _ => 0) punctualRun,
      ∃ b ∈ s.breakers.byID.lookup "w1", s.Quiet ∧ (ofKey b.key s.made).length = 2 := by
    decide +kernel
  have hold : Machine.Along step Oldest (start 2 tripsAtOnce fun _ => 0) punctualRun := by
    decide +kernel
  obtain ⟨-, hall, hlast⟩ := transitions_delivered_in_order hs (by decide +kernel)
  exact ⟨s, b, hs, hquiet, hb, hlength, (hall hquiet).mpr hold b.key,
    (hlast hquiet hold (by decide +kernel) "w1" b hb).2⟩

end Transitions

end ServerFlow.Gateway
