import ServerFlow.Lib.Machine
import ServerFlow.Lib.Table
import ServerFlow.Resilience.Budget

/-!
# Resilience.BudgetRuns

What the windows of a budget count, over whole runs. `Tallied b cur T` says that the windows stand
for the lists of seconds in `T`, one for each key and counter. Without `Prune` these are the seconds
of the first attempts noted and of the reservations not refunded, so the budget is never overshot.
-/

namespace ServerFlow.Resilience

open List Option Function AList SlidingWindow

/-- One more event of the present second in the window of a model. -/
def Budget.tick (b : Budget) (now : Time) (model : String) (which : Counter) : Budget :=
  (b.window model).1.put (b.key model) ((b.charged model).add now now which 1)

/-- The windows of `b` stand for the lists of seconds `T` when the clock is in second `cur`. -/
structure Tallied (b : Budget) (cur : Int) (T : String → Counter → List Int) : Prop where
  win : ∀ k w, b.models.lookup k = some w →
    w.n = bucketsOf b.p.window ∧ w.Represents cur (T k)
  empty : ∀ k, b.models.lookup k = none → ∀ which, T k which = []

namespace Tallied

variable {b : Budget} {cur : Int} {T : String → Counter → List Int} {k : String} {w : SlidingWindow}
  {now : Time}

theorem new (p : BudgetParams) (cur : Int) : Tallied (.new p) cur fun _ _ => [] where
  win := by
    intro k w hw
    cases hw
  empty := fun _ _ _ => rfl

section

variable (h : Tallied b cur T)
include h

theorem mono {cur' : Int} (hle : cur ≤ cur') : Tallied b cur' T where
  win := fun k w hw => ⟨(h.win k w hw).1, (h.win k w hw).2.mono hle⟩
  empty := h.empty

theorem perm {T' : String → Counter → List Int}
    (hperm : ∀ k which, (T k which).Perm (T' k which)) : Tallied b cur T' where
  win := fun k w hw => ⟨(h.win k w hw).1, (h.win k w hw).2.perm (hperm k)⟩
  empty := by
    intro k hk which
    have := hperm k which
    rw [h.empty k hk which] at this
    exact nil_perm.mp this

/-- A window that is made counts nothing. -/
theorem window (model : String) : Tallied (b.window model).1 cur T where
  win := by
    intro k w hw
    rw [Budget.lookup_window] at hw
    rw [Budget.window_p]
    split at hw
    next hk =>
      subst hk
      unfold Budget.charged at hw
      cases hold : b.models.lookup (b.key model) with
      | some w' =>
        rw [hold, getD_some] at hw
        obtain rfl := some.inj hw
        exact h.win _ _ hold
      | none =>
        rw [hold, getD_none] at hw
        obtain rfl := some.inj hw
        refine ⟨rfl, (SlidingWindow.Represents.new b.p.window cur).perm fun which => ?_⟩
        rw [h.empty _ hold which]
    next => exact h.win k w hw
  empty := by
    intro k hk which
    rw [Budget.lookup_window] at hk
    split at hk
    next => cases hk
    next => exact h.empty k hk which

/-- Storing a window that stands for the lists `l`. -/
theorem put {l : Counter → List Int} (hn : w.n = bucketsOf b.p.window)
    (hw : w.Represents cur l) : Tallied (b.put k w) cur (update T k l) where
  win := by
    intro k' w' hw'
    rcases of_lookup_insert hw' with ⟨rfl, rfl⟩ | ⟨hk, hw'⟩
    · rw [update_self]
      exact ⟨hn, hw⟩
    · rw [update_of_ne hk]
      exact h.win k' w' hw'
  empty := by
    intro k' hk' which
    simp only [Budget.put, lookup_insert_ite] at hk'
    by_cases hk : k' = k
    · rw [if_pos hk] at hk'
      cases hk'
    · rw [if_neg hk] at hk'
      rw [update_of_ne hk]
      exact h.empty k' hk' which

/-- Counting an event of the current second. -/
theorem add (hw : b.models.lookup k = some w) (hnow : bucketOf now = cur)
    (which : Counter) : Tallied (b.put k (w.add now now which 1)) cur
      (update T k (update (T k) which (cur :: T k which))) := by
  obtain ⟨hn, hrep⟩ := h.win k w hw
  exact h.put ((add_n _ _ _ _ _).trans hn) (hrep.add_now hnow which)

/-- Counting an event of the current second in the window of a model. -/
theorem charge (hle : cur ≤ bucketOf now) (model : String) (which : Counter) :
    Tallied (b.tick now model which) (bucketOf now) (update T (b.key model)
        (update (T (b.key model)) which (bucketOf now :: T (b.key model) which))) := by
  have hw := Budget.lookup_window (b := b) model (b.key model)
  rw [if_pos rfl] at hw
  exact ((h.mono hle).window model).add hw rfl which

/-- Refunding a retry that the window counts. -/
theorem refund {r : Reservation} (hnow : bucketOf now = cur)
    (hmem : bucketOf r.at_ ∈ T r.model retries) : Tallied (b.refund now r) cur
      (update T r.model
        (update (T r.model) retries ((T r.model retries).erase (bucketOf r.at_)))) := by
  unfold Budget.refund
  cases hw : b.models.lookup r.model with
  | none =>
    rw [h.empty _ hw retries] at hmem
    cases hmem
  | some w =>
    obtain ⟨hn, hrep⟩ := h.win _ _ hw
    exact h.put ((add_n _ _ _ _ _).trans hn) (hrep.remove hnow hmem)

/-- Refunding a retry of a second for which the window counts none, or which has left the window. -/
theorem refund_absent {r : Reservation} (hnow : bucketOf now = cur)
    (habsent : cur - bucketsOf b.p.window < bucketOf r.at_ → bucketOf r.at_ ∉ T r.model retries) :
    Tallied (b.refund now r) cur T := by
  unfold Budget.refund
  cases hw : b.models.lookup r.model with
  | none => exact h
  | some w =>
    obtain ⟨hn, hrep⟩ := h.win _ _ hw
    have hsame := h.put (k := r.model) ((add_n w r.at_ now retries (-1)).trans hn)
      (hrep.remove_absent hnow fun _ hin => habsent (by rwa [← hn]))
    rwa [update_eq_self] at hsame

/-- Dropping windows. -/
theorem prune (at_ : Time) (keep : String → Bool) :
    Tallied (b.prune at_ keep) cur fun k which =>
      if ((b.prune at_ keep).models.lookup k).isSome then T k which else [] where
  win := by
    intro k w hw
    have hold := hw
    simp only [Budget.prune, lookup_keep, filter_eq_some_iff] at hold
    simp only [hw, isSome_some, if_true]
    exact h.win k w hold.1
  empty := by
    intro k hk which
    simp only [hk, isSome_none, Bool.false_eq_true, if_false]

/-- A window's sum, at any later time. -/
theorem sum_eq (hw : b.models.lookup k = some w) (hle : cur ≤ bucketOf now)
    (which : Counter) : w.sum now which =
      ((T k which).countP fun i => decide (bucketOf now - bucketsOf b.p.window < i) : Nat) := by
  obtain ⟨hn, hrep⟩ := h.win k w hw
  rw [(hrep.mono hle).sum_eq rfl, hn]

theorem past (which : Counter) {i : Int} (hi : i ∈ T k which) : i ≤ cur := by
  cases hw : b.models.lookup k with
  | none =>
    rw [h.empty k hw which] at hi
    cases hi
  | some w => exact (h.win k w hw).2.past which i hi

end

end Tallied

/-! ### Without `Prune` -/

namespace BudgetSys

/-- The second of a reservation that counts in a window. -/
def counted (k : String) (g : BudgetGrant) : Option Int :=
  if g.r.model = k ∧ g.r.refunded = false then some (bucketOf g.r.at_) else none

/-- The seconds of what was charged to a window. -/
def tally (s : BudgetSys) (k : String) : Counter → List Int
  | .all => (s.noted.filter fun x => decide (x.1 = k)).map fun x => bucketOf x.2
  | .faults => s.grants.filterMap (counted k)

/-- Every window counts what was charged to it. -/
def Charged (s : BudgetSys) : Prop := Tallied s.b (bucketOf s.clock) s.tally

variable {s t : BudgetSys} {now : Time}

variable {k : String} {c : BudgetCall} {p : BudgetParams}

theorem mem_tally_retries {i : Int} : i ∈ s.tally k retries ↔
    ∃ g ∈ s.grants, g.r.model = k ∧ g.r.refunded = false ∧ bucketOf g.r.at_ = i := by
  simp only [tally, retries, counted, mem_filterMap, ite_none_right_eq_some,
    some.injEq, and_assoc]

theorem mem_tally_firsts {i : Int} : i ∈ s.tally k firstAttempts ↔
    ∃ x ∈ s.noted, x.1 = k ∧ bucketOf x.2 = i := by
  simp only [tally, firstAttempts, List.mem_map, mem_filter, decide_eq_true_eq, and_assoc]

/-- The sums of a budget are those of the lists its windows stand for. -/
theorem sumOf_of_tallied {cur : Int} {T : String → Counter → List Int} (h : Tallied s.b cur T)
    (k : String) (hle : cur ≤ bucketOf now) (which : Counter) : s.sumOf k now which =
      ((T k which).countP fun i => decide (bucketOf now - s.seconds < i) : Nat) := by
  unfold sumOf
  cases hw : s.b.models.lookup k with
  | none =>
    rw [h.empty k hw which]
    rfl
  | some w => exact h.sum_eq hw hle which

/-- The live reservations of a window are those whose second counts there. -/
theorem countP_tally_retries (s : BudgetSys) (hpast : ∀ i ∈ s.tally k retries, i ≤ bucketOf now) :
    (s.tally k retries).countP (fun i => decide (bucketOf now - s.seconds < i)) = s.live k now := by
  simp only [tally, retries, live, countP_filterMap]
  refine countP_congr fun g hg => ?_
  unfold counted
  split
  next hcount =>
    obtain ⟨hk, hlive⟩ := hcount
    have hnow := hpast _ (mem_tally_retries.mpr ⟨g, hg, hk, hlive, rfl⟩)
    simp [recent, hk, hlive, hnow]
  next hnot =>
    simp only [map_none, getD_none, Bool.false_eq_true, Bool.and_eq_true,
      decide_eq_true_eq, Bool.not_eq_true', false_iff]
    exact fun hall => hnot hall.1

/-- A window counts the reservations charged to it in the last seconds and not refunded. -/
theorem Charged.sumOf_retries (h : s.Charged) (k : String) (hle : s.clock ≤ now) :
    s.sumOf k now retries = s.live k now := by
  rw [sumOf_of_tallied h k (bucketOf_mono hle), countP_tally_retries s fun i hi =>
    (h.past retries hi).trans (bucketOf_mono hle)]

/-- A window counts the first attempts noted in it in the last seconds. -/
theorem Charged.sumOf_firsts (h : s.Charged) (k : String) (hle : s.clock ≤ now) :
    s.sumOf k now firstAttempts = s.firsts k now := by
  rw [sumOf_of_tallied h k (bucketOf_mono hle)]
  simp only [tally, firstAttempts, firsts, countP_map, countP_filter]
  congr 1
  refine countP_congr fun x hx => ?_
  simp only [comp, recent, Bool.and_eq_true, decide_eq_true_eq]
  constructor
  · rintro ⟨hin, hk⟩
    have hpast : bucketOf x.2 ≤ bucketOf s.clock :=
      h.past firstAttempts (mem_tally_firsts.mpr ⟨x, hx, hk, rfl⟩)
    exact ⟨hk, hin, hpast.trans (bucketOf_mono hle)⟩
  · rintro ⟨hk, hin, -⟩
    exact ⟨hin, hk⟩

/-! ### Steps -/

theorem call_noteFirst (s : BudgetSys) (now : Time) (model : String) :
    s.call ⟨now, .noteFirst model⟩ =
      { s with
        b := s.b.tick now model firstAttempts
        clock := now
        noted := s.noted ++ [(s.b.key model, now)] } := by
  simp only [call, Budget.noteFirst, Budget.tick, Budget.window_key, Budget.window_charged]

/-- `Reserve` is denied, or granted below the limit. -/
theorem call_reserve (s : BudgetSys) (now : Time) (model : String) :
    s.call ⟨now, .reserve model⟩ = { s with b := (s.b.window model).1, clock := now } ∨
    (s.b.charged model).sum now retries < s.b.limit ((s.b.charged model).sum now firstAttempts) ∧
      s.call ⟨now, .reserve model⟩ =
        { s with
          b := s.b.tick now model retries
          clock := now
          grants := s.grants ++ [⟨⟨s.b.key model, now, false⟩, false⟩] } := by
  simp only [call, Budget.reserve, Budget.tick, Budget.window_key, Budget.window_charged]
  split
  next => exact .inl (by simp)
  next hgranted => exact .inr ⟨not_le.mp hgranted, by simp⟩

theorem Charged.noteFirst (h : s.Charged) (hle : s.clock ≤ now) (model : String) :
    (s.call ⟨now, .noteFirst model⟩).Charged := by
  rw [call_noteFirst]
  refine (Tallied.charge h (bucketOf_mono hle) model firstAttempts).perm fun k which => ?_
  by_cases hk : k = s.b.key model
  · subst hk
    cases which with
    | all =>
      simp only [update_self, firstAttempts, tally, filter_append, map_append]
      simp only [filter_cons, decide_true, if_true, filter_nil, map_cons, map_nil]
      exact (perm_append_singleton _ _).symm
    | faults =>
      simp only [update_self, firstAttempts, ne_eq, reduceCtorEq, not_false_eq_true,
        update_of_ne]
      exact List.Perm.refl _
  · rw [update_of_ne hk]
    cases which with
    | all =>
      simp only [tally, filter_append, map_append]
      simp [Ne.symm hk]
    | faults => exact List.Perm.refl _

theorem Charged.reserve (h : s.Charged) (hle : s.clock ≤ now) (model : String) :
    (s.call ⟨now, .reserve model⟩).Charged := by
  rcases s.call_reserve now model with heq | ⟨-, heq⟩ <;> rw [heq]
  · exact (h.mono (bucketOf_mono hle)).window model
  · refine (Tallied.charge h (bucketOf_mono hle) model retries).perm fun k which => ?_
    by_cases hk : k = s.b.key model
    · subst hk
      cases which with
      | all =>
        simp only [update_self, retries, ne_eq, reduceCtorEq, not_false_eq_true,
          update_of_ne]
        exact List.Perm.refl _
      | faults =>
        have hone : [(⟨⟨s.b.key model, now, false⟩, false⟩ : BudgetGrant)].filterMap
            (counted (s.b.key model)) = [bucketOf now] := by
          simp [counted]
        simp only [update_self, retries, tally, filterMap_append, hone]
        exact (perm_append_singleton _ _).symm
    · rw [update_of_ne hk]
      cases which with
      | all => exact List.Perm.refl _
      | faults => simp [tally, counted, Ne.symm hk]

theorem Charged.refund (h : s.Charged) (hle : s.clock ≤ now) (i : Nat) :
    (s.call ⟨now, .refund i⟩).Charged := by
  have hlater := h.mono (bucketOf_mono hle)
  simp only [call, refundCall]
  cases hg : s.grants[i]? with
  | none => exact hlater
  | some g =>
    cases hrefunded : g.r.refunded with
    | true =>
      simp only [hrefunded, if_true]
      exact hlater
    | false =>
      simp only [hrefunded, Bool.false_eq_true, if_false]
      have hmem : bucketOf g.r.at_ ∈ s.tally g.r.model retries :=
        mem_tally_retries.mpr ⟨g, mem_of_getElem? hg, rfl, hrefunded, rfl⟩
      refine (hlater.refund rfl hmem).perm fun k which => ?_
      by_cases hk : k = g.r.model
      · subst hk
        cases which with
        | all =>
          simp only [update_self, retries, ne_eq, reduceCtorEq, not_false_eq_true,
            update_of_ne]
          exact List.Perm.refl _
        | faults =>
          simp only [update_self, retries, tally]
          exact Table.erase_filterMap_perm hg (by simp [counted, hrefunded]) (by simp [counted])
      · rw [update_of_ne hk]
        cases which with
        | all => exact List.Perm.refl _
        | faults => exact Table.filterMap_set_same hg (by simp [counted, Ne.symm hk])

theorem step_eq_some : s.step c = some t ↔ s.clock ≤ c.now ∧ s.call c = t := by
  unfold step
  by_cases hle : s.clock ≤ c.now
  · simp [hle]
  · simp [hle]

theorem Charged.step (h : s.Charged) (hstep : s.stepKept c = some t) : t.Charged := by
  obtain ⟨now, op⟩ := c
  cases op with
  | prune keep => cases hstep
  | noteFirst model =>
    obtain ⟨hle, rfl⟩ := step_eq_some.mp hstep
    exact h.noteFirst hle model
  | reserve model =>
    obtain ⟨hle, rfl⟩ := step_eq_some.mp hstep
    exact h.reserve hle model
  | refund i =>
    obtain ⟨hle, rfl⟩ := step_eq_some.mp hstep
    exact h.refund hle i

theorem charged_start (p : BudgetParams) (begin_ : Time) : (start p begin_).Charged :=
  (Tallied.new p (bucketOf begin_)).perm fun k which => by cases which <;> exact List.Perm.refl _

/-! ### How many windows there are -/

/-- At most the cap, and the shared window. -/
def Roomy (b : Budget) : Prop :=
  0 < b.p.maxModels → (b.models.len : Int) ≤ b.p.maxModels ∨
    (b.models.lookup otherModel).isSome ∧ (b.models.len : Int) ≤ b.p.maxModels + 1

theorem Roomy.window {b : Budget} (h : Roomy b) (model : String) : Roomy (b.window model).1 := by
  unfold Budget.window
  cases hw : b.models.lookup (b.key model) with
  | some w => exact h
  | none =>
    intro hpos
    have hlen := len_insert_le (b.key model) (newSlidingWindow b.p.window) b.models
    -- the shared window is made when it is not there yet, so the others are within the cap
    have hother : b.key model = otherModel →
        ((b.models.insert (b.key model) (newSlidingWindow b.p.window)).lookup otherModel).isSome ∧
        ((b.models.insert (b.key model) (newSlidingWindow b.p.window)).len : Int) ≤
          b.p.maxModels + 1 := by
      intro hkey
      rw [hkey] at hw hlen ⊢
      refine ⟨by simp, ?_⟩
      rcases h hpos with hle | ⟨hsome, -⟩
      · omega
      · rw [hw] at hsome
        cases hsome
    rcases Budget.key_of_new hw with hkey | hroom
    · exact .inr (hother hkey)
    · left
      have hlt := hroom hpos
      show ((b.models.insert (b.key model) (newSlidingWindow b.p.window)).len : Int) ≤ b.p.maxModels
      omega

/-- Replacing a window. -/
theorem Roomy.put {b : Budget} (h : Roomy b) (hk : (b.models.lookup k).isSome)
    (w : SlidingWindow) : Roomy (b.put k w) := by
  obtain ⟨old, hold⟩ := isSome_iff_exists.mp hk
  intro hpos
  have hlen : (b.models.insert k w).len = b.models.len := len_insert_of_lookup hold w
  refine (h hpos).imp ?_ ?_
  · intro hle
    show ((b.models.insert k w).len : Int) ≤ b.p.maxModels
    rw [hlen]
    exact hle
  · rintro ⟨hsome, hle⟩
    refine ⟨?_, ?_⟩
    · simp only [Budget.put, lookup_insert_ite]
      split
      · rfl
      · exact hsome
    · show ((b.models.insert k w).len : Int) ≤ b.p.maxModels + 1
      rw [hlen]
      exact hle

/-- What holds in every run without `Prune`. -/
structure Kept (p : BudgetParams) (s : BudgetSys) : Prop where
  params : s.b.p = (Budget.new p).p
  charged : s.Charged
  roomy : Roomy s.b

theorem Roomy.call (h : Roomy s.b) (hc : ∀ keep, c.op ≠ .prune keep) :
    Roomy (s.call c).b ∧ (s.call c).b.p = s.b.p := by
  obtain ⟨now, op⟩ := c
  have hsome : ∀ model, ((s.b.window model).1.models.lookup (s.b.key model)).isSome := by
    intro model
    rw [Budget.lookup_window, if_pos rfl]
    rfl
  cases op with
  | prune keep => exact absurd rfl (hc keep)
  | noteFirst model =>
    rw [call_noteFirst]
    exact ⟨(h.window model).put (hsome model) _, Budget.window_p model⟩
  | reserve model =>
    rcases s.call_reserve now model with heq | ⟨-, heq⟩ <;> rw [heq]
    · exact ⟨h.window model, Budget.window_p model⟩
    · exact ⟨(h.window model).put (hsome model) _, Budget.window_p model⟩
  | refund i =>
    simp only [BudgetSys.call, refundCall]
    split
    next => exact ⟨h, rfl⟩
    next g hg =>
      split
      next => exact ⟨h, rfl⟩
      next =>
        unfold Budget.refund
        cases hw : s.b.models.lookup g.r.model with
        | none => exact ⟨h, rfl⟩
        | some w => exact ⟨h.put (by rw [hw]; rfl) _, rfl⟩

theorem kept_of_reach {begin_ : Time}
    (hs : Machine.Reach stepKept (start p begin_) s) : Kept p s := by
  refine hs.invariant (P := Kept p) ⟨rfl, charged_start p begin_, ?_⟩ ?_
  · intro hpos
    left
    show (0 : Int) ≤ p.maxModels
    exact le_of_lt hpos
  · intro s t c h hstep
    have hc : ∀ keep, c.op ≠ .prune keep := by
      intro keep hop
      simp only [stepKept, hop] at hstep
      cases hstep
    have hcall : s.call c = t := by
      obtain ⟨now, op⟩ := c
      cases op with
      | prune keep => cases hstep
      | noteFirst model => exact (step_eq_some.mp hstep).2
      | reserve model => exact (step_eq_some.mp hstep).2
      | refund i => exact (step_eq_some.mp hstep).2
    obtain ⟨hroomy, hp⟩ := h.roomy.call hc
    rw [hcall] at hroomy hp
    exact ⟨hp.trans h.params, h.charged.step hstep, hroomy⟩

/-! ### The bound -/

/-- The slack of `limit` matters only for a ratio with a large denominator. -/
theorem floor_slack {q : ℚ} (hq : q.den < 10 ^ 9) (n : Int) : ⌊q * n + 1 / 10 ^ 9⌋ = ⌊q * n⌋ := by
  have hden : (0 : ℚ) < q.den := by exact_mod_cast q.pos
  have hqn : q * n * q.den = (q.num * n : Int) := by
    rw [mul_right_comm, Rat.mul_den_eq_num]
    push_cast
    ring
  refine le_antisymm ?_ (Int.floor_le_floor (by norm_num))
  -- a multiple of `1 / den` below an integer is at least `1 / den` below it
  have hlt : q * n < (⌊q * n⌋ : ℚ) + 1 := Int.lt_floor_add_one _
  have hint : q.num * n + 1 ≤ (⌊q * n⌋ + 1) * q.den := by
    have hmul : q * n * q.den < ((⌊q * n⌋ : ℚ) + 1) * q.den := by gcongr
    rw [hqn] at hmul
    exact_mod_cast hmul
  have hgap : q * n + 1 / q.den ≤ (⌊q * n⌋ : ℚ) + 1 := by
    have hcast : (q.num * n : Int) + (1 : ℚ) ≤ ((⌊q * n⌋ : ℚ) + 1) * q.den := by exact_mod_cast hint
    rw [← hqn] at hcast
    have hsplit : q * n + 1 / q.den = (q * n * q.den + 1) / q.den := by field_simp
    rw [hsplit, div_le_iff₀ hden]
    exact hcast
  have hsmall : (1 : ℚ) / 10 ^ 9 < 1 / q.den := by
    apply one_div_lt_one_div_of_lt hden
    exact_mod_cast hq
  have hfinal : q * n + 1 / 10 ^ 9 < ((⌊q * n⌋ + 1 : Int) : ℚ) := by
    push_cast
    linarith
  exact Int.lt_add_one_iff.mp (Int.floor_lt.mpr hfinal)

/-- The window that a model is charged to counts nothing if it is yet to be made. -/
theorem sum_charged (s : BudgetSys) (model : String) (now : Time) (which : Counter) :
    (s.b.charged model).sum now which = s.sumOf (s.b.key model) now which := by
  unfold Budget.charged sumOf
  cases hw : s.b.models.lookup (s.b.key model) with
  | some w => rfl
  | none =>
    have hnew := (SlidingWindow.Represents.new s.b.p.window (bucketOf now)).sum_eq rfl which
    rw [getD_none, hnew]
    rfl

theorem recent_eq (hp : t.b.p = s.b.p) (now x : Time) : t.recent now x = s.recent now x := by
  unfold recent seconds
  rw [hp]

theorem firsts_eq (hp : t.b.p = s.b.p) (hnoted : t.noted = s.noted) (k : String) (now : Time) :
    t.firsts k now = s.firsts k now := by
  simp only [firsts, hnoted, recent_eq hp]

theorem live_granted (hp : t.b.p = s.b.p)
    (hgrants : t.grants = s.grants ++ [⟨⟨k, now, false⟩, false⟩]) :
    t.live k now = s.live k now + 1 := by
  have hpos := bucketsOf_pos s.b.p.window
  have hnow : s.recent now now = true :=
    decide_eq_true ⟨by unfold seconds; omega, le_rfl⟩
  simp only [live, hgrants, recent_eq hp, Table.countP_concat, hnow, decide_true, Bool.not_false,
    Bool.and_self, Bool.toNat_true]

/-- What `Reserve` does: it is granted within the bound, or denied. -/
theorem Kept.reserve {model : String} (h : Kept p s)
    (hstep : s.stepKept ⟨now, .reserve model⟩ = some t) :
    (t.grants = s.grants ++ [⟨⟨s.b.key model, now, false⟩, false⟩] ∧ t.noted = s.noted ∧
      (t.live (s.b.key model) now : Int) ≤
        max p.min ⌊p.ratio * t.firsts (s.b.key model) now + 1 / 10 ^ 9⌋) ∨
    (t.grants = s.grants ∧ t.noted = s.noted ∧
      ∀ k, t.b.models.lookup k = s.b.models.lookup k ∨ k = s.b.key model ∧
        s.b.models.lookup k = none ∧
          t.b.models.lookup k = some (newSlidingWindow s.b.p.window)) := by
  obtain ⟨hle, hcall⟩ := step_eq_some.mp hstep
  have hret : (s.b.charged model).sum now retries = s.live (s.b.key model) now :=
    (sum_charged s model now retries).trans (h.charged.sumOf_retries _ hle)
  have hfir : (s.b.charged model).sum now firstAttempts = s.firsts (s.b.key model) now :=
    (sum_charged s model now firstAttempts).trans (h.charged.sumOf_firsts _ hle)
  rcases s.call_reserve now model with heq | ⟨hlt, heq⟩ <;> rw [heq] at hcall
  · right
    subst hcall
    refine ⟨rfl, rfl, fun k => ?_⟩
    show (s.b.window model).1.models.lookup k = _ ∨ k = _ ∧ _ ∧
      (s.b.window model).1.models.lookup k = _
    rw [Budget.lookup_window]
    split
    next hk =>
      subst hk
      unfold Budget.charged
      cases hw : s.b.models.lookup (s.b.key model) with
      | some w => exact .inl rfl
      | none => exact .inr ⟨rfl, rfl, rfl⟩
    next => exact .inl rfl
  · left
    have hp : t.b.p = s.b.p := by
      rw [← hcall]
      exact Budget.window_p model
    have hgrants : t.grants = s.grants ++ [⟨⟨s.b.key model, now, false⟩, false⟩] := by rw [← hcall]
    have hnoted : t.noted = s.noted := by rw [← hcall]
    refine ⟨hgrants, hnoted, ?_⟩
    -- one more reservation, the first attempts as before
    rw [hret, hfir] at hlt
    simp only [Budget.limit, h.params, Budget.new] at hlt
    rw [live_granted hp hgrants, firsts_eq hp hnoted]
    push_cast at hlt ⊢
    exact hlt

/-- What `Refund` does: it takes its own reservation out, once. -/
theorem Kept.refund {i : Nat} (h : Kept p s) (hstep : s.stepKept ⟨now, .refund i⟩ = some t) :
    ((s.grants[i]?).all (·.r.refunded) = true → t.b = s.b ∧ t.grants = s.grants) ∧
    ∀ g, s.grants[i]? = some g → g.r.refunded = false →
      t.grants = s.grants.set i { g with r := { g.r with refunded := true } } ∧
      ∀ k later which, now ≤ later → t.sumOf k later which = s.sumOf k later which -
        if k = g.r.model ∧ which = retries ∧ s.recent later g.r.at_ = true then 1 else 0 := by
  obtain ⟨hle, hcall⟩ := step_eq_some.mp hstep
  have hcharged : t.Charged := h.charged.step hstep
  refine ⟨?_, ?_⟩
  · intro hall
    simp only [call, refundCall] at hcall
    cases hg : s.grants[i]? with
    | none =>
      rw [hg] at hcall
      subst hcall
      exact ⟨rfl, rfl⟩
    | some g =>
      rw [hg, all_some] at hall
      simp only [hg, hall, if_true] at hcall
      subst hcall
      exact ⟨rfl, rfl⟩
  · intro g hg hlive
    simp only [call, refundCall, hg, hlive, Bool.false_eq_true, if_false] at hcall
    have hclock : t.clock = now := by rw [← hcall]
    have hp : t.b.p = s.b.p := by
      rw [← hcall]
      show (s.b.refund now g.r).p = s.b.p
      unfold Budget.refund
      cases s.b.models.lookup g.r.model <;> rfl
    have hgrants : t.grants = s.grants.set i { g with r := { g.r with refunded := true } } := by
      rw [← hcall]
    have hnoted : t.noted = s.noted := by rw [← hcall]
    refine ⟨hgrants, ?_⟩
    intro k later which hlater
    have hles : s.clock ≤ later := le_trans hle hlater
    have hlet : t.clock ≤ later := by rw [hclock]; exact hlater
    cases which with
    | all =>
      have hs := h.charged.sumOf_firsts k hles
      have ht := hcharged.sumOf_firsts k hlet
      rw [firsts_eq hp hnoted] at ht
      rw [show Counter.all = firstAttempts from rfl, hs, ht]
      simp [firstAttempts, retries]
    | faults =>
      have hs := h.charged.sumOf_retries k hles
      have ht := hcharged.sumOf_retries k hlet
      have hcount := Table.countP_set hg { g with r := { g.r with refunded := true } }
        fun g => decide (g.r.model = k) && !g.r.refunded && s.recent later g.r.at_
      rw [show Counter.faults = retries from rfl, hs, ht]
      simp only [live, hgrants, recent_eq hp]
      simp only [Bool.not_true, Bool.and_false, Bool.false_and, Bool.toNat_false, hlive,
        Bool.not_false, Bool.and_true, add_zero] at hcount
      rw [← hcount]
      by_cases hin : k = g.r.model ∧ s.recent later g.r.at_ = true
      · rw [if_pos ⟨hin.1, trivial, hin.2⟩, hin.2, hin.1]
        simp
      · have hzero : (decide (g.r.model = k) && s.recent later g.r.at_).toNat = 0 := by
          rw [Bool.toNat_eq_zero, Bool.and_eq_false_iff, decide_eq_false_iff_not]
          by_cases hk : k = g.r.model
          · exact .inr (by simpa using fun hr => hin ⟨hk, hr⟩)
          · exact .inl (Ne.symm hk)
        rw [if_neg (fun hall => hin ⟨hall.1, hall.2.2⟩), hzero]
        simp

/-- **The retry budget is never overshot.** In every run without `Prune`, with a clock that does not
go back: every window counts exactly the first attempts noted in it and the reservations charged to
it and not refunded, over the last seconds; a granted `Reserve` leaves the latter within the limit,
which is that of the plain ratio if its denominator is below `10 ^ 9`; a denied one changes no
count, and at most makes the window of its model; a `Refund` takes out its own reservation, once,
and nothing when its second has left the window; and with a cap, the models without a window beyond
it share one. -/
theorem budget_never_overshot {p : BudgetParams} {begin_ : Time} {s : BudgetSys}
    (hs : Machine.Reach stepKept (start p begin_) s) :
    (∀ k now, s.clock ≤ now →
      s.sumOf k now retries = s.live k now ∧ s.sumOf k now firstAttempts = s.firsts k now) ∧
    (∀ model now t, s.stepKept ⟨now, .reserve model⟩ = some t →
      (t.grants = s.grants ++ [⟨⟨s.b.key model, now, false⟩, false⟩] ∧ t.noted = s.noted ∧
        (t.live (s.b.key model) now : Int) ≤
          max p.min ⌊p.ratio * t.firsts (s.b.key model) now + 1 / 10 ^ 9⌋ ∧
        (p.ratio.den < 10 ^ 9 → (t.live (s.b.key model) now : Int) ≤
          max p.min ⌊p.ratio * t.firsts (s.b.key model) now⌋)) ∨
      (t.grants = s.grants ∧ t.noted = s.noted ∧
        ∀ k, t.b.models.lookup k = s.b.models.lookup k ∨ k = s.b.key model ∧
          s.b.models.lookup k = none ∧
          t.b.models.lookup k = some (newSlidingWindow s.b.p.window))) ∧
    (∀ i now t, s.stepKept ⟨now, .refund i⟩ = some t →
      ((s.grants[i]?).all (·.r.refunded) = true → t.b = s.b ∧ t.grants = s.grants) ∧
      ∀ g, s.grants[i]? = some g → g.r.refunded = false →
        t.grants = s.grants.set i { g with r := { g.r with refunded := true } } ∧
        ∀ k later which, now ≤ later → t.sumOf k later which = s.sumOf k later which -
          if k = g.r.model ∧ which = retries ∧ s.recent later g.r.at_ = true then 1 else 0) ∧
    (0 < p.maxModels → (s.b.models.len : Int) ≤ p.maxModels + 1 ∧
      ∀ model, s.b.models.lookup model = none → p.maxModels ≤ s.b.models.len →
        s.b.key model = otherModel) := by
  have hkept := kept_of_reach hs
  have hmax : s.b.p.maxModels = p.maxModels := by rw [hkept.params]; rfl
  refine ⟨?_, ?_, ?_, ?_⟩
  · intro k now hle
    exact ⟨hkept.charged.sumOf_retries k hle, hkept.charged.sumOf_firsts k hle⟩
  · intro model now t hstep
    refine (hkept.reserve hstep).imp_left ?_
    rintro ⟨hgrants, hnoted, hbound⟩
    refine ⟨hgrants, hnoted, hbound, fun hden => ?_⟩
    have hfloor := floor_slack hden (t.firsts (s.b.key model) now)
    push_cast at hfloor
    rwa [hfloor] at hbound
  · intro i now t hstep
    exact hkept.refund hstep
  · intro hpos
    rw [← hmax] at hpos ⊢
    refine ⟨?_, fun model hnone hfull => Budget.key_of_full hnone hpos hfull⟩
    rcases hkept.roomy hpos with hle | ⟨-, hle⟩
    · omega
    · exact hle

/-- A ratio so close to `1` that one first attempt allows one retry. -/
def nearOne : BudgetParams := ⟨1 - 1 / 10 ^ 10, 0, second, 0⟩

/-- One first attempt, then a retry of its model. -/
def oneRetry : List BudgetCall := [⟨0, .noteFirst "m"⟩, ⟨1, .reserve "m"⟩]

/-- The slack of `limit` lets a retry through that the plain ratio does not allow. -/
theorem plain_ratio_overshot : ∃ s, Machine.Reach stepKept (start nearOne 0) s ∧
    s.grants = [⟨⟨"m", 1, false⟩, false⟩] ∧
    ¬ (s.live "m" 1 : Int) ≤ max nearOne.min ⌊nearOne.ratio * s.firsts "m" 1⌋ := by
  obtain ⟨s, hs, hfacts⟩ : ∃ s ∈ Machine.runActs stepKept (start nearOne 0) oneRetry,
      s.grants = [⟨⟨"m", 1, false⟩, false⟩] ∧
      ¬ (s.live "m" 1 : Int) ≤ max nearOne.min ⌊nearOne.ratio * s.firsts "m" 1⌋ := by
    decide +kernel
  exact ⟨s, Machine.reach_of_runActs .refl oneRetry hs, hfacts⟩

/-- One retry, and one more for every ten first attempts. -/
def tenthParams : BudgetParams := ⟨1 / 10, 1, 10 * second, 1⟩

/-- A retry is granted, another one is denied, and the first is refunded, twice. -/
def refundRun : List BudgetCall :=
  [⟨0, .noteFirst "m"⟩, ⟨1, .reserve "m"⟩, ⟨2, .reserve "m"⟩, ⟨3, .refund 0⟩, ⟨4, .refund 0⟩]

/-- After the first reservation was refunded, another one is granted within the limit. -/
theorem budget_never_overshot_refunded : ∃ s t,
    Machine.Reach stepKept (start tenthParams 0) s ∧ s.grants = [⟨⟨"m", 1, true⟩, false⟩] ∧
    s.stepKept ⟨second, .reserve "m"⟩ = some t ∧ t.grants.length = 2 ∧
    (t.live "m" second : Int) ≤ max tenthParams.min ⌊tenthParams.ratio * t.firsts "m" second⌋ := by
  obtain ⟨s, hs, hgrants, hkey, t, ht, hlen⟩ : ∃ s ∈ Machine.runActs stepKept
    (start tenthParams 0) refundRun,
      s.grants = [⟨⟨"m", 1, true⟩, false⟩] ∧ s.b.key "m" = "m" ∧
      ∃ t ∈ s.stepKept ⟨second, .reserve "m"⟩, t.grants.length = 2 := by
    decide +kernel
  have hreach := Machine.reach_of_runActs .refl refundRun hs
  refine ⟨s, t, hreach, hgrants, ht, hlen, ?_⟩
  rcases (budget_never_overshot hreach).2.1 "m" second t ht with ⟨-, -, -, hbound⟩ | ⟨hsame, -, -⟩
  · rw [hkey] at hbound
    exact hbound (by decide +kernel)
  · rw [hsame, hgrants] at hlen
    cases hlen

end BudgetSys

end ServerFlow.Resilience
