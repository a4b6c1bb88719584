import ServerFlow.Resilience.BudgetRuns

/-!
# Resilience.BudgetPrune

Runs of a budget with `Prune`. A reservation remembers the key of its window and not the window, so
a refund after the window was dropped goes to the one that has taken its place. It takes a retry out
of that one exactly when that one counts a retry in the same second.
-/

namespace ServerFlow.Resilience.BudgetSys

open List Option Function

variable {s t : BudgetSys} {now : Time} {T : String → Counter → List Int}

/-- Every window stands for some lists of seconds. -/
def Loose (s : BudgetSys) : Prop := ∃ T, Tallied s.b (bucketOf s.clock) T

/-- `Refund` keeps the windows well formed, whether the window counts the retry or not. -/
theorem loose_refund {b : Budget} {cur : Int} (h : Tallied b cur T) (hnow : bucketOf now = cur)
    (r : Reservation) : ∃ T', Tallied (b.refund now r) cur T' := by
  by_cases hmem : bucketOf r.at_ ∈ T r.model retries
  · exact ⟨_, h.refund hnow hmem⟩
  · exact ⟨T, h.refund_absent hnow fun _ => hmem⟩

theorem Loose.step {c : BudgetCall} (h : s.Loose) (hstep : s.step c = some t) : t.Loose := by
  obtain ⟨hle, rfl⟩ := step_eq_some.mp hstep
  obtain ⟨T, hT⟩ := h
  have hlater := hT.mono (bucketOf_mono hle)
  obtain ⟨now, op⟩ := c
  cases op with
  | noteFirst model =>
    rw [call_noteFirst]
    exact ⟨_, hT.charge (bucketOf_mono hle) model firstAttempts⟩
  | reserve model =>
    rcases s.call_reserve now model with heq | ⟨-, heq⟩ <;> rw [heq]
    · exact ⟨T, hlater.window model⟩
    · exact ⟨_, hT.charge (bucketOf_mono hle) model retries⟩
  | refund i =>
    simp only [call, refundCall]
    split
    next => exact ⟨T, hlater⟩
    next g hg =>
      split
      next => exact ⟨T, hlater⟩
      next => exact loose_refund hlater rfl g.r
  | prune keep => exact ⟨_, hlater.prune now keep⟩

theorem loose_of_reach {p : BudgetParams} {begin_ : Time}
    (hs : Machine.Reach step (start p begin_) s) : s.Loose :=
  hs.invariant (P := Loose) ⟨_, Tallied.new p (bucketOf begin_)⟩ fun _ _ _ h hstep => h.step hstep

theorem retriesAt_of_tallied {cur : Int} (h : Tallied s.b cur T) (k : String) {idx : Int}
    (hidx : cur - s.seconds < idx) : s.retriesAt k idx = (T k retries).count idx := by
  unfold retriesAt
  cases hw : s.b.models.lookup k with
  | none =>
    rw [h.empty k hw retries]
    rfl
  | some w =>
    obtain ⟨hn, hrep⟩ := h.win k w hw
    exact hrep.count idx retries (by rw [hn]; exact hidx)

/-- Refunding a reservation changes no count: it was refunded before, its second has left the
window, or the window that stands under its key now counts no retry in that second. -/
def Harmless (s : BudgetSys) (now : Time) (g : BudgetGrant) : Prop :=
  g.r.refunded = true ∨ bucketOf g.r.at_ ≤ bucketOf now - s.seconds ∨
    s.retriesAt g.r.model (bucketOf g.r.at_) = 0

instance (s : BudgetSys) (now : Time) (g : BudgetGrant) : Decidable (s.Harmless now g) :=
  inferInstanceAs (Decidable (_ ∨ _ ∨ _))

/-- A refund is harmless exactly if it leaves all sums alone. -/
theorem Loose.refund_iff {i : Nat} {g : BudgetGrant} (h : s.Loose) (hg : s.grants[i]? = some g)
    (hstep : s.step ⟨now, .refund i⟩ = some t) :
    (∀ k later which, now ≤ later → t.sumOf k later which = s.sumOf k later which) ↔
      s.Harmless now g := by
  obtain ⟨T, hT⟩ := h
  unfold Harmless
  obtain ⟨hle, hcall⟩ := step_eq_some.mp hstep
  have hnow : Tallied s.b (bucketOf now) T := hT.mono (bucketOf_mono hle)
  simp only [call, refundCall, hg] at hcall
  cases hrefunded : g.r.refunded with
  | true =>
    simp only [hrefunded, if_true] at hcall
    subst hcall
    exact ⟨fun _ => .inl rfl, fun _ _ _ _ _ => rfl⟩
  | false =>
    simp only [hrefunded, Bool.false_eq_true, if_false] at hcall
    have hb : t.b = s.b.refund now g.r := by rw [← hcall]
    have hseconds : t.seconds = s.seconds := by
      unfold seconds
      rw [hb]
      unfold Budget.refund
      cases s.b.models.lookup g.r.model <;> rfl
    have hsums := fun k (later : Time) (hlater : now ≤ later) which =>
      sumOf_of_tallied hnow k (bucketOf_mono hlater) which
    by_cases hmem : bucketOf now - s.seconds < bucketOf g.r.at_ ∧
        bucketOf g.r.at_ ∈ T g.r.model retries
    · -- the count of that second goes down
      obtain ⟨hin, hmem⟩ := hmem
      have hcount : 0 < (T g.r.model retries).count (bucketOf g.r.at_) := count_pos_iff.mpr hmem
      have hright : ¬ (false = true ∨ bucketOf g.r.at_ ≤ bucketOf now - s.seconds ∨
          s.retriesAt g.r.model (bucketOf g.r.at_) = 0) := by
        rw [retriesAt_of_tallied hnow g.r.model hin]
        rintro (hf | hout | hzero)
        · cases hf
        · omega
        · omega
      refine iff_of_false (fun hall => ?_) hright
      have hafter := hnow.refund rfl hmem
      rw [← hb] at hafter
      have ht := sumOf_of_tallied hafter g.r.model le_rfl retries
      have hsame := hall g.r.model now retries le_rfl
      rw [ht, hsums g.r.model now le_rfl retries, hseconds] at hsame
      simp only [update_self] at hsame
      have hsplit := (perm_cons_erase hmem).countP_eq
        fun i => decide (bucketOf now - s.seconds < i)
      rw [countP_cons, if_pos (decide_eq_true hin)] at hsplit
      omega
    · have hright : false = true ∨ bucketOf g.r.at_ ≤ bucketOf now - s.seconds ∨
          s.retriesAt g.r.model (bucketOf g.r.at_) = 0 := by
        by_cases hin : bucketOf now - s.seconds < bucketOf g.r.at_
        · refine .inr (.inr ?_)
          rw [retriesAt_of_tallied hnow g.r.model hin,
            count_eq_zero.mpr fun hm => hmem ⟨hin, hm⟩]
          rfl
        · exact .inr (.inl (not_lt.mp hin))
      refine iff_of_true ?_ hright
      have hafter := hnow.refund_absent (r := g.r) rfl fun hin hm => hmem ⟨hin, hm⟩
      rw [← hb] at hafter
      intro k later which hlater
      rw [sumOf_of_tallied hafter k (bucketOf_mono hlater) which, hsums k later hlater which,
        hseconds]

/-! ### Harmless refunds -/

/-- The calls, with refunds of reservations whose window was dropped only when they are harmless. -/
def stepHarmless (s : BudgetSys) (c : BudgetCall) : Option BudgetSys :=
  match c.op with
  | .refund i =>
    if (s.grants[i]?).all (fun g => !g.dropped || decide (s.Harmless c.now g)) then s.step c else
      none
  | _ => s.step c

/-- The reservations whose window was not dropped. -/
def standing (s : BudgetSys) : BudgetSys := { s with grants := s.grants.filter fun g => !g.dropped }

/-- The second of a reservation that counts in a window that was not dropped. -/
def owned (k : String) (g : BudgetGrant) : Option Int := if !g.dropped then counted k g else none

theorem standing_tally (s : BudgetSys) (k : String) :
    s.standing.tally k retries = s.grants.filterMap (owned k) := filterMap_filter

/-- The windows count the retries that were reserved in them. -/
def Owned (s : BudgetSys) : Prop :=
  ∃ T, Tallied s.b (bucketOf s.clock) T ∧ ∀ k, (T k retries).Perm (s.grants.filterMap (owned k))

theorem owned_refunded (k : String) (g : BudgetGrant) :
    owned k { g with r := { g.r with refunded := true } } = none := by
  simp [owned, counted]

namespace Owned

section

variable (h : s.Owned)
include h

section

variable (hle : s.clock ≤ now)
include hle

/-- A refund removes the reservation from its own window, if it is there. -/
theorem refund {i : Nat}
    (hmild : (s.grants[i]?).all (fun g => !g.dropped || decide (s.Harmless now g)) = true) :
    (s.call ⟨now, .refund i⟩).Owned := by
  obtain ⟨T, hT, hperm⟩ := h
  have hlater := hT.mono (bucketOf_mono hle)
  simp only [call, refundCall]
  cases hg : s.grants[i]? with
  | none => exact ⟨T, hlater, hperm⟩
  | some g =>
    cases hrefunded : g.r.refunded with
    | true =>
      simp only [hrefunded, if_true]
      exact ⟨T, hlater, hperm⟩
    | false =>
      simp only [hrefunded, Bool.false_eq_true, if_false]
      have hset : ∀ k, owned k g = none → (T k retries).Perm ((s.grants.set i
          { g with r := { g.r with refunded := true } }).filterMap (owned k)) := fun k hnone =>
        (hperm k).trans (Table.filterMap_set_same hg ((owned_refunded k g).trans hnone.symm))
      cases hdropped : g.dropped with
      | true =>
        -- the window that stands there now has no retry of that second
        rw [hg, all_some, hdropped, Bool.not_true, Bool.false_or, decide_eq_true_eq] at hmild
        refine ⟨T, hlater.refund_absent rfl fun hin hmem => ?_,
          fun k => hdropped ▸ hset k (by simp [owned, hdropped])⟩
        have hpos := count_pos_iff.mpr hmem
        rcases hmild with hr | hout | hzero
        · rw [hrefunded] at hr
          cases hr
        · exact absurd hin (not_lt.mpr hout)
        · rw [retriesAt_of_tallied hlater g.r.model hin] at hzero
          omega
      | false =>
        have howned : owned g.r.model g = some (bucketOf g.r.at_) := by
          simp [owned, counted, hdropped, hrefunded]
        have hmem : bucketOf g.r.at_ ∈ T g.r.model retries :=
          (hperm g.r.model).mem_iff.mpr
            (mem_filterMap.mpr ⟨g, mem_of_getElem? hg, howned⟩)
        refine ⟨_, hlater.refund rfl hmem, fun k => ?_⟩
        by_cases hk : k = g.r.model
        · subst hk
          simp only [update_self]
          exact ((hperm g.r.model).erase _).trans
            (Table.erase_filterMap_perm hg howned (hdropped ▸ owned_refunded _ g))
        · rw [update_of_ne hk]
          exact hdropped ▸ hset k (by simp [owned, counted, Ne.symm hk])

theorem noteFirst (model : String) : (s.call ⟨now, .noteFirst model⟩).Owned := by
  obtain ⟨T, hT, hperm⟩ := h
  rw [call_noteFirst]
  refine ⟨_, hT.charge (bucketOf_mono hle) model firstAttempts, fun k => ?_⟩
  by_cases hk : k = s.b.key model
  · subst hk
    rw [update_self, update_of_ne (by decide)]
    exact hperm _
  · rw [update_of_ne hk]
    exact hperm k

theorem reserve (model : String) : (s.call ⟨now, .reserve model⟩).Owned := by
  obtain ⟨T, hT, hperm⟩ := h
  rcases s.call_reserve now model with heq | ⟨-, heq⟩ <;> rw [heq]
  · exact ⟨T, (hT.mono (bucketOf_mono hle)).window model, hperm⟩
  · refine ⟨_, hT.charge (bucketOf_mono hle) model retries, fun k => ?_⟩
    rw [filterMap_append]
    by_cases hk : k = s.b.key model
    · subst hk
      have hone : [(⟨⟨s.b.key model, now, false⟩, false⟩ : BudgetGrant)].filterMap
          (owned (s.b.key model)) = [bucketOf now] := by
        simp [owned, counted]
      rw [update_self, update_self, hone]
      exact ((hperm _).cons _).trans (perm_append_singleton _ _).symm
    · have hnone : [(⟨⟨s.b.key model, now, false⟩, false⟩ : BudgetGrant)].filterMap (owned k) =
          [] := by
        simp [owned, counted, Ne.symm hk]
      rw [update_of_ne hk, hnone, append_nil]
      exact hperm k

/-- With a window, its reservations are dropped. -/
theorem prune (keep : String → Bool) : (s.call ⟨now, .prune keep⟩).Owned := by
  obtain ⟨T, hT, hperm⟩ := h
  refine ⟨_, (hT.mono (bucketOf_mono hle)).prune now keep, fun k => ?_⟩
  simp only [call, filterMap_map]
  have hlook : (s.b.prune now keep).models.lookup k =
      (s.b.models.lookup k).filter (Budget.kept now keep k) := AList.lookup_keep _ _ _
  cases hw : (s.b.prune now keep).models.lookup k with
  | some w =>
    rw [hw] at hlook
    obtain ⟨hold, hkept⟩ := filter_eq_some_iff.mp hlook.symm
    rw [isSome_some, if_pos rfl]
    refine (hperm k).trans (List.Perm.of_eq (filterMap_congr fun g _ => ?_))
    show owned k g = owned k { g with dropped := g.dropped || s.drops now keep g }
    by_cases hk : g.r.model = k
    · have hdrops : s.drops now keep g = false := by
        rw [drops, hk, hold, any_some, hkept, Bool.not_true]
      rw [hdrops, Bool.or_false]
    · simp [owned, counted, hk]
  | none =>
    rw [isSome_none, if_neg (by decide)]
    have hall : ∀ g ∈ s.grants,
        owned k { g with dropped := g.dropped || s.drops now keep g } = none := by
      intro g hg
      by_cases hk : g.r.model = k
      · cases hold : s.b.models.lookup k with
        | none =>
          have hnil := hperm k
          rw [hT.empty k hold retries] at hnil
          have hnone := filterMap_eq_nil_iff.mp (nil_perm.mp hnil) g hg
          unfold owned at hnone ⊢
          split
          next hlive =>
            simp only [Bool.not_or, Bool.and_eq_true] at hlive
            rwa [if_pos hlive.1] at hnone
          next => rfl
        | some w =>
          have hdrops : s.drops now keep g = true := by
            rw [hw, hold] at hlook
            have hkept := filter_eq_none_iff.mp hlook.symm w rfl
            rw [drops, hk, hold, any_some, Bool.eq_false_iff.mpr hkept, Bool.not_false]
          simp [owned, hdrops]
      · simp [owned, counted, hk]
    exact nil_perm.mpr (filterMap_eq_nil_iff.mpr hall)

end

theorem step {c : BudgetCall} (hstep : s.stepHarmless c = some t) : t.Owned := by
  obtain ⟨now, op⟩ := c
  cases op with
  | noteFirst model =>
    obtain ⟨hle, rfl⟩ := step_eq_some.mp hstep
    exact h.noteFirst hle model
  | reserve model =>
    obtain ⟨hle, rfl⟩ := step_eq_some.mp hstep
    exact h.reserve hle model
  | refund i =>
    simp only [stepHarmless] at hstep
    split at hstep
    next hmild =>
      obtain ⟨hle, rfl⟩ := step_eq_some.mp hstep
      exact h.refund hle hmild
    next => cases hstep
  | prune keep =>
    obtain ⟨hle, rfl⟩ := step_eq_some.mp hstep
    exact h.prune hle keep

theorem sumOf_retries (k : String) (hle : s.clock ≤ now) :
    s.sumOf k now retries = s.standing.live k now := by
  obtain ⟨T, hT, hperm⟩ := h
  have hcur := bucketOf_mono hle
  rw [sumOf_of_tallied hT k hcur, (hperm k).countP_eq, ← standing_tally]
  rw [show s.seconds = s.standing.seconds from rfl, countP_tally_retries s.standing fun i hi => ?_]
  rw [standing_tally] at hi
  exact (hT.past retries ((hperm k).mem_iff.mpr hi)).trans hcur

end

end Owned

theorem owned_of_reach {p : BudgetParams} {begin_ : Time}
    (hs : Machine.Reach stepHarmless (start p begin_) s) : s.Owned :=
  hs.invariant (P := Owned) ⟨_, Tallied.new p (bucketOf begin_), fun _ => List.Perm.refl _⟩
    fun _ _ _ h hstep => h.step hstep

/-- **Refunds and dropped windows.** Refunding a reservation whose window was dropped leaves every
count of every window alone exactly when it is harmless. In a run with harmless refunds only, a
window counts the retries that were reserved in it and not refunded, and no `Reserve` takes them
beyond the limit. -/
theorem refund_of_dropped_iff (p : BudgetParams) (begin_ : Time) :
    (∀ s, Machine.Reach step (start p begin_) s → ∀ i g now t, s.grants[i]? = some g →
      g.dropped = true → s.step ⟨now, .refund i⟩ = some t →
      ((∀ k later which, now ≤ later → t.sumOf k later which = s.sumOf k later which) ↔
        s.Harmless now g)) ∧
    (∀ s, Machine.Reach stepHarmless (start p begin_) s →
      (∀ k now, s.clock ≤ now → s.sumOf k now retries = s.standing.live k now) ∧
      ∀ model now t, s.stepHarmless ⟨now, .reserve model⟩ = some t → t.grants ≠ s.grants →
        (t.standing.live (s.b.key model) now : Int) ≤
          s.b.limit (s.sumOf (s.b.key model) now firstAttempts)) := by
  refine ⟨fun s hs i g now t hg _ hstep => (loose_of_reach hs).refund_iff hg hstep, fun s hs => ?_⟩
  have howned := owned_of_reach hs
  refine ⟨fun k now hle => howned.sumOf_retries k hle, fun model now t hstep hgranted => ?_⟩
  obtain ⟨hle, hcall⟩ := step_eq_some.mp hstep
  rcases s.call_reserve now model with heq | ⟨hlt, heq⟩ <;> rw [heq] at hcall
  · rw [← hcall] at hgranted
    exact absurd rfl hgranted
  · have hp : t.standing.b.p = s.standing.b.p := by
      rw [← hcall]
      exact Budget.window_p model
    have hgrants : t.standing.grants = s.standing.grants ++
        [⟨⟨s.b.key model, now, false⟩, false⟩] := by
      rw [← hcall]
      simp [standing]
    rw [sum_charged, sum_charged, howned.sumOf_retries _ hle] at hlt
    rw [live_granted hp hgrants]
    push_cast
    exact hlt

/-- One retry at a time. -/
def oneAtATime : BudgetParams := ⟨0, 1, 10 * second, 0⟩

/-- A retry, a `Prune` that drops its window, and a retry from the window that takes its place. -/
def prunedRun : List BudgetCall :=
  [⟨0, .reserve "m"⟩, ⟨1, .prune fun _ => false⟩, ⟨2, .reserve "m"⟩]

/-- Refunding the first retry uncounts the second one, so that a third is granted while the second
is out: two retries are out from a window that allows one. -/
theorem refund_of_dropped_uncounts_another : ∃ s t u, Machine.Reach step (start oneAtATime 0) s ∧
    s.grants = [⟨⟨"m", 0, false⟩, true⟩, ⟨⟨"m", 2, false⟩, false⟩] ∧
    s.step ⟨3, .refund 0⟩ = some t ∧ s.sumOf "m" 3 retries = 1 ∧ t.sumOf "m" 3 retries = 0 ∧
    t.step ⟨4, .reserve "m"⟩ = some u ∧
    u.grants = [⟨⟨"m", 0, true⟩, true⟩, ⟨⟨"m", 2, false⟩, false⟩, ⟨⟨"m", 4, false⟩, false⟩] ∧
    u.b.limit (u.sumOf "m" 4 firstAttempts) = 1 := by
  obtain ⟨s, hs, hgrants, hone, t, ht, hafter, u, hu, hlast⟩ :
      ∃ s ∈ Machine.runActs step (start oneAtATime 0) prunedRun,
        s.grants = [⟨⟨"m", 0, false⟩, true⟩, ⟨⟨"m", 2, false⟩, false⟩] ∧ s.sumOf "m" 3 retries = 1 ∧
        ∃ t ∈ s.step ⟨3, .refund 0⟩, t.sumOf "m" 3 retries = 0 ∧ ∃ u ∈ t.step ⟨4, .reserve "m"⟩,
          u.grants = [⟨⟨"m", 0, true⟩, true⟩, ⟨⟨"m", 2, false⟩, false⟩, ⟨⟨"m", 4, false⟩, false⟩] ∧
          u.b.limit (u.sumOf "m" 4 firstAttempts) = 1 := by
    decide +kernel
  exact ⟨s, t, u, Machine.reach_of_runActs .refl prunedRun hs, hgrants, ht, hone, hafter, hu, hlast⟩

/-- The same refund a second later than the new window counts leaves the new window alone. -/
def prunedLater : List BudgetCall :=
  [⟨0, .reserve "m"⟩, ⟨1, .prune fun _ => false⟩, ⟨second, .reserve "m"⟩]

theorem refund_of_dropped_iff_later : ∃ s t, Machine.Reach step (start oneAtATime 0) s ∧
    s.grants = [⟨⟨"m", 0, false⟩, true⟩, ⟨⟨"m", second, false⟩, false⟩] ∧
    s.step ⟨second, .refund 0⟩ = some t ∧
    ∀ k later which, second ≤ later → t.sumOf k later which = s.sumOf k later which := by
  obtain ⟨s, hs, hgrants, hzero, t, ht, -⟩ : ∃ s ∈ Machine.runActs step
    (start oneAtATime 0) prunedLater,
      s.grants = [⟨⟨"m", 0, false⟩, true⟩, ⟨⟨"m", second, false⟩, false⟩] ∧ s.retriesAt "m" 0 = 0 ∧
      ∃ t ∈ s.step ⟨second, .refund 0⟩, True := by
    decide +kernel
  have hreach := Machine.reach_of_runActs .refl prunedLater hs
  have hg : s.grants[0]? = some ⟨⟨"m", 0, false⟩, true⟩ := by rw [hgrants]; rfl
  exact ⟨s, t, hreach, hgrants, ht,
    ((refund_of_dropped_iff oneAtATime 0).1 s hreach 0 _ second t hg rfl ht).mpr
      (.inr (.inr hzero))⟩

end ServerFlow.Resilience.BudgetSys
