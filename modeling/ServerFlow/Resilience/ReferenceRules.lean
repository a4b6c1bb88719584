import ServerFlow.Resilience.BreakersCap
import ServerFlow.Resilience.Reference

/-!
# Resilience.ReferenceRules

The rules of one breaker agree with those of the reference. `Breaker.toRef` is the reference
breaker a breaker stands for, given the list of its outcomes. `Evidence` says that the window and
the streak hold what that list says, and no more is needed for both trip rules to decide
alike (`Evidence.tripReason_eq`).
-/

namespace ServerFlow.Resilience

open List Function

/-! ### Parameters -/

/-- What `normalize` makes sure of. -/
structure BreakerParams.Normal (p : BreakerParams) : Prop where
  failures : 1 ≤ p.consecutiveFailures
  volume : 1 ≤ p.minVolume
  window : bucketWidth ≤ p.window
  coolDown : 0 < p.coolDown
  cap : p.coolDown ≤ p.maxCoolDown

theorem BreakerParams.normalize_normal (p : BreakerParams) : p.normalize.Normal := by
  have hat : ∀ {a b : Int}, a ≤ if b < a then a else b := by
    intro a b
    split <;> omega
  refine ⟨hat, hat, hat, ?_, hat⟩
  simp only [BreakerParams.normalize]
  split
  · decide
  next h => exact not_le.mp h

section Rules

variable {p : BreakerParams}

theorem ticketBackstopRef_eq (p : BreakerParams) : p.ticketBackstopRef = p.ticketBackstop := by
  unfold BreakerParams.ticketBackstopRef BreakerParams.ticketBackstop
  dsimp only
  split
  next h => rw [max_eq_left h.le]
  next h => rw [max_eq_right (not_lt.mp h)]

/-- Comparing before doubling is comparing after it. -/
theorem doubledUpTo_eq {cap : Int} (hcap : 0 ≤ cap) (level : Nat) (d : Int) :
    doubledUpTo cap level d = coolDownLoop cap level d := by
  induction level generalizing d with
  | zero =>
    unfold doubledUpTo coolDownLoop
    split
    next h => rw [min_eq_right h.le]
    next h => rw [min_eq_left (not_lt.mp h)]
  | succ level ih =>
    have hhalf : d * 2 ≥ cap ↔ d ≥ cap.tdiv 2 + cap.tmod 2 := by
      rw [Int.tdiv_eq_ediv_of_nonneg hcap, Int.tmod_eq_emod_of_nonneg hcap]
      omega
    unfold doubledUpTo coolDownLoop
    simp only [hhalf, ih]

theorem coolDownFor_eq (h : p.Normal) (level : Nat) : p.coolDownFor level = p.baseCoolDown level :=
  doubledUpTo_eq (h.coolDown.le.trans h.cap) level _

theorem topLevel_eq (h : p.Normal) : p.topLevel = p.maxLevel := by
  have hfrom : ∀ fuel l, p.topLevelFrom fuel l = p.maxLevelFrom fuel l := by
    intro fuel
    induction fuel with
    | zero => exact fun _ => rfl
    | succ fuel ih =>
      intro l
      unfold BreakerParams.topLevelFrom BreakerParams.maxLevelFrom
      rw [coolDownFor_eq h, ih]
  exact hfrom _ _

/-- The cap of a group, compared with the number of ejected breakers, is the plain product. -/
theorem le_maxOpen_iff (f : ℚ) {k n : Int} (hk : 1 ≤ k) (hkn : k ≤ n) :
    k ≤ maxOpen f n ↔ k ≤ ⌊f * n + 1 / 1000000000⌋ := by
  have hk' : (1 : ℚ) ≤ k := by exact_mod_cast hk
  have hkn' : (k : ℚ) ≤ n := by exact_mod_cast hkn
  have hn : (0 : ℚ) < n := by linarith
  unfold maxOpen
  split
  next h =>
    have hf : f ≤ 0 := h.resolve_right (by omega)
    refine ⟨fun h => absurd h (by omega), fun h => ?_⟩
    have := Int.le_floor.mp h
    nlinarith
  next h =>
    split
    next hf =>
      refine ⟨fun _ => Int.le_floor.mpr ?_, fun _ => hkn⟩
      nlinarith
    next => exact Iff.rfl

end Rules

/-! ### One breaker -/

/-- The reference breaker that `b` stands for, with the outcomes `events`. -/
def Breaker.toRef (b : Breaker) (events : List RefEvent) : RefBreaker where
  key := b.key
  model := b.model
  eligible := b.eligible
  state := b.state
  events := events
  level := b.level
  everOpened := b.everOpened
  closedAt := b.closedAt
  ejectedAt := b.ejectedAt
  openUntil := b.openUntil
  coolDown := b.coolDown
  epoch := b.epoch
  nextID := b.nextID
  tickets := b.tickets
  successes := b.successes
  suppressed := b.suppressed

section One

variable {p : BreakerParams} (b : Breaker) (events : List RefEvent) (now : Time)

theorem toRef_advance : (b.toRef events).advance now p =
    ((b.advance now p).1.toRef events, (b.advance now p).2) := by
  have hback : (fun (_ : Nat) (at_ : Time) => decide (now - at_ ≤ p.ticketBackstopRef)) =
      fun _ at_ => !decide (now - at_ > p.ticketBackstop) := by
    funext _ at_
    rw [ticketBackstopRef_eq, ← decide_not]
    exact decide_eq_decide.mpr not_lt.symm
  unfold RefBreaker.advance Breaker.advance
  rw [hback]
  by_cases hopen : b.state = .open ∧ ¬ now < b.openUntil
  · rw [if_pos (show (b.toRef events).state = .open ∧ now ≥ (b.toRef events).openUntil from
      ⟨hopen.1, not_lt.mp hopen.2⟩), if_pos hopen]
    rfl
  · rw [if_neg (show ¬ ((b.toRef events).state = .open ∧ now ≥ (b.toRef events).openUntil) from
      fun h => hopen ⟨h.1, not_lt.mpr h.2⟩), if_neg hopen]
    dsimp only
    by_cases hhalf : b.state = .halfOpen
    · rw [if_pos (show (b.toRef events).state = .halfOpen from hhalf), if_pos hhalf]
      rfl
    · rw [if_neg (show ¬ (b.toRef events).state = .halfOpen from hhalf), if_neg hhalf]

theorem jittered_eq (base : Duration) (r : ℚ) :
    p.jittered base r =
      (let d := truncate (base * (1 + 1 / 5 * (2 * r - 1)))
      let d := if d < 1 then 1 else d
      if d > p.maxCoolDown then p.maxCoolDown else d) := by
  have hmax : ∀ d : Int, max d 1 = if d < 1 then 1 else d := fun d => by
    split
    next h => exact max_eq_right h.le
    next h => exact max_eq_left (not_lt.mp h)
  have hmin : ∀ d : Int, min d p.maxCoolDown = if d > p.maxCoolDown then p.maxCoolDown else d :=
    fun d => by
      split
      next h => exact min_eq_right (le_of_lt h)
      next h => exact min_eq_left (not_lt.mp h)
  unfold BreakerParams.jittered jitterSpan
  rw [hmin, hmax]

theorem toRef_openNow (h : p.Normal) (fromProbe : Bool) (r : ℚ) :
    (b.toRef events).openNow now fromProbe p r = (b.openNow now fromProbe p r).toRef events := by
  have hlevel : b.nextLevel now fromProbe p =
      if fromProbe then if b.level < p.topLevel then b.level + 1 else b.level
      else if b.everOpened = false ∨ now - b.closedAt ≥ p.maxCoolDown then 0 else b.level := by
    unfold Breaker.nextLevel
    rw [topLevel_eq h]
    simp only [Bool.or_eq_true, Bool.not_eq_true', decide_eq_true_eq]
  unfold RefBreaker.openNow Breaker.openNow
  simp only [jittered_eq, hlevel, coolDownFor_eq h]
  rfl

theorem toRef_close : (b.toRef events).close now = (b.close now).toRef [] := rfl

end One

/-! ### The outcomes behind the window and the streak -/

/-- The outcome counts in the window. -/
def RefEvent.counts (e : RefEvent) : Counter → Bool
  | .all => !e.converted
  | .faults => !e.converted && e.isFault

/-- The buckets of the outcomes that count. -/
def countedBuckets (events : List RefEvent) (which : Counter) : List Int :=
  (events.filter (·.counts which)).map fun e => bucketOf e.t

/-- At time `now`, the window and the streak hold what the list of outcomes says. -/
structure Evidence (p : BreakerParams) (now : Time) (b : Breaker) (events : List RefEvent) :
    Prop where
  buckets : b.win.n = bucketsOf p.window
  window : b.win.Represents (bucketOf now) (countedBuckets events)
  streak : b.streak.Holds p.consecutiveFailures.toNat (faultsSinceOK events)

theorem countedBuckets_append (events : List RefEvent) (e : RefEvent) (which : Counter) :
    (countedBuckets (events ++ [e]) which).Perm
      (if e.counts which then bucketOf e.t :: countedBuckets events which
        else countedBuckets events which) := by
  unfold countedBuckets
  rw [filter_append, map_append, filter_singleton]
  cases e.counts which with
  | false => simp
  | true => exact perm_append_singleton _ _

/-- A new outcome, in the streak. -/
theorem faultsSinceOK_append (events : List RefEvent) (e : RefEvent) :
    faultsSinceOK (events ++ [e]) =
      match e.v with
      | .ok => []
      | .fault => e.t :: faultsSinceOK events
      | _ => faultsSinceOK events := by
  unfold faultsSinceOK
  rw [reverse_append, reverse_singleton, singleton_append]
  cases h : e.v <;> simp [h]

/-- The streak does not see which OKs were converted. -/
theorem faultsSinceOK_convertOK (okAt : Time) (events : List RefEvent) :
    faultsSinceOK (convertOK okAt events) = faultsSinceOK events := by
  have hview : ∀ es : List RefEvent, faultsSinceOK es =
      ((((es.map fun e => (e.t, e.v)).reverse.takeWhile fun x => decide (x.2 ≠ .ok)).filter fun x =>
        decide (x.2 = .fault)).map Prod.fst) := by
    intro es
    unfold faultsSinceOK
    rw [← map_reverse, takeWhile_map, filter_map, map_map]
    rfl
  have hmap : (convertOK okAt events).map (fun e => (e.t, e.v)) =
      events.map fun e => (e.t, e.v) := by
    induction events with
    | nil => rfl
    | cons e es ih =>
      unfold convertOK
      split
      · rfl
      · rw [map_cons, map_cons, ih]
  rw [hview, hview, hmap]

/-- An OK recorded at `t` and not converted. -/
def RefEvent.isOKAt (t : Time) (e : RefEvent) : Bool :=
  decide (e.v = .ok ∧ e.converted = false ∧ e.t = t)

/-- Converting an OK takes its bucket out of the window's count, and nothing else. -/
theorem countedBuckets_convertOK {okAt : Time} {events : List RefEvent}
    (h : 0 < events.countP (·.isOKAt okAt)) (which : Counter) :
    (Function.update (countedBuckets events) .all
      ((countedBuckets events .all).erase (bucketOf okAt)) which).Perm
      (countedBuckets (convertOK okAt events) which) := by
  have hall : ∀ es : List RefEvent, 0 < es.countP (·.isOKAt okAt) →
      (countedBuckets es .all).Perm (bucketOf okAt :: countedBuckets (convertOK okAt es) .all) ∧
        countedBuckets (convertOK okAt es) .faults = countedBuckets es .faults := by
    intro es
    induction es with
    | nil => exact fun h => absurd h (by simp)
    | cons e es ih =>
      intro hpos
      unfold convertOK
      split
      next hok =>
        obtain ⟨hv, hc, rfl⟩ := hok
        simp [countedBuckets, RefEvent.counts, RefEvent.isFault, hv, hc]
      next hok =>
        have hpos' : 0 < es.countP (·.isOKAt okAt) := by
          rwa [countP_cons, RefEvent.isOKAt, decide_eq_false hok] at hpos
        obtain ⟨hperm, hfaults⟩ := ih hpos'
        unfold countedBuckets at hperm hfaults ⊢
        refine ⟨?_, ?_⟩
        · rw [filter_cons, filter_cons]
          split
          · exact (hperm.cons _).trans (List.Perm.swap _ _ _)
          · exact hperm
        · rw [filter_cons, filter_cons]
          split
          · rw [map_cons, map_cons, hfaults]
          · exact hfaults
  obtain ⟨hperm, hfaults⟩ := hall events h
  cases which with
  | all =>
    rw [update_self]
    have := hperm.erase (bucketOf okAt)
    rwa [erase_cons_head] at this
  | faults => rw [update_of_ne (by decide), hfaults]

namespace Evidence

variable {p : BreakerParams} {now : Time} {b : Breaker} {events : List RefEvent}

theorem new (h : p.Normal) (k : Key) (now : Time) : Evidence p now (newBreaker k p) [] :=
  ⟨rfl, .new _ _, RingBuffer.holds_new (by have := h.failures; omega) _⟩

section

variable (h : Evidence p now b events)
include h

/-- The clock may advance. -/
theorem mono {now' : Time} (hle : now ≤ now') : Evidence p now' b events :=
  ⟨h.buckets, h.window.mono (bucketOf_mono hle), h.streak⟩

/-- Only the window and the streak matter. -/
theorem congr {b' : Breaker} (hwin : b'.win = b.win)
    (hstreak : b'.streak = b.streak) : Evidence p now b' events :=
  ⟨hwin ▸ h.buckets, hwin ▸ h.window, hstreak ▸ h.streak⟩

theorem close (t : Time) : Evidence p now (b.close t) [] :=
  ⟨h.buckets, h.window.reset _, h.streak.clear⟩

/-- Counting an outcome is appending it to the list. -/
theorem count {v : Verdict} (hv : v ≠ .neutral) :
    Evidence p now (b.count now v) (events ++ [⟨now, v, false⟩]) := by
  have hall := h.window.add_now rfl .all
  have hfault := hall.add_now rfl .faults
  have hstreak := faultsSinceOK_append events ⟨now, v, false⟩
  cases v with
  | neutral => exact absurd rfl hv
  | ok =>
    refine ⟨by simp [Breaker.count, h.buckets], hall.perm fun which => ?_, ?_⟩
    · refine List.Perm.trans ?_ (countedBuckets_append events _ which).symm
      cases which <;> exact List.Perm.refl _
    · rw [hstreak]
      exact h.streak.clear
  | fault =>
    refine ⟨by simp [Breaker.count, h.buckets], hfault.perm fun which => ?_, ?_⟩
    · refine List.Perm.trans ?_ (countedBuckets_append events _ which).symm
      cases which <;> exact List.Perm.refl _
    · rw [hstreak]
      exact h.streak.push now
  | ratioFault =>
    refine ⟨by simp [Breaker.count, h.buckets], hfault.perm fun which => ?_, ?_⟩
    · refine List.Perm.trans ?_ (countedBuckets_append events _ which).symm
      cases which <;> exact List.Perm.refl _
    · rw [hstreak]
      exact h.streak

/-- Taking an OK out of the window is converting it in the list. -/
theorem convert {okAt : Time}
    (hok : 0 < events.countP (·.isOKAt okAt)) :
    Evidence p now { b with win := b.win.add okAt now .all (-1) } (convertOK okAt events) := by
  have hmem : bucketOf okAt ∈ countedBuckets events .all := by
    obtain ⟨e, he, hat⟩ := countP_pos_iff.mp hok
    obtain ⟨-, hc, ht⟩ := of_decide_eq_true hat
    exact mem_map.mpr ⟨e, mem_filter.mpr ⟨he, by simp [RefEvent.counts, hc]⟩, by rw [ht]⟩
  exact ⟨by simp [h.buckets], (h.window.remove rfl hmem).perm (countedBuckets_convertOK hok),
    by rw [faultsSinceOK_convertOK]; exact h.streak⟩

/-! ### The trip rules -/

theorem sum_eq_countP (hp : p.Normal) (which : Counter) :
    b.win.sum now which = (events.countP fun e => e.inWindow now p && e.counts which : Nat) := by
  have hn : b.win.n = (p.window + second - 1).tdiv second := by
    have h₁ : bucketWidth.tdiv bucketWidth ≤ (p.window + bucketWidth - 1).tdiv bucketWidth :=
      Int.tdiv_le_tdiv (by decide) (by
        have := hp.window
        linarith [show (1 : Int) ≤ bucketWidth by decide])
    rw [h.buckets]
    unfold bucketsOf
    exact if_neg (not_lt.mpr (le_trans (by decide) h₁))
  rw [h.window.sum_eq rfl, countedBuckets, countP_map, countP_filter]
  congr 1
  refine countP_congr fun e _ => ?_
  rw [Bool.and_eq_true, comp_apply, decide_eq_true_eq, hn]
  simp only [RefEvent.inWindow, Bool.and_eq_true, decide_eq_true_eq, bucketOf, bucketWidth]
  cases which <;> simp only [RefEvent.counts, Bool.and_eq_true] <;> tauto

/-- The consecutive rule. -/
theorem streakTrips_iff (hp : p.Normal) (v : Verdict) :
    b.streakTrips now v p = true ↔ v ≠ .ok ∧ (b.toRef events).consecutive now p = true := by
  have hcf := hp.failures
  unfold Breaker.streakTrips RefBreaker.consecutive
  rw [Bool.and_eq_true, Bool.and_eq_true, Bool.and_eq_true, decide_eq_true_eq, decide_eq_true_eq,
    h.streak.full_iff, and_assoc]
  refine and_congr_right fun _ => ?_
  show _ ↔ ((faultsSinceOK events).length : Int) ≥ p.consecutiveFailures ∧ _
  rw [show ((faultsSinceOK events).length : Int) ≥ p.consecutiveFailures ↔
    p.consecutiveFailures.toNat ≤ (faultsSinceOK events).length by omega]
  refine and_congr_right fun hfull => ?_
  rw [h.streak.oldest_eq hfull,
    show p.consecutiveFailures.toNat - 1 = (p.consecutiveFailures - 1).toNat by omega]
  show _ ↔ ((faultsSinceOK events)[(p.consecutiveFailures - 1).toNat]?).any _ = true
  cases (faultsSinceOK events)[(p.consecutiveFailures - 1).toNat]? <;> simp

/-- Both trip rules decide as the reference does. -/
theorem tripReason_eq (hp : p.Normal) (v : Verdict) :
    b.tripReason now v p = (b.toRef events).tripReason now v p := by
  have htotal : b.win.sum now .all = (events.countP (·.inWindow now p) : Nat) := by
    rw [h.sum_eq_countP hp]
    congr 1
    refine countP_congr fun e _ => ?_
    simp only [RefEvent.counts, RefEvent.inWindow, Bool.and_eq_true]
    tauto
  have hfaults : b.win.sum now .faults =
      (events.countP fun e => e.inWindow now p && e.isFault : Nat) := by
    rw [h.sum_eq_countP hp]
    congr 1
    refine countP_congr fun e _ => ?_
    simp only [RefEvent.counts, RefEvent.inWindow, Bool.and_eq_true]
    tauto
  have hratio : ∀ total faults : Int, p.ratioTrips total faults = true ↔
      p.failureRatio > 0 ∧ total ≥ p.minVolume ∧ (faults : ℚ) ≥ p.failureRatio * total := by
    intro total faults
    have hvol := hp.volume
    simp only [BreakerParams.ratioTrips, Bool.and_eq_true, decide_eq_true_eq]
    constructor
    · intro hr
      exact ⟨hr.1.1.1, hr.1.1.2, hr.2⟩
    · intro hr
      exact ⟨⟨⟨hr.1, hr.2.1⟩, by omega⟩, hr.2.2⟩
  have hlen : b.streakTrips now v p = true → (b.streak.len : Int) = p.consecutiveFailures := by
    intro htrip
    have hfull := (h.streak.full_iff).mp (by
      unfold Breaker.streakTrips at htrip
      simp only [Bool.and_eq_true] at htrip
      exact htrip.1.2)
    have hcf := hp.failures
    rw [h.streak.len]
    omega
  unfold Breaker.tripReason RefBreaker.tripReason
  simp only [h.streakTrips_iff hp v, hratio, htotal, hfaults]
  split
  next htrip => rw [hlen ((h.streakTrips_iff hp v).mpr htrip)]
  next => rfl

end

end Evidence

end ServerFlow.Resilience
