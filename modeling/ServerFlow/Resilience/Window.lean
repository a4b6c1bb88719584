import Mathlib

/-!
# Resilience.Window

The sliding window of `internal/resilience/doc.go`: events counted in whole-second buckets
over the last `n` seconds, in a ring of `n` stamped slots that is overwritten lazily.

`Represents w cur ls` relates the ring to the plain lists of bucket indices it stands for,
one list for each counter, when the clock is in bucket `cur`. Only the buckets of the window
matter, so nothing happens when the clock advances (`Represents.mono`); adding an event,
taking one out and forgetting all of them are the list operations, and `sum` is the number of
list elements in the window (`Represents.sum_eq`).

Times and durations are integers, in nanoseconds.
-/

namespace ServerFlow.Resilience

open List Function Option

variable {now : Time}

abbrev Time := Int

abbrev Duration := Int

def second : Duration := 1000000000

/-- The resolution of every sliding window. -/
def bucketWidth : Duration := second

/-- Which of the two counters of a bucket. -/
inductive Counter
  | all
  | faults
  deriving Repr, DecidableEq

/-- A stamped bucket. The ring of stamps and the ring of counters of the source are one list
here. -/
structure Slot where
  stamp : Int
  all : Int
  faults : Int
  deriving Repr, DecidableEq

def Slot.get (b : Slot) : Counter → Int
  | .all => b.all
  | .faults => b.faults

/-- Add to a counter; it does not fall below `0`. -/
def Slot.bump (b : Slot) (which : Counter) (delta : Int) : Slot :=
  match which with
  | .all => { b with all := if b.all + delta < 0 then 0 else b.all + delta }
  | .faults => { b with faults := if b.faults + delta < 0 then 0 else b.faults + delta }

structure SlidingWindow where
  n : Int
  slots : List Slot
  deriving Repr, DecidableEq

/-- How many buckets a window has. -/
def bucketsOf (window : Duration) : Int :=
  let n := (window + bucketWidth - 1).tdiv bucketWidth
  if n < 1 then 1 else n

def newSlidingWindow (window : Duration) : SlidingWindow :=
  ⟨bucketsOf window, List.replicate (bucketsOf window).toNat ⟨0, 0, 0⟩⟩

def bucketOf (t : Time) : Int := t.tdiv bucketWidth

def SlidingWindow.slot (w : SlidingWindow) (idx : Int) : Nat :=
  ((idx.tmod w.n + w.n).tmod w.n).toNat

/-- The slot for bucket `idx`, emptied if it holds another bucket. -/
def SlidingWindow.claim (w : SlidingWindow) (idx : Int) : Slot :=
  match w.slots[w.slot idx]? with
  | some b => if b.stamp ≠ idx then ⟨idx, 0, 0⟩ else b
  | none => ⟨idx, 0, 0⟩

/-- Add `delta` to a counter of the bucket at time `t`; a bucket outside the window is
ignored. -/
def SlidingWindow.add (w : SlidingWindow) (t now : Time) (which : Counter) (delta : Int) :
    SlidingWindow :=
  let idx := bucketOf t
  let cur := bucketOf now
  if idx ≤ cur - w.n ∨ idx > cur then w
  else { w with slots := w.slots.set (w.slot idx) ((w.claim idx).bump which delta) }

/-- The slot's bucket is in the window that ends with bucket `cur`. -/
def Slot.inWindow (b : Slot) (n cur : Int) : Bool := decide (b.stamp > cur - n ∧ b.stamp ≤ cur)

/-- A counter over the buckets `cur - n + 1 .. cur`. -/
def SlidingWindow.sum (w : SlidingWindow) (now : Time) (which : Counter) : Int :=
  ((w.slots.filter (·.inWindow w.n (bucketOf now))).map (·.get which)).sum

def SlidingWindow.reset (w : SlidingWindow) : SlidingWindow :=
  { w with slots := w.slots.map fun _ => ⟨0, 0, 0⟩ }

@[simp] theorem SlidingWindow.add_n (w : SlidingWindow) (t now : Time) (which : Counter)
    (delta : Int) : (w.add t now which delta).n = w.n := by
  unfold SlidingWindow.add
  dsimp only
  split <;> rfl

/-! ### Buckets and slots -/

theorem bucketOf_mono {s t : Time} (h : s ≤ t) : bucketOf s ≤ bucketOf t :=
  Int.tdiv_le_tdiv (by decide) h

theorem bucketsOf_pos (window : Duration) : 0 < bucketsOf window := by
  unfold bucketsOf
  dsimp only
  split <;> omega

section Slots

variable {w : SlidingWindow}

theorem SlidingWindow.slot_eq (hn : 0 < w.n) (idx : Int) : (w.slot idx : Int) = idx % w.n := by
  have h₁ : -w.n < idx.tmod w.n := Int.lt_tmod_of_pos idx hn
  have hmod : (idx.tmod w.n + w.n).tmod w.n = idx % w.n := by
    rw [Int.tmod_eq_emod_of_nonneg (by omega), Int.add_emod_right, Int.tmod_def,
      Int.sub_mul_emod_self_left]
  unfold SlidingWindow.slot
  rw [hmod]
  exact Int.toNat_of_nonneg (Int.emod_nonneg _ (by omega))

theorem SlidingWindow.slot_lt (hn : 0 < w.n) (idx : Int) : (w.slot idx : Int) < w.n := by
  rw [SlidingWindow.slot_eq hn]
  exact Int.emod_lt_of_pos _ hn

/-- Two buckets less than a window apart do not share a slot. -/
theorem SlidingWindow.eq_of_slot_eq (hn : 0 < w.n) {i j : Int} (h : w.slot i = w.slot j)
    (hij : i < j + w.n) (hji : j < i + w.n) : i = j := by
  have hmod : i % w.n = j % w.n := by
    rw [← SlidingWindow.slot_eq hn, ← SlidingWindow.slot_eq hn, h]
  have hdvd : w.n ∣ i - j :=
    Int.dvd_of_emod_eq_zero (Int.emod_eq_emod_iff_emod_sub_eq_zero.mp hmod)
  have := Int.eq_zero_of_abs_lt_dvd hdvd (abs_lt.mpr ⟨by omega, by omega⟩)
  omega

end Slots

/-! ### What the ring stands for -/

/-- The count the ring has for bucket `idx`. -/
def SlidingWindow.value (w : SlidingWindow) (idx : Int) (which : Counter) : Int :=
  match w.slots[w.slot idx]? with
  | some b => if b.stamp = idx then b.get which else 0
  | none => 0

/-- In bucket `cur` of the clock, the ring has for every bucket of the window the number of
times it is in the list of each counter. -/
structure SlidingWindow.Represents (w : SlidingWindow) (cur : Int) (ls : Counter → List Int) :
    Prop where
  pos : 0 < w.n
  size : (w.slots.length : Int) = w.n
  home : ∀ s b, w.slots[s]? = some b → b.all ≠ 0 ∨ b.faults ≠ 0 → w.slot b.stamp = s
  past : ∀ which, ∀ i ∈ ls which, i ≤ cur
  count : ∀ idx which, cur - w.n < idx → w.value idx which = (ls which).count idx

namespace SlidingWindow.Represents

variable {w : SlidingWindow} {cur : Int} {ls : Counter → List Int}

/-- A ring of empty slots stands for no events, at any time. -/
theorem of_empty (hpos : 0 < w.n) (hsize : (w.slots.length : Int) = w.n)
    (hget : ∀ (s : Nat) (b : Slot), w.slots[s]? = some b → b = ⟨0, 0, 0⟩) (cur : Int) :
    w.Represents cur fun _ => [] := by
  refine ⟨hpos, hsize, fun s b hs hb => ?_, nofun, fun idx which _ => ?_⟩
  · rw [hget s b hs] at hb
    simp at hb
  · unfold SlidingWindow.value
    split
    next b hs =>
      rw [hget _ b hs]
      cases which <;> simp [Slot.get]
    next => simp

theorem new (window : Duration) (cur : Int) :
    (newSlidingWindow window).Represents cur fun _ => [] := by
  have hpos := bucketsOf_pos window
  refine of_empty hpos ?_ (fun s b h => ?_) cur
  · simp only [newSlidingWindow, length_replicate]
    omega
  · simp only [newSlidingWindow, List.getElem?_replicate] at h
    split at h
    · exact (some.inj h).symm
    · cases h

section

variable (h : w.Represents cur ls)
include h

theorem reset (cur' : Int) : w.reset.Represents cur' fun _ => [] := by
  refine of_empty (w := w.reset) h.pos ?_ (fun s b hs => ?_) cur'
  · simpa only [SlidingWindow.reset, length_map] using h.size
  · simp only [SlidingWindow.reset, List.getElem?_map, map_eq_some_iff] at hs
    obtain ⟨_, -, hb⟩ := hs
    exact hb.symm

/-- The clock may advance. -/
theorem mono {cur' : Int} (hcur : cur ≤ cur') : w.Represents cur' ls :=
  ⟨h.pos, h.size, h.home, fun which i hi => (h.past which i hi).trans hcur,
    fun idx which hidx => h.count idx which (by omega)⟩

/-- The order of the events does not matter. -/
theorem perm {ls' : Counter → List Int}
    (hperm : ∀ which, (ls which).Perm (ls' which)) : w.Represents cur ls' :=
  ⟨h.pos, h.size, h.home, fun which i hi => h.past which i ((hperm which).mem_iff.mpr hi),
    fun idx which hidx => by rw [h.count idx which hidx, (hperm which).count_eq]⟩

theorem slot_lt_length (idx : Int) : w.slot idx < w.slots.length := by
  have := SlidingWindow.slot_lt h.pos idx
  have := h.size
  omega

/-- The slot claimed for a bucket of the window has that bucket's counts. -/
theorem claim_spec (idx : Int) (hidx : cur - w.n < idx) :
    (w.claim idx).stamp = idx ∧ ∀ which, (w.claim idx).get which = (ls which).count idx := by
  have hcount := h.count idx
  unfold SlidingWindow.value at hcount
  unfold SlidingWindow.claim
  cases hs : w.slots[w.slot idx]? with
  | none =>
    rw [List.getElem?_eq_none_iff] at hs
    exact absurd (h.slot_lt_length idx) (by omega)
  | some b =>
    simp only [hs] at hcount
    dsimp only
    by_cases hb : b.stamp = idx
    · rw [if_neg (not_not_intro hb)]
      refine ⟨hb, fun which => ?_⟩
      rw [← hcount which hidx, if_pos hb]
    · rw [if_pos hb]
      refine ⟨rfl, fun which => ?_⟩
      rw [← hcount which hidx, if_neg hb]
      cases which <;> rfl

/-- Writing a bucket of the window: the other buckets of the window are in other slots. -/
theorem write (b : Slot) (ls' : Counter → List Int)
    (hlo : cur - w.n < b.stamp) (hhi : b.stamp ≤ cur) (hpast : ∀ which, ∀ i ∈ ls' which, i ≤ cur)
    (hget : ∀ which, b.get which = (ls' which).count b.stamp)
    (hother : ∀ which i, i ≠ b.stamp → (ls' which).count i = (ls which).count i) :
    ({ w with slots := w.slots.set (w.slot b.stamp) b } : SlidingWindow).Represents cur ls' := by
  have hlt := h.slot_lt_length b.stamp
  refine ⟨h.pos, by simpa using h.size, fun s c hs hc => ?_, hpast, fun idx which hidx => ?_⟩
  · simp only [List.getElem?_set, if_pos hlt] at hs
    split at hs
    next heq =>
      obtain rfl := some.inj hs
      exact heq
    next => exact h.home s c hs hc
  · have hidx' : cur - w.n < idx := hidx
    show SlidingWindow.value { w with slots := w.slots.set (w.slot b.stamp) b } idx which = _
    unfold SlidingWindow.value
    show (match (w.slots.set (w.slot b.stamp) b)[w.slot idx]? with
      | some b => if b.stamp = idx then b.get which else 0
      | none => 0) = _
    rw [List.getElem?_set]
    by_cases hslot : w.slot b.stamp = w.slot idx
    · rw [if_pos hslot, if_pos hlt]
      dsimp only
      by_cases heq : b.stamp = idx
      · rw [if_pos heq, hget which, heq]
      · -- another bucket in the same slot lies beyond the clock
        have hfar : cur < idx := by
          by_contra hle
          exact heq (SlidingWindow.eq_of_slot_eq h.pos hslot (by omega) (by omega))
        rw [if_neg heq, hother which idx (Ne.symm heq), count_eq_zero.mpr]
        · rfl
        · intro hmem
          have := h.past which idx hmem
          omega
    · rw [if_neg hslot]
      have hcount := h.count idx which hidx
      by_cases heq : idx = b.stamp
      · exact absurd (by rw [heq]) hslot
      · rw [hother which idx heq]
        exact hcount

end

theorem get_bump (b : Slot) (which c : Counter) (delta : Int) :
    (b.bump which delta).get c =
      if c = which then (if b.get c + delta < 0 then 0 else b.get c + delta) else b.get c := by
  cases which <;> cases c <;> rfl

section

variable (h : w.Represents cur ls)
include h

/-- Counting an event at the current time. -/
theorem add_now (hnow : bucketOf now = cur)
    (which : Counter) : (w.add now now which 1).Represents cur
      (update ls which (cur :: ls which)) := by
  have hpos := h.pos
  obtain ⟨hstamp, hget⟩ := h.claim_spec cur (by omega)
  have hb : ((w.claim cur).bump which 1).stamp = cur := by cases which <;> exact hstamp
  unfold SlidingWindow.add
  simp only [hnow]
  rw [if_neg (by omega)]
  have := h.write ((w.claim cur).bump which 1) (update ls which (cur :: ls which))
    (by omega) (by omega) ?_ ?_ ?_
  · rwa [hb] at this
  · intro c i hi
    by_cases hc : c = which
    · subst hc
      rw [update_self, mem_cons] at hi
      rcases hi with rfl | hi
      · exact le_rfl
      · exact h.past c i hi
    · rw [update_of_ne hc] at hi
      exact h.past c i hi
  · intro c
    rw [get_bump, hget, hb]
    by_cases hc : c = which
    · subst hc
      rw [if_pos rfl, if_neg (by omega), update_self, count_cons_self]
      push_cast
      rfl
    · rw [if_neg hc, update_of_ne hc]
  · intro c i hi
    rw [hb] at hi
    by_cases hc : c = which
    · subst hc
      rw [update_self, count_cons_of_ne (Ne.symm hi)]
    · rw [update_of_ne hc]

/-- Taking out an event that was counted before: if its bucket has left the window, there is
nothing to take out. -/
theorem remove {t : Time} (hnow : bucketOf now = cur)
    {which : Counter} (ht : bucketOf t ∈ ls which) : (w.add t now which (-1)).Represents cur
      (update ls which ((ls which).erase (bucketOf t))) := by
  have hle := h.past which _ ht
  have hpast : ∀ c, ∀ i ∈ update ls which ((ls which).erase (bucketOf t)) c, i ≤ cur := by
    intro c i hi
    by_cases hc : c = which
    · subst hc
      rw [update_self] at hi
      exact h.past c i (mem_of_mem_erase hi)
    · rw [update_of_ne hc] at hi
      exact h.past c i hi
  have hother : ∀ c i, i ≠ bucketOf t →
      (update ls which ((ls which).erase (bucketOf t)) c).count i = (ls c).count i := by
    intro c i hi
    by_cases hc : c = which
    · subst hc
      rw [update_self, count_erase_of_ne hi]
    · rw [update_of_ne hc]
  unfold SlidingWindow.add
  simp only [hnow]
  split
  next hout =>
    exact ⟨h.pos, h.size, h.home, hpast, fun idx c hidx => by
      rw [hother c idx (by omega), h.count idx c hidx]⟩
  next hin =>
    obtain ⟨hstamp, hget⟩ := h.claim_spec (bucketOf t) (by omega)
    have hb : ((w.claim (bucketOf t)).bump which (-1)).stamp = bucketOf t := by
      cases which <;> exact hstamp
    have := h.write ((w.claim (bucketOf t)).bump which (-1)) _ (by omega) (by omega) hpast ?_ ?_
    · rwa [hb] at this
    · intro c
      rw [get_bump, hget, hb]
      by_cases hc : c = which
      · subst hc
        have hpos : 0 < (ls c).count (bucketOf t) := count_pos_iff.mpr ht
        rw [if_pos rfl, if_neg (by omega), update_self, count_erase_self]
        omega
      · rw [if_neg hc, update_of_ne hc]
    · rwa [hb]

/-- Taking out an event of a bucket that has none changes nothing: the counter stays at `0`. -/
theorem remove_absent {t : Time} (hnow : bucketOf now = cur)
    {which : Counter} (hzero : bucketOf t ≤ cur → cur - w.n < bucketOf t → bucketOf t ∉ ls which) :
    (w.add t now which (-1)).Represents cur ls := by
  unfold SlidingWindow.add
  simp only [hnow]
  split
  next => exact h
  next hin =>
    obtain ⟨hstamp, hget⟩ := h.claim_spec (bucketOf t) (by omega)
    have hb : ((w.claim (bucketOf t)).bump which (-1)).stamp = bucketOf t := by
      cases which <;> exact hstamp
    have := h.write ((w.claim (bucketOf t)).bump which (-1)) ls (by omega) (by omega) h.past ?_
      fun _ _ _ => rfl
    · rwa [hb] at this
    · intro c
      rw [get_bump, hget, hb]
      by_cases hc : c = which
      · subst hc
        have hnone : (ls c).count (bucketOf t) = 0 :=
          count_eq_zero.mpr (hzero (by omega) (by omega))
        rw [if_pos rfl, hnone]
        rfl
      · rw [if_neg hc]

/-- What a slot contributes to the sum: the list elements of the window that belong in it. -/
theorem slot_eq_countP (which : Counter) {s : Nat} {b : Slot} (hs : w.slots[s]? = some b) :
    (if b.inWindow w.n cur then b.get which else 0) =
      ((ls which).countP fun i => decide (cur - w.n < i ∧ w.slot i = s) : Nat) := by
  have hvalue : ∀ i, cur - w.n < i → w.slot i = s →
      (if b.stamp = i then b.get which else 0) = ((ls which).count i : Int) := by
    intro i hi hslot
    have := h.count i which hi
    unfold SlidingWindow.value at this
    rwa [hslot, hs] at this
  have hstamp : ∀ i ∈ ls which, cur - w.n < i → w.slot i = s → b.stamp = i := by
    intro i hmem hi hslot
    have hpos : 0 < (ls which).count i := count_pos_iff.mpr hmem
    by_contra hne
    have := hvalue i hi hslot
    rw [if_neg hne] at this
    omega
  by_cases hex : ∃ i ∈ ls which, cur - w.n < i ∧ w.slot i = s
  · obtain ⟨i, hmem, hi, hslot⟩ := hex
    obtain rfl := hstamp i hmem hi hslot
    have hle := h.past which _ hmem
    rw [if_pos (show b.inWindow w.n cur = true from decide_eq_true ⟨hi, hle⟩)]
    have hval := hvalue b.stamp hi hslot
    rw [if_pos rfl] at hval
    rw [hval, List.count, Nat.cast_inj]
    refine countP_congr fun j hj => ?_
    rw [beq_iff_eq, decide_eq_true_eq]
    exact ⟨fun hj' => hj' ▸ ⟨hi, hslot⟩, fun hj' => (hstamp j hj hj'.1 hj'.2).symm⟩
  · have hzero : ((ls which).countP fun i => decide (cur - w.n < i ∧ w.slot i = s)) = 0 := by
      rw [countP_eq_zero]
      intro i hmem hi
      exact hex ⟨i, hmem, of_decide_eq_true hi⟩
    rw [hzero]
    split
    next hin =>
      have hin := of_decide_eq_true hin
      by_contra hne
      have hhome : w.slot b.stamp = s := h.home s b hs (by
        cases which
        · exact .inl (by simpa [Slot.get] using hne)
        · exact .inr (by simpa [Slot.get] using hne))
      have hval := hvalue b.stamp hin.1 hhome
      rw [if_pos rfl] at hval
      have hpos : 0 < (ls which).count b.stamp := by
        rcases Nat.eq_zero_or_pos ((ls which).count b.stamp) with hz | hz
        · rw [hz] at hval
          exact absurd hval (by simpa using hne)
        · exact hz
      exact hex ⟨b.stamp, count_pos_iff.mp hpos, hin.1, hhome⟩
    next => rfl

/-- Counting a list by slot counts every element once. -/
theorem sum_countP_slot (l : List Int) (q : Int → Prop) [DecidablePred q] :
    ∑ s : Fin w.slots.length, ((l.countP fun i => decide (q i ∧ w.slot i = s) : Nat) : Int) =
      (l.countP fun i => decide (q i) : Nat) := by
  induction l with
  | nil => simp
  | cons i l ih =>
    simp only [countP_cons, Nat.cast_add, Finset.sum_add_distrib, ih]
    congr 1
    by_cases hq : q i
    · have hone : ∀ s : Fin w.slots.length,
          ((if decide (q i ∧ w.slot i = (s : Nat)) = true then 1 else 0 : Nat) : Int) =
            if (⟨w.slot i, h.slot_lt_length i⟩ : Fin w.slots.length) = s then 1 else 0 := by
        intro s
        simp only [hq, true_and, decide_eq_true_eq, Fin.ext_iff]
        split <;> rfl
      rw [Finset.sum_congr rfl fun s _ => hone s, Finset.sum_ite_eq, if_pos (Finset.mem_univ _),
        if_pos (decide_eq_true hq)]
      rfl
    · simp [hq]

/-- `sum` counts the list elements in the window. -/
theorem sum_eq (hnow : bucketOf now = cur) (which : Counter) : w.sum now which =
      ((ls which).countP fun i => decide (cur - w.n < i) : Nat) := by
  have hfilter : ∀ l : List Slot, ((l.filter (·.inWindow w.n cur)).map (·.get which)).sum =
      (l.map fun b => if b.inWindow w.n cur then b.get which else 0).sum := by
    intro l
    induction l with
    | nil => rfl
    | cons b l ih =>
      rw [filter_cons, map_cons, sum_cons]
      split
      · rw [map_cons, sum_cons, ih]
      · rw [ih, zero_add]
  unfold SlidingWindow.sum
  rw [hnow, hfilter, ← Fin.sum_univ_fun_getElem, ← h.sum_countP_slot]
  refine Finset.sum_congr rfl fun s _ => ?_
  exact h.slot_eq_countP which (List.getElem?_eq_getElem s.isLt)

end

end SlidingWindow.Represents

end ServerFlow.Resilience
