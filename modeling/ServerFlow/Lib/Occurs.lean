import Mathlib.Data.List.Infix

/-!
# Where a word occurs in a text

`index sep s` is the position of the first occurrence of `sep` in `s`, as Go's `bytes.Index` finds
it. An occurrence at `p` is `sep <+: s.drop p`; two occurrences that share a part of the word make
that part both its end and its beginning (`drop_eq_take_of_overlap`). `rests sep s` lists what
follows each of them.
-/

namespace Occurs

open List

variable {α : Type} [DecidableEq α] {sep s : List α}

/-- `bytes.Index`, for a word that is not empty. -/
def index (sep : List α) : List α → Option Nat
  | [] => none
  | a :: s => if sep <+: a :: s then some 0 else (index sep s).map (· + 1)

omit [DecidableEq α] in
theorem not_prefix_of_length_le (hsep : sep ≠ []) {p : Nat} (hp : s.length ≤ p) :
    ¬ sep <+: s.drop p := by
  rw [drop_eq_nil_of_le hp]
  intro h
  exact hsep (prefix_nil.mp h)

/-- What is found is the first occurrence. -/
theorem index_some {i : Nat} (h : index sep s = some i) :
    sep <+: s.drop i ∧ ∀ j < i, ¬ sep <+: s.drop j := by
  induction s generalizing i with
  | nil => cases h
  | cons a s ih =>
    unfold index at h
    split at h
    next hpre =>
      cases h
      exact ⟨hpre, fun j hj => absurd hj (Nat.not_lt_zero j)⟩
    next hpre =>
      obtain ⟨k, hk, rfl⟩ := Option.map_eq_some_iff.mp h
      obtain ⟨hat, hbefore⟩ := ih hk
      refine ⟨hat, fun j hj => ?_⟩
      cases j with
      | zero => exact hpre
      | succ j => exact hbefore j (Nat.lt_of_succ_lt_succ hj)

/-- If nothing is found, the word does not occur. -/
theorem index_none (hsep : sep ≠ []) (h : index sep s = none) (p : Nat) : ¬ sep <+: s.drop p := by
  induction s generalizing p with
  | nil => exact not_prefix_of_length_le hsep (Nat.zero_le p)
  | cons a s ih =>
    unfold index at h
    split at h
    next => cases h
    next hpre =>
      cases p with
      | zero => exact hpre
      | succ p => exact ih (Option.map_eq_none_iff.mp h) p

/-- What follows each occurrence of the word, in order. -/
def rests (sep : List α) : List α → List (List α)
  | [] => []
  | a :: s => (if sep <+: a :: s then [(a :: s).drop sep.length] else []) ++ rests sep s

theorem rests_cons_of_not {a : α} (h : ¬ sep <+: a :: s) : rests sep (a :: s) = rests sep s := by
  rw [rests, if_neg h, nil_append]

theorem rests_suffix {r : List α} (h : r ∈ rests sep s) : r <:+ s := by
  induction s with
  | nil => cases h
  | cons a s ih =>
    rw [rests, mem_append] at h
    rcases h with h | h
    · split at h
      · rw [mem_singleton.mp h]
        exact drop_suffix _ _
      · cases h
    · exact (ih h).trans (suffix_cons _ _)

theorem rests_eq_nil (h : index sep s = none) : rests sep s = [] := by
  induction s with
  | nil => rfl
  | cons a s ih =>
    unfold index at h
    split at h
    next => cases h
    next hpre => rw [rests_cons_of_not hpre, ih (Option.map_eq_none_iff.mp h)]

theorem rests_of_index {i : Nat} (h : index sep s = some i) :
    rests sep s = s.drop (i + sep.length) :: rests sep (s.drop (i + 1)) := by
  induction s generalizing i with
  | nil => cases h
  | cons a s ih =>
    unfold index at h
    split at h
    next hpre =>
      cases h
      rw [rests, if_pos hpre, Nat.zero_add]
      rfl
    next hpre =>
      obtain ⟨k, hk, rfl⟩ := Option.map_eq_some_iff.mp h
      rw [rests_cons_of_not hpre, ih hk, Nat.add_right_comm k 1 sep.length]
      rfl

omit [DecidableEq α] in
/-- Two occurrences `d` apart that overlap. -/
theorem drop_eq_take_of_overlap {d : Nat} (h : sep <+: s) (h' : sep <+: s.drop d) :
    sep.drop d = sep.take (sep.length - d) := by
  obtain ⟨t, rfl⟩ := h
  by_cases hd : d ≤ sep.length
  · rw [drop_append_of_le_length hd] at h'
    have htake : sep.take (sep.length - d) <+: sep.drop d ++ t := ( take_prefix _ _).trans h'
    have hdrop : sep.drop d <+: sep.drop d ++ t := prefix_append _ _
    refine (prefix_of_prefix_length_le hdrop htake ?_).eq_of_length ?_
    · rw [length_drop, length_take]
      omega
    · rw [length_drop, length_take]
      omega
  · rw [drop_eq_nil_of_le (Nat.le_of_not_le hd), Nat.sub_eq_zero_of_le (Nat.le_of_not_le hd),
      take_zero]

end Occurs
