import Mathlib.Data.List.Basic
import Mathlib.Data.List.Perm.Basic

/-!
# Lists as growing tables

A table is a list whose indices are names: rows are appended and replaced, never removed.
The rules say where a row that is found after a change was before it.
-/

namespace Table

open List Option

variable {α β : Type} {l : List α} {i j : Nat} {x y : α}

/-- A row after row `i` was replaced. -/
theorem getElem?_set_cases (h : (l.set i x)[j]? = some y) :
    (j = i ∧ y = x) ∨ (j ≠ i ∧ l[j]? = some y) := by
  rw [List.getElem?_set] at h
  by_cases hij : i = j
  · rw [if_pos hij] at h
    split at h
    · exact .inl ⟨hij.symm, (some.inj h).symm⟩
    · cases h
  · rw [if_neg hij] at h
    exact .inr ⟨Ne.symm hij, h⟩

/-- The row that was replaced. -/
theorem getElem?_set_of_some (h : l[i]? = some x) (y : α) : (l.set i y)[i]? = some y := by
  have hi : i < l.length := (List.getElem?_eq_some_iff.mp h).1
  rw [List.getElem?_set, if_pos rfl, if_pos hi]

/-- A row after a row was appended. -/
theorem getElem?_concat_cases (h : (l ++ [x])[j]? = some y) :
    (j = l.length ∧ y = x) ∨ l[j]? = some y := by
  rw [List.getElem?_append] at h
  split at h
  · exact .inr h
  · next hj =>
    rw [List.getElem?_singleton] at h
    split at h
    · exact .inl ⟨by omega, (some.inj h).symm⟩
    · cases h

theorem getElem?_append_of_some (h : l[j]? = some y) (l' : List α) : (l ++ l')[j]? = some y := by
  rw [List.getElem?_append_left (List.getElem?_eq_some_iff.mp h).1, h]

theorem getElem?_concat_length (l : List α) (x : α) : (l ++ [x])[l.length]? = some x := by
  simp

/-- Counting rows when one is replaced, without a subtraction. -/
theorem countP_set (h : l[i]? = some x) (y : α) (f : α → Bool) :
    (l.set i y).countP f + (f x).toNat = l.countP f + (f y).toNat := by
  obtain ⟨hlt, rfl⟩ := List.getElem?_eq_some_iff.mp h
  rw [List.countP_set hlt]
  have hpos : f l[i] = true → 0 < l.countP f := fun hx =>
    countP_pos_iff.mpr ⟨l[i], getElem_mem hlt, hx⟩
  cases hx : f l[i] with
  | false => cases f y <;> simp
  | true =>
    have := hpos hx
    cases f y <;> simp <;> omega

theorem countP_concat (l : List α) (x : α) (f : α → Bool) :
    (l ++ [x]).countP f = l.countP f + (f x).toNat := by
  rw [countP_append, countP_singleton]
  cases f x <;> rfl

section

variable (h : l[i]? = some x)
include h

/-- The values of the rows, with the row that is found taken out. -/
theorem filterMap_perm (f : α → Option β) :
    (l.filterMap f).Perm ((f x).toList ++ (l.eraseIdx i).filterMap f) := by
  obtain ⟨hlt, rfl⟩ := List.getElem?_eq_some_iff.mp h
  have hperm := (getElem_cons_eraseIdx_perm hlt).symm.filterMap f
  cases hf : f l[i] with
  | none => rwa [filterMap_cons_none hf] at hperm
  | some v => rwa [filterMap_cons_some hf] at hperm

/-- The values of the rows after one was replaced. -/
theorem filterMap_set_perm (y : α) (f : α → Option β) :
    ((l.set i y).filterMap f).Perm ((f y).toList ++ (l.eraseIdx i).filterMap f) := by
  have := filterMap_perm (getElem?_set_of_some h y) f
  rwa [eraseIdx_set_eq] at this

/-- A row that had a value gives place to one that has none. -/
theorem erase_filterMap_perm [DecidableEq β] {v : β} {f : α → Option β} (hx : f x = some v)
    (hy : f y = none) : ((l.filterMap f).erase v).Perm ((l.set i y).filterMap f) := by
  have hbefore := (filterMap_perm h f).erase v
  have hafter := filterMap_set_perm h y f
  rw [hx, toList_some, singleton_append, erase_cons_head] at hbefore
  rw [hy, toList_none, nil_append] at hafter
  exact hbefore.trans hafter.symm

/-- A row gives place to one of the same value. -/
theorem filterMap_set_same {f : α → Option β} (hxy : f y = f x) :
    (l.filterMap f).Perm ((l.set i y).filterMap f) := by
  have hafter := filterMap_set_perm h y f
  rw [hxy] at hafter
  exact (filterMap_perm h f).trans hafter.symm

/-- A row that is found is counted. -/
theorem countP_pos_of_getElem? {f : α → Bool} (hx : f x = true) : 0 < l.countP f :=
  countP_pos_iff.mpr ⟨x, mem_of_getElem? h, hx⟩

end

end Table
