import Mathlib.Data.List.TakeWhile
import Mathlib.Data.List.Pairwise

/-!
# Binary search for the first index that passes a test

`search n f` bisects `0 … n`. Where `f` is false and then true, it finds the boundary
(`search_spec`); over a list that is ordered for a test, the boundary is where the longest
run of elements that pass the test ends (`search_eq_length_takeWhile`), and that run has all
of them (`mem_takeWhile_of_pairwise`).
-/

namespace Search

open List Option

/-- The loop: everything before `i` fails the test and everything from `j` on passes it. -/
def go (f : Nat → Bool) (i j : Nat) : Nat :=
  if i < j then
    let m := (i + j) / 2
    if !f m then go f (m + 1) j else go f i m
  else i
termination_by j - i

/-- The smallest index below `n` that passes `f`, or `n`. -/
def search (n : Nat) (f : Nat → Bool) : Nat := go f 0 n

variable {f : Nat → Bool} {n : Nat}

/-- The loop stays within its bounds, whatever the test. -/
theorem go_le {i j : Nat} (hij : i ≤ j) : go f i j ≤ j := by
  fun_induction go f i j with
  | case1 i j hlt m hm ih => exact ih (by omega)
  | case2 i j hlt m hm ih => exact (ih (by omega)).trans (by omega)
  | case3 i j hge => exact hij

theorem search_le : search n f ≤ n := go_le (Nat.zero_le n)

theorem go_spec (hmono : ∀ a b, a ≤ b → b < n → f a = true → f b = true) {i j : Nat} (hij : i ≤ j)
    (hj : j ≤ n) (hlow : ∀ a < i, f a = false) (hhigh : ∀ a, j ≤ a → a < n → f a = true) :
    go f i j ≤ n ∧ (∀ a < go f i j, f a = false) ∧ ∀ a, go f i j ≤ a → a < n → f a = true := by
  fun_induction go f i j with
  | case1 i j hlt m hm ih =>
    -- the middle fails the test, and so does everything before it
    refine ih (by omega) hj (fun a ha => ?_) hhigh
    by_contra hfa
    have := hmono a m (by omega) (by omega) (by simpa using hfa)
    simp [this] at hm
  | case2 i j hlt m hm ih =>
    have hfm : f m = true := by simpa using hm
    exact ih (by omega) (by omega) hlow fun a ha han => hmono m a ha han hfm
  | case3 i j hge =>
    exact ⟨by omega, hlow, fun a ha han => hhigh a (by omega) han⟩

/-- For a test that stays true once it is true, `search` finds where it becomes true. -/
theorem search_spec (hmono : ∀ a b, a ≤ b → b < n → f a = true → f b = true) :
    search n f ≤ n ∧ (∀ a < search n f, f a = false) ∧ ∀ a, search n f ≤ a → a < n → f a = true :=
  go_spec hmono (Nat.zero_le n) le_rfl (fun a ha => absurd ha (Nat.not_lt_zero a))
    fun _ ha han => absurd han (not_lt.mpr ha)

section TakeWhile

variable {α : Type} {p : α → Bool} {l : List α}

/-- The element where the longest run that passes `p` ends, if there is one, fails it. -/
theorem getElem?_length_takeWhile (p : α → Bool) (l : List α) :
    ((l[(l.takeWhile p).length]?).all fun x => !p x) = true := by
  induction l with
  | nil => rfl
  | cons a l ih =>
    cases ha : p a with
    | true => rwa [takeWhile_cons_of_pos ha, length_cons, List.getElem?_cons_succ]
    | false => simp [takeWhile_cons_of_neg (p := p) (by simpa using ha), ha]

theorem getLast?_takeWhile (p : α → Bool) (l : List α) : (l.takeWhile p).getLast? =
    if (l.takeWhile p).length > 0 then l[(l.takeWhile p).length - 1]? else none := by
  obtain ⟨rest, hrest⟩ := takeWhile_prefix p (l := l)
  split
  next hpos =>
    have hlt : (l.takeWhile p).length - 1 < (l.takeWhile p).length := Nat.sub_one_lt_of_lt hpos
    rw [List.getLast?_eq_getElem?, ← List.getElem?_append_left hlt, hrest]
  next hzero =>
    rw [length_eq_zero_iff.mp (Nat.eq_zero_of_not_pos hzero)]
    rfl

/-- Where no element that passes `p` follows one that fails it, all that pass are in the run. -/
theorem mem_takeWhile_of_pairwise (hl : l.Pairwise fun x y => p y = true → p x = true) {x : α}
    (hx : x ∈ l) (hp : p x = true) : x ∈ l.takeWhile p := by
  induction l with
  | nil => cases hx
  | cons a l ih =>
    obtain ⟨hfirst, hrest⟩ := pairwise_cons.mp hl
    have ha : p a = true := by
      rcases mem_cons.mp hx with rfl | hx
      · exact hp
      · exact hfirst x hx hp
    rw [takeWhile_cons_of_pos ha]
    rcases mem_cons.mp hx with rfl | hx
    · exact mem_cons_self
    · exact mem_cons_of_mem a (ih hrest hx)

/-- The last element of an ordered list is after all others. -/
theorem eq_or_of_getLast? {r : α → α → Prop} {x y : α} (hl : l.Pairwise r)
    (hx : l.getLast? = some x) (hy : y ∈ l) : y = x ∨ r y x := by
  obtain ⟨l', rfl⟩ := List.getLast?_eq_some_iff.mp hx
  obtain ⟨-, -, hbefore⟩ := pairwise_append.mp hl
  rcases mem_append.mp hy with hy | hy
  · exact .inr (hbefore y hy x (by simp))
  · exact .inl (mem_singleton.mp hy)

/-- In a list where no element that passes `p` follows one that fails it, searching for the
first failure finds the end of the longest run that passes. -/
theorem search_eq_length_takeWhile (hl : l.Pairwise fun x y => p y = true → p x = true) :
    search l.length (fun i => (l[i]?).all fun x => !p x) = (l.takeWhile p).length := by
  have hlen : (l.takeWhile p).length ≤ l.length := ( takeWhile_prefix p).length_le
  have hmono : ∀ a b, a ≤ b → b < l.length → ((l[a]?).all fun x => !p x) = true →
      ((l[b]?).all fun x => !p x) = true := by
    intro a b hab hb hfa
    rw [List.getElem?_eq_getElem (lt_of_le_of_lt hab hb), all_some] at hfa
    rw [List.getElem?_eq_getElem hb, all_some]
    rcases Nat.eq_or_lt_of_le hab with rfl | hlt
    · exact hfa
    · have := pairwise_iff_getElem.mp hl a b (lt_of_le_of_lt hab hb) hb hlt
      cases hp : p l[b] with
      | false => rfl
      | true => simp [this hp] at hfa
  obtain ⟨hle, hlow, hhigh⟩ := search_spec hmono
  -- the two indices bound each other: what is before one cannot be at or after the other
  rcases Nat.lt_trichotomy (search l.length fun i => (l[i]?).all fun x => !p x)
    (l.takeWhile p).length with hlt | heq | hgt
  · have hin := lt_of_lt_of_le hlt hlen
    have hfail := hhigh _ le_rfl hin
    have hpass := mem_takeWhile_imp (getElem_mem hlt)
    rw [List.IsPrefix.getElem ( takeWhile_prefix p) hlt] at hpass
    rw [List.getElem?_eq_getElem hin, all_some, hpass] at hfail
    cases hfail
  · exact heq
  · have hfail := hlow _ hgt
    rw [getElem?_length_takeWhile] at hfail
    cases hfail

end TakeWhile

end Search
