import Mathlib.Data.List.Basic
import Mathlib.Data.List.Nodup

/-!
# A size-bounded least-recently-used map

The entries are kept in the order of their last use, the most recent first. A key
occurs once and there are at most `max` entries; both are fields of the type. Every
operation that uses an entry moves it to the front, and a new entry pushes out the
least recently used ones.

What a client of the map relies on is only `lookup`: after `put` an entry is the new
one or an old one (`lookup_put_some`), and the other operations add nothing.
-/

structure Lru (κ V : Type) where
  max : Nat
  order : List (κ × V)
  nodup : (order.map Prod.fst).Nodup
  bound : order.length ≤ max
  deriving Repr, DecidableEq

namespace Lru

open List

variable {κ V : Type} [DecidableEq κ]

def new (κ V : Type) (max : Nat) : Lru κ V := ⟨max, [], nodup_nil, Nat.zero_le _⟩

/-- The entries under other keys. -/
def others (c : Lru κ V) (key : κ) : List (κ × V) := c.order.filter fun e => e.1 ≠ key

/-- The value under `key`, without using it. -/
def lookup (c : Lru κ V) (key : κ) : Option V :=
  (c.order.find? fun e => e.1 = key).map Prod.snd

theorem nodup_others (c : Lru κ V) (key : κ) : ((c.others key).map Prod.fst).Nodup :=
  c.nodup.sublist (filter_sublist.map _)

theorem nodup_cons_others (c : Lru κ V) (key : κ) (v : V) :
    (((key, v) :: c.others key).map Prod.fst).Nodup := by
  refine nodup_cons.mpr ⟨?_, c.nodup_others key⟩
  simp [others]

variable {c : Lru κ V} {key : κ} {v : V}

/-- A key that is there takes one place. -/
theorem length_others_lt (h : c.lookup key = some v) : (c.others key).length < c.order.length := by
  obtain ⟨e, he, -⟩ := Option.map_eq_some_iff.mp h
  have hmem : e ∈ c.order := mem_of_find?_eq_some he
  have hkey : e.1 = key := by simpa using List.find?_some he
  exact length_filter_lt_length_iff_exists.mpr ⟨e, hmem, by simp [hkey]⟩

/-- Use the value under `key`: it moves to the front. -/
def get (c : Lru κ V) (key : κ) : Lru κ V × Option V :=
  match h : c.lookup key with
  | none => (c, none)
  | some v =>
    (⟨c.max, (key, v) :: c.others key, c.nodup_cons_others key v,
      Nat.le_trans (length_others_lt h) c.bound⟩, some v)

/-- Set the value under `key` and move it to the front; entries past `max` are dropped from the
back. -/
def put (c : Lru κ V) (key : κ) (v : V) : Lru κ V :=
  ⟨c.max, ((key, v) :: c.others key).take c.max,
    (c.nodup_cons_others key v).sublist ((take_sublist _ _).map _), length_take_le _ _⟩

def remove (c : Lru κ V) (key : κ) : Lru κ V :=
  ⟨c.max, c.others key, c.nodup_others key, Nat.le_trans (length_filter_le _ _) c.bound⟩

/-! ### What is found after an operation -/

theorem lookup_eq_some_iff : c.lookup key = some v ↔ (key, v) ∈ c.order := by
  constructor
  · intro h
    obtain ⟨⟨k, w⟩, he, rfl⟩ := Option.map_eq_some_iff.mp h
    obtain rfl : k = key := by simpa using List.find?_some he
    exact mem_of_find?_eq_some he
  · intro h
    have hsome : (c.order.find? fun e => e.1 = key).isSome :=
      List.find?_isSome.mpr ⟨_, h, by simp⟩
    obtain ⟨⟨k, w⟩, he⟩ := Option.isSome_iff_exists.mp hsome
    obtain rfl : k = key := by simpa using List.find?_some he
    -- Two entries under one key are the same entry.
    have hmem := mem_of_find?_eq_some he
    have heq : (k, w) = (k, v) := inj_on_of_nodup_map c.nodup hmem h rfl
    rw [lookup, he, heq]
    rfl

theorem get_snd (c : Lru κ V) (key : κ) : (c.get key).2 = c.lookup key := by
  simp only [get]
  split
  next h => exact h.symm
  next h => exact h.symm

@[simp] theorem lookup_get (c : Lru κ V) (key k : κ) : (c.get key).1.lookup k = c.lookup k := by
  simp only [get]
  split
  next => rfl
  next v h =>
    ext w
    rw [lookup_eq_some_iff, lookup_eq_some_iff]
    by_cases hk : k = key
    · subst hk
      have hw : (k, w) ∈ c.order ↔ w = v := by
        rw [← lookup_eq_some_iff, h, Option.some_inj, eq_comm]
      rw [hw]
      simp [others]
    · simp [others, hk]

@[simp] theorem lookup_remove (c : Lru κ V) (key k : κ) :
    (c.remove key).lookup k = if k = key then none else c.lookup k := by
  ext w
  rw [lookup_eq_some_iff]
  by_cases hk : k = key
  · simp [remove, others, hk]
  · rw [if_neg hk, lookup_eq_some_iff]
    simp [remove, others, hk]

/-- After `put` an entry is the new one or was there before. -/
theorem lookup_put_some {k : κ} {w : V} (h : (c.put key v).lookup k = some w) :
    (k = key ∧ w = v) ∨ (k ≠ key ∧ c.lookup k = some w) := by
  rw [lookup_eq_some_iff] at h
  have hmem : (k, w) ∈ (key, v) :: c.others key := mem_of_mem_take h
  rcases mem_cons.mp hmem with heq | hold
  · exact .inl ⟨congrArg Prod.fst heq, congrArg Prod.snd heq⟩
  · obtain ⟨hin, hne⟩ := mem_filter.mp hold
    exact .inr ⟨by simpa using hne, lookup_eq_some_iff.mpr hin⟩

end Lru
