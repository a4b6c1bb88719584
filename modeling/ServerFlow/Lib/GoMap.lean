import Mathlib.Data.List.AList
import Mathlib.Data.List.Dedup
import Mathlib.Data.List.Perm.Basic

/-!
# Finite maps with an unspecified iteration order

A `GoMap` is an association list without repeated keys (`AList`), read as a Go
`map`: `lookup`, `insert` and `erase` are Mathlib's. What is added here is what a
`range` loop over a map does: deleting the entries that fail a test (`keep`),
counting the entries that pass one (`count`), and visiting the keys in an order
the language leaves open (`rangeKeys`, where the order is an argument).
-/

/-- A finite map from `κ` to `β`. -/
abbrev GoMap (κ β : Type) := AList fun _ : κ => β

namespace AList

open List AList

variable {κ β : Type} [DecidableEq κ] {m : GoMap κ β} {k : κ} {v : β}

/-- Maps are compared by their entries. The kernel can evaluate this instance, unlike the general
one. -/
instance [DecidableEq β] : DecidableEq (GoMap κ β) := fun m m' =>
  decidable_of_iff (m.entries = m'.entries) AList.ext_iff.symm

/-- `len(m)`. -/
def len (m : GoMap κ β) : Nat := m.entries.length

/-- The values of `m`, in entry order. -/
def vals (m : GoMap κ β) : List β := m.entries.map Sigma.snd

/-- The entries of `m` that satisfy `p`: a `range` loop that deletes the others. -/
def keep (p : κ → β → Bool) (m : GoMap κ β) : GoMap κ β :=
  ⟨m.entries.filter fun e => p e.1 e.2, m.nodupKeys.sublist filter_sublist⟩

/-- Every value of `m` changed: a `range` loop that writes through its entries. -/
def mapVals (f : β → β) (m : GoMap κ β) : GoMap κ β :=
  ⟨m.entries.map fun e => ⟨e.1, f e.2⟩, by
    have hkeys : (m.entries.map fun e => (⟨e.1, f e.2⟩ : Σ _ : κ, β)).keys = m.entries.keys := by
      simp only [List.keys, map_map, Function.comp_def]
    rw [List.NodupKeys, hkeys]
    exact m.nodupKeys⟩

/-- How many values of `m` satisfy `p`. -/
def count (p : β → Bool) (m : GoMap κ β) : Nat := m.entries.countP fun e => p e.2

/-- The keys of `m` in the order `order` proposes: first the keys listed there, then
the others. Each key is visited once (`rangeKeys_perm`). -/
def rangeKeys (order : List κ) (m : GoMap κ β) : List κ :=
  order.dedup.filter (· ∈ m.keys) ++ m.keys.filter (· ∉ order)

/-! ### Lookup -/

/-- Lookup after `insert`, in one equation. -/
theorem lookup_insert_ite (k k' : κ) (v : β) (m : GoMap κ β) :
    (m.insert k v).lookup k' = if k' = k then some v else m.lookup k' := by
  by_cases h : k' = k
  · subst h; simp
  · rw [if_neg h, lookup_insert_ne h]

/-- Lookup after `erase`, in one equation. -/
theorem lookup_erase_ite (k k' : κ) (m : GoMap κ β) :
    (m.erase k).lookup k' = if k' = k then none else m.lookup k' := by
  by_cases h : k' = k
  · subst h; simp
  · rw [if_neg h, lookup_erase_ne h]

/-- What is found after `insert` was inserted, or was there under another key. -/
theorem of_lookup_insert {k k' : κ} {v w : β} {m : GoMap κ β}
    (h : (m.insert k v).lookup k' = some w) : k' = k ∧ w = v ∨ k' ≠ k ∧ m.lookup k' = some w := by
  rw [lookup_insert_ite] at h
  split at h
  next heq => exact .inl ⟨heq, (Option.some.inj h).symm⟩
  next hne => exact .inr ⟨hne, h⟩

theorem of_lookup_erase {k k' : κ} {w : β} {m : GoMap κ β} (h : (m.erase k).lookup k' = some w) :
    k' ≠ k ∧ m.lookup k' = some w := by
  rw [lookup_erase_ite] at h
  split at h
  · cases h
  next hne => exact ⟨hne, h⟩

theorem lookup_eq_some_iff : m.lookup k = some v ↔ (⟨k, v⟩ : Σ _ : κ, β) ∈ m.entries := by
  rw [← Option.mem_def, mem_lookup_iff]

theorem lookup_keep (p : κ → β → Bool) (k : κ) (m : GoMap κ β) :
    (m.keep p).lookup k = (m.lookup k).filter (p k) := by
  ext v
  rw [Option.filter_eq_some_iff, lookup_eq_some_iff, lookup_eq_some_iff]
  simp [keep]

theorem of_lookup_keep {p : κ → β → Bool} {k : κ} {v : β} {m : GoMap κ β}
    (h : (m.keep p).lookup k = some v) : m.lookup k = some v ∧ p k v = true :=
  Option.filter_eq_some_iff.mp (lookup_keep p k m ▸ h)

/-- A `delete` is a loop that deletes one key. -/
theorem erase_eq_keep (k : κ) (m : GoMap κ β) : m.erase k = m.keep fun k' _ => decide (k' ≠ k) := by
  have hfilter : ∀ es : List (Σ _ : κ, β), es.NodupKeys →
      List.kerase k es = es.filter fun e => decide (e.1 ≠ k) := by
    intro es hnodup
    induction es with
    | nil => rfl
    | cons e es ih =>
      obtain ⟨hnot, hnodup⟩ := nodupKeys_cons.mp hnodup
      by_cases hk : k = e.1
      · rw [kerase_cons_eq hk, filter_cons_of_neg (by simp [hk]), filter_eq_self.mpr]
        intro d hd
        exact decide_eq_true fun heq => hnot (hk ▸ heq ▸ mem_keys_of_mem hd)
      · rw [kerase_cons_ne hk, filter_cons_of_pos (by simpa using Ne.symm hk), ih hnodup]
  exact AList.ext (hfilter m.entries m.nodupKeys)

/-- Deleting a key that is not there does nothing. -/
theorem erase_of_lookup_none (h : m.lookup k = none) : m.erase k = m :=
  AList.ext (kerase_of_notMem_keys (AList.lookup_eq_none.mp h))

theorem keep_erase (p : κ → β → Bool) (k : κ) (m : GoMap κ β) :
    (m.erase k).keep p = (m.keep p).erase k := by
  rw [erase_eq_keep, erase_eq_keep]
  apply AList.ext
  simp only [keep, filter_filter, Bool.and_comm]

theorem lookup_mapVals (f : β → β) (k : κ) (m : GoMap κ β) :
    (m.mapVals f).lookup k = (m.lookup k).map f := by
  ext v
  rw [Option.map_eq_some_iff, lookup_eq_some_iff]
  simp only [mapVals, mem_map, lookup_eq_some_iff]
  constructor
  · rintro ⟨⟨k', v'⟩, hmem, heq⟩
    cases heq
    exact ⟨v', hmem, rfl⟩
  · rintro ⟨v', hmem, rfl⟩
    exact ⟨⟨k, v'⟩, hmem, rfl⟩

/-! ### Counting -/

omit [DecidableEq κ] in
theorem len_mapVals (f : β → β) (m : GoMap κ β) : (m.mapVals f).len = m.len := length_map _

omit [DecidableEq κ] in
theorem len_keep_le (p : κ → β → Bool) (m : GoMap κ β) : (m.keep p).len ≤ m.len :=
  length_filter_le _ _

omit [DecidableEq κ] in
/-- A loop that deletes nothing. -/
theorem keep_eq_self_of_len {p : κ → β → Bool} (h : m.len ≤ (m.keep p).len) : m.keep p = m :=
  AList.ext (filter_sublist.eq_of_length_le h)

/-- An entry that is present can be moved to the front. -/
theorem entries_perm_of_lookup (h : m.lookup k = some v) :
    m.entries.Perm (⟨k, v⟩ :: (m.erase k).entries) := by
  have hk : k ∈ m.entries.keys := AList.lookup_isSome.mp (by rw [h]; rfl)
  obtain ⟨b, l₁, l₂, -, hm, he⟩ := exists_of_kerase hk
  have hb : (⟨k, b⟩ : Σ _ : κ, β) ∈ m.entries := by rw [hm]; simp
  obtain rfl : b = v := by
    rw [← lookup_eq_some_iff, h] at hb
    exact (Option.some.inj hb).symm
  show m.entries.Perm (⟨k, b⟩ :: List.kerase k m.entries)
  rw [he, hm]
  exact perm_middle

theorem len_erase_le (k : κ) (m : GoMap κ β) : (m.erase k).len ≤ m.len :=
  (kerase_sublist k m.entries).length_le

theorem len_insert_le (k : κ) (v : β) (m : GoMap κ β) : (m.insert k v).len ≤ m.len + 1 := by
  simp only [len, entries_insert, length_cons]
  exact Nat.succ_le_succ (len_erase_le k m)

theorem len_insert_of_lookup_none (h : m.lookup k = none) (v : β) :
    (m.insert k v).len = m.len + 1 := by
  unfold len
  rw [entries_insert, length_cons]
  exact congrArg (len · + 1) (erase_of_lookup_none h)

/-- Replacing a value keeps the number of entries. -/
theorem len_insert_of_lookup (h : m.lookup k = some v) (w : β) : (m.insert k w).len = m.len := by
  have hlen := (entries_perm_of_lookup h).length_eq
  simp only [len, entries_insert, length_cons] at hlen ⊢
  exact hlen.symm

/-- Counting splits off the entry of a present key. -/
theorem count_of_lookup (p : β → Bool) (h : m.lookup k = some v) :
    m.count p = (m.erase k).count p + if p v then 1 else 0 := by
  unfold count
  rw [(entries_perm_of_lookup h).countP_eq, countP_cons]

/-- Counting after `insert`: the inserted value plus what the other keys give. -/
theorem count_insert (p : β → Bool) (k : κ) (v : β) (m : GoMap κ β) :
    (m.insert k v).count p = (m.erase k).count p + if p v then 1 else 0 := by
  unfold count
  rw [entries_insert, countP_cons]
  rfl

/-- Replacing a value by one that the test does not tell apart keeps the count. -/
theorem count_insert_of_eq (p : β → Bool) {w : β}
    (h : m.lookup k = some v) (hp : p w = p v) : (m.insert k w).count p = m.count p := by
  rw [count_insert, count_of_lookup p h, hp]

/-- A present value that passes the test makes the count positive. -/
theorem count_pos_of_lookup {p : β → Bool}
    (h : m.lookup k = some v) (hp : p v = true) : 0 < m.count p := by
  rw [count_of_lookup p h, hp]
  simp

theorem exists_of_count_pos {p : β → Bool} (h : 0 < m.count p) :
    ∃ k v, m.lookup k = some v ∧ p v = true := by
  obtain ⟨⟨k, v⟩, hmem, hp⟩ := countP_pos_iff.mp h
  exact ⟨k, v, lookup_eq_some_iff.mpr hmem, hp⟩

/-- Two maps that answer every lookup alike have the same number of entries. -/
theorem len_eq_of_lookup_eq {m' : GoMap κ β} (h : ∀ k, m.lookup k = m'.lookup k) :
    m.len = m'.len := by
  refine (lookup_ext m.nodupKeys m'.nodupKeys fun k v => ?_).length_eq
  show v ∈ m.lookup k ↔ v ∈ m'.lookup k
  rw [h k]

/-! ### Iteration order -/

theorem nodup_rangeKeys (order : List κ) (m : GoMap κ β) : (m.rangeKeys order).Nodup := by
  refine nodup_append'.mpr ⟨(nodup_dedup order).filter _, m.keys_nodup.filter _, ?_⟩
  intro k hk hk'
  simp only [mem_filter, mem_dedup, decide_eq_true_eq] at hk hk'
  exact hk'.2 hk.1

@[simp] theorem mem_rangeKeys {order : List κ} {m : GoMap κ β} {k : κ} :
    k ∈ m.rangeKeys order ↔ k ∈ m := by
  simp only [rangeKeys, mem_append, mem_filter, mem_dedup, decide_eq_true_eq,
    mem_keys]
  tauto

/-- Whatever is proposed, the loop visits every key exactly once. -/
theorem rangeKeys_perm (order : List κ) (m : GoMap κ β) : (m.rangeKeys order).Perm m.keys :=
  (perm_ext_iff_of_nodup (nodup_rangeKeys order m) m.keys_nodup).mpr fun _ => by
    rw [mem_rangeKeys, mem_keys]

end AList

/-! ### Maps with the same keys and related values -/

namespace AList

open List

variable {κ β γ : Type}

/-- `m` and `m'` have the same keys, in the same entry order, and `R` relates their values. -/
def Matches (R : κ → β → γ → Prop) (m : GoMap κ β) (m' : GoMap κ γ) : Prop :=
  List.Forall₂ (fun e e' => e.1 = e'.1 ∧ R e.1 e.2 e'.2) m.entries m'.entries

namespace Matches

variable {R : κ → β → γ → Prop} {m : GoMap κ β} {m' : GoMap κ γ}

theorem empty : Matches R (∅ : GoMap κ β) (∅ : GoMap κ γ) := List.Forall₂.nil

section

variable (h : Matches R m m')
include h

theorem keys_eq : m.keys = m'.keys := by
  have : ∀ {l : List (Σ _ : κ, β)} {l' : List (Σ _ : κ, γ)},
      List.Forall₂ (fun e e' => e.1 = e'.1 ∧ R e.1 e.2 e'.2) l l' →
        l.map Sigma.fst = l'.map Sigma.fst := by
    intro l l' hl
    induction hl with
    | nil => rfl
    | cons he _ ih => rw [map_cons, map_cons, he.1, ih]
  exact this h

theorem rangeKeys_eq [DecidableEq κ] (order : List κ) : m.rangeKeys order = m'.rangeKeys order := by
  unfold rangeKeys
  rw [h.keys_eq]

theorem len_eq : m.len = m'.len := List.Forall₂.length_eq h

/-- A key is in neither map, or it has related values. -/
theorem lookup [DecidableEq κ] (k : κ) :
    (m.lookup k = none ∧ m'.lookup k = none) ∨
      ∃ v v', m.lookup k = some v ∧ m'.lookup k = some v' ∧ R k v v' := by
  have : ∀ {l : List (Σ _ : κ, β)} {l' : List (Σ _ : κ, γ)},
      List.Forall₂ (fun e e' => e.1 = e'.1 ∧ R e.1 e.2 e'.2) l l' →
        (l.dlookup k = none ∧ l'.dlookup k = none) ∨
          ∃ v v', l.dlookup k = some v ∧ l'.dlookup k = some v' ∧ R k v v' := by
    intro l l' hl
    induction hl with
    | nil => exact .inl ⟨rfl, rfl⟩
    | @cons e e' _ _ he _ ih =>
      obtain ⟨a, v⟩ := e
      obtain ⟨a', v'⟩ := e'
      obtain ⟨rfl, hR⟩ : a = a' ∧ R a v v' := he
      by_cases hk : k = a
      · subst hk
        exact .inr ⟨v, v', dlookup_cons_eq _ _ _, dlookup_cons_eq _ _ _, hR⟩
      · rw [dlookup_cons_ne (β := fun _ => β) _ ⟨a, v⟩ hk,
          dlookup_cons_ne (β := fun _ => γ) _ ⟨a, v'⟩ hk]
        exact ih
  exact this h

theorem keep {p : κ → β → Bool} {p' : κ → γ → Bool}
    (hp : ∀ k v v', R k v v' → p k v = p' k v') : Matches R (m.keep p) (m'.keep p') := by
  have : ∀ {l : List (Σ _ : κ, β)} {l' : List (Σ _ : κ, γ)},
      List.Forall₂ (fun e e' => e.1 = e'.1 ∧ R e.1 e.2 e'.2) l l' →
        List.Forall₂ (fun e e' => e.1 = e'.1 ∧ R e.1 e.2 e'.2)
          (l.filter fun e => p e.1 e.2) (l'.filter fun e => p' e.1 e.2) := by
    intro l l' hl
    induction hl with
    | nil => exact .nil
    | cons he _ ih =>
      rw [filter_cons, filter_cons, hp _ _ _ he.2, he.1]
      split
      · exact .cons he ih
      · exact ih
  exact this h

theorem count_eq (p : β → Bool) (p' : γ → Bool)
    (hp : ∀ k v v', R k v v' → p v = p' v') : m.count p = m'.count p' := by
  have : ∀ {l : List (Σ _ : κ, β)} {l' : List (Σ _ : κ, γ)},
      List.Forall₂ (fun e e' => e.1 = e'.1 ∧ R e.1 e.2 e'.2) l l' →
        l.countP (fun e => p e.2) = l'.countP fun e => p' e.2 := by
    intro l l' hl
    induction hl with
    | nil => rfl
    | cons he _ ih => rw [countP_cons, countP_cons, ih, hp _ _ _ he.2]
  exact this h

/-- The relation may be replaced by one that holds of the entries. -/
theorem imp [DecidableEq κ] {S : κ → β → γ → Prop}
    (hS : ∀ k v v', m.lookup k = some v → R k v v' → S k v v') : Matches S m m' := by
  have : ∀ {l : List (Σ _ : κ, β)} {l' : List (Σ _ : κ, γ)}, (∀ e ∈ l, m.lookup e.1 = some e.2) →
      List.Forall₂ (fun e e' => e.1 = e'.1 ∧ R e.1 e.2 e'.2) l l' →
        List.Forall₂ (fun e e' => e.1 = e'.1 ∧ S e.1 e.2 e'.2) l l' := by
    intro l l' hmem hl
    induction hl with
    | nil => exact .nil
    | @cons e e' _ _ he _ ih =>
      exact .cons ⟨he.1, hS _ _ _ (hmem e (by simp)) he.2⟩ (ih fun d hd => hmem d (by simp [hd]))
  exact this (fun e he => lookup_eq_some_iff.mpr he) h

/-- The entries of the other keys. -/
theorem erase [DecidableEq κ] (k : κ) :
    Matches (fun k' v v' => k' ≠ k ∧ R k' v v') (m.erase k) (m'.erase k) := by
  have : ∀ {l : List (Σ _ : κ, β)} {l' : List (Σ _ : κ, γ)},
      List.Forall₂ (fun e e' => e.1 = e'.1 ∧ R e.1 e.2 e'.2) l l' →
        List.Forall₂ (fun e e' => e.1 = e'.1 ∧ R e.1 e.2 e'.2) (l.kerase k) (l'.kerase k) := by
    intro l l' hl
    induction hl with
    | nil => exact .nil
    | @cons e e' _ _ he hl ih =>
      by_cases hk : k = e.1
      · rwa [kerase_cons_eq hk, kerase_cons_eq (hk.trans he.1)]
      · rw [kerase_cons_ne hk, kerase_cons_ne (fun h => hk (h.trans he.1.symm))]
        exact .cons he ih
  refine imp (show Matches R (m.erase k) (m'.erase k) from this h) fun k' v v' hlook hR => ⟨?_, hR⟩
  rintro rfl
  rw [lookup_erase] at hlook
  cases hlook

/-- A new value under `k`, where the relation may change under the other keys too. -/
theorem insert [DecidableEq κ] {S : κ → β → γ → Prop} {k : κ} {v : β} {v' : γ}
    (hS : ∀ k' v v', k' ≠ k → m.lookup k' = some v → R k' v v' → S k' v v') (hv : S k v v') :
    Matches S (m.insert k v) (m'.insert k v') := by
  have hrest : Matches S (m.erase k) (m'.erase k) := (h.erase k).imp fun k' v v' hlook hR =>
    hS k' v v' hR.1 (by rwa [lookup_erase_ne hR.1] at hlook) hR.2
  unfold Matches
  rw [entries_insert, entries_insert]
  exact .cons ⟨rfl, hv⟩ hrest

end

end Matches

end AList

/-! ### Maps that answer lookups alike

The same, but without regard to the entry order: an operation on one side that rewrites an
entry need not be matched by one on the other. -/

namespace AList

open List

variable {κ β γ : Type} [DecidableEq κ]

/-- Every lookup finds related values, or none in both maps. -/
def Alike (R : β → γ → Prop) (m : GoMap κ β) (m' : GoMap κ γ) : Prop :=
  ∀ k, Option.Rel R (m.lookup k) (m'.lookup k)

namespace Alike

variable {R : β → γ → Prop} {m : GoMap κ β} {m' : GoMap κ γ}

theorem empty : Alike R (∅ : GoMap κ β) (∅ : GoMap κ γ) := fun _ => .none

section

variable (h : Alike R m m')
include h

/-- A key is in neither map, or it has related values. -/
theorem lookup (k : κ) : (m.lookup k = none ∧ m'.lookup k = none) ∨
    ∃ v v', m.lookup k = some v ∧ m'.lookup k = some v' ∧ R v v' := by
  have hk := h k
  revert hk
  cases m.lookup k <;> cases m'.lookup k <;> intro hk
  · exact .inl ⟨rfl, rfl⟩
  · cases hk
  · cases hk
  · cases hk with
    | some hR => exact .inr ⟨_, _, rfl, rfl, hR⟩

theorem mem_iff (k : κ) : k ∈ m ↔ k ∈ m' := by
  rw [← lookup_isSome, ← lookup_isSome]
  rcases h.lookup k with ⟨hm, hm'⟩ | ⟨v, v', hm, hm', -⟩ <;> simp [hm, hm']

theorem symm : Alike (fun v' v => R v v') m' m := by
  intro k
  rcases h.lookup k with ⟨hm, hm'⟩ | ⟨v, v', hm, hm', hR⟩
  · rw [hm, hm']
    exact .none
  · rw [hm, hm']
    exact .some hR

theorem keys_perm : m.keys.Perm m'.keys :=
  (perm_ext_iff_of_nodup m.keys_nodup m'.keys_nodup).mpr fun k => h.mem_iff k

theorem len_eq : m.len = m'.len := by
  have := h.keys_perm.length_eq
  rwa [AList.keys, AList.keys, List.keys, List.keys, length_map, length_map] at this

theorem imp {S : β → γ → Prop} (hS : ∀ v v', R v v' → S v v') : Alike S m m' := by
  intro k
  rcases h.lookup k with ⟨hm, hm'⟩ | ⟨v, v', hm, hm', hR⟩
  · rw [hm, hm']
    exact .none
  · rw [hm, hm']
    exact .some (hS v v' hR)

theorem insert {v : β} {v' : γ} (hv : R v v') (k : κ) :
    Alike R (m.insert k v) (m'.insert k v') := by
  intro k'
  rw [lookup_insert_ite, lookup_insert_ite]
  split
  · exact .some hv
  · exact h k'

/-- A value that is present is rewritten on one side. -/
theorem insert_left {k : κ} {v : β} {v' : γ} (hv : R v v')
    (hk : m'.lookup k = some v') : Alike R (m.insert k v) m' := by
  intro k'
  rw [lookup_insert_ite]
  split
  next heq =>
    rw [heq, hk]
    exact .some hv
  next => exact h k'

/-- Tests that do not tell related values apart keep the same entries. -/
theorem keep {p : κ → β → Bool} {p' : κ → γ → Bool}
    (hp : ∀ k v v', R v v' → p k v = p' k v') : Alike R (m.keep p) (m'.keep p') := by
  intro k
  rw [lookup_keep, lookup_keep]
  rcases h.lookup k with ⟨hm, hm'⟩ | ⟨v, v', hm, hm', hR⟩
  · rw [hm, hm']
    exact .none
  · rw [hm, hm', Option.filter_some, Option.filter_some, hp k v v' hR]
    split
    · exact .some hR
    · exact .none

theorem count_eq {p : β → Bool} {p' : γ → Bool}
    (hp : ∀ v v', R v v' → p v = p' v') : m.count p = m'.count p' := by
  have hkeep : Alike R (m.keep fun _ => p) (m'.keep fun _ => p') := h.keep fun _ => hp
  have hlen := hkeep.len_eq
  unfold AList.count
  rwa [countP_eq_length_filter, countP_eq_length_filter]

end

end Alike

end AList
