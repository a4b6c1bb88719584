import Mathlib

/-!
# Taking turns among changing candidates

Who is next is decided from who was last and from who is there now: the first candidate after the
last one in the order, wrapping around (`IsNext`). Nothing else is remembered, and the candidates
may change from one turn to the next.

Fix where one starts and someone `w` who is always there. Until `w` gets a turn, the turns go
strictly forward on the circle from the start to `w` (`Turns.forward`), because a turn is never
given past a candidate. So nobody gets two of them, which bounds their number
(`Turns.mem_of_length`).
-/

namespace Rotation

open List

variable {α : Type} [LinearOrder α]

/-- Starting right after `a` and wrapping around, `x` comes before `y`. -/
def Before (a x y : α) : Prop := if a < x then y ≤ a ∨ x < y else y ≤ a ∧ x < y

/-- The candidate whose turn it is after `a`. -/
structure IsNext (a : α) (S : List α) (c : α) : Prop where
  mem : c ∈ S
  first : ∀ x ∈ S, x ≠ c → Before a c x

theorem before_irrefl (a x : α) : ¬ Before a x x := by
  unfold Before
  split
  next h =>
    rintro (hle | hlt)
    · exact absurd h (not_lt.mpr hle)
    · exact lt_irrefl x hlt
  next => exact fun h => lt_irrefl x h.2

theorem before_trans {a x y z : α} (hxy : Before a x y) (hyz : Before a y z) : Before a x z := by
  unfold Before at *
  grind

/-- Going on from `c`, which is before `w`, to one that is not past `w` stays before `w` and goes
forward. -/
theorem before_of_next {a c d w : α} (hc : Before a c w) (hd : Before c d w) :
    Before a c d ∧ Before a d w := by
  unfold Before at *
  grind

/-- The turns that follow when `a` was last: one for each set of candidates. -/
inductive Turns : α → List (List α) → List α → Prop
  | nil {a : α} : Turns a [] []
  | cons {a c : α} {S : List α} {Ss : List (List α)} {cs : List α} (next : IsNext a S c)
    (rest : Turns c Ss cs) :
      Turns a (S :: Ss) (c :: cs)

namespace Turns

variable {a w : α} {Ss : List (List α)} {cs : List α}

section

variable (h : Turns a Ss cs)
include h

theorem length_eq : cs.length = Ss.length := by
  induction h with
  | nil => rfl
  | cons _ _ ih => rw [length_cons, length_cons, ih]

/-- A turn goes to a candidate. -/
theorem mem_flatten {x : α} (hx : x ∈ cs) : x ∈ Ss.flatten := by
  induction h with
  | nil => cases hx
  | cons next _ ih =>
    rw [flatten_cons, mem_append]
    rcases mem_cons.mp hx with rfl | hx
    · exact .inl next.mem
    · exact .inr (ih hx)

/-- The turns after a given one. -/
theorem of_append {before after : List α} {c : α} (hcs : cs = before ++ c :: after) :
    ∃ Ss', (∀ S ∈ Ss', S ∈ Ss) ∧ Turns c Ss' after := by
  induction h generalizing before with
  | nil => simp at hcs
  | @cons a c' S Ss cs next rest ih =>
    cases before with
    | nil =>
      obtain ⟨rfl, rfl⟩ := cons.inj hcs
      exact ⟨Ss, fun S hS => mem_cons_of_mem _ hS, rest⟩
    | cons b before =>
      obtain ⟨Ss', hsub, hturns⟩ := ih (cons.inj hcs).2
      exact ⟨Ss', fun S hS => mem_cons_of_mem _ (hsub S hS), hturns⟩

/-- The turns up to a given one. -/
theorem upTo {before after : List α} (hcs : cs = before ++ after) :
    ∃ Ss', (∀ S ∈ Ss', S ∈ Ss) ∧ Turns a Ss' before := by
  induction h generalizing before with
  | nil =>
    obtain ⟨rfl, -⟩ := append_eq_nil_iff.mp hcs.symm
    exact ⟨[], (fun S hS => hS), Turns.nil⟩
  | @cons a c S Ss cs next rest ih =>
    cases before with
    | nil => exact ⟨[], (fun S hS => absurd hS not_mem_nil), Turns.nil⟩
    | cons b before =>
      obtain ⟨rfl, hrest⟩ := cons.inj hcs
      obtain ⟨Ss', hsub, hturns⟩ := ih hrest
      refine ⟨S :: Ss', ?_, Turns.cons next hturns⟩
      intro S' hS'
      rcases mem_cons.mp hS' with rfl | hS'
      · exact mem_cons_self
      · exact mem_cons_of_mem _ (hsub S' hS')

end

/-- While `w` waits, the turns go forward from where they started and do not pass `w`. -/
theorem forward_from {c : α} (h : Turns c Ss cs) (hw : ∀ S ∈ Ss, w ∈ S) (hcs : w ∉ cs)
    (hc : Before a c w) : (c :: cs).Pairwise (Before a) ∧ ∀ x ∈ c :: cs, Before a x w := by
  induction h with
  | nil => exact ⟨pairwise_singleton _ _, fun x hx => by rwa [mem_singleton.mp hx]⟩
  | @cons c d S Ss cs next rest ih =>
    have hne : w ≠ d := fun heq => hcs (heq ▸ mem_cons_self)
    have hd := next.first w (hw S mem_cons_self) hne
    obtain ⟨hcd, hdw⟩ := before_of_next hc hd
    obtain ⟨hpair, hall⟩ := ih (fun S hS => hw S (mem_cons_of_mem _ hS))
      (fun hmem => hcs (mem_cons_of_mem _ hmem)) hdw
    refine ⟨pairwise_cons.mpr ⟨?_, hpair⟩, ?_⟩
    · intro x hx
      rcases mem_cons.mp hx with rfl | hx
      · exact hcd
      · exact before_trans hcd ((pairwise_cons.mp hpair).1 x hx)
    · intro x hx
      rcases mem_cons.mp hx with rfl | hx
      · exact hc
      · exact hall x hx

section

variable (h : Turns a Ss cs)
include h

theorem forward (hw : ∀ S ∈ Ss, w ∈ S) (hcs : w ∉ cs) :
    cs.Pairwise (Before a) ∧ ∀ x ∈ cs, Before a x w := by
  cases h with
  | nil => exact ⟨List.Pairwise.nil, nofun⟩
  | @cons _ c S Ss cs next rest =>
    have hne : w ≠ c := fun heq => hcs (heq ▸ mem_cons_self)
    exact rest.forward_from (fun S hS => hw S (mem_cons_of_mem _ hS))
      (fun hmem => hcs (mem_cons_of_mem _ hmem)) (next.first w (hw S mem_cons_self) hne)

/-- While `w` waits, nobody gets a second turn. -/
theorem nodup (hw : ∀ S ∈ Ss, w ∈ S) (hcs : w ∉ cs) : cs.Nodup := by
  refine (h.forward hw hcs).1.imp ?_
  intro x y hxy heq
  rw [heq] at hxy
  exact before_irrefl a y hxy

/-- **Nobody starves.** Someone who is always there gets a turn within as many turns as there are
candidates. -/
theorem mem_of_length (hw : ∀ S ∈ Ss, w ∈ S) (hne : Ss ≠ [])
    (hlen : Ss.flatten.dedup.length ≤ Ss.length) : w ∈ cs := by
  by_contra hcs
  have hnodup : (w :: cs).Nodup := nodup_cons.mpr ⟨hcs, h.nodup hw hcs⟩
  have hsub : w :: cs ⊆ Ss.flatten.dedup := by
    intro x hx
    rw [mem_dedup]
    rcases mem_cons.mp hx with rfl | hx
    · obtain ⟨S, hS⟩ := exists_mem_of_ne_nil Ss hne
      exact List.mem_flatten.mpr ⟨S, hS, hw S hS⟩
    · exact h.mem_flatten hx
  have hle := (hnodup.subperm hsub).length_le
  rw [length_cons, h.length_eq] at hle
  omega

/-- Between two turns of `w` nobody gets two. -/
theorem nodup_between (hw : ∀ S ∈ Ss, w ∈ S) {before mid after : List α}
    (hcs : cs = before ++ w :: (mid ++ w :: after)) (hmid : w ∉ mid) : mid.Nodup := by
  obtain ⟨Ss', hsub, hturns⟩ := h.of_append hcs
  obtain ⟨Ss'', hsub', hturns'⟩ := hturns.upTo rfl
  exact hturns'.nodup (fun S hS => hw S (hsub S (hsub' S hS))) hmid

end

end Turns

end Rotation
