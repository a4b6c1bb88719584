import Mathlib.Data.List.Basic
import Mathlib.Algebra.BigOperators.Group.List.Basic
import Mathlib.Data.List.Perm.Basic
import Mathlib.Tactic.Ring

/-!
# Counting in a list without repetitions

How a count or a sum moves when the test or the weight changes at one element, and when one element
is taken out.
-/

namespace List

open List

variable {κ : Type} [DecidableEq κ] {ws : List κ} {w : κ}

/-- Counting splits off one element. -/
theorem countP_eq_erase_add (hw : w ∈ ws) (f : κ → Bool) :
    ws.countP f = (ws.erase w).countP f + if f w then 1 else 0 := by
  rw [(perm_cons_erase hw).countP_eq, countP_cons]

/-- Two tests that agree but at `w` count alike, but for `w`. -/
theorem countP_add_of_eq_off (hnd : ws.Nodup) (hw : w ∈ ws) {f g : κ → Bool}
    (hfg : ∀ x ∈ ws, x ≠ w → f x = g x) :
    ws.countP f + (if g w then 1 else 0) = ws.countP g + if f w then 1 else 0 := by
  have herase : (ws.erase w).countP f = (ws.erase w).countP g := by
    refine countP_congr fun x hx => ?_
    obtain ⟨hne, hmem⟩ := hnd.mem_erase_iff.mp hx
    rw [hfg x hmem hne]
  rw [countP_eq_erase_add hw f, countP_eq_erase_add hw g, herase]
  omega

/-- Two weights that agree but at `w` sum alike, but for `w`. -/
theorem sum_map_add_of_eq_off (hnd : ws.Nodup) (hw : w ∈ ws) {f g : κ → Int}
    (hfg : ∀ x ∈ ws, x ≠ w → f x = g x) : (ws.map f).sum + g w = (ws.map g).sum + f w := by
  have herase : (ws.erase w).map f = (ws.erase w).map g := by
    refine map_congr_left fun x hx => ?_
    obtain ⟨hne, hmem⟩ := hnd.mem_erase_iff.mp hx
    exact hfg x hmem hne
  have hsplit : ∀ h : κ → Int, (ws.map h).sum = h w + ((ws.erase w).map h).sum := fun h => by
    rw [((perm_cons_erase hw).map h).sum_eq, map_cons, sum_cons]
  rw [hsplit f, hsplit g, herase]
  ring

end List
