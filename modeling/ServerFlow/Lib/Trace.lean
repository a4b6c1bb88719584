import Mathlib.Data.List.Infix
import Mathlib.Data.List.TakeWhile

/-!
# Logs of events

A log lists what has happened, the latest event first, so the events before a given one
are the tail behind it. `Always P` says that every event was in order when it happened:
`P` relates it to what had happened before. A step that appends one event has to check
that event only (`always_cons`).
-/

namespace Trace

open List

variable {ε : Type}

/-- Every event of the log stands in the relation `P` to what was logged before it. -/
def Always (P : ε → List ε → Prop) (log : List ε) : Prop :=
  ∀ ev before, ev :: before <:+ log → P ev before

theorem always_nil (P : ε → List ε → Prop) : Always P [] := by
  intro ev before h
  exact absurd (List.suffix_nil.mp h) (cons_ne_nil _ _)

theorem always_cons {P : ε → List ε → Prop} {ev : ε} {log : List ε} :
    Always P (ev :: log) ↔ P ev log ∧ Always P log := by
  constructor
  · intro h
    exact ⟨h ev log suffix_rfl, fun e b hb => h e b (hb.trans (suffix_cons _ _))⟩
  · rintro ⟨hev, hlog⟩ e b hb
    rcases List.suffix_cons_iff.mp hb with heq | hb
    · obtain ⟨rfl, rfl⟩ := cons.inj heq
      exact hev
    · exact hlog e b hb

/-- Events that are always in order may be put on any log. -/
theorem always_append {P : ε → List ε → Prop} {evs log : List ε}
    (hevs : ∀ ev ∈ evs, ∀ before, P ev before) (h : Always P log) : Always P (evs ++ log) := by
  induction evs with
  | nil => exact h
  | cons ev evs ih =>
    refine always_cons.mpr ⟨hevs ev (by simp) _, ih fun e he => hevs e (by simp [he])⟩

/-- What was logged after the latest event that satisfies `p`. -/
def since (p : ε → Bool) (log : List ε) : List ε := log.takeWhile fun ev => !p ev

theorem since_append {p : ε → Bool} {evs : List ε} (log : List ε) (h : ∀ ev ∈ evs, p ev = false) :
    since p (evs ++ log) = evs ++ since p log :=
  takeWhile_append_of_pos fun ev hev => by simp [h ev hev]

theorem since_cons_self {p : ε → Bool} {ev : ε} (log : List ε) (h : p ev = true) :
    since p (ev :: log) = [] := by
  simp [since, h]

end Trace
