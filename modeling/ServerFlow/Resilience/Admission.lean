import Mathlib
import ServerFlow.Lib.Machine
import ServerFlow.Lib.Table

/-!
# Resilience.Admission

The global request cap of a gateway (`internal/resilience/admission.go`). `Acquire` raises an atomic
counter by compare-and-swap. Each access to the counter, and each one to the flag of a slot, is a
step, and the steps of any number of goroutines interleave.
-/

namespace ServerFlow.Resilience

/-- A `Slot`. `Release` sets its flag and then lowers the counter. -/
inductive Place
  | held
  | releasing
  | released
  deriving Repr, DecidableEq

/-- Where a goroutine is in `Acquire`. -/
inductive AcquirePc
  | idle
  | loading
  | loaded (cur : Int)
  deriving Repr, DecidableEq

structure Admission where
  max : Int
  active : Int
  pc : Nat → AcquirePc
  slots : List Place
  /-- How many places were taken, at each refusal. -/
  refused : List Nat

/-- `NewAdmission`. -/
def newAdmission (max : Int) : Admission := ⟨max, 0, fun _ => .idle, [], []⟩

inductive AdmissionAct
  | acquire (g : Nat)
  | load (g : Nat)
  | swap (g : Nat)
  /-- `Release` of a slot, by anyone and any number of times, up to its compare-and-swap. -/
  | release (i : Nat)
  /-- The rest of the `Release` that set the flag. -/
  | giveBack (i : Nat)

namespace Admission

/-- The slots whose place was not given back. -/
def places (s : Admission) : Nat := s.slots.countP fun p => decide (p ≠ .released)

def enter (s : Admission) (g : Nat) (pc : AcquirePc) : Admission :=
  { s with pc := Function.update s.pc g pc }

/-- `Acquire` succeeds. -/
def take (s : Admission) (g : Nat) : Admission :=
  { s.enter g .idle with active := s.active + 1, slots := s.slots ++ [.held] }

def step (s : Admission) : AdmissionAct → Option Admission
  | .acquire g =>
    if s.pc g = .idle then if 0 < s.max then some (s.enter g .loading) else some
      (s.take g) else none
  | .load g =>
    if s.pc g = .loading then
      if s.active ≥ s.max then some { s.enter g .idle with refused := s.refused ++ [s.places] }
      else some (s.enter g (.loaded s.active))
    else none
  | .swap g =>
    match s.pc g with
    | .loaded cur => if s.active = cur then some (s.take g) else some (s.enter g .loading)
    | _ => none
  | .release i =>
    match s.slots[i]? with
    | some .held => some { s with slots := s.slots.set i .releasing }
    | some _ => some s
    | none => none
  | .giveBack i =>
    if s.slots[i]? = some .releasing then
      some { s with active := s.active - 1, slots := s.slots.set i .released }
    else none

/-- What holds after every step. A goroutine that may raise the counter has seen room. -/
structure Ok (cap : Int) (s : Admission) : Prop where
  max : s.max = cap
  active : s.active = s.places
  within : 0 < cap → s.active ≤ cap
  loaded : ∀ g cur, s.pc g = .loaded cur → cur < cap
  refused : 0 < cap → ∀ k ∈ s.refused, (k : Int) = cap

namespace Ok

variable {cap : Int} {s t : Admission} {g : Nat}

theorem enter (h : Ok cap s) {pc : AcquirePc}
    (hpc : ∀ cur, pc = .loaded cur → cur < cap := by simp) :
    Ok cap (s.enter g pc) := by
  refine { h with loaded := fun g' cur hcur => ?_ }
  simp only [Admission.enter, Function.update_apply] at hcur
  split at hcur
  · exact hpc cur hcur
  · exact h.loaded g' cur hcur

theorem take (h : Ok cap s) (hroom : 0 < cap → s.active < cap) : Ok cap (s.take g) := by
  have hidle : Ok cap (s.enter g .idle) := h.enter
  refine { hidle with active := ?_, within := hroom }
  simp only [Admission.take, places, Table.countP_concat]
  exact congrArg (· + 1) h.active

/-- A slot is changed, and the counter with it. -/
theorem set (h : Ok cap s) {i : Nat} {p q : Place} (hp : s.slots[i]? = some p) {a : Int}
    (ha : a + (decide (p ≠ .released)).toNat = s.active + (decide (q ≠ .released)).toNat)
    (hle : a ≤ s.active) : Ok cap { s with active := a, slots := s.slots.set i q } := by
  refine { h with active := ?_, within := fun hmax => hle.trans (h.within hmax) }
  have hcount := Table.countP_set hp q fun p => decide (p ≠ .released)
  have hactive := h.active
  simp only [places] at hactive ⊢
  omega

theorem step {a : AdmissionAct} (h : Ok cap s) (ha : s.step a = some t) : Ok cap t := by
  revert ha
  fun_cases Admission.step s a <;> intro ha <;> cases ha
  case case1 => exact h.enter
  case case2 hmax => exact h.take fun hpos => absurd (h.max ▸ hpos) hmax
  case case4 g hpc hfull =>
    have hidle : Ok cap (s.enter g .idle) := h.enter
    refine { hidle with refused := fun hmax k hk => ?_ }
    rcases List.mem_append.mp hk with hk | hk
    · exact h.refused hmax k hk
    · rw [List.mem_singleton.mp hk, ← h.active]
      exact le_antisymm (h.within hmax) (h.max ▸ hfull)
  case case5 hroom =>
    refine h.enter fun cur hcur => ?_
    cases hcur
    exact h.max ▸ not_le.mp hroom
  case case7 hpc => exact h.take fun _ => h.loaded _ _ hpc
  case case8 => exact h.enter
  case case10 hi => exact h.set hi rfl le_rfl
  case case11 => exact h
  case case13 hi => exact h.set hi (by simp) (by omega)

end Ok

/-- **The global cap is exact.** However the steps of `Acquire` and of `Release`, called any number
of times for a slot, interleave: the counter is the number of places that are taken, never more than
a positive cap, and `Acquire` refuses only while exactly as many are taken. Once every slot is given
back the counter is zero. -/
theorem admission_exact {cap : Int} {s : Admission} (h : Machine.Reach step (newAdmission cap) s) :
    s.active = s.places ∧ (0 < cap → (s.places : Int) ≤ cap ∧ ∀ k ∈ s.refused, (k : Int) = cap) ∧
      ((∀ p ∈ s.slots, p = .released) → s.active = 0) := by
  have hstart : Ok cap (newAdmission cap) :=
    ⟨rfl, rfl, fun hmax => hmax.le, fun _ _ hcur => (by cases hcur), fun _ _ hk => (by cases hk)⟩
  have hok := h.invariant hstart fun _ _ _ hok ha => hok.step ha
  refine ⟨hok.active, fun hmax => ⟨hok.active ▸ hok.within hmax, hok.refused hmax⟩, fun hall => ?_⟩
  rw [hok.active, places, List.countP_eq_zero.mpr fun p hp => by simp [hall p hp]]
  rfl

/-- Two goroutines have seen that there is room for one; the slot is released twice. -/
theorem admission_exact_one_place : ∃ s : Admission, Machine.Reach step (newAdmission 1) s ∧
    s.refused = [1] ∧ s.slots = [.released] ∧ s.active = 0 := by
  obtain ⟨s, hs, hrefused, hslots⟩ : ∃ s ∈ Machine.runActs step (newAdmission 1)
      [.acquire 0, .acquire 1, .load 0, .load 1, .swap 0, .swap 1, .load 1, .release 0, .release 0,
        .giveBack 0], s.refused = [1] ∧ s.slots = [.released] := by
    decide +kernel
  have hreach := Machine.reach_of_runActs .refl _ hs
  exact ⟨s, hreach, hrefused, hslots, (admission_exact hreach).2.2 (by simp [hslots])⟩

end Admission

end ServerFlow.Resilience
