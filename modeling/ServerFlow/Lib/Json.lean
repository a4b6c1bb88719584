import Mathlib.Data.List.Basic
import Mathlib.Data.List.Nodup
import Mathlib.Data.Rat.Defs

/-!
# JSON documents and exact readers

A decoded JSON document: an object is the list of its members in order, and a name may occur more
than once. A number without a fraction and an exponent is an `int`, any other a `dec`.

A `Reader` is a program that reads members by their exact names. Where a name is duplicated it keeps
one of the occurrences, and it may keep a different one in every object (`path` says which object it
is).
-/

inductive Json
  | null
  | bool (b : Bool)
  | int (n : Int)
  | dec (q : ℚ)
  | str (s : String)
  | arr (xs : List Json)
  | obj (ms : List (String × Json))

namespace Json

open Option

/-- The values of the members named `name`, in order. -/
def occurrences (ms : List (String × Json)) (name : String) : List Json :=
  ms.filterMap fun m => if m.1 = name then some m.2 else none

/-- A reader that matches names exactly. -/
structure Reader where
  pick : List Nat → List (String × Json) → String → Option Json
  pick_mem : ∀ path ms name v, pick path ms name = some v → v ∈ occurrences ms name
  pick_isSome : ∀ path ms name, occurrences ms name ≠ [] → (pick path ms name).isSome = true

namespace Reader

/-- The reader that keeps the `i`-th occurrence, or the last if there are fewer. -/
def nth (i : Nat) : Reader where
  pick _ ms name := (occurrences ms name)[i]?.or (occurrences ms name).getLast?
  pick_mem _ ms name v h := by
    cases hi : (occurrences ms name)[i]? with
    | some u =>
      rw [hi, some_or] at h
      obtain rfl := some.inj h
      exact List.mem_of_getElem? hi
    | none =>
      rw [hi, none_or] at h
      exact List.mem_of_getLast? h
  pick_isSome _ ms name h := by
    cases hi : (occurrences ms name)[i]? with
    | some u => rfl
    | none => simpa using h

/-- `r` in the object at `path`, and `base` in the others. -/
def splice (path : List Nat) (r base : Reader) : Reader where
  pick p ms name := if p = path then r.pick p ms name else base.pick p ms name
  pick_mem p ms name v h := by
    split at h
    · exact r.pick_mem _ _ _ _ h
    · exact base.pick_mem _ _ _ _ h
  pick_isSome p ms name h := by
    split
    · exact r.pick_isSome _ _ _ h
    · exact base.pick_isSome _ _ _ h

theorem splice_self (path : List Nat) (r base : Reader) (ms : List (String × Json))
    (name : String) :
    (splice path r base).pick path ms name = r.pick path ms name := if_pos rfl

theorem splice_of_ne {path p : List Nat} (h : p ≠ path) (r base : Reader)
    (ms : List (String × Json)) (name : String) :
    (splice path r base).pick p ms name = base.pick p ms name := if_neg h

theorem nth_pick {ms : List (String × Json)} {name : String} {i : Nat} {v : Json}
    (h : (occurrences ms name)[i]? = some v) (path : List Nat) :
    (nth i).pick path ms name = some v := by
  simp only [nth, h, some_or]

variable (r : Reader) (path : List Nat) {ms : List (String × Json)} {name : String} {v : Json}

theorem pick_eq_none (h : occurrences ms name = []) : r.pick path ms name = none := by
  cases hp : r.pick path ms name with
  | none => rfl
  | some v =>
    have := r.pick_mem path ms name v hp
    rw [h] at this
    cases this

/-- Every reader keeps the same occurrence if there is no other. -/
theorem pick_eq_of_occurrences (h : occurrences ms name = [v]) : r.pick path ms name = some v := by
  cases hp : r.pick path ms name with
  | none =>
    have := r.pick_isSome path ms name (by rw [h]; exact List.cons_ne_nil _ _)
    rw [hp] at this
    cases this
  | some u =>
    have := r.pick_mem path ms name u hp
    rw [h] at this
    rw [List.mem_singleton.mp this]

end Reader

end Json
