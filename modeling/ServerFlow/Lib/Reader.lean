import Mathlib.Data.List.Basic

/-!
# Readers

A reader holds data that arrives over time and an end: the end of the data, or an error. One read
takes at most as many items as its buffer has room for. How many have arrived, and whether the end
is reported together with the last of them or by a later read, is up to the reader, so both are
arguments of `Reader.read`. A reader that has reported its end repeats it.

Two things are built from readers: the loop that fills a buffer (`Fill`), and a list put in front of
a reader (`Fronted`). Each of them neither loses nor repeats an item (`Reader.read_data`,
`Fill.step_data`, `Fronted.read_data`).
-/

variable {α ε : Type}

/-- The end of a reader's data. -/
inductive ReadEnd (ε : Type)
  | eof
  | failed (e : ε)
  deriving Repr, DecidableEq

/-- What a reader has not given yet, and how it ends. One that has reported its end has nothing
left. -/
structure Reader (α ε : Type) where
  data : List α
  final : ReadEnd ε
  ended : Bool
  empty : ended = true → data = []

namespace Reader

/-- A reader of which nothing was read. -/
def new (data : List α) (final : ReadEnd ε) : Reader α ε := ⟨data, final, false, nofun⟩

/-- A read into a buffer of `len` items, of which `ready` have arrived: the items, whether the end
is reported, and the reader after it. -/
def read (r : Reader α ε) (len ready : Nat) (report : Bool) :
    List α × Option (ReadEnd ε) × Reader α ε :=
  if r.ended then ([], some r.final, r)
  else if (r.data.drop (min len ready)).isEmpty && report then
    (r.data.take (min len ready), some r.final, ⟨[], r.final, true, fun _ => rfl⟩)
  else (r.data.take (min len ready), none, new (r.data.drop (min len ready)) r.final)

variable (r : Reader α ε) (len ready : Nat) (report : Bool)

/-- What is read and what is left make up what there was. -/
theorem read_data : (r.read len ready report).1 ++ (r.read len ready report).2.2.data = r.data := by
  unfold read
  split
  next hended => rw [r.empty hended]; rfl
  next =>
    split
    next hall =>
      rw [Bool.and_eq_true, List.isEmpty_iff] at hall
      have htake := List.take_append_drop (min len ready) r.data
      rw [hall.1] at htake
      exact htake
    next => exact List.take_append_drop _ _

@[simp] theorem read_final : (r.read len ready report).2.2.final = r.final := by
  unfold read
  split
  · rfl
  · split <;> rfl

/-- The end that is reported is the reader's, and nothing is left then. -/
theorem read_end {e : ReadEnd ε} (h : (r.read len ready report).2.1 = some e) :
    e = r.final ∧ (r.read len ready report).2.2.data = [] := by
  unfold read at h ⊢
  split
  next hended =>
    rw [if_pos hended] at h
    exact ⟨(Option.some.inj h).symm, r.empty hended⟩
  next hended =>
    rw [if_neg hended] at h
    split
    next hall =>
      rw [if_pos hall] at h
      exact ⟨(Option.some.inj h).symm, rfl⟩
    next hall =>
      rw [if_neg hall] at h
      cases h

end Reader

/-! ### Filling a buffer -/

/-- The loop that fills a buffer: what is in it, and whether the reader has reported its end. -/
structure Fill (α : Type) where
  buf : List α
  stopped : Bool

namespace Fill

def new : Fill α := ⟨[], false⟩

/-- The loop goes on. -/
def goesOn (size : Nat) (f : Fill α) : Bool := decide (f.buf.length < size) && !f.stopped

/-- One round of it: a read into what is left of the buffer. -/
def step (size : Nat) (f : Fill α) (r : Reader α ε) (ready : Nat) (report : Bool) :
    Fill α × Reader α ε :=
  let got := r.read (size - f.buf.length) ready report
  (⟨f.buf ++ got.1, got.2.1.isSome⟩, got.2.2)

theorem step_data (size : Nat) (f : Fill α) (r : Reader α ε) (ready : Nat) (report : Bool) :
    (f.step size r ready report).1.buf ++ (f.step size r ready report).2.data =
      f.buf ++ r.data := by
  change f.buf ++ (r.read _ ready report).1 ++ (r.read _ ready report).2.2.data = f.buf ++ r.data
  rw [List.append_assoc, r.read_data]

end Fill

/-! ### A list in front of a reader -/

/-- A list, and then a reader. `passed` says that the reader's end of data was seen, and it is not
read again. -/
structure Fronted (α : Type) where
  front : List α
  passed : Bool

/-- The end of the data was reported. -/
def ReadEnd.isEof : Option (ReadEnd ε) → Bool
  | some .eof => true
  | _ => false

namespace Fronted

/-- The list gives what fits; when it is used up the reader is read. -/
def read (j : Fronted α) (r : Reader α ε) (len ready : Nat) (report : Bool) :
    List α × Option (ReadEnd ε) × Fronted α × Reader α ε :=
  match j.front with
  | x :: xs => ((x :: xs).take len, none, ⟨(x :: xs).drop len, j.passed⟩, r)
  | [] =>
    if j.passed then ([], some .eof, j, r)
    else
      let got := r.read len ready report
      (got.1, got.2.1, ⟨[], ReadEnd.isEof got.2.1⟩, got.2.2)

/-- The reader is touched only after the list, and its end was seen only if it is an end of data
with nothing left. -/
def Sound (j : Fronted α) (r : Reader α ε) : Prop :=
  j.passed = true → j.front = [] ∧ r.data = [] ∧ r.final = .eof

variable (j : Fronted α) (r : Reader α ε) (len ready : Nat) (report : Bool)

/-- What is read and what is left, first of the list and then of the reader, make up what there
was. -/
theorem read_data :
    (j.read r len ready report).1 ++ (j.read r len ready report).2.2.1.front ++
      (j.read r len ready report).2.2.2.data = j.front ++ r.data := by
  unfold read
  cases hfront : j.front with
  | cons x xs =>
    change (x :: xs).take len ++ (x :: xs).drop len ++ r.data = (x :: xs) ++ r.data
    rw [List.take_append_drop]
  | nil =>
    dsimp only
    split
    · rw [hfront, List.append_nil]
    · rw [List.append_nil, r.read_data, List.nil_append]

@[simp] theorem read_final : (j.read r len ready report).2.2.2.final = r.final := by
  unfold read
  cases j.front with
  | cons x xs => rfl
  | nil =>
    dsimp only
    split
    · rfl
    · exact r.read_final len ready report

/-- The end that is reported is the reader's, and nothing is left then. -/
theorem read_end (h : j.Sound r) {e : ReadEnd ε} (he : (j.read r len ready report).2.1 = some e) :
    e = r.final ∧ (j.read r len ready report).2.2.1.front = [] ∧
      (j.read r len ready report).2.2.2.data = [] := by
  unfold read at he ⊢
  cases hfront : j.front with
  | cons x xs =>
    rw [hfront] at he
    cases he
  | nil =>
    rw [hfront] at he
    dsimp only at he ⊢
    split
    next hpassed =>
      rw [if_pos hpassed] at he
      obtain ⟨hnil, hdata, hfinal⟩ := h hpassed
      exact ⟨(Option.some.inj he).symm.trans hfinal.symm, hnil, hdata⟩
    next hpassed =>
      rw [if_neg hpassed] at he
      obtain ⟨hfinal, hdata⟩ := r.read_end len ready report he
      exact ⟨hfinal, rfl, hdata⟩

theorem Sound.read (h : j.Sound r) :
    (j.read r len ready report).2.2.1.Sound (j.read r len ready report).2.2.2 := by
  unfold Fronted.read
  cases hfront : j.front with
  | cons x xs =>
    intro hpassed
    cases hfront.symm.trans (h hpassed).1
  | nil =>
    dsimp only
    split
    · exact h
    · intro heof
      have hend : (r.read len ready report).2.1 = some .eof := by
        revert heof
        dsimp only
        cases (r.read len ready report).2.1 with
        | none => exact nofun
        | some e =>
          cases e with
          | eof => exact fun _ => rfl
          | failed e => exact nofun
      obtain ⟨hfinal, hdata⟩ := r.read_end len ready report hend
      exact ⟨rfl, hdata, (r.read_final len ready report).trans hfinal.symm⟩

end Fronted
