import Mathlib.Data.List.Basic

/-!
# Machines, runs, and what can be carried along them

Two shapes of system are used by this development.

* A **deterministic machine** answers every input: `step : σ → ι → σ × ο`. A run is
  a list of inputs; `final` is the state it ends in and `outputs` the answers given
  on the way. Rules: an invariant of one step is one of every run
  (`final_invariant`), two machines related step by step give the same answers
  (`outputsOf_eq_of_sim`), and inputs of one class that leave the others' view alone
  cannot be noticed by them (`outputsOf_eq_of_unwinding`).
* A **transition system** may refuse an action: `step : σ → α → Option σ`. `Reach` is
  reachability from a start state, with the same invariant rule.
-/

namespace Machine

open Option List

variable {σ τ ι ο α γ : Type}

/-! ### Runs of a deterministic machine -/

/-- The state after a run. -/
def final (step : σ → ι → σ × ο) : σ → List ι → σ
  | s, [] => s
  | s, i :: is => final step (step s i).1 is

/-- The answers given during a run, one for each input. -/
def outputs (step : σ → ι → σ × ο) : σ → List ι → List ο
  | _, [] => []
  | s, i :: is => (step s i).2 :: outputs step (step s i).1 is

section Runs

variable {step : σ → ι → σ × ο}

@[simp] theorem final_cons (s : σ) (i : ι) (is : List ι) :
    final step s (i :: is) = final step (step s i).1 is := rfl

@[simp] theorem outputs_cons (s : σ) (i : ι) (is : List ι) :
    outputs step s (i :: is) = (step s i).2 :: outputs step (step s i).1 is := rfl

/-- A property that every step on an admitted input keeps is kept by every run of
admitted inputs. -/
theorem final_invariant {P : σ → Prop} {A : ι → Prop} (hstep : ∀ s i, A i → P s → P (step s i).1)
    {s : σ} {is : List ι} (hA : ∀ i ∈ is, A i) (hs : P s) : P (final step s is) := by
  induction is generalizing s with
  | nil => exact hs
  | cons i is ih =>
    have hi : A i := hA i (by simp)
    exact ih (fun j hj => hA j (by simp [hj])) (hstep s i hi hs)

/-- Two machines that agree on the states of an invariant end in the same one. -/
theorem final_eq_of_agree {step' : σ → ι → σ × ο} {P : σ → Prop} {A : ι → Prop}
    (hagree : ∀ s i, A i → P s → step' s i = step s i) (hstep : ∀ s i, A i → P s → P (step s i).1)
    {s : σ} {is : List ι} (hA : ∀ i ∈ is, A i) (hs : P s) : final step' s is = final step s is := by
  induction is generalizing s with
  | nil => rfl
  | cons i is ih =>
    have hi : A i := hA i (by simp)
    rw [final_cons, final_cons, hagree s i hi hs]
    exact ih (fun j hj => hA j (by simp [hj])) (hstep s i hi hs)

end Runs

/-! ### Runs with a client

A client is what the caller of a machine has to remember to keep to a protocol: the
inputs it may send next (`admits`) depend on what it sent and was answered so far
(`observe`). -/

/-- The run `is` from state `s` keeps to the protocol of a client in state `g`. -/
def Admitted (step : σ → ι → σ × ο) (admits : γ → ι → Prop) (observe : γ → ι → ο → γ) :
    γ → σ → List ι → Prop
  | _, _, [] => True
  | g, s, i :: is =>
    admits g i ∧ Admitted step admits observe (observe g i (step s i).2) (step s i).1 is

/-- Whether a given run keeps to the protocol can be checked by making the run. -/
instance Admitted.decidable (step : σ → ι → σ × ο) (admits : γ → ι → Prop)
    (observe : γ → ι → ο → γ) [∀ g i, Decidable (admits g i)] :
    (g : γ) → (s : σ) → (is : List ι) → Decidable (Admitted step admits observe g s is)
  | _, _, [] => isTrue trivial
  | g, s, i :: is =>
    have := decidable step admits observe (observe g i (step s i).2) (step s i).1 is
    inferInstanceAs (Decidable (_ ∧ _))

/-- The answers to the inputs that satisfy `p`, in order. -/
def outputsOf (step : σ → ι → σ × ο) (p : ι → Bool) : σ → List ι → List ο
  | _, [] => []
  | s, i :: is =>
    if p i then (step s i).2 :: outputsOf step p (step s i).1 is
    else outputsOf step p (step s i).1 is

theorem outputs_eq_outputsOf (step : σ → ι → σ × ο) (s : σ) (is : List ι) :
    outputs step s is = outputsOf step (fun _ => true) s is := by
  induction is generalizing s with
  | nil => rfl
  | cons i is ih => exact congrArg ((step s i).2 :: ·) (ih (step s i).1)

variable {step : σ → ι → σ × ο} {p : ι → Bool} {s t s₀ : σ} {is : List ι}

/-- **Lockstep simulation.** If related states give the same answer to an admitted input of
class `p` and stay related along every admitted input, they give the same answers to the
inputs of that class along every admitted run. -/
theorem outputsOf_eq_of_sim {step' : τ → ι → τ × ο} {admits : γ → ι → Prop}
    {observe : γ → ι → ο → γ} {R : γ → σ → τ → Prop}
    (hstep : ∀ g s t i, R g s t → admits g i → (p i = true → (step s i).2 = (step' t i).2) ∧
      R (observe g i (step s i).2) (step s i).1 (step' t i).1) {g : γ} {t : τ} (h : R g s t)
    (hadm : Admitted step admits observe g s is) :
    outputsOf step p s is = outputsOf step' p t is := by
  induction is generalizing g s t with
  | nil => rfl
  | cons i is ih =>
    obtain ⟨hi, hrest⟩ := hadm
    obtain ⟨hout, hR⟩ := hstep g s t i h hi
    simp only [outputsOf, ih hR hrest]
    split
    next hp => rw [hout hp]
    next => rfl

/-- Related states stay related along every admitted run. -/
theorem final_of_sim {step' : τ → ι → τ × ο} {admits : γ → ι → Prop} {observe : γ → ι → ο → γ}
    {R : γ → σ → τ → Prop} (hstep : ∀ g s t i, R g s t → admits g i →
      R (observe g i (step s i).2) (step s i).1 (step' t i).1) {g : γ} {t : τ} (h : R g s t)
    (hadm : Admitted step admits observe g s is) :
    ∃ g', R g' (final step s is) (final step' t is) := by
  induction is generalizing g s t with
  | nil => exact ⟨g, h⟩
  | cons i is ih => exact ih (hstep g s t i h hadm.1) hadm.2

/-! ### Non-interference -/

/-- **Unwinding.** `E` relates states that look alike to the visible inputs. If a hidden
input leaves the state related to what it was, and a visible one gives the same answer
in related states and keeps them related, then the answers to any class `p` of visible
inputs are those of the run without its hidden inputs. -/
theorem outputsOf_eq_outputsOf_filter {v : ι → Bool} {A : ι → Prop} {E : σ → σ → Prop}
    (hp : ∀ i, p i = true → v i = true)
    (hhide : ∀ s t i, A i → v i = false → E s t → E (step s i).1 t)
    (hshow : ∀ s t i, v i = true → E s t →
      (step s i).2 = (step t i).2 ∧ E (step s i).1 (step t i).1) (hA : ∀ i ∈ is, A i) (h : E s t) :
    outputsOf step p s is = outputsOf step p t (is.filter v) := by
  induction is generalizing s t with
  | nil => rfl
  | cons i is ih =>
    have hA' : ∀ j ∈ is, A j := fun j hj => hA j (by simp [hj])
    cases hv : v i with
    | false =>
      have hpi : p i = false := by
        by_contra hpi
        rw [hp i (by simpa using hpi)] at hv
        cases hv
      simp only [outputsOf, hpi, hv, Bool.false_eq_true, if_false, filter_cons]
      exact ih hA' (hhide s t i (hA i (by simp)) hv h)
    | true =>
      obtain ⟨hout, hE⟩ := hshow s t i hv h
      simp only [outputsOf, hv, if_true, filter_cons, hout, ih hA' hE]

/-- Two runs with the same visible inputs give the same visible answers, whatever the
hidden inputs are. -/
theorem outputsOf_eq_of_unwinding {v : ι → Bool} {A : ι → Prop}
    {E : σ → σ → Prop} (hp : ∀ i, p i = true → v i = true)
    (hhide : ∀ s t i, A i → v i = false → E s t → E (step s i).1 t)
    (hshow : ∀ s t i, v i = true → E s t →
      (step s i).2 = (step t i).2 ∧ E (step s i).1 (step t i).1)
    {js : List ι} (his : ∀ i ∈ is, A i) (hjs : ∀ j ∈ js, A j) (h : E s s)
    (hf : is.filter v = js.filter v) : outputsOf step p s is = outputsOf step p s js := by
  rw [outputsOf_eq_outputsOf_filter hp hhide hshow his h,
    outputsOf_eq_outputsOf_filter hp hhide hshow hjs h, hf]

/-! ### Transition systems -/

/-- The states a transition system reaches from `s₀`. -/
inductive Reach (step : σ → α → Option σ) (s₀ : σ) : σ → Prop
  /-- The start state is reached. -/
  | refl : Reach step s₀ s₀
  /-- An enabled action leads from a reached state to a reached one. -/
  | tail {s t : σ} {a : α} : Reach step s₀ s → step s a = some t → Reach step s₀ t

/-- A property of the start state that every enabled action keeps holds in every
reachable state. -/
theorem Reach.invariant {step : σ → α → Option σ} {P : σ → Prop}
    (h : Reach step s₀ s) (h₀ : P s₀) (hstep : ∀ s t a, P s → step s a = some t → P t) : P s := by
  induction h with
  | refl => exact h₀
  | tail _ ha ih => exact hstep _ _ _ ih ha

theorem Reach.trans {step : σ → α → Option σ} {u : σ} (h : Reach step s t) (h' : Reach step t u) :
    Reach step s u :=
  h'.invariant (P := Reach step s) h fun _ _ _ hs ha => hs.tail ha

/-- A system with fewer steps reaches fewer states. -/
theorem Reach.mono {step step' : σ → α → Option σ} (h : Reach step s₀ s)
    (hstep : ∀ s t a, step s a = some t → step' s a = some t) : Reach step' s₀ s :=
  h.invariant (P := Reach step' s₀) .refl fun s t a hs ha => hs.tail (hstep s t a ha)

/-- Run a list of actions, stopping at the first that is not enabled. -/
def runActs (step : σ → α → Option σ) (s : σ) (as : List α) : Option σ := as.foldlM step s

theorem reach_of_runActs {step : σ → α → Option σ} (h : Reach step s₀ s)
    (as : List α) : runActs step s as = some t → Reach step s₀ t := by
  induction as generalizing s with
  | nil =>
    intro ht
    obtain rfl : s = t := by simpa [runActs] using ht
    exact h
  | cons a as ih =>
    intro ht
    simp only [runActs, foldlM_cons, bind_eq_bind, bind_eq_some_iff] at ht
    obtain ⟨s', hs', hrest⟩ := ht
    exact ih (h.tail hs') hrest

/-- Every action of the run meets `ok` in the state it is taken in. -/
def Along (step : σ → α → Option σ) (ok : σ → α → Prop) : σ → List α → Prop
  | _, [] => True
  | s, a :: as => ok s a ∧ match step s a with
    | some t => Along step ok t as
    | none => True

instance Along.decidable (step : σ → α → Option σ) (ok : σ → α → Prop) [∀ s a, Decidable (ok s a)] :
    (s : σ) → (as : List α) → Decidable (Along step ok s as)
  | _, [] => isTrue trivial
  | s, a :: as =>
    match h : step s a with
    | some t =>
      have := decidable step ok t as
      decidable_of_iff (ok s a ∧ Along step ok t as) (by simp only [Along, h])
    | none => decidable_of_iff (ok s a) (by simp only [Along, h, and_true])

section Along

variable {step : σ → α → Option σ} {ok ok' : σ → α → Prop} {s t u : σ} {a : α} {as : List α}

theorem runActs_cons :
    runActs step s (a :: as) = some u ↔ ∃ t, step s a = some t ∧ runActs step t as = some u := by
  simp only [runActs, foldlM_cons, bind_eq_bind, bind_eq_some_iff]

theorem along_cons (h : step s a = some t) :
    Along step ok s (a :: as) ↔ ok s a ∧ Along step ok t as := by
  simp only [Along, h]

/-- What every action that meets `ok` keeps holds at the end of a run of such actions. -/
theorem Along.invariant {P : σ → Prop} (hstep : ∀ s t a, P s → ok s a → step s a = some t → P t)
    (hrun : runActs step s as = some u) (h : Along step ok s as) (hs : P s) : P u := by
  induction as generalizing s with
  | nil =>
    obtain rfl : s = u := by simpa [runActs] using hrun
    exact hs
  | cons a as ih =>
    obtain ⟨t, ht, hrest⟩ := runActs_cons.mp hrun
    obtain ⟨ha, has⟩ := (along_cons ht).mp h
    exact ih hrest has (hstep s t a hs ha ht)

/-- **Where a condition fails first.** In a run whose actions all meet `req`: `P` is kept by actions
that meet `ok`, one that does not leads from `P` to `Q`, and `Q` stays. Then a run from `P` ends in
`P` if all its actions meet `ok`, and in `Q` otherwise. -/
theorem along_or {req : σ → α → Prop} {P Q : σ → Prop}
    (hkeep : ∀ s t a, P s → req s a → ok s a → step s a = some t → P t)
    (hfail : ∀ s t a, P s → req s a → ¬ ok s a → step s a = some t → Q t)
    (hstay : ∀ s t a, Q s → step s a = some t → Q t) (hrun : runActs step s as = some u)
    (hreq : Along step req s as) (hs : P s) :
    Along step ok s as ∧ P u ∨ ¬ Along step ok s as ∧ Q u := by
  induction as generalizing s with
  | nil =>
    obtain rfl : s = u := by simpa [runActs] using hrun
    exact .inl ⟨trivial, hs⟩
  | cons a as ih =>
    obtain ⟨t, ht, hrest⟩ := runActs_cons.mp hrun
    rw [along_cons ht] at hreq
    rw [along_cons ht]
    by_cases ha : ok s a
    · rcases ih hrest hreq.2 (hkeep s t a hs hreq.1 ha ht) with ⟨has, hu⟩ | ⟨has, hu⟩
      · exact .inl ⟨⟨ha, has⟩, hu⟩
      · exact .inr ⟨fun h => has h.2, hu⟩
    · refine .inr ⟨fun h => ha h.1, ?_⟩
      exact (reach_of_runActs .refl as hrest).invariant (hfail s t a hs hreq.1 ha ht) hstay

end Along

end Machine
