import ServerFlow.Lib.GoMap
import ServerFlow.Resilience.Window

/-!
# Resilience.Budget

The retry budget of a gateway (`internal/resilience/budget.go`): for each model, retries may be at
most a fraction of the first attempts of the last seconds. Models beyond a cap share one window.

A budget holds its lock during every call, so a run is a sequence of calls. The clock reading is an
argument and the ratio is a rational number. A `*Reservation` is a handle: its place in the list of
the reservations granted so far. The first attempts noted, and whether a reservation's window was
dropped, are kept for the statements about runs.
-/

namespace ServerFlow.Resilience

/-- `OtherModel`: the key that the models beyond the cap share. -/
def otherModel : String := "other"

structure BudgetParams where
  ratio : ℚ
  min : Int
  window : Duration
  /-- `0` for no cap. -/
  maxModels : Int

/-- Counter 0 of a budget's window. -/
def firstAttempts : Counter := .all

/-- Counter 1 of a budget's window. -/
def retries : Counter := .faults

structure Budget where
  p : BudgetParams
  models : GoMap String SlidingWindow

structure Reservation where
  model : String
  at_ : Time
  refunded : Bool
  deriving Repr, DecidableEq

/-- `NewBudget`. -/
def Budget.new (p : BudgetParams) : Budget :=
  ⟨{ p with window := if p.window < bucketWidth then bucketWidth else p.window }, ∅⟩

namespace Budget

variable (b : Budget)

/-- The key under which `window` finds or makes the window of a model. -/
def key (model : String) : String :=
  if (b.models.lookup model).isSome then model
  else if b.p.maxModels > 0 ∧ (b.models.len : Int) ≥ b.p.maxModels ∧
    model ≠ otherModel then otherModel
  else model

/-- `window`. -/
def window (model : String) : Budget × SlidingWindow × String :=
  match b.models.lookup (b.key model) with
  | some w => (b, w, b.key model)
  | none =>
    let w := newSlidingWindow b.p.window
    ({ b with models := b.models.insert (b.key model) w }, w, b.key model)

/-- Store a window under its key. -/
def put (k : String) (w : SlidingWindow) : Budget := { b with models := b.models.insert k w }

/-- `NoteFirst`. -/
def noteFirst (now : Time) (model : String) : Budget :=
  let r := b.window model
  r.1.put r.2.2 (r.2.1.add now now firstAttempts 1)

/-- `limit`. -/
def limit (firsts : Int) : Int := max b.p.min ⌊b.p.ratio * firsts + 1 / 10 ^ 9⌋

/-- `Reserve`. -/
def reserve (now : Time) (model : String) : Budget × Option Reservation :=
  let r := b.window model
  if r.2.1.sum now retries ≥ b.limit (r.2.1.sum now firstAttempts) then (r.1, none)
  else (r.1.put r.2.2 (r.2.1.add now now retries 1), some ⟨r.2.2, now, false⟩)

/-- `Refund` of a reservation that was not refunded before. -/
def refund (now : Time) (r : Reservation) : Budget :=
  match b.models.lookup r.model with
  | some w => b.put r.model (w.add r.at_ now retries (-1))
  | none => b

/-- `Prune` keeps the window. -/
def kept (now : Time) (keep : String → Bool) (model : String) (w : SlidingWindow) : Bool :=
  keep model || (decide (model = otherModel) &&
    (decide (w.sum now firstAttempts ≠ 0) || decide (w.sum now retries ≠ 0)))

/-- `Prune`. -/
def prune (now : Time) (keep : String → Bool) : Budget :=
  { b with models := b.models.keep (kept now keep) }

end Budget

/-! ### Runs -/

/-- A reservation, and whether `Prune` has dropped the window it was counted in. -/
structure BudgetGrant where
  r : Reservation
  dropped : Bool
  deriving Repr, DecidableEq

structure BudgetSys where
  b : Budget
  clock : Time
  /-- The reservations granted. -/
  grants : List BudgetGrant
  /-- The first attempts noted: the key of the window, and when. -/
  noted : List (String × Time)

inductive BudgetOp
  | noteFirst (model : String)
  | reserve (model : String)
  | refund (handle : Nat)
  | prune (keep : String → Bool)

structure BudgetCall where
  now : Time
  op : BudgetOp

def BudgetSys.start (p : BudgetParams) (begin_ : Time) : BudgetSys := ⟨.new p, begin_, [], []⟩

namespace BudgetSys

variable (s : BudgetSys)

/-- The call `Refund`; a handle that was never granted is nil. -/
def refundCall (now : Time) (h : Nat) : BudgetSys :=
  match s.grants[h]? with
  | none => { s with clock := now }
  | some g =>
    if g.r.refunded then { s with clock := now }
    else
      { s with
        b := s.b.refund now g.r
        clock := now
        grants := s.grants.set h { g with r := { g.r with refunded := true } } }

/-- Whether `Prune` drops the window that now stands under the key of a reservation. -/
def drops (now : Time) (keep : String → Bool) (g : BudgetGrant) : Bool :=
  (s.b.models.lookup g.r.model).any fun w => !Budget.kept now keep g.r.model w

def call (c : BudgetCall) : BudgetSys :=
  match c.op with
  | .noteFirst model =>
    { s with b := s.b.noteFirst c.now model, clock := c.now,
             noted := s.noted ++ [(s.b.key model, c.now)] }
  | .reserve model =>
    { s with
      b := (s.b.reserve c.now model).1
      clock := c.now
      grants := s.grants ++ ((s.b.reserve c.now model).2.map fun r => ⟨r, false⟩).toList }
  | .refund h => s.refundCall c.now h
  | .prune keep =>
    { s with
      b := s.b.prune c.now keep
      clock := c.now
      grants := s.grants.map fun g => { g with dropped := g.dropped || s.drops c.now keep g } }

/-- The clock does not go back. -/
def step (c : BudgetCall) : Option BudgetSys := if s.clock ≤ c.now then some (s.call c) else none

/-- The calls but `Prune`. -/
def stepKept (c : BudgetCall) : Option BudgetSys :=
  match c.op with
  | .prune _ => none
  | _ => s.step c

/-! ### What is counted -/

/-- How many seconds a window covers. -/
def seconds : Int := bucketsOf s.b.p.window

/-- The whole second of `t` is one of the last seconds at `now`. -/
def recent (now t : Time) : Bool :=
  decide (bucketOf now - s.seconds < bucketOf t ∧ bucketOf t ≤ bucketOf now)

/-- The reservations charged to a window in the last seconds and not refunded. -/
def live (k : String) (now : Time) : Nat :=
  s.grants.countP fun g => decide (g.r.model = k) && !g.r.refunded && s.recent now g.r.at_

/-- The first attempts noted in a window in the last seconds. -/
def firsts (k : String) (now : Time) : Nat :=
  s.noted.countP fun x => decide (x.1 = k) && s.recent now x.2

/-- A counter of the window under a key, over the last seconds. -/
def sumOf (k : String) (now : Time) (which : Counter) : Int :=
  ((s.b.models.lookup k).map fun w => w.sum now which).getD 0

/-- The retries that the window under a key counts in one second. -/
def retriesAt (k : String) (idx : Int) : Int :=
  ((s.b.models.lookup k).map fun w => w.value idx retries).getD 0

end BudgetSys

/-! ### The calls on windows -/

namespace Budget

variable {b : Budget}

@[simp] theorem window_key (model : String) : (b.window model).2.2 = b.key model := by
  unfold window
  cases b.models.lookup (b.key model) <;> rfl

/-- The window that a model is charged to. -/
def charged (b : Budget) (model : String) : SlidingWindow :=
  (b.models.lookup (b.key model)).getD (newSlidingWindow b.p.window)

@[simp] theorem window_charged (model : String) : (b.window model).2.1 = b.charged model := by
  unfold window charged
  cases b.models.lookup (b.key model) <;> rfl

@[simp] theorem window_p (model : String) : (b.window model).1.p = b.p := by
  unfold window
  cases b.models.lookup (b.key model) <;> rfl

theorem lookup_window (model k : String) : (b.window model).1.models.lookup k =
    if k = b.key model then some (b.charged model) else b.models.lookup k := by
  unfold window charged
  cases hw : b.models.lookup (b.key model) with
  | none =>
    dsimp only
    rw [AList.lookup_insert_ite]
    rfl
  | some w =>
    dsimp only
    split
    next hk => rw [hk, hw, Option.getD_some]
    next => rfl

/-- A window is made under the shared key, or while there is room for one more. -/
theorem key_of_new {model : String} (hw : b.models.lookup (b.key model) = none) :
    b.key model = otherModel ∨ (0 < b.p.maxModels → (b.models.len : Int) < b.p.maxModels) := by
  by_cases hsome : (b.models.lookup model).isSome = true
  · have hkey : b.key model = model := by rw [key, if_pos hsome]
    rw [hkey] at hw
    rw [hw] at hsome
    cases hsome
  · by_cases hfull : b.p.maxModels > 0 ∧ (b.models.len : Int) ≥ b.p.maxModels ∧ model ≠ otherModel
    · exact .inl (by rw [key, if_neg hsome, if_pos hfull])
    · by_cases hmodel : model = otherModel
      · exact .inl (by rw [key, if_neg hsome, if_neg hfull, hmodel])
      · refine .inr fun hpos => ?_
        by_contra hge
        exact hfull ⟨hpos, not_lt.mp hge, hmodel⟩

/-- A model without a window is charged to the shared one when the cap is reached. -/
theorem key_of_full {model : String} (hnone : b.models.lookup model = none)
    (hpos : 0 < b.p.maxModels) (hfull : b.p.maxModels ≤ b.models.len) :
    b.key model = otherModel := by
  unfold key
  rw [hnone, if_neg (by decide)]
  by_cases hmodel : model = otherModel
  · rw [if_neg (fun h => h.2.2 hmodel), hmodel]
  · rw [if_pos ⟨hpos, hfull, hmodel⟩]

end Budget

end ServerFlow.Resilience
