import ServerFlow.Resilience.BreakerChanges

/-!
# Gateway.Transitions

How the changes of the breakers reach the observers. A breaker operation collects its changes under
the breakers' lock and hands them to the hook `push` after it has released that lock. `push` puts
them in a queue under a second lock, and `flush` delivers the queue: whoever sets the flag
`flushing` takes batches until the queue is empty, the others leave their changes to it.

The flag and the second lock do their part: what was put in the queue is delivered once, in that
order, and nothing stays behind when everybody has returned (`Transitions.Drained`,
`Transitions.Attended`). What they cannot order is what happens before the queue; that is the
subject of `ServerFlow.Gateway.TransitionsOrder`.

Changes carry a serial number here, so that two changes with the same contents are not taken for one
another. A callback of an observer into the breakers is a step of another goroutine. The approximate
count `nonClosed` is left out: it is not read on this path.
-/

namespace ServerFlow.Gateway

open Resilience List Machine

/-! ### The gateway's side -/

/-- `maxPendingChanges`. -/
def maxPendingChanges : Nat := 4096

/-- A change that the breakers made, with its place among all of them. -/
structure Item where
  serial : Nat
  change : Change
  deriving Repr, DecidableEq

/-- Where a goroutine is. -/
inductive Phase
  | idle
  /-- In `unlock`, the lock released, with these changes left for the hook. -/
  | handing (rest : List Item)
  /-- In `flush`, before the `CompareAndSwap`. -/
  | claiming
  /-- Before it takes the queue. -/
  | taking
  /-- In the loop over the batch. -/
  | dispatching (rest : List Item)
  /-- Before `flushing.Store(false)`. -/
  | storing
  /-- Before `dropped.Swap(0)`. -/
  | warning
  /-- Before it looks whether more came in. -/
  | checking
  deriving Repr, DecidableEq

/-- The changes the goroutine still has to hand over. -/
def Phase.handed : Phase → List Item
  | .handing rest => rest
  | _ => []

/-- The changes the goroutine took and still has to deliver. -/
def Phase.batch : Phase → List Item
  | .dispatching rest => rest
  | _ => []

/-- The goroutine has set the flag. -/
def Phase.drains : Phase → Bool
  | .taking | .dispatching _ | .storing => true
  | _ => false

/-- The goroutine is in `flush`. -/
def Phase.flushes : Phase → Bool
  | .idle | .handing _ => false
  | _ => true

/-- The breakers, the queue and `n` goroutines. -/
structure Transitions (n : Nat) where
  breakers : Breakers
  queue : List Item
  dropped : Nat
  flushing : Bool
  phase : Fin n → Phase
  delivered : List Item
  /-- All changes, in the order in which the breakers made them. -/
  made : List Item
  /-- Those that were not yet handed over, in the same order. -/
  unpushed : List Item
  /-- What was put in the queue, in that order. -/
  pushed : List Item
  /-- Something was put in the queue since `flush` was last called. -/
  owed : Bool

/-- A step of a goroutine: it makes a breaker operation, it calls `flush`, or it goes on with what
it is in. -/
inductive TransitionsAct (n : Nat)
  | call (g : Fin n) (c : BreakersCall)
  | flush (g : Fin n)
  | go (g : Fin n)

namespace Transitions

variable {n : Nat}

def start (n : Nat) (p : BreakerParams) (rnd : Nat → ℚ) : Transitions n :=
  ⟨.new p rnd, [], 0, false, fun _ => .idle, [], [], [], [], false⟩

def enter (s : Transitions n) (g : Fin n) (ph : Phase) : Transitions n :=
  { s with phase := Function.update s.phase g ph }

/-- The changes of an operation, numbered on from those made so far. -/
def numbered (s : Transitions n) (cs : List Change) : List Item :=
  cs.mapIdx fun i c => ⟨s.made.length + i, c⟩

/-- The part of a breaker operation under the breakers' lock, and `bs.mu.Unlock()`. -/
def operate (s : Transitions n) (g : Fin n) (c : BreakersCall) : Transitions n :=
  ({ s with
      breakers := (s.breakers.step c).1
      made := s.made ++ s.numbered (s.breakers.step c).2.2
      unpushed := s.unpushed ++ s.numbered (s.breakers.step c).2.2 } : Transitions n).enter g
    (.handing (s.numbered (s.breakers.step c).2.2))

/-- `push`. -/
def push (s : Transitions n) (i : Item) : Transitions n :=
  if maxPendingChanges ≤
    s.queue.length then { s with dropped := s.dropped + 1, unpushed := s.unpushed.erase i }
  else { s with queue := s.queue ++ [i], unpushed := s.unpushed.erase i, pushed := s.pushed ++ [i], owed := true }

/-- The next step of a goroutine that is in an operation or in `flush`. -/
def go (s : Transitions n) (g : Fin n) : Option (Transitions n) :=
  match s.phase g with
  | .idle => none
  | .handing [] => some (s.enter g .idle)
  | .handing (i :: rest) => some ((s.push i).enter g (.handing rest))
  | .claiming =>
    if s.flushing then some (s.enter g .idle)
    else some (({ s with flushing := true } : Transitions n).enter g .taking)
  | .taking =>
    if s.queue = [] then some (s.enter g .storing)
    else some (({ s with queue := [] } : Transitions n).enter g (.dispatching s.queue))
  | .dispatching [] => some (s.enter g .taking)
  | .dispatching (i :: rest) =>
    some (({ s with delivered := s.delivered ++ [i] } : Transitions n).enter g (.dispatching rest))
  | .storing => some (({ s with flushing := false } : Transitions n).enter g .warning)
  | .warning => some (({ s with dropped := 0 } : Transitions n).enter g .checking)
  | .checking => if s.queue = [] then some (s.enter g .idle) else some (s.enter g .claiming)

def step (s : Transitions n) : TransitionsAct n → Option (Transitions n)
  | .call g c => if s.phase g = .idle then some (s.operate g c) else none
  | .flush g =>
    if s.phase g = .idle then some (({ s with owed := false } : Transitions n).enter g .claiming)
      else none
  | .go g => s.go g

/-- The items of one registration. -/
def ofKey (k : Key) (is : List Item) : List Item := is.filter fun i => decide (i.change.key = k)

/-- Every goroutine has returned, and `flush` was called after the last change was put in the
queue. -/
def Quiet (s : Transitions n) : Prop := (∀ g, s.phase g = .idle) ∧ s.owed = false

instance (s : Transitions n) : Decidable s.Quiet := by
  unfold Quiet
  infer_instance

/-- The state that was last delivered for a registration. A breaker starts closed. -/
def lastDelivered (s : Transitions n) (k : Key) : State :=
  ((ofKey k s.delivered).getLast?.map fun i => i.change.after).getD .closed

/-! ### What is asked of a run -/

/-- There is room for another change. -/
def Room (s : Transitions n) (_ : TransitionsAct n) : Prop := s.queue.length < maxPendingChanges

/-- A change is handed over only if it is the oldest of its registration that was not. -/
def Oldest (s : Transitions n) : TransitionsAct n → Prop
  | .go g =>
    match s.phase g with
    | .handing (i :: _) => (ofKey i.change.key s.unpushed).head? = some i
    | _ => True
  | _ => True

/-- The registry lists a worker once, and a registration whose breaker was dropped after it changed
does not come back. -/
def NoReturn (s : Transitions n) : TransitionsAct n → Prop
  | .call _ c => c.OneEach ∧ ∀ k ∈ c.listed, s.breakers.find k = none → ofKey k s.made = []
  | _ => True

instance (s : Transitions n) (a : TransitionsAct n) : Decidable (s.Room a) := by
  unfold Room
  infer_instance

instance (s : Transitions n) (a : TransitionsAct n) : Decidable (s.Oldest a) := by
  cases a with
  | call g c => exact isTrue trivial
  | flush g => exact isTrue trivial
  | go g =>
    unfold Oldest
    dsimp only
    split <;> infer_instance

instance (s : Transitions n) (a : TransitionsAct n) : Decidable (s.NoReturn a) := by
  cases a with
  | call g c =>
    unfold NoReturn
    infer_instance
  | flush g => exact isTrue trivial
  | go g => exact isTrue trivial

/-! ### Phases -/

variable {s t : Transitions n} {g g' : Fin n} {ph : Phase}

@[simp] theorem enter_self : (s.enter g ph).phase g = ph := by
  simp only [enter, Function.update_self]

theorem enter_other (h : g' ≠ g) : (s.enter g ph).phase g' = s.phase g' := by
  simp only [enter, Function.update_of_ne h]

theorem step_call {c : BreakersCall} (ht : s.step (.call g c) = some t) :
    s.phase g = .idle ∧ t = s.operate g c := by
  obtain ⟨hidle, ht⟩ := Option.ite_none_right_eq_some.mp ht
  exact ⟨hidle, (Option.some.inj ht).symm⟩

theorem step_flush (ht : s.step (.flush g) = some t) :
    s.phase g = .idle ∧ t = ({ s with owed := false } : Transitions n).enter g .claiming := by
  obtain ⟨hidle, ht⟩ := Option.ite_none_right_eq_some.mp ht
  exact ⟨hidle, (Option.some.inj ht).symm⟩

/-! ### The flag -/

/-- One goroutine at a time delivers, it holds the flag, and what was put in the queue is what was
delivered, the rest of its batch and the queue. -/
structure Drained (s : Transitions n) : Prop where
  alone : ∀ g g', (s.phase g).drains = true → (s.phase g').drains = true → g = g'
  held : ∀ g, (s.phase g).drains = true → s.flushing = true ∧
    s.pushed = s.delivered ++ (s.phase g).batch ++ s.queue
  free : (∀ g, (s.phase g).drains = false) → s.flushing = false ∧ s.pushed = s.delivered ++ s.queue

namespace Drained

section

variable (h : s.Drained)
include h

/-- A goroutine that does not deliver moves on to where it does not deliver either. -/
theorem aside (hold : (s.phase g).drains = false) (hnew : ph.drains = false)
    (hphase : t.phase = (s.enter g ph).phase) (hflag : t.flushing = s.flushing)

    (hlog : ∀ batch, s.pushed = s.delivered ++ batch ++ s.queue →
      t.pushed = t.delivered ++ batch ++ t.queue) :
    t.Drained := by
  have hsame : ∀ g', (t.phase g').drains = (s.phase g').drains ∧
      ((t.phase g').drains = true → t.phase g' = s.phase g') := by
    intro g'
    rw [hphase]
    by_cases hg : g' = g
    · subst hg
      rw [enter_self]
      exact ⟨hnew.trans hold.symm, fun hd => by rw [hnew] at hd; cases hd⟩
    · rw [enter_other hg]
      exact ⟨rfl, fun _ => rfl⟩
  refine ⟨fun g₁ g₂ h₁ h₂ => ?_, fun g' hg' => ?_, fun hnone => ?_⟩
  · rw [(hsame g₁).1] at h₁
    rw [(hsame g₂).1] at h₂
    exact h.alone g₁ g₂ h₁ h₂
  · have heq := (hsame g').2 hg'
    obtain ⟨hflushing, hpushed⟩ := h.held g' (heq ▸ hg')
    rw [heq]
    exact ⟨hflag.trans hflushing, hlog _ hpushed⟩
  · obtain ⟨hflushing, hpushed⟩ := h.free fun g' => ((hsame g').1.symm.trans (hnone g'))
    refine ⟨hflag.trans hflushing, ?_⟩
    have hnil := hlog [] (by rw [append_nil]; exact hpushed)
    rwa [append_nil] at hnil

/-- The goroutine that delivers moves on, and still delivers. -/
theorem onward (hold : (s.phase g).drains = true) (hnew : ph.drains = true)
    (hphase : t.phase = (s.enter g ph).phase) (hflag : t.flushing = s.flushing)
    (hlog : s.pushed = s.delivered ++ (s.phase g).batch ++ s.queue →
      t.pushed = t.delivered ++ ph.batch ++ t.queue) : t.Drained := by
  have honly : ∀ g', (t.phase g').drains = true → g' = g := by
    intro g' hg'
    by_contra hne
    rw [hphase, enter_other hne] at hg'
    exact hne (h.alone g' g hg' hold)
  have hown : t.phase g = ph := by rw [hphase, enter_self]
  refine ⟨fun g₁ g₂ h₁ h₂ => (honly g₁ h₁).trans (honly g₂ h₂).symm, fun g' hg' => ?_,
    fun hnone => ?_⟩
  · rw [honly g' hg', hown]
    obtain ⟨hflushing, hpushed⟩ := h.held g hold
    exact ⟨hflag.trans hflushing, hlog hpushed⟩
  · have := hnone g
    rw [hown, hnew] at this
    cases this

/-- The flag is down, so nobody delivers, and `g` sets it. -/
theorem claim (hflag : ¬ s.flushing = true) :
    (({ s with flushing := true } : Transitions n).enter g .taking).Drained := by
  have hnone : ∀ g', (s.phase g').drains = false := by
    intro g'
    by_contra hg'
    exact hflag (h.held g' (Bool.eq_true_of_not_eq_false hg')).1
  have honly : ∀ g', ((s.enter g .taking).phase g').drains = true → g' = g := by
    intro g' hg'
    by_contra hne
    rw [enter_other hne, hnone g'] at hg'
    cases hg'
  refine ⟨fun g₁ g₂ h₁ h₂ => (honly g₁ h₁).trans (honly g₂ h₂).symm, fun g' hg' => ?_,
    fun hall => ?_⟩
  · rw [honly g' hg', enter_self]
    refine ⟨rfl, ?_⟩
    change s.pushed = s.delivered ++ [] ++ s.queue
    rw [append_nil]
    exact (h.free hnone).2
  · have := hall g
    rw [enter_self] at this
    cases this

/-- `g` has delivered everything, and takes the flag down. -/
theorem unclaim (hph : s.phase g = .storing) :
    (({ s with flushing := false } : Transitions n).enter g .warning).Drained := by
  have hold : (s.phase g).drains = true := by rw [hph]; rfl
  have hnone : ∀ g', ((s.enter g .warning).phase g').drains = false := by
    intro g'
    by_cases hg : g' = g
    · rw [hg, enter_self]
      rfl
    · rw [enter_other hg]
      by_contra hg'
      exact hg (h.alone g' g (Bool.eq_true_of_not_eq_false hg') hold)
  have hlog := (h.held g hold).2
  rw [hph] at hlog
  refine ⟨fun g₁ _ h₁ _ => ?_, fun g' hg' => ?_, fun _ => ⟨rfl, ?_⟩⟩
  · cases h₁.symm.trans (hnone g₁)
  · cases hg'.symm.trans (hnone g')
  · exact hlog.trans (congrArg (· ++ s.queue) (append_nil s.delivered))

theorem go (ht : s.go g = some t) : t.Drained := by
  have haside : ∀ {old ph : Phase}, s.phase g = old → old.drains = false → ph.drains = false →
      (s.enter g ph).Drained := fun hph hold hnew =>
    h.aside (by rw [hph]; exact hold) hnew rfl rfl fun _ hlog => hlog
  revert ht
  fun_cases Transitions.go s g <;> intro ht <;> cases ht
  next hph => exact haside hph rfl rfl
  next i rest hph =>
    have hold : (s.phase g).drains = false := by rw [hph]; rfl
    unfold Transitions.push
    split
    · exact h.aside hold rfl rfl rfl fun _ hlog => hlog
    · refine h.aside hold rfl rfl rfl fun batch hlog => ?_
      change s.pushed ++ [i] = s.delivered ++ batch ++ (s.queue ++ [i])
      rw [hlog, append_assoc]
  next hph _ => exact haside hph rfl rfl
  next hflag => exact h.claim hflag
  next hph _ =>
    exact h.onward (by rw [hph]; rfl) rfl rfl rfl fun hlog => by rw [hph] at hlog; exact hlog
  next hph _ =>
    refine h.onward (by rw [hph]; rfl) rfl rfl rfl fun hlog => ?_
    rw [hph] at hlog
    change s.pushed = s.delivered ++ s.queue ++ []
    rw [append_nil, hlog]
    exact congrArg (· ++ s.queue) (append_nil s.delivered)
  next hph =>
    exact h.onward (by rw [hph]; rfl) rfl rfl rfl fun hlog => by rw [hph] at hlog; exact hlog
  next i rest hph =>
    refine h.onward (by rw [hph]; rfl) rfl rfl rfl fun hlog => ?_
    rw [hph] at hlog
    change s.pushed = s.delivered ++ [i] ++ rest ++ s.queue
    rw [hlog]
    exact congrArg (· ++ s.queue) (append_cons s.delivered i rest)
  next hph => exact h.unclaim hph
  next hph => exact h.aside (by rw [hph]; rfl) rfl rfl rfl fun _ hlog => hlog
  next hph _ => exact haside hph rfl rfl
  next hph _ => exact haside hph rfl rfl

theorem step {a : TransitionsAct n} (ht : s.step a = some t) : t.Drained := by
  cases a with
  | call g c =>
    obtain ⟨hidle, rfl⟩ := step_call ht
    have hold : (s.phase g).drains = false := by rw [hidle]; rfl
    exact h.aside hold rfl rfl rfl fun _ hlog => hlog
  | flush g =>
    obtain ⟨hidle, rfl⟩ := step_flush ht
    have hold : (s.phase g).drains = false := by rw [hidle]; rfl
    exact h.aside hold rfl rfl rfl fun _ hlog => hlog
  | go g => exact h.go ht

end

theorem start (p : BreakerParams) (rnd : Nat → ℚ) : (Transitions.start n p rnd).Drained where
  alone := nofun
  held := nofun
  free := fun _ => ⟨rfl, rfl⟩

end Drained

/-- While the queue holds something that a call of `flush` has to deliver, somebody is in
`flush`. -/
def Attended (s : Transitions n) : Prop :=
  s.queue ≠ [] → s.owed = false → ∃ g, (s.phase g).flushes = true

variable {s t : Transitions n}

/-- A goroutine that is not in `flush` moves on, and neither the queue nor what is owed changes. -/
theorem Attended.aside {g : Fin n} {ph : Phase} (h : s.Attended)
    (hphase : t.phase = (s.enter g ph).phase) (hold : (s.phase g).flushes = false)
    (hqueue : t.queue = s.queue) (howed : t.owed = s.owed) : t.Attended := by
  intro hne hpaid
  rw [hqueue] at hne
  rw [howed] at hpaid
  obtain ⟨g', hg'⟩ := h hne hpaid
  refine ⟨g', ?_⟩
  have hother : g' ≠ g := by
    rintro rfl
    rw [hold] at hg'
    cases hg'
  rw [hphase, enter_other hother]
  exact hg'

theorem Attended.go {g : Fin n} (hd : s.Drained) (h : s.Attended) (ht : s.go g = some t) :
    t.Attended := by
  -- If `g` stays in `flush` there is nothing to show.
  have hstays : ∀ {ph : Phase}, t.phase = (s.enter g ph).phase → ph.flushes = true →
      t.Attended := by
    intro ph hphase hfl _ _
    refine ⟨g, ?_⟩
    rw [hphase, enter_self]
    exact hfl
  revert ht
  fun_cases Transitions.go s g <;> intro ht <;> cases ht
  case case2 hph => exact h.aside rfl (by rw [hph]; rfl) rfl rfl
  case case3 i rest hph =>
    unfold Transitions.push
    split
    next => exact h.aside rfl (by rw [hph]; rfl) rfl rfl
    next => exact nofun
  case case4 hph hflag =>
    -- Whoever holds the flag is in `flush`.
    intro _ _
    by_contra hnone
    have hfree : ∀ g', (s.phase g').drains = false := by
      intro g'
      by_contra hg'
      refine hnone ⟨g', ?_⟩
      have hother : g' ≠ g := by
        rintro rfl
        rw [hph] at hg'
        exact hg' rfl
      rw [enter_other hother]
      cases hp : s.phase g' with
      | idle => rw [hp] at hg'; exact absurd rfl hg'
      | handing rest => rw [hp] at hg'; exact absurd rfl hg'
      | _ => rfl
    cases hflag.symm.trans (hd.free hfree).1
  case case12 hempty => exact fun hne => absurd hempty hne
  all_goals exact hstays rfl rfl

theorem Attended.step {a : TransitionsAct n} (hd : s.Drained) (h : s.Attended)
    (ht : s.step a = some t) : t.Attended := by
  cases a with
  | call g c =>
    obtain ⟨hidle, rfl⟩ := step_call ht
    exact h.aside rfl (by rw [hidle]; rfl) rfl rfl
  | flush g =>
    obtain ⟨hidle, rfl⟩ := step_flush ht
    exact fun _ _ => ⟨g, by rw [enter_self]; rfl⟩
  | go g => exact h.go hd ht

/-- When everybody has returned and nothing is owed, what was put in the queue was delivered. -/
theorem Quiet.delivered (hq : s.Quiet) (hd : s.Drained) (ha : s.Attended) :
    s.queue = [] ∧ s.delivered = s.pushed := by
  have hqueue : s.queue = [] := by
    by_contra hne
    obtain ⟨g, hg⟩ := ha hne hq.2
    rw [hq.1 g] at hg
    cases hg
  have hpushed := (hd.free fun g => by rw [hq.1 g]; rfl).2
  rw [hqueue, append_nil] at hpushed
  exact ⟨hqueue, hpushed.symm⟩

/-! ### The hook by itself

Whatever makes the changes: any goroutine may call `push` with any change, and `flush`. -/

/-- A goroutine calls `push` or `flush`, or goes on with the call it is in. -/
inductive HookAct (n : Nat)
  | push (g : Fin n) (c : Change)
  | flush (g : Fin n)
  | go (g : Fin n)

def hookStep (s : Transitions n) : HookAct n → Option (Transitions n)
  | .push g c =>
    if s.phase g = .idle then some (s.enter g (.handing [⟨s.pushed.length, c⟩])) else none
  | .flush g => s.step (.flush g)
  | .go g => s.go g

/-- Every call of `push` is followed by a call of `flush` of the same goroutine. -/
def FollowedUp : List (HookAct n) → Prop
  | [] => True
  | .push g _ :: acts => .flush g ∈ acts ∧ FollowedUp acts
  | .flush _ :: acts => FollowedUp acts
  | .go _ :: acts => FollowedUp acts

/-- What the rest of a run has to make up for: each goroutine that is in `push` still calls `flush`,
and so does somebody if something was put in the queue since the last call. -/
def Due (s : Transitions n) (acts : List (HookAct n)) : Prop :=
  (∀ g, (s.phase g).handed ≠ [] → .flush g ∈ acts) ∧ (s.owed = true → ∃ g, .flush g ∈ acts)

section Hook

variable {acts : List (HookAct n)}

theorem hookStep_sound {a : HookAct n} (h : s.Drained ∧ s.Attended) (ht : s.hookStep a = some t) :
    t.Drained ∧ t.Attended := by
  cases a with
  | push g c =>
    obtain ⟨hidle, ht⟩ := Option.ite_none_right_eq_some.mp ht
    cases ht
    exact ⟨h.1.aside (by rw [hidle]; rfl) rfl rfl rfl fun _ hlog => hlog,
      h.2.aside rfl (by rw [hidle]; rfl) rfl rfl⟩
  | flush g =>
    have ht : s.step (.flush g) = some t := ht
    exact ⟨h.1.step ht, h.2.step h.1 ht⟩
  | go g => exact ⟨h.1.go ht, h.2.go h.1 ht⟩

/-- A goroutine that goes on owes a call of `flush` only for what it was handing over. -/
theorem go_handed {g : Fin n} (ht : s.go g = some t) :
    (∀ g', (t.phase g').handed ≠ [] → (s.phase g').handed ≠ []) ∧
      (t.owed = true → s.owed = true ∨ (s.phase g).handed ≠ []) := by
  have henter : ∀ {ph : Phase}, t.phase = (s.enter g ph).phase →
    (ph.handed ≠ [] → (s.phase g).handed ≠ []) →
      ∀ g', (t.phase g').handed ≠ [] → (s.phase g').handed ≠ [] := by
    intro ph hphase hown g' hg'
    rw [hphase] at hg'
    by_cases hg : g' = g
    · subst hg
      rw [enter_self] at hg'
      exact hown hg'
    · rwa [enter_other hg] at hg'
  revert ht
  fun_cases Transitions.go s g <;> intro ht <;> cases ht
  case case3 i rest hph =>
    have hown : (s.phase g).handed ≠ [] := by rw [hph]; nofun
    have hphase : ((s.push i).enter g (.handing rest)).phase =
        (s.enter g (.handing rest)).phase := by
      unfold Transitions.push
      split <;> rfl
    exact ⟨henter hphase fun _ => hown, fun _ => .inr hown⟩
  all_goals exact ⟨henter rfl (fun hno => absurd rfl hno), .inl⟩

theorem Due.step {a : HookAct n} (h : s.Due (a :: acts)) (hup : FollowedUp (a :: acts))
    (ht : s.hookStep a = some t) : t.Due acts ∧ FollowedUp acts := by
  cases a with
  | push g c =>
    obtain ⟨hidle, ht⟩ := Option.ite_none_right_eq_some.mp ht
    cases ht
    refine ⟨⟨fun g' hg' => ?_, fun howed => ?_⟩, hup.2⟩
    · by_cases hg : g' = g
      · exact hg ▸ hup.1
      · rw [enter_other hg] at hg'
        simpa using h.1 g' hg'
    · simpa using h.2 howed
  | flush g =>
    obtain ⟨hidle, rfl⟩ := step_flush ht
    refine ⟨⟨fun g' hg' => ?_, nofun⟩, hup⟩
    have hg : g' ≠ g := by
      rintro rfl
      rw [enter_self] at hg'
      exact hg' rfl
    rw [enter_other hg] at hg'
    simpa [hg] using h.1 g' hg'
  | go g =>
    obtain ⟨hhanded, howed⟩ := go_handed ht
    refine ⟨⟨fun g' hg' => by simpa using h.1 g' (hhanded g' hg'), fun ho => ?_⟩, hup⟩
    rcases howed ho with ho | hg
    · simpa using h.2 ho
    · exact ⟨g, by simpa using h.1 g hg⟩

theorem Due.run (h : s.Due acts) (hup : FollowedUp acts) (hrun : runActs hookStep s acts = some t) :
    t.owed = false := by
  induction acts generalizing s with
  | nil =>
    obtain rfl : s = t := by simpa [runActs] using hrun
    by_contra howed
    obtain ⟨g, hg⟩ := h.2 (Bool.eq_true_of_not_eq_false howed)
    cases hg
  | cons a acts ih =>
    obtain ⟨s', hs', hrest⟩ := runActs_cons.mp hrun
    obtain ⟨hdue, hup⟩ := h.step hup hs'
    exact ih hdue hup hrest

/-- **No transition is left undelivered.** In every interleaving of calls of `push` and `flush` at
most one goroutine delivers at any time; and if every `push` is followed by a `flush` of the same
goroutine, then the queue is empty when all calls have returned, and all that was put in it was
delivered, in that order. -/
theorem no_transition_undelivered {p : BreakerParams} {rnd : Nat → ℚ}
    (hrun : runActs hookStep (start n p rnd) acts = some s) :
    (∀ g g', (s.phase g).drains = true → (s.phase g').drains = true → g = g') ∧
      (FollowedUp acts → (∀ g, s.phase g = .idle) → s.queue = [] ∧ s.delivered = s.pushed) := by
  have hsound : s.Drained ∧ s.Attended :=
    (reach_of_runActs .refl acts hrun).invariant ⟨.start p rnd, fun hne => absurd rfl hne⟩
      fun _ _ _ h ht => hookStep_sound h ht
  refine ⟨hsound.1.alone, fun hup hidle => ?_⟩
  have howed : s.owed = false :=
    Due.run ⟨fun g hg => absurd rfl hg, fun howed => by cases howed⟩ hup hrun
  exact Quiet.delivered ⟨hidle, howed⟩ hsound.1 hsound.2

/-- The second goroutine returns at once, because the first one is delivering, which picks its
change up. -/
def leftToTheOther : List (HookAct 2) :=
  let opened : Change := .plain ⟨"w1", 1⟩ .closed .open .consecutive 0
  let a : Fin 2 := ⟨0, Nat.two_pos⟩
  let b : Fin 2 := ⟨1, Nat.one_lt_two⟩
  [.push a opened, .go a, .go a, .flush a, .go a, .go a, .push b opened, .go b, .go b, .flush b,
    .go b] ++ List.replicate 9 (.go a)

theorem no_transition_undelivered_left_to_the_other :
    ∃ s, runActs hookStep (start 2 ⟨1, 0, 1, 1, 1, 1, 1, 1, 1, 0⟩ fun _ => 0) leftToTheOther =
      some s ∧
      s.delivered.length = 2 ∧ s.queue = [] ∧ s.delivered = s.pushed := by
  obtain ⟨s, hs, hidle, htwo⟩ :
      ∃ s ∈ runActs hookStep (start 2 ⟨1, 0, 1, 1, 1, 1, 1, 1, 1, 0⟩ fun _ => 0) leftToTheOther,
        (∀ g, s.phase g = .idle) ∧ s.delivered.length = 2 := by
    decide +kernel
  have hup : FollowedUp leftToTheOther := by simp [FollowedUp, leftToTheOther]
  exact ⟨s, hs, htwo, (no_transition_undelivered hs).2 hup hidle⟩

end Hook

end Transitions

end ServerFlow.Gateway
