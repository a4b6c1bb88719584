import ServerFlow.Resilience.QueueCredit

/-!
# Resilience.QueuePool

No slot is stranded: while a model has a free slot and a waiter, some waiter is on its way to
look for it.

`Pool` is the queue as the router uses it, beside the free slots of each model. A release hands
its slot over or frees it. A woken waiter looks once, and then it is done or it parks.
-/

namespace ServerFlow.Resilience

open Function Option

variable {α : Type} {w : Nat}

/-! ### The pool -/

structure Pool (α : Type) where
  sys : QueueSys α
  /-- The free slots of a model. -/
  free : String → Nat
  /-- Whether the waiter found a slot when it looked; `none` before it looks. -/
  looked : Nat → Option Bool

inductive PoolAct (α : Type)
  | enqueue (model tenant : String) (now : Time)
  /-- An arrival takes a free slot. -/
  | take (model : String)
  | release (model : String) (value : α)
  /-- A routing waiter takes a free slot if there is one. -/
  | look (w : Nat)
  | wake (model : String) (n : Int)
  | recv (w : Nat)
  | park (w : Nat)
  | done (w : Nat)
  | leave (w : Nat)
  | flush (model : String)
  | close

def Pool.start (p : QueueParams) (free : String → Nat) : Pool α := ⟨.start p, free, fun _ => none⟩

/-- A step of the queue alone. -/
def Pool.lift (s : Pool α) (a : QueueAct α) : Option (Pool α) :=
  (s.sys.step a).map fun t => { s with sys := t }

/-- The waiter has to look before it parks or is done. -/
def Pool.forget (s : Pool α) (w : Nat) : Pool α :=
  { s with looked := update s.looked w none }

/-- Add a free slot. -/
def Pool.put (s : Pool α) (model : String) : Pool α :=
  { s with free := update s.free model (s.free model + 1) }

/-- Take a free slot. -/
def Pool.get (s : Pool α) (model : String) : Pool α :=
  { s with free := update s.free model (s.free model - 1) }

def Pool.step (s : Pool α) : PoolAct α → Option (Pool α)
  | .enqueue model tenant now =>
    -- an arrival waits only if there is no free slot, or others wait already
    if s.free model = 0 ∨
      s.sys.q.busy model = true then s.lift (.enqueue model tenant now) else none
  | .take model => if 0 < s.free model then some (s.get model) else none
  | .release model v =>
    if (s.sys.q.handoff model v).2 then s.lift (.handoff model v)
    else (s.put model).lift (.handoff model v)
  | .look w =>
    if s.sys.routing w = true ∧ s.looked w = none then
      let model := (s.sys.q.heap w).model
      if 0 < s.free model then
        some { s.get model with looked := update s.looked w (some true) }
      else some { s with looked := update s.looked w (some false) }
    else none
  | .wake model n => s.lift (.wake model n)
  | .recv w => (s.forget w).lift (.recv w)
  | .park w => if s.looked w = some false then (s.forget w).lift (.park w) else none
  | .done w => if s.looked w = some true then (s.forget w).lift (.done w) else none
  | .leave w => s.lift (.leave w)
  | .flush model => s.lift (.flush model)
  | .close => s.lift .close

/-! ### The invariant of the pool -/

/-- The waiters that have not looked. -/
def Pool.unlooked (s : Pool α) (w : Nat) : Bool := (s.looked w).isNone

/-- The steps of a waiter's own goroutine. -/
theorem step_own {s u : QueueSys α} :
    (s.step (.recv w) = some u → u.q = s.q.drain w ∧ ∀ x, x ≠ w → u.routing x = s.routing x) ∧
    (s.step (.park w) = some u → u.q = (s.q.park w).1 ∧ ∀ x, x ≠ w → u.routing x = s.routing x) ∧
    (s.step (.done w) = some u →
      u.q = (s.q.leave w false).1 ∧ ∀ x, x ≠ w → u.routing x = s.routing x) := by
  refine ⟨fun hu => ?_, fun hu => ?_, fun hu => ?_⟩ <;> simp only [QueueSys.step] at hu
  · split at hu
    · cases hu
    · split at hu <;> cases hu
      exact ⟨rfl, fun x hx => update_of_ne hx _ _⟩
  · split at hu <;> cases hu
    exact ⟨rfl, fun x hx => update_of_ne hx _ _⟩
  · split at hu <;> cases hu
    exact ⟨rfl, fun x hx => update_of_ne hx _ _⟩

structure PoolOk (s : Pool α) : Prop where
  queue : QueueOk s.sys
  credit : CreditOk s.sys.q s.unlooked s.free
  looking : ∀ w, s.looked w ≠ none → s.sys.routing w = true

theorem poolOk_start (p : QueueParams) (free : String → Nat) :
    PoolOk (Pool.start p free : Pool α) := by
  have hnone : ∀ m, (Pool.start p free : Pool α).sys.q.models.lookup m = none :=
    fun m => AList.lookup_empty m
  refine ⟨queueOk_start p, fun m => ?_, fun w hw => absurd rfl hw⟩
  exact .nil (queueOk_start p).listed (waitersOf_of_lookup_none (hnone m)).1

namespace PoolOk

variable {s t : Pool α}

/-- A goroutine that forgets what it found may look again. -/
theorem forget_unlooked (s : Pool α) (w : Nat) :
    (s.forget w).unlooked = update s.unlooked w true := by
  funext x
  by_cases hx : x = w
  · subst hx
    simp [Pool.unlooked, Pool.forget]
  · simp [Pool.unlooked, Pool.forget, update_of_ne hx]

section

variable (h : PoolOk s)
include h

/-- A step of the queue that leaves the goroutines as they are. -/
theorem lift {a : QueueAct α} {u : QueueSys α} {free : String → Nat}
    (hu : s.sys.step a = some u) (hrouting : u.routing = s.sys.routing)
    (hcredit : CreditOk u.q s.unlooked free) : PoolOk ⟨u, free, s.looked⟩ :=
  ⟨h.queue.step hu, hcredit, fun w hw => by rw [hrouting]; exact h.looking w hw⟩

/-- A step of the queue after which the goroutine of `w` has to look again. -/
theorem lift_forget {a : QueueAct α} {u : QueueSys α}
    (hu : s.sys.step a = some u) (hrouting : ∀ x, x ≠ w → u.routing x = s.sys.routing x)
    (hcredit : CreditOk u.q (update s.unlooked w true) s.free) :
    PoolOk { s.forget w with sys := u } := by
  refine ⟨h.queue.step hu, ?_, fun x hx => ?_⟩
  · have heq := forget_unlooked s w
    change Pool.unlooked { s.forget w with sys := u } = _ at heq
    rw [heq]
    exact hcredit
  · change update s.looked w none x ≠ none at hx
    have hxw : x ≠ w := by
      rintro rfl
      exact hx (update_self _ _ _)
    rw [update_of_ne hxw] at hx
    exact (hrouting x hxw).trans (h.looking x hx)

/-- A free slot is taken. -/
theorem get (model : String) : PoolOk (s.get model) := by
  refine ⟨h.queue, h.credit.mono (fun _ => rfl) (fun _ => rfl) (fun m => ?_) (fun _ _ _ hw => hw)
    fun _ _ _ hk => hk, h.looking⟩
  show update s.free model (s.free model - 1) m ≤ s.free m
  by_cases hm : m = model
  · subst hm
    rw [update_self]
    omega
  · rw [update_of_ne hm]

theorem look (hr : s.sys.routing w = true) (found : Bool) :
    PoolOk { s.get (s.sys.q.heap w).model with looked := update s.looked w (some found) } := by
  refine ⟨h.queue, ?_, fun x hx => ?_⟩
  · have heq : Pool.unlooked { s.get (s.sys.q.heap w).model with
        looked := update s.looked w (some found) } = update s.unlooked w false := by
      funext x
      by_cases hx : x = w
      · subst hx
        simp [Pool.unlooked]
      · simp [Pool.unlooked, update_of_ne hx]
    rw [heq]
    exact h.credit.look h.queue.listed fun hleft => ((h.queue.waiter w).routes hr hleft).1
  · by_cases hxw : x = w
    · rw [hxw]
      exact hr
    · change update s.looked w (some found) x ≠ none at hx
      rw [update_of_ne hxw] at hx
      exact h.looking x hx

theorem step {a : PoolAct α} (ha : s.step a = some t) : PoolOk t := by
  revert ha
  fun_cases Pool.step s a <;> intro ha <;> try with_reducible cases ha
  next model tenant now hguard =>
    obtain rfl := some.inj ha
    -- nobody drives a waiter that does not exist yet
    have hnew : s.unlooked s.sys.q.next = true := by
      have hnone : s.looked s.sys.q.next = none := by
        by_contra hne
        have := h.looking _ hne
        rw [(h.queue.fresh _ le_rfl).1] at this
        cases this
      simp [Pool.unlooked, hnone]
    exact h.lift (a := .enqueue model tenant now) rfl rfl
      (h.credit.enqueue h.queue.listed hguard hnew tenant now)
  next => exact h.get _
  next model v hok =>
    obtain rfl := some.inj ha
    have hcredit := h.credit.handoff h.queue.listed model v
    rw [if_pos hok] at hcredit
    exact h.lift (a := .handoff model v) rfl rfl hcredit
  next model v hok =>
    obtain rfl := some.inj ha
    have hcredit := h.credit.handoff h.queue.listed model v
    rw [if_neg hok] at hcredit
    exact h.lift (a := .handoff model v) rfl rfl hcredit
  next hguard _ _ => exact h.look hguard.1 true
  next w hguard _ hfree =>
    have hzero : s.free (s.sys.q.heap w).model = 0 := Nat.eq_zero_of_not_pos hfree
    have hsame : s.get (s.sys.q.heap w).model = s := by
      simp only [Pool.get]
      rw [Nat.sub_eq_zero_of_le (by omega), ← hzero, update_eq_self]
    have := h.look hguard.1 false
    rwa [hsame] at this
  next model n =>
    obtain rfl := some.inj ha
    exact h.lift (a := .wake model n) rfl rfl (h.credit.wake model n)
  next w =>
    obtain ⟨u, hu, rfl⟩ := Option.map_eq_some_iff.mp ha
    obtain ⟨hq, hrouting⟩ := step_own.1 hu
    refine h.lift_forget hu hrouting (.forget ?_ w)
    rw [hq]
    exact h.credit.channel w none
  next w hlooked =>
    obtain ⟨u, hu, rfl⟩ := Option.map_eq_some_iff.mp ha
    obtain ⟨hq, hrouting⟩ := step_own.2.1 hu
    refine h.lift_forget hu hrouting ?_
    rw [hq]
    exact h.credit.park h.queue.listed (by simp [Pool.unlooked, hlooked])
  next w hlooked =>
    obtain ⟨u, hu, rfl⟩ := Option.map_eq_some_iff.mp ha
    obtain ⟨hq, hrouting⟩ := step_own.2.2 hu
    refine h.lift_forget hu hrouting (.forget ?_ w)
    rw [hq]
    exact h.credit.leave h.queue.listed w false fun _ => (by simp [Pool.unlooked, hlooked])
  next w =>
    obtain ⟨u, hu, rfl⟩ := Option.map_eq_some_iff.mp ha
    have hu' := hu
    simp only [QueueSys.step] at hu'
    split at hu' <;> cases hu'
    exact h.lift hu rfl (h.credit.leave h.queue.listed w true nofun)
  next model =>
    obtain rfl := some.inj ha
    exact h.lift (a := .flush model) rfl rfl (h.credit.flush h.queue.listed model)
  next =>
    obtain rfl := some.inj ha
    exact h.lift (a := .close) rfl rfl
      (h.credit.mono (fun _ => rfl) (fun _ => rfl) (fun _ => le_rfl)
      (fun _ _ _ hw => hw) fun _ _ _ hk => hk)

/-- A woken waiter of a queue is routing, or it has a `Reroute` to read. -/
theorem called {m : String} (hw : w ∈ s.sys.q.waitersOf m)
    (hwoken : (s.sys.q.heap w).woken = true) :
    s.sys.routing w = true ∨ (s.sys.q.heap w).ch = some .reroute :=
  (h.queue.waiter w).called ((h.queue.listed.waiters m).2 w hw).2.2 hwoken

end

end PoolOk

theorem poolOk_of_reach {p : QueueParams} {free : String → Nat} {s : Pool α}
    (h : Machine.Reach Pool.step (Pool.start p free) s) : PoolOk s :=
  h.invariant (poolOk_start p free) fun _ _ _ hs ha => hs.step ha

/-- No stranded slot: while a model has a free slot and a waiter, a waiter of the model is woken,
and while it has credit its head waiter is. A woken waiter is routing or has a `Reroute` to
read. -/
theorem no_stranded_slot {p : QueueParams} {free : String → Nat} {s : Pool α}
    (h : Machine.Reach Pool.step (Pool.start p free) s) (model : String) :
    (0 < s.free model → s.sys.q.waitersOf model ≠ [] →
      ∃ w ∈ s.sys.q.waitersOf model, (s.sys.q.heap w).woken = true ∧
        (s.sys.routing w = true ∨ (s.sys.q.heap w).ch = some .reroute)) ∧
    (0 < s.sys.q.creditOf model →
      ∃ w rest, s.sys.q.waitersOf model = w :: rest ∧ (s.sys.q.heap w).woken = true ∧
        (s.sys.routing w = true ∨ (s.sys.q.heap w).ch = some .reroute)) := by
  have hok := poolOk_of_reach h
  obtain ⟨hcov, hhead⟩ := hok.credit model
  have hcredit : 0 < s.sys.q.creditOf model →
      ∃ w rest, s.sys.q.waitersOf model = w :: rest ∧ (s.sys.q.heap w).woken = true ∧
        (s.sys.routing w = true ∨ (s.sys.q.heap w).ch = some .reroute) := by
    intro hpos
    obtain ⟨w, rest, hws, hwoken⟩ := hhead hpos
    exact ⟨w, rest, hws, hwoken, hok.called (m := model) (by rw [hws]; simp) hwoken⟩
  refine ⟨fun hfree hne => ?_, hcredit⟩
  by_cases hpos : 0 < s.sys.q.creditOf model
  · obtain ⟨w, rest, hws, hw⟩ := hcredit hpos
    exact ⟨w, by rw [hws]; simp, hw⟩
  · -- without credit, a waiter that has not looked covers the slot
    have := hcov.slots hne
    obtain ⟨w, hw, hboth⟩ := List.countP_pos_iff.mp (show 0 < (s.sys.q.waitersOf model).countP
      fun w => (s.sys.q.heap w).woken && s.unlooked w by omega)
    rw [Bool.and_eq_true] at hboth
    exact ⟨w, hw, hboth.1, hok.called hw hboth.1⟩

/-- The head is routing when three slots are released: the first wakes the second waiter, and two
units of credit are kept. -/
theorem no_stranded_slot_missed_handoffs :
    let acts : List (PoolAct Nat) := [.enqueue "m" "" 0, .enqueue "m" "" 1, .wake "m" 1, .recv 0,
      .release "m" 1, .release "m" 2, .release "m" 3]
    ∃ s, Machine.runActs Pool.step (Pool.start ⟨10, 0, 0⟩ fun _ => 0) acts = some s ∧
      s.free "m" = 3 ∧ s.sys.q.creditOf "m" = 2 ∧
      (∃ w ∈ s.sys.q.waitersOf "m", (s.sys.q.heap w).woken = true ∧
        (s.sys.routing w = true ∨ (s.sys.q.heap w).ch = some .reroute)) ∧
      ∃ w rest, s.sys.q.waitersOf "m" = w :: rest ∧ (s.sys.q.heap w).woken = true ∧
        (s.sys.routing w = true ∨ (s.sys.q.heap w).ch = some .reroute) := by
  intro acts
  obtain ⟨s, hs, hfree, hcredit, hne⟩ :
      ∃ s ∈ Machine.runActs Pool.step (Pool.start ⟨10, 0, 0⟩ fun _ => 0) acts,
        s.free "m" = 3 ∧ s.sys.q.creditOf "m" = 2 ∧ s.sys.q.waitersOf "m" ≠ [] := by
    decide +kernel
  have hno := no_stranded_slot (Machine.reach_of_runActs .refl acts hs) "m"
  exact ⟨s, hs, hfree, hcredit, hno.1 (by omega) hne, hno.2 (by omega)⟩

end ServerFlow.Resilience
