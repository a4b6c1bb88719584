import ServerFlow.Resilience.QueuePool

/-!
# Resilience.QueueOrder

In which order waiters are served. A hand-off goes to the head of the list. A waiter that was told
to route may overtake an earlier one, but it is told so only when all waiters ahead of it have been
told (`Ordered.told`).

Waiters are numbered as they arrive, so the list of a model is in the order of arrival exactly if
the numbers increase along it (`Sorted`). Between two steps of the pool a registry refresh may
change how many slots are free.
-/

namespace ServerFlow.Resilience

open List Option Function

variable {α : Type} {m : String}

/-! ### Steps of a queue -/

/-- The lists are in the order of arrival. -/
def Queue.Sorted (q : Queue α) : Prop := ∀ m, (q.waitersOf m).Pairwise (· < ·)

/-- What a step does to the order: a new waiter joins at a tail, and one that is told to route is
told so after all that are ahead of it. -/
structure Queue.Ordered (q q' : Queue α) : Prop where
  list : ∀ m, (q'.waitersOf m).Sublist (q.waitersOf m ++ [q.next])
  told : ∀ m w, w ∈ q'.waitersOf m → (q'.heap w).woken = true →
    (w ∈ q.waitersOf m ∧ (q.heap w).woken = true) ∨
      ∀ x ∈ q'.waitersOf m, x < w → (q'.heap x).woken = true

/-- A step that takes waiters off the lists and wakes nobody. -/
structure Queue.Quiet (q q' : Queue α) : Prop where
  next : q'.next = q.next
  list : ∀ m, (q'.waitersOf m).Sublist (q.waitersOf m)
  woken : ∀ m w, w ∈ q'.waitersOf m → (q'.heap w).woken = true → (q.heap w).woken = true

section Steps

variable {q q' q'' : Queue α}

theorem Queue.Quiet.refl (q : Queue α) : q.Quiet q :=
  ⟨rfl, fun _ => List.Sublist.refl _, fun _ _ _ hw => hw⟩

theorem Queue.Quiet.trans (h : q.Quiet q') (h' : q'.Quiet q'') : q.Quiet q'' :=
  ⟨h'.next.trans h.next, fun m => (h'.list m).trans (h.list m), fun m w hw hwoken =>
    h.woken m w ((h'.list m).subset hw) (h'.woken m w hw hwoken)⟩

/-- Waiters are taken off the lists before others are told to route. -/
theorem Queue.Quiet.ordered (h : q.Quiet q') (h' : q'.Ordered q'') : q.Ordered q'' := by
  refine ⟨fun m => ?_, fun m w hw hwoken => ?_⟩
  · have hlist := h'.list m
    rw [h.next] at hlist
    exact hlist.trans ((h.list m).append (List.Sublist.refl _))
  · refine (h'.told m w hw hwoken).imp_left ?_
    rintro ⟨hw', hwoken'⟩
    exact ⟨(h.list m).subset hw', h.woken m w hw' hwoken'⟩

theorem Queue.Ordered.refl (q : Queue α) : q.Ordered q :=
  ⟨fun _ => sublist_append_left _ _, fun _ _ hw hwoken => .inl ⟨hw, hwoken⟩⟩

theorem Queue.Quiet.toOrdered (h : q.Quiet q') : q.Ordered q' := h.ordered (.refl q')

theorem Queue.Sorted.ordered (h : q.Sorted) (hq : q.Listed) (hstep : q.Ordered q') : q'.Sorted := by
  intro m
  refine List.Pairwise.sublist (hstep.list m)
    (pairwise_append.mpr ⟨h m, pairwise_singleton _ _, ?_⟩)
  intro x hx y hy
  rw [mem_singleton.mp hy]
  exact ((hq.waiters m).2 x hx).1

/-! ### Waking in order -/

variable {ws : List Nat} {w : Nat}

/-- The waiters ahead of the first idle one are routing. -/
theorem woken_ahead {heap : Nat → Waiter α} (hws : ws.Pairwise (· < ·))
    (hfind : ws.find? (fun w => !(heap w).woken) = some w) {x : Nat} (hx : x ∈ ws) (hlt : x < w) :
    (heap x).woken = true := by
  obtain ⟨-, as, bs, rfl, has⟩ := List.find?_eq_some_iff_append.mp hfind
  rcases mem_append.mp hx with hx | hx
  · simpa using has x hx
  · rcases mem_cons.mp hx with rfl | hx
    · exact absurd hlt (lt_irrefl _)
    · have hgt := (pairwise_cons.mp (pairwise_append.mp hws).2.1).1 x hx
      omega

/-- `settle` tells the waiters in the order of the list. -/
theorem settle_told (self : Option Nat) (hws : ws.Pairwise (· < ·)) (credit : Nat)
    (heap : Nat → Waiter α) (hwoken : ((settle self ws credit heap).1 w).woken = true) :
    (heap w).woken = true ∨
      ∀ x ∈ ws, x < w → ((settle self ws credit heap).1 x).woken = true := by
  induction credit generalizing heap with
  | zero => exact .inl hwoken
  | succ credit ih =>
    -- the first idle waiter is told, whether it is `self` or not
    have hone : ∀ (y : Nat) (wtr : Waiter α), wtr.woken = true →
        ws.find? (fun w => !(heap w).woken) = some y →
        ((settle self ws credit (update heap y wtr)).1 w).woken = true →
        (heap w).woken = true ∨ ∀ x ∈ ws, x < w →
          ((settle self ws credit (update heap y wtr)).1 x).woken = true := by
      intro y wtr hwtr hfind hlater
      rcases ih _ hlater with hbefore | hall
      · by_cases hwy : w = y
        · right
          intro x hx hlt
          have hahead := woken_ahead hws hfind hx (hwy ▸ hlt)
          refine (settle_spec self ws credit _).1.woken x ?_
          rwa [update_of_ne (by omega)]
        · rw [update_of_ne hwy] at hbefore
          exact .inl hbefore
      · exact .inr hall
    simp only [settle] at hwoken ⊢
    cases hfind : ws.find? (fun w => !(heap w).woken) with
    | none =>
      rw [hfind] at hwoken
      exact .inl hwoken
    | some y =>
      simp only [hfind] at hwoken ⊢
      split
      next hself =>
        rw [if_pos hself] at hwoken
        exact hone y _ rfl hfind hwoken
      next hself =>
        rw [if_neg hself] at hwoken
        exact hone y _ rfl hfind hwoken

/-- `Wake` tells the waiters in the order of the list. -/
theorem wakeLoop_told (hws : ws.Pairwise (· < ·)) (n : Nat) (heap : Nat → Waiter α)
    (hw : w ∈ ws) (hwoken : ((wakeLoop ws n heap).1 w).woken = true) :
    (heap w).woken = true ∨ ∀ x ∈ ws, x < w → ((wakeLoop ws n heap).1 x).woken = true := by
  induction ws generalizing n heap with
  | nil => cases hw
  | cons y ws ih =>
    obtain ⟨hy, hrest⟩ := pairwise_cons.mp hws
    have hkept : ∀ (n : Nat) (heap : Nat → Waiter α), (heap y).woken = true →
        ((wakeLoop ws n heap).1 y).woken = true := fun n heap hwoken =>
      (wakeLoop_nudge ws ws (fun _ hx => hx) n heap).woken y hwoken
    cases n with
    | zero => exact .inl hwoken
    | succ n =>
      rcases mem_cons.mp hw with rfl | hmem
      · -- nobody is ahead of the head
        right
        intro x hx hlt
        rcases mem_cons.mp hx with rfl | hx
        · exact absurd hlt (lt_irrefl _)
        · have := hy x hx
          omega
      · have hne : w ≠ y := by
          have := hy w hmem
          omega
        simp only [wakeLoop] at hwoken ⊢
        by_cases hidle : (heap y).woken = true
        · rw [if_pos hidle] at hwoken ⊢
          refine (ih hrest (n + 1) heap hmem hwoken).imp_right fun hall x hx hlt => ?_
          rcases mem_cons.mp hx with rfl | hx
          · exact hkept _ _ hidle
          · exact hall x hx hlt
        · rw [if_neg hidle] at hwoken ⊢
          rcases ih hrest n _ hmem hwoken with hbefore | hall
          · rw [update_of_ne hne] at hbefore
            exact .inl hbefore
          · right
            intro x hx hlt
            rcases mem_cons.mp hx with rfl | hx
            · exact hkept _ _ (by rw [update_self]; rfl)
            · exact hall x hx hlt

/-! ### The operations -/

/-- Some waiters of a model were told to route, in order. -/
theorem Queue.Ordered.of_nudge (hq : q.Listed) {mq : ModelQueue}
    (hmq : q.models.lookup m = some mq) (hws : ∀ m, q'.waitersOf m = q.waitersOf m)
    {self : Option Nat} (hn : Nudge self mq.waiters q.heap q'.heap)
    (htold : ∀ w ∈ mq.waiters, (q'.heap w).woken = true → (q.heap w).woken = true ∨
      ∀ x ∈ mq.waiters, x < w → (q'.heap x).woken = true) : q.Ordered q' := by
  refine ⟨fun m' => ?_, fun m' w hw hwoken => ?_⟩
  · rw [hws m']
    exact sublist_append_left _ _
  · rw [hws m'] at hw ⊢
    by_cases hm : m' = m
    · subst hm
      rw [(waitersOf_of_lookup hmq).1] at hw ⊢
      exact (htold w hw hwoken).imp_left fun hbefore => ⟨hw, hbefore⟩
    · -- the waiters of the other models are as they were
      rcases hn w with heq | ⟨hmem, -, -⟩
      · rw [heq] at hwoken
        exact .inl ⟨hw, hwoken⟩
      · have hother := ((hq m mq hmq).2.2 w hmem).2.1
        exact absurd (((hq.waiters m').2 w hw).2.1.symm.trans hother) hm

theorem Queue.Sorted.settleModel (h : q.Sorted) (hq : q.Listed) (self : Option Nat) (m : String)
    (extra : Nat) : q.Ordered (q.settleModel self m extra) := by
  have hws := fun m' => (settleModel_waitersOf q self m extra m').1
  cases hmq : q.models.lookup m with
  | none =>
    simp only [Queue.settleModel, hmq]
    exact .refl q
  | some mq =>
    have hsorted := h m
    rw [(waitersOf_of_lookup hmq).1] at hsorted
    have hnudge : Nudge self mq.waiters q.heap (q.settleModel self m extra).heap := by
      simp only [Queue.settleModel, hmq]
      exact (settle_spec self mq.waiters _ q.heap).1
    refine .of_nudge hq hmq hws hnudge fun w _ hwoken => ?_
    simp only [Queue.settleModel, hmq] at hwoken ⊢
    exact settle_told self hsorted _ q.heap hwoken

theorem Queue.Sorted.wake (h : q.Sorted) (hq : q.Listed) (model : String) (n : Int) :
    q.Ordered (q.wake model n).1 := by
  cases hmq : q.models.lookup model with
  | none =>
    simp only [Queue.wake, hmq]
    exact .refl q
  | some mq =>
    have hsorted := h model
    rw [(waitersOf_of_lookup hmq).1] at hsorted
    simp only [Queue.wake, hmq]
    exact .of_nudge hq hmq (fun _ => rfl)
      (wakeLoop_nudge mq.waiters mq.waiters (fun _ hw => hw) n.toNat q.heap)
      fun w hw hwoken => wakeLoop_told hsorted n.toNat q.heap hw hwoken

theorem Queue.Quiet.unlink (hq : q.Listed) (w : Nat) : q.Quiet (q.unlink w) := by
  refine ⟨(unlink_heap q w).2, fun m => ?_, fun m x _ hwoken => ?_⟩
  · rw [(unlink_waitersOf hq w m).1]
    exact erase_sublist
  · rw [(unlink_heap q w).1] at hwoken
    by_cases hx : x = w
    · rw [hx, update_self] at hwoken
      cases hwoken
    · rwa [update_of_ne hx] at hwoken

/-- What a waiter holds changes, and it is not woken by that. -/
theorem Queue.Quiet.heap (q : Queue α) (w : Nat) {wtr : Waiter α}
    (hwoken : wtr.woken = true → (q.heap w).woken = true) :
    q.Quiet { q with heap := update q.heap w wtr } := by
  refine ⟨rfl, fun _ => List.Sublist.refl _, fun m x _ hx => ?_⟩
  dsimp only at hx
  by_cases hxw : x = w
  · rw [hxw, update_self] at hx
    rw [hxw]
    exact hwoken hx
  · rwa [update_of_ne hxw] at hx

theorem flushAll_next (q : Queue α) (ws : List Nat) : (q.flushAll ws).next = q.next := by
  induction ws generalizing q with
  | nil => rfl
  | cons w ws ih => exact (ih _).trans (unlink_heap q w).2

theorem Queue.Quiet.flush (hq : q.Listed) (model : String) : q.Quiet (q.flush model) := by
  unfold Queue.flush
  induction q.models.keys.filter (fun m => decide (model = "" ∨ m = model)) generalizing q with
  | nil => exact .refl q
  | cons m ms ih =>
    obtain ⟨hlisted, hheap, hview⟩ := flushAll_view hq (q.waitersOf m)
    refine Queue.Quiet.trans
      ⟨flushAll_next q (q.waitersOf m), fun m' => ?_, fun m' x hx hwoken => ?_⟩ (ih hlisted)
    · rw [(hview m').1]
      exact diff_sublist _ _
    · rw [(hview m').1] at hx
      have hout := ((hq.waiters m').1.mem_sdiff_iff.mp hx).2
      rwa [hheap x hout] at hwoken

theorem Queue.Ordered.enqueue (q : Queue α) (model tenant : String) (now : Time) :
    q.Ordered (q.enqueue model tenant now).1 := by
  unfold Queue.enqueue
  cases q.refuse model tenant with
  | some err => exact .refl q
  | none =>
    have hws : ∀ m, Queue.waitersOf { q with
        heap := update q.heap q.next ⟨model, tenant, now, none, false, false⟩
        next := q.next + 1
        models := q.models.insert model
          (((q.models.lookup model).getD ⟨[], ∅, 0⟩).pushBack q.next tenant) } m =
        if m = model then q.waitersOf m ++ [q.next] else q.waitersOf m := by
      intro m
      simp only [Queue.waitersOf, AList.lookup_insert_ite]
      split
      next hm =>
        subst hm
        cases q.models.lookup m <;> rfl
      next => rfl
    refine ⟨fun m => ?_, fun m w hw hwoken => ?_⟩
    · rw [hws m]
      split
      · exact List.Sublist.refl _
      · exact sublist_append_left _ _
    · left
      have hne : w ≠ q.next := by
        intro heq
        rw [heq] at hwoken
        dsimp only at hwoken
        rw [update_self] at hwoken
        cases hwoken
      dsimp only at hwoken
      rw [update_of_ne hne] at hwoken
      rw [hws m] at hw
      refine ⟨?_, hwoken⟩
      split at hw
      · exact (mem_append.mp hw).resolve_right fun hlast => hne (mem_singleton.mp hlast)
      · exact hw

theorem Queue.Sorted.leaveLocked (h : q.Sorted) (hq : q.Listed) (w : Nat) (giveBack : Bool) :
    q.Ordered (q.leaveLocked w true giveBack) := by
  have hquiet := Queue.Quiet.unlink hq w
  rcases q.mem_or_unlisted w with ⟨mq, hmq, hw⟩ | hnot
  · rw [leaveLocked_of_mem hmq hw]
    have hsorted := h.ordered hq hquiet.toOrdered
    exact hquiet.ordered (hsorted.settleModel (hq.unlink w) none _ _)
  · rw [leaveLocked_of_not_mem hnot]
    exact (Queue.Quiet.heap q w fun hwoken => (by cases hwoken)).toOrdered

/-- The channel is emptied after the step. -/
theorem Queue.Ordered.drain (h : q.Ordered q') (w : Nat) : q.Ordered (q'.drain w) := by
  refine ⟨h.list, fun m x hx hwoken => ?_⟩
  have hsame : ∀ y, ((q'.drain w).heap y).woken = (q'.heap y).woken := by
    intro y
    show (update q'.heap w _ y).woken = _
    by_cases hy : y = w
    · rw [hy, update_self]
    · rw [update_of_ne hy]
  rw [hsame] at hwoken
  refine (h.told m x hx hwoken).imp_right fun hall y hy hlt => ?_
  rw [hsame]
  exact hall y hy hlt

theorem Queue.Sorted.leave (h : q.Sorted) (hq : q.Listed) (w : Nat) (giveBack : Bool) :
    q.Ordered (q.leave w giveBack).1 := by
  unfold Queue.leave
  cases (q.heap w).left with
  | true => exact (Queue.Ordered.refl q).drain w
  | false => exact (h.leaveLocked hq w giveBack).drain w

theorem Queue.Sorted.handoff (h : q.Sorted) (hq : q.Listed) (model : String) (v : α) :
    q.Ordered (q.handoff model v).1 := by
  rcases q.handoff_cases model v with
    ⟨-, heq⟩ | ⟨mq, head, rest, hmq, hws, ⟨-, heq⟩ | ⟨-, heq⟩⟩ <;> rw [heq]
  · exact .refl q
  · exact h.settleModel hq none model 1
  · have hsend : (q.unlink head).Quiet ((q.unlink head).send head (.handoff v)) :=
      .heap _ head fun hwoken => hwoken
    exact ((Queue.Quiet.unlink hq head).trans hsend).toOrdered

theorem Queue.Sorted.park (h : q.Sorted) (hq : q.Listed) (w : Nat) : q.Ordered (q.park w).1 := by
  rw [Queue.park_fst]
  split
  · exact .refl q
  · have hquiet : q.Quiet { q with heap := update q.heap w { q.heap w with woken := false } } :=
      .heap q w nofun
    have hsorted := h.ordered hq hquiet.toOrdered
    exact hquiet.ordered (hsorted.settleModel (hq.rewrite w rfl rfl) (some w) (q.heap w).model 0)

end Steps

/-! ### The pool -/

/-- A step of the queue's goroutines keeps the order. -/
theorem QueueSys.step_ordered {s t : QueueSys α} (h : QueueOk s) (hs : s.q.Sorted) {a : QueueAct α}
    (ha : s.step a = some t) : s.q.Ordered t.q := by
  cases a with
  | enqueue model tenant now =>
    obtain rfl := some.inj ha
    exact .enqueue s.q model tenant now
  | handoff model v =>
    obtain rfl := some.inj ha
    exact hs.handoff h.listed model v
  | wake model n =>
    obtain rfl := some.inj ha
    exact hs.wake h.listed model n
  | recv w =>
    rw [(step_own.1 ha).1]
    exact (Queue.Ordered.refl s.q).drain w
  | park w =>
    rw [(step_own.2.1 ha).1]
    exact hs.park h.listed w
  | done w =>
    rw [(step_own.2.2 ha).1]
    exact hs.leave h.listed w false
  | leave w =>
    simp only [QueueSys.step] at ha
    split at ha
    · cases ha
    · obtain rfl := some.inj ha
      exact hs.leave h.listed w true
  | flush model =>
    obtain rfl := some.inj ha
    exact (Queue.Quiet.flush h.listed model).toOrdered
  | close =>
    obtain rfl := some.inj ha
    exact ⟨(Queue.Ordered.refl s.q).list, (Queue.Ordered.refl s.q).told⟩

/-- The steps of a pool, and a registry refresh that corrects how many slots are free. -/
inductive RefreshAct (α : Type)
  | act (a : PoolAct α)
  | refresh (model : String) (free : Nat)

def Pool.stepRefresh (s : Pool α) : RefreshAct α → Option (Pool α)
  | .act a => s.step a
  | .refresh model free => some { s with free := update s.free model free }

/-- A waiter is in the queue and told to route. -/
def Pool.Told (m : String) (w : Nat) (s : Pool α) : Prop :=
  w ∈ s.sys.q.waitersOf m ∧ (s.sys.q.heap w).woken = true

instance Pool.Told.decidable (m : String) (w : Nat) (s : Pool α) : Decidable (s.Told m w) :=
  inferInstanceAs (Decidable (_ ∧ _))

/-- The steps after which a waiter is still in the queue and told to route. -/
def Pool.stepWoken (m : String) (w : Nat) (s : Pool α) (a : RefreshAct α) : Option (Pool α) :=
  (s.stepRefresh a).filter fun t => t.Told m w

variable {s t : Pool α}

/-- A step of the pool is a step of the queue's goroutines, or it leaves them alone. -/
theorem Pool.stepRefresh_sys {a : RefreshAct α} (ha : s.stepRefresh a = some t) :
    t.sys = s.sys ∨ ∃ b, s.sys.step b = some t.sys := by
  have hlift : ∀ {s t : Pool α} {b : QueueAct α}, s.lift b = some t →
      ∃ b, s.sys.step b = some t.sys := by
    intro s t b hb
    obtain ⟨u, hu, rfl⟩ := map_eq_some_iff.mp hb
    exact ⟨b, hu⟩
  cases a with
  | refresh model free =>
    obtain rfl := some.inj ha
    exact .inl rfl
  | act a =>
    cases a with
    | enqueue model tenant now => exact .inr (hlift (ite_none_right_eq_some.mp ha).2)
    | take model =>
      obtain rfl := some.inj (ite_none_right_eq_some.mp ha).2
      exact .inl rfl
    | release model v =>
      simp only [Pool.stepRefresh, Pool.step] at ha
      split at ha
      · exact .inr (hlift ha)
      · exact .inr (hlift (s := s.put model) ha)
    | look w =>
      simp only [Pool.stepRefresh, Pool.step] at ha
      split at ha
      · split at ha
        · obtain rfl := some.inj ha
          exact .inl rfl
        · obtain rfl := some.inj ha
          exact .inl rfl
      · cases ha
    | wake model n => exact .inr (hlift (b := .wake model n) ha)
    | recv w => exact .inr (hlift (s := s.forget w) ha)
    | park w =>
      exact .inr (hlift (s := s.forget w) (ite_none_right_eq_some.mp ha).2)
    | done w =>
      exact .inr (hlift (s := s.forget w) (ite_none_right_eq_some.mp ha).2)
    | leave w => exact .inr (hlift ha)
    | flush model => exact .inr (hlift (b := .flush model) ha)
    | close => exact .inr (hlift (b := .close) ha)

/-- What holds of the queue in every state of a pool. -/
structure InOrder (s : Pool α) : Prop where
  queue : QueueOk s.sys
  sorted : s.sys.q.Sorted

theorem InOrder.start (p : QueueParams) (free : String → Nat) :
    InOrder (Pool.start p free : Pool α) :=
  ⟨queueOk_start p, fun _ => List.Pairwise.nil⟩

theorem InOrder.step (h : InOrder s) {a : RefreshAct α}
    (ha : s.stepRefresh a = some t) : InOrder t ∧ s.sys.q.Ordered t.sys.q := by
  rcases Pool.stepRefresh_sys ha with heq | ⟨b, hb⟩
  · rw [heq]
    exact ⟨⟨heq ▸ h.queue, heq ▸ h.sorted⟩, .refl _⟩
  · have hordered := QueueSys.step_ordered h.queue h.sorted hb
    exact ⟨⟨h.queue.step hb, h.sorted.ordered h.queue.listed hordered⟩, hordered⟩

theorem inOrder_of_reach {p : QueueParams} {free : String → Nat}
    (hs : Machine.Reach Pool.stepRefresh (Pool.start p free) s) : InOrder s :=
  hs.invariant (.start p free) fun _ _ _ h ha => (h.step ha).1

/-- The run `acts` from `s₀` to `s` has an action that tells `w` to route: right after it all that
are ahead of `w` are told to route, and `w` has been told ever since. -/
def ToldInOrder (s₀ : Pool α) (acts : List (RefreshAct α)) (m : String) (w : Nat) (s : Pool α) :
    Prop :=
  ∃ pre a post u v, acts = pre ++ a :: post ∧
    Machine.runActs Pool.stepRefresh s₀ pre = some u ∧ u.stepRefresh a = some v ∧
    ¬ u.Told m w ∧ v.Told m w ∧
    (∀ x ∈ v.sys.q.waitersOf m, x < w → (v.sys.q.heap x).woken = true ∧
      (v.sys.routing x = true ∨ (v.sys.q.heap x).ch = some .reroute)) ∧
    Machine.runActs (Pool.stepWoken m w) v post = some s

/-- The action that tells a waiter to route finds those ahead of it told, or tells them as well. -/
theorem InOrder.told (h : InOrder s) {a : RefreshAct α} (ha : s.stepRefresh a = some t)
    {w : Nat} (hnot : ¬ s.Told m w) (ht : t.Told m w) {x : Nat} (hx : x ∈ t.sys.q.waitersOf m)
    (hlt : x < w) : (t.sys.q.heap x).woken = true ∧
      (t.sys.routing x = true ∨ (t.sys.q.heap x).ch = some .reroute) := by
  obtain ⟨hin, hordered⟩ := h.step ha
  have hall := (hordered.told m w ht.1 ht.2).resolve_left hnot
  have hwoken := hall x hx hlt
  exact ⟨hwoken, (hin.queue.waiter x).called ((hin.queue.listed.waiters m).2 x hx).2.2 hwoken⟩

/-- A waiter that is told to route at the end of a run was so all along, or an action of the run
told it. -/
theorem told_in_order {s₀ : Pool α} (h : InOrder s₀) {acts : List (RefreshAct α)}
    (hs : Machine.runActs Pool.stepRefresh s₀ acts = some s) {w : Nat} (hw : s.Told m w) :
    s₀.Told m w ∧ Machine.runActs (Pool.stepWoken m w) s₀ acts = some s ∨
      ToldInOrder s₀ acts m w s := by
  induction acts generalizing s₀ with
  | nil =>
    obtain rfl : s₀ = s := some.inj hs
    exact .inl ⟨hw, rfl⟩
  | cons a acts ih =>
    obtain ⟨s₁, ha, hrest⟩ := Machine.runActs_cons.mp hs
    rcases ih (h.step ha).1 hrest with ⟨htold, hsince⟩ | ⟨pre, b, post, u, v, rfl, hpre, hstep⟩
    · by_cases hbefore : s₀.Told m w
      · have hstill : Pool.stepWoken m w s₀ a = some s₁ := by
          unfold Pool.stepWoken
          rw [ha, filter_some_pos]
          exact decide_eq_true htold
        exact .inl ⟨hbefore, Machine.runActs_cons.mpr ⟨s₁, hstill, hsince⟩⟩
      · -- this action tells it
        exact .inr ⟨[], a, acts, s₀, s₁, rfl, rfl, ha, hbefore, htold,
          fun x hx hlt => h.told ha hbefore htold hx hlt, hsince⟩
    · exact .inr ⟨a :: pre, b, post, u, v, rfl, Machine.runActs_cons.mpr ⟨s₁, ha, hpre⟩, hstep⟩

/-- The slot of a release goes to the head of the list, if to anybody. -/
theorem release_to_head {model : String} {v : α} {w : Nat} (ha : s.step (.release model v) = some t)
    (hgiven : t.sys.given w ≠ s.sys.given w) : ∃ rest, s.sys.q.waitersOf model = w :: rest := by
  have hgave : t.sys.given =
      accepted s.sys.given v (s.sys.q.handoff model v).2 (s.sys.q.waitersOf model) := by
    simp only [Pool.step] at ha
    split at ha
    · obtain rfl := some.inj ha
      rfl
    · obtain rfl := some.inj ha
      rfl
  rw [hgave] at hgiven
  cases hws : s.sys.q.waitersOf model with
  | nil =>
    rw [hws] at hgiven
    cases hok : (s.sys.q.handoff model v).2 <;> rw [hok] at hgiven <;> exact absurd rfl hgiven
  | cons head rest =>
    rw [hws] at hgiven
    cases hok : (s.sys.q.handoff model v).2 with
    | false =>
      rw [hok] at hgiven
      exact absurd rfl hgiven
    | true =>
      rw [hok] at hgiven
      refine ⟨rest, ?_⟩
      by_contra hne
      have hw : w ≠ head := fun heq => hne (by rw [heq])
      exact hgiven (update_of_ne hw _ _)

/-- **Who is served when.** The list of a model is in the order of arrival. A hand-off goes to the
waiter that arrived first of those in the list. A waiter that finds a slot by its own routing was
told to route by an action of the run right after which every waiter still ahead of it was told to
route as well, and it has been told ever since. -/
theorem served_in_order {p : QueueParams} {free : String → Nat} {acts : List (RefreshAct α)}
    {s : Pool α} (hs : Machine.runActs Pool.stepRefresh (Pool.start p free) acts = some s) :
    (∀ m, (s.sys.q.waitersOf m).Pairwise (· < ·)) ∧
    (∀ model v t w, s.stepRefresh (.act (.release model v)) = some t →
      t.sys.given w ≠ s.sys.given w →
      w ∈ s.sys.q.waitersOf model ∧ ∀ x ∈ s.sys.q.waitersOf model, w ≤ x) ∧
    ∀ m w t, w ∈ s.sys.q.waitersOf m → s.stepRefresh (.act (.look w)) = some t →
      t.looked w = some true → ToldInOrder (Pool.start p free) acts m w s := by
  have hin := inOrder_of_reach (Machine.reach_of_runActs .refl acts hs)
  refine ⟨hin.sorted, fun model v t w ha hgiven => ?_, fun m w t hw ha _ => ?_⟩
  · obtain ⟨rest, hws⟩ := release_to_head ha hgiven
    have hsorted := hin.sorted model
    rw [hws] at hsorted ⊢
    refine ⟨mem_cons_self, fun x hx => ?_⟩
    rcases mem_cons.mp hx with rfl | hx
    · exact le_rfl
    · exact ((pairwise_cons.mp hsorted).1 x hx).le
  · have hrouting : s.sys.routing w = true := (ite_none_right_eq_some.mp ha).1.1
    have hleft := ((hin.queue.listed.waiters m).2 w hw).2.2
    have hwoken := ((hin.queue.waiter w).routes hrouting hleft).1
    -- nobody waits at the start
    refine (told_in_order (.start p free) hs ⟨hw, hwoken⟩).resolve_left fun hstart => ?_
    cases hstart.1.1

/-- The first waiter is told to route by a refresh, and while it routes a slot is released: the
second one is told to route too. -/
def overtakingRun : List (RefreshAct Nat) :=
  [.act (.enqueue "m" "" 0), .act (.enqueue "m" "" 1), .act (.wake "m" 1), .act (.recv 0),
    .act (.release "m" 7), .act (.recv 1)]

/-- The second waiter takes the slot while the first one is still in the queue. -/
theorem waiter_overtaken : ∃ s t : Pool Nat,
    Machine.Reach Pool.stepRefresh (Pool.start ⟨10, 0, 0⟩ fun _ => 0) s ∧
    s.sys.q.waitersOf "m" = [0, 1] ∧ s.stepRefresh (.act (.look 1)) = some t ∧
    t.looked 1 = some true ∧ t.sys.q.waitersOf "m" = [0, 1] := by
  obtain ⟨s, hs, hws, t, ht, hfound⟩ :
      ∃ s ∈ Machine.runActs Pool.stepRefresh (Pool.start ⟨10, 0, 0⟩ fun _ => 0) overtakingRun,
        s.sys.q.waitersOf "m" = [0, 1] ∧ ∃ t ∈ s.stepRefresh (.act (.look 1)),
          t.looked 1 = some true ∧ t.sys.q.waitersOf "m" = [0, 1] := by
    decide +kernel
  exact ⟨s, t, Machine.reach_of_runActs .refl overtakingRun hs, hws, ht, hfound⟩

/-- The waiter that was overtaken had been told to route when the other one was. -/
theorem served_in_order_overtaken : ∃ s t : Pool Nat,
    Machine.runActs Pool.stepRefresh (Pool.start ⟨10, 0, 0⟩ fun _ => 0) overtakingRun = some s ∧
    s.stepRefresh (.act (.look 1)) = some t ∧ t.looked 1 = some true ∧
    ToldInOrder (Pool.start ⟨10, 0, 0⟩ fun _ => 0) overtakingRun "m" 1 s := by
  obtain ⟨s, hs, hws, t, ht, hfound⟩ :
      ∃ s ∈ Machine.runActs Pool.stepRefresh (Pool.start ⟨10, 0, 0⟩ fun _ => 0) overtakingRun,
        s.sys.q.waitersOf "m" = [0, 1] ∧
            ∃ t ∈ s.stepRefresh (.act (.look 1)), t.looked 1 = some true := by
    decide +kernel
  exact ⟨s, t, hs, ht, hfound, (served_in_order hs).2.2 "m" 1 t (by rw [hws]; decide) ht hfound⟩

end ServerFlow.Resilience
