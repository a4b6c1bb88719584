import ServerFlow.Resilience.QueueGoroutines

/-!
# Resilience.QueueInvariant

What holds in every state that the goroutines of a queue reach: `WaiterOk` of every waiter, and
`Listed` of the queue. One lemma for each operation, then one for every run
(`queueOk_of_reach`).
-/

namespace ServerFlow.Resilience

open Function Option

variable {α : Type} {models : GoMap String ModelQueue}

/-- The invariant of the goroutines. -/
structure QueueOk (s : QueueSys α) : Prop where
  waiter : ∀ w, WaiterOk (s.q.heap w) (s.routing w) (s.given w) (s.got w)
  fresh : ∀ w, s.q.next ≤ w → s.routing w = false ∧ s.given w = [] ∧ s.got w = []
  listed : s.q.Listed

theorem queueOk_start (p : QueueParams) : QueueOk (QueueSys.start p : QueueSys α) := by
  refine ⟨fun w => ?_, fun w _ => ⟨rfl, rfl, rfl⟩, fun m mq hmq => ?_⟩
  · exact ⟨fun _ _ => rfl, fun _ => .inl rfl, fun _ => rfl, nofun,
      nofun, fun _ => rfl, rfl, Nat.zero_le _⟩
  · rw [show (QueueSys.start p : QueueSys α).q.models = ∅ from rfl, AList.lookup_empty] at hmq
    cases hmq

namespace QueueOk

variable {s : QueueSys α}

/-- Idle waiters of the queues are woken. -/
theorem nudge (h : QueueOk s) {m : String} {mq : ModelQueue} (hmq : s.q.models.lookup m = some mq)
    {heap : Nat → Waiter α} (hn : Nudge none mq.waiters s.q.heap heap)
    (hmodels : ∀ m mq, models.lookup m = some mq →
      ∃ mq₀, s.q.models.lookup m = some mq₀ ∧ mq.waiters = mq₀.waiters) :
    QueueOk { s with q := { s.q with heap := heap, models := models } } := by
  refine ⟨fun w => ?_, h.fresh, h.listed.nudge hn hmodels⟩
  show WaiterOk (heap w) _ _ _
  rcases hn w with heq | ⟨hw, hidle, heq⟩
  · rw [heq]
    exact h.waiter w
  · rw [heq, if_neg (by simp)]
    exact (h.waiter w).nudge ((h.listed m mq hmq).2.2 w hw).2.2 hidle

/-- The credit of a model changes. -/
theorem lookup_credit {m : String} {mq : ModelQueue}
    (hmq : models.lookup m = some mq) (credit : Nat) (m' : String) (mq' : ModelQueue)
    (h : (models.insert m { mq with credit := credit }).lookup m' = some mq') :
    ∃ mq₀, models.lookup m' = some mq₀ ∧ mq'.waiters = mq₀.waiters := by
  rcases AList.of_lookup_insert h with ⟨rfl, rfl⟩ | ⟨-, h⟩
  · exact ⟨mq, hmq, rfl⟩
  · exact ⟨mq', h, rfl⟩

theorem settleModel (h : QueueOk s) (m : String) (extra : Nat) :
    QueueOk { s with q := s.q.settleModel none m extra } := by
  simp only [Queue.settleModel]
  split
  · exact h
  next mq hmq =>
    exact h.nudge hmq (settle_spec none mq.waiters (mq.credit + extra) s.q.heap).1
      (lookup_credit hmq _)

theorem unlink (h : QueueOk s) (w : Nat) : QueueOk { s with q := s.q.unlink w } := by
  have hheap := unlink_heap s.q w
  refine ⟨fun x => ?_, fun x hx => h.fresh x (hheap.2 ▸ hx), h.listed.unlink w⟩
  show WaiterOk ((s.q.unlink w).heap x) _ _ _
  rw [hheap.1]
  by_cases hx : x = w
  · subst hx
    rw [update_self]
    exact (h.waiter x).unlink
  · rw [update_of_ne hx]
    exact h.waiter x

variable {w : Nat}

section

variable (h : QueueOk s)
include h

/-- One waiter, its goroutine and its logs change, but not its place. -/
theorem at_waiter (hw : w < s.q.next) {wtr : Waiter α} {routing : Bool}
    {given got : List α} (hok : WaiterOk wtr routing given got)
    (hmodel : wtr.model = (s.q.heap w).model) (hleft : wtr.left = (s.q.heap w).left) :
    QueueOk ⟨{ s.q with heap := update s.q.heap w wtr }, update s.routing w routing,
      update s.given w given, update s.got w got⟩ := by
  refine ⟨fun x => ?_, fun x hx => ?_, fun m mq hmq => ?_⟩
  · dsimp only
    by_cases hx : x = w
    · subst hx
      simp only [update_self]
      exact hok
    · simp only [update_of_ne hx]
      exact h.waiter x
  · have hne : x ≠ w := by
      have : s.q.next ≤ x := hx
      omega
    simp only [update_of_ne hne]
    exact h.fresh x hx
  · obtain ⟨hne, hnd, hall⟩ := h.listed m mq hmq
    refine ⟨hne, hnd, fun x hx => ?_⟩
    dsimp only
    by_cases hxw : x = w
    · subst hxw
      rw [update_self, hmodel, hleft]
      exact hall x hx
    · rw [update_of_ne hxw]
      exact hall x hx

theorem lt_next (hw : s.routing w = true) : w < s.q.next := by
  by_contra hge
  rw [(h.fresh w (not_lt.mp hge)).1] at hw
  cases hw

/-! ### Steps -/

theorem enqueue (model tenant : String) (now : Time) :
    QueueOk { s with q := (s.q.enqueue model tenant now).1 } := by
  have hlisted := h.listed.enqueue model tenant now
  simp only [Queue.enqueue] at hlisted ⊢
  split
  · exact h
  next hrefuse =>
    rw [hrefuse] at hlisted
    obtain ⟨hr, hgiven, hgot⟩ := h.fresh s.q.next le_rfl
    refine ⟨fun x => ?_, fun x hx => h.fresh x (by have : s.q.next + 1 ≤ x := hx; omega), hlisted⟩
    dsimp only
    by_cases hx : x = s.q.next
    · subst hx
      rw [update_self, hr, hgiven, hgot]
      exact ⟨fun _ _ => rfl, fun _ => .inl rfl, fun _ => rfl, fun h => (by cases h),
        fun _ h => (by cases h), fun _ => rfl, rfl, Nat.zero_le _⟩
    · rw [update_of_ne hx]
      exact h.waiter x

theorem wake (model : String) (n : Int) : QueueOk { s with q := (s.q.wake model n).1 } := by
  simp only [Queue.wake]
  split
  · exact h
  next mq hmq =>
    exact h.nudge hmq (wakeLoop_nudge mq.waiters mq.waiters (fun _ hw => hw) n.toNat s.q.heap)
      fun _ mq' hmq' => ⟨mq', hmq', rfl⟩

/-- A waiter of a queue is unlinked and gets a grant. -/
theorem unlink_send (hw : w < s.q.next) (hleft : (s.q.heap w).left = false)
    (g : Grant α) (hr : s.routing w = true → g.value = []) :
    QueueOk { s with
      q := (s.q.unlink w).send w g
      given := update s.given w (s.given w ++ g.value) } := by
  have hu := h.unlink w
  obtain ⟨hheap, hnext⟩ := unlink_heap s.q w
  have hwtr : (s.q.unlink w).heap w = { s.q.heap w with left := true, woken := false } := by
    rw [hheap, update_self]
  have hempty : valueOf ((s.q.unlink w).heap w).ch = [] := by
    rw [hwtr]
    rcases (h.waiter w).waiting hleft with hch | hch <;> rw [hch] <;> rfl
  have hlen : (s.given w ++ g.value).length ≤ 1 := by
    rw [(h.waiter w).unserved hleft]
    cases g <;> simp [Grant.value]
  have hok := (hu.waiter w).send (by rw [hwtr]) hempty g hr hlen
  have hsent := hu.at_waiter (w := w) (hnext ▸ hw) hok rfl rfl
  simpa only [Queue.send, update_eq_self] using hsent

theorem handoff (model : String) (v : α) :
    QueueOk { s with
      q := (s.q.handoff model v).1
      given := accepted s.given v (s.q.handoff model v).2 (s.q.waitersOf model) } := by
  rcases s.q.handoff_cases model v with
    ⟨-, heq⟩ | ⟨mq, head, rest, hmq, hws, ⟨-, heq⟩ | ⟨hidle, heq⟩⟩ <;> rw [heq]
  · exact h
  · exact h.settleModel model 1
  · have hhead := (h.listed model mq hmq).2.2 head (by rw [hws]; simp)
    rw [show s.q.waitersOf model = head :: rest by simp [Queue.waitersOf, hmq, hws]]
    exact h.unlink_send hhead.1 hhead.2.2 (.handoff v) fun hr => by
      rw [(h.waiter head).not_routing hhead.2.2 hidle] at hr
      cases hr

theorem flushAll (ws : List Nat) (hnd : ws.Nodup)
    (hws : ∀ w ∈ ws, w < s.q.next ∧ (s.q.heap w).left = false) :
    QueueOk { s with q := s.q.flushAll ws } := by
  induction ws generalizing s with
  | nil => exact h
  | cons w ws ih =>
    obtain ⟨hw, hnd⟩ := List.nodup_cons.mp hnd
    obtain ⟨hlt, hleft⟩ := hws w (by simp)
    have hone := h.unlink_send hlt hleft .flushed fun _ => rfl
    simp only [Grant.value, List.append_nil, update_eq_self] at hone
    obtain ⟨hheap, hnext⟩ := unlink_heap s.q w
    refine ih hone hnd fun x hx => ?_
    have hne : x ≠ w := fun hxw => hw (hxw ▸ hx)
    obtain ⟨hxlt, hxleft⟩ := hws x (by simp [hx])
    refine ⟨by show x < (s.q.unlink w).next; rw [hnext]; exact hxlt, ?_⟩
    show (update (s.q.unlink w).heap w _ x).left = false
    rw [update_of_ne hne, hheap, update_of_ne hne]
    exact hxleft

theorem flush (model : String) : QueueOk { s with q := s.q.flush model } := by
  have hfold : ∀ (ms : List String) {s : QueueSys α}, QueueOk s →
      QueueOk { s with q := ms.foldl (fun q m => q.flushAll (q.waitersOf m)) s.q } := by
    intro ms
    induction ms with
    | nil => exact fun h => h
    | cons m ms ih =>
      intro s h
      refine ih (s := { s with q := s.q.flushAll (s.q.waitersOf m) }) ?_
      cases hmq : s.q.models.lookup m with
      | none =>
        rw [show s.q.waitersOf m = [] by simp [Queue.waitersOf, hmq]]
        exact h
      | some mq =>
        rw [show s.q.waitersOf m = mq.waiters by simp [Queue.waitersOf, hmq]]
        obtain ⟨-, hnd, hall⟩ := h.listed m mq hmq
        exact h.flushAll mq.waiters hnd fun w hw => ⟨(hall w hw).1, (hall w hw).2.2⟩
  exact hfold _ h

theorem recv (hw : w < s.q.next) {g : Grant α}
    (hch : (s.q.heap w).ch = some g) :
    QueueOk { s with
      q := s.q.drain w
      routing := update s.routing w g.isReroute
      got := logged s.got w g.value } := by
  have hvalue : valueOf (s.q.heap w).ch = g.value := by rw [hch]; rfl
  have hok : WaiterOk { s.q.heap w with ch := none } g.isReroute (s.given w)
      (s.got w ++ g.value) := by
    cases hleft : (s.q.heap w).left with
    | true =>
      rw [← hvalue]
      exact (h.waiter w).drain hleft _
    | false =>
      -- in the queue there is nothing but a `Reroute` to read
      obtain rfl : g = .reroute := by
        rcases (h.waiter w).waiting hleft with hn | hr
        · rw [hn] at hch
          cases hch
        · exact some.inj (hch.symm.trans hr)
      rw [show (Grant.reroute : Grant α).value = [] from rfl, List.append_nil]
      exact (h.waiter w).reroute hleft hch
  have := h.at_waiter hw hok rfl rfl
  simpa only [Queue.drain, logged, update_eq_self] using this

theorem park (hr : s.routing w = true) :
    QueueOk { s with q := (s.q.park w).1, routing := update s.routing w (s.q.park w).2 } := by
  have hw := h.lt_next hr
  have hwok := h.waiter w
  rw [hr] at hwok
  cases hleft : (s.q.heap w).left with
  | true =>
    simp only [Queue.park, hleft, if_true]
    have := h.at_waiter hw (hwok.rest hleft) rfl rfl
    simpa only [update_eq_self] using this
  | false =>
    have hparked := h.at_waiter hw (hwok.park hleft) rfl rfl
    simp only [update_eq_self] at hparked
    simp only [Queue.park]
    rw [if_neg (show ¬ (s.q.heap w).left = true by simp [hleft])]
    split
    · exact hparked
    next mq hmq =>
      obtain ⟨hn, hyes, hno, -⟩ := settle_spec (some w) mq.waiters mq.credit
        (update s.q.heap w { s.q.heap w with woken := false })
      dsimp only
      refine ⟨fun x => ?_, fun x hx => ?_, hparked.listed.nudge hn (lookup_credit hmq _)⟩
      · dsimp only
        have hx := hparked.waiter x
        by_cases hxw : x = w
        · subst hxw
          simp only [update_self] at hx ⊢
          cases hself : (settle (some x) mq.waiters mq.credit
              (update s.q.heap x { s.q.heap x with woken := false })).2.2 with
          | true =>
            rw [(hyes x rfl hself).2, update_self]
            exact hx.routeAgain hleft rfl
          | false =>
            rw [hno x rfl hself, update_self]
            exact hx
        · simp only [update_of_ne hxw] at hx ⊢
          rcases hn x with heq | ⟨hmem, hidle, heq⟩
          · rw [heq, update_of_ne hxw]
            exact hx
          · rw [heq, if_neg (fun hs => hxw (some.inj hs).symm), update_of_ne hxw]
            rw [update_of_ne hxw] at hidle
            exact hx.nudge ((h.listed _ mq hmq).2.2 x hmem).2.2 hidle
      · have hne : x ≠ w := by
          have : s.q.next ≤ x := hx
          omega
        simp only [update_of_ne hne]
        exact h.fresh x hx

/-- A waiter takes itself out of its queue. -/
theorem leaveLocked (w : Nat) (giveBack : Bool) :
    QueueOk { s with q := s.q.leaveLocked w true giveBack } ∧
      ((s.q.leaveLocked w true giveBack).heap w).left = true ∧
      (s.q.leaveLocked w true giveBack).next = s.q.next := by
  rcases s.q.mem_or_unlisted w with ⟨mq, hmq, hw⟩ | hnot
  · rw [leaveLocked_of_mem hmq hw]
    refine ⟨(h.unlink w).settleModel _ _, ?_⟩
    obtain ⟨hheap, hnext⟩ := unlink_heap s.q w
    have hwtr : ((s.q.unlink w).heap w).left = true := by rw [hheap, update_self]
    simp only [Queue.settleModel]
    split
    · exact ⟨hwtr, hnext⟩
    next mq' _ =>
      have hn := (settle_spec none mq'.waiters
        (mq'.credit + if giveBack && (s.q.heap w).woken then 1 else 0) (s.q.unlink w).heap).1
      exact ⟨(hn.frame w).2.trans hwtr, hnext⟩
  · have hu := h.unlink w
    rw [Queue.unlink, leaveLocked_of_not_mem hnot] at hu
    rw [leaveLocked_of_not_mem hnot]
    exact ⟨hu, by simp, rfl⟩

end

/-- A filter that keeps hand-offs keeps the value. -/
theorem valueOf_filter (ch : Option (Grant α)) (keep : Grant α → Bool)
    (hkeep : ∀ v, keep (.handoff v) = true) : valueOf (ch.filter keep) = valueOf ch := by
  cases ch with
  | none => rfl
  | some g =>
    cases hk : keep g with
    | true => rw [filter_some_pos hk]
    | false =>
      rw [filter_some_neg (by simpa using hk)]
      cases g with
      | handoff v =>
        rw [hkeep] at hk
        cases hk
      | reroute => rfl
      | flushed => rfl

/-- `leave` empties the channel, and what it returns is the value that was there. -/
theorem leave (h : QueueOk s) (hw : w < s.q.next) (giveBack : Bool) :
    QueueOk { s with
      q := (s.q.leave w giveBack).1
      got := logged s.got w (valueOf (s.q.leave w giveBack).2) } ∧
      ((s.q.leave w giveBack).1.heap w).ch = none ∧
      ((s.q.leave w giveBack).1.heap w).left = true ∧ (s.q.leave w giveBack).1.next = s.q.next := by
  have hdrain : ∀ {s : QueueSys α}, QueueOk s → w < s.q.next → (s.q.heap w).left = true →
      QueueOk { s with q := s.q.drain w, got := logged s.got w (valueOf (s.q.heap w).ch) } := by
    intro s h hw hleft
    have := h.at_waiter hw ((h.waiter w).drain hleft (s.routing w)) rfl rfl
    simpa only [Queue.drain, logged, update_eq_self] using this
  cases hleft : (s.q.heap w).left with
  | true =>
    have := hdrain h hw hleft
    simp only [Queue.leave, hleft, Bool.not_true, Bool.false_eq_true, if_false]
    rw [valueOf_filter _ _ fun _ => rfl]
    exact ⟨this, by simp [Queue.drain], by simp [Queue.drain, hleft], rfl⟩
  | false =>
    obtain ⟨hl, hleft', hnext⟩ := h.leaveLocked w giveBack
    have := hdrain hl (hnext ▸ hw) hleft'
    simp only [Queue.leave, hleft, Bool.not_false, if_true]
    rw [valueOf_filter _ _ fun _ => rfl]
    exact ⟨this, by simp [Queue.drain], by simp [Queue.drain, hleft'], hnext⟩

/-- `Done` drops what `leave` returns, and nothing is lost by that: the waiter was routing. -/
theorem done (h : QueueOk s) (hr : s.routing w = true) :
    QueueOk { s with q := (s.q.leave w false).1, routing := update s.routing w false } := by
  have hw := h.lt_next hr
  obtain ⟨hl, hch, hleft, hnext⟩ := h.leave hw false
  have hnone : s.got w ++ valueOf (s.q.leave w false).2 = s.got w := by
    have hcons : s.given w = logged s.got w (valueOf (s.q.leave w false).2) w ++
      valueOf ((s.q.leave w false).1.heap w).ch := (hl.waiter w).conserved
    rw [hch, logged, update_self, (h.waiter w).conserved, (h.waiter w).clear hr] at hcons
    simpa [valueOf] using hcons.symm
  have hgot : logged s.got w (valueOf (s.q.leave w false).2) = s.got := by
    rw [logged, hnone, update_eq_self]
  rw [hgot] at hl
  have hrest := hl.at_waiter (w := w) (hnext ▸ hw) ((hl.waiter w).rest hleft) rfl rfl
  simpa only [update_eq_self] using hrest

theorem step {t : QueueSys α} (h : QueueOk s) {a : QueueAct α} (ha : s.step a = some t) :
    QueueOk t := by
  revert ha
  fun_cases QueueSys.step s a <;> intro ha <;> cases ha
  next model tenant now => exact h.enqueue model tenant now
  next model v _ => exact h.handoff model v
  next model n => exact h.wake model n
  next hw g hch => exact h.recv (not_le.mp hw) hch
  next hr _ => exact h.park hr
  next hr => exact h.done hr
  next hw _ => exact (h.leave (not_le.mp hw) true).1
  next model => exact h.flush model
  next => exact ⟨h.waiter, h.fresh, h.listed⟩

end QueueOk

theorem queueOk_of_reach {p : QueueParams} {s : QueueSys α}
    (h : Machine.Reach QueueSys.step (QueueSys.start p) s) : QueueOk s :=
  h.invariant (queueOk_start p) fun _ _ _ hs ha => hs.step ha

end ServerFlow.Resilience
