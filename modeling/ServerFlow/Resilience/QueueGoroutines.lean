import ServerFlow.Resilience.Queue

/-!
# Resilience.QueueGoroutines

The goroutines that share a queue, as a transition system. Every waiter is driven by one
goroutine, which calls `Park` or `Done` only when it is routing: after it received a `Reroute`,
or after a `Park` that returned true. It may leave at any time. `given` and `got` log, for each
waiter, the values accepted for it and the values it obtained.

All operations but the hand-off itself reach the waiters of a queue in one of two ways: they wake
idle ones (`Nudge`) or they unlink one (`Queue.unlink`). What an operation keeps is said for one
waiter (`WaiterOk`) and for the lists of the models (`Queue.Listed`).
-/

namespace ServerFlow.Resilience

open Function List AList

variable {α : Type} {self : Option Nat} {ws : List Nat}

/-! ### The goroutines -/

inductive QueueAct (α : Type)
  | enqueue (model tenant : String) (now : Time)
  | handoff (model : String) (value : α)
  | wake (model : String) (n : Int)
  /-- Read the channel. -/
  | recv (w : Nat)
  | park (w : Nat)
  | done (w : Nat)
  | leave (w : Nat)
  | flush (model : String)
  | close
  deriving Repr, DecidableEq

structure QueueSys (α : Type) where
  q : Queue α
  /-- The waiter's goroutine is routing. -/
  routing : Nat → Bool
  given : Nat → List α
  got : Nat → List α

def QueueSys.start (p : QueueParams) : QueueSys α :=
  ⟨newQueue p, fun _ => false, fun _ => [], fun _ => []⟩

/-- The value of a hand-off. -/
def Grant.value : Grant α → List α
  | .handoff v => [v]
  | _ => []

def Grant.isReroute : Grant α → Bool
  | .reroute => true
  | _ => false

/-- The values in a channel, or in the result of `Leave`. -/
def valueOf (g : Option (Grant α)) : List α := (g.map Grant.value).getD []

/-- Log values for a waiter. -/
def logged (log : Nat → List α) (w : Nat) (vs : List α) : Nat → List α :=
  update log w (log w ++ vs)

/-- The log after a `Handoff` of `v` that returned `ok` for a model with waiters `ws`. -/
def accepted (given : Nat → List α) (v : α) (ok : Bool) (ws : List Nat) : Nat → List α :=
  match ok, ws with
  | true, head :: _ => logged given head [v]
  | _, _ => given

/-- One step of one goroutine; `none` if it would block or break the protocol. -/
def QueueSys.step (s : QueueSys α) : QueueAct α → Option (QueueSys α)
  | .enqueue model tenant now => some { s with q := (s.q.enqueue model tenant now).1 }
  | .handoff model v =>
    let r := s.q.handoff model v
    some { s with
      q := r.1
      given := accepted s.given v r.2 (s.q.waitersOf model) }
  | .wake model n => some { s with q := (s.q.wake model n).1 }
  | .recv w =>
    if s.q.next ≤ w then none
    else
      match (s.q.heap w).ch with
      | none => none
      | some g =>
        some { s with
          q := s.q.drain w
          routing := update s.routing w g.isReroute
          got := logged s.got w g.value }
  | .park w =>
    if s.routing w then
      let r := s.q.park w
      some { s with q := r.1, routing := update s.routing w r.2 }
    else none
  | .done w =>
    -- what `leave` returns is dropped here
    if s.routing w then
      some { s with q := (s.q.leave w false).1, routing := update s.routing w false }
    else none
  | .leave w =>
    if s.q.next ≤ w then none
    else
      let r := s.q.leave w true
      some { s with q := r.1, got := logged s.got w (valueOf r.2) }
  | .flush model => some { s with q := s.q.flush model }
  | .close => some { s with q := s.q.close }

/-! ### What holds of every waiter -/

/-- One waiter, its goroutine and its logs. -/
structure WaiterOk (wtr : Waiter α) (routing : Bool) (given got : List α) : Prop where
  /-- A waiter in the queue has at most a `Reroute` to read, and only if it was woken. -/
  idle : wtr.left = false → wtr.woken = false → wtr.ch = none
  waiting : wtr.left = false → wtr.ch = none ∨ wtr.ch = some .reroute
  unserved : wtr.left = false → given = []
  routes : routing = true → wtr.left = false → wtr.woken = true ∧ wtr.ch = none
  called : wtr.left = false → wtr.woken = true → routing = true ∨ wtr.ch = some .reroute
  clear : routing = true → valueOf wtr.ch = []
  conserved : given = got ++ valueOf wtr.ch
  once : given.length ≤ 1

namespace WaiterOk

variable {wtr : Waiter α} {routing : Bool} {given got : List α}

section

variable (h : WaiterOk wtr routing given got)
include h

/-- An idle waiter is not routing. -/
theorem not_routing (hleft : wtr.left = false) (hidle : wtr.woken = false) : routing = false := by
  cases hr : routing with
  | false => rfl
  | true =>
    have := (h.routes hr hleft).1
    rw [hidle] at this
    cases this

/-- An idle waiter is told to route. -/
theorem nudge (hleft : wtr.left = false)
    (hidle : wtr.woken = false) :
    WaiterOk { wtr with woken := true, ch := some .reroute } routing given got := by
  have hr := h.not_routing hleft hidle
  have hch := h.idle hleft hidle
  have hgiven := h.conserved
  rw [hch] at hgiven
  refine ⟨nofun, fun _ => .inr rfl, h.unserved, fun hr' => ?_,
    fun _ _ => .inr rfl, fun hr' => ?_, hgiven, h.once⟩
  · rw [hr] at hr'
    cases hr'
  · rfl

/-- The waiter leaves the queue; its channel is as it was. -/
theorem unlink : WaiterOk { wtr with left := true, woken := false } routing given got :=
  ⟨nofun, nofun, nofun,
    nofun, nofun, h.clear, h.conserved, h.once⟩

/-- A waiter that left gets a grant, over one that carries no value. -/
theorem send (hleft : wtr.left = true) (hempty : valueOf wtr.ch = []) (g : Grant α)
    (hr : routing = true → g.value = []) (hlen : (given ++ g.value).length ≤ 1) :
    WaiterOk (wtr.send g) routing (given ++ g.value) got := by
  have hcons := h.conserved
  rw [hempty, append_nil] at hcons
  have hl : ∀ {P : Prop}, (wtr.send g).left = false → P := fun hl => by
    rw [show (wtr.send g).left = true from hleft] at hl
    cases hl
  exact ⟨hl, hl, hl, fun _ => hl, hl, hr, by rw [hcons]; rfl, hlen⟩

/-- The waiter's goroutine reads a `Reroute` while it is in the queue. -/
theorem reroute (hleft : wtr.left = false)
    (hch : wtr.ch = some .reroute) : WaiterOk { wtr with ch := none } true given got := by
  have hwoken : wtr.woken = true := by
    cases hw : wtr.woken with
    | true => rfl
    | false =>
      rw [h.idle hleft hw] at hch
      cases hch
  have hcons := h.conserved
  rw [hch] at hcons
  exact ⟨fun _ _ => rfl, fun _ => .inl rfl, h.unserved, fun _ _ => ⟨hwoken, rfl⟩,
    fun _ _ => .inl rfl, fun _ => rfl, hcons, h.once⟩

/-- The goroutine of a waiter that left stops routing. -/
theorem rest (hleft : wtr.left = true) : WaiterOk wtr false given got := by
  have hl : ∀ {P : Prop}, wtr.left = false → P := fun hl => by
    rw [hleft] at hl
    cases hl
  exact ⟨hl, hl, hl, fun h => (by cases h), hl, fun h => (by cases h), h.conserved, h.once⟩

end

/-- A waiter that was routing goes back to waiting. -/
theorem park (h : WaiterOk wtr true given got) (hleft : wtr.left = false) :
    WaiterOk { wtr with woken := false } false given got :=
  ⟨fun _ _ => (h.routes rfl hleft).2, h.waiting, h.unserved, fun h => (by cases h),
    fun _ h => (by cases h), fun h => (by cases h), h.conserved, h.once⟩

/-- A waiter that parked is told at once to route again. -/
theorem routeAgain (h : WaiterOk wtr false given got) (hleft : wtr.left = false)
    (hidle : wtr.woken = false) : WaiterOk { wtr with woken := true } true given got := by
  have hch := h.idle hleft hidle
  exact ⟨nofun, h.waiting, h.unserved, fun _ _ => ⟨rfl, hch⟩,
    fun _ _ => .inl rfl, fun _ => by show valueOf wtr.ch = []; rw [hch]; rfl, h.conserved, h.once⟩

/-- The waiter's goroutine reads its channel. -/
theorem drain (h : WaiterOk wtr routing given got) (hleft : wtr.left = true) (routing' : Bool) :
    WaiterOk { wtr with ch := none } routing' given (got ++ valueOf wtr.ch) := by
  have hl : ∀ {P : Prop}, wtr.left = false → P := fun hl => by
    rw [hleft] at hl
    cases hl
  exact ⟨hl, hl, hl, fun _ => hl, hl, fun _ => rfl, by rw [h.conserved]; simp [valueOf], h.once⟩

end WaiterOk

/-! ### Waking -/

/-- Some idle waiters of `ws` were woken: `self` without a word, the others with a `Reroute`. -/
def Nudge (self : Option Nat) (ws : List Nat) (heap heap' : Nat → Waiter α) : Prop :=
  ∀ w, heap' w = heap w ∨ w ∈ ws ∧ (heap w).woken = false ∧
    heap' w =
      if self = some w then { heap w with woken := true }
      else { heap w with woken := true, ch := some .reroute }

theorem Nudge.refl (self : Option Nat) (ws : List Nat) (heap : Nat → Waiter α) :
    Nudge self ws heap heap := fun _ => .inl rfl

/-- One idle waiter, then some others. -/
theorem Nudge.cons {heap heap' : Nat → Waiter α} {w : Nat}
    {wtr : Waiter α} (hw : w ∈ ws) (hidle : (heap w).woken = false) (hwoken : wtr.woken = true)
    (hwtr : wtr = if self = some w then { heap w with woken := true }
      else { heap w with woken := true, ch := some .reroute })
    (h : Nudge self ws (update heap w wtr) heap') : Nudge self ws heap heap' := by
  intro x
  have hx := h x
  by_cases hxw : x = w
  · subst hxw
    rw [update_self] at hx
    rcases hx with heq | ⟨-, hidle', -⟩
    · exact .inr ⟨hw, hidle, heq.trans hwtr⟩
    · rw [hwoken] at hidle'
      cases hidle'
  · rwa [update_of_ne hxw] at hx

/-- Waking changes neither a waiter's queue nor whether it is in it. -/
theorem Nudge.frame {heap heap' : Nat → Waiter α} (h : Nudge self ws heap heap') (w : Nat) :
    (heap' w).model = (heap w).model ∧ (heap' w).left = (heap w).left := by
  rcases h w with heq | ⟨-, -, heq⟩
  · rw [heq]
    exact ⟨rfl, rfl⟩
  · rw [heq]
    split <;> exact ⟨rfl, rfl⟩

/-- What `settle` does: it wakes idle waiters, it reports whether `self` is among them, and it
keeps credit only if nobody is idle. -/
theorem settle_spec (self : Option Nat) (ws : List Nat) (credit : Nat) (heap : Nat → Waiter α) :
    Nudge self ws heap (settle self ws credit heap).1 ∧
      (∀ w, self = some w → (settle self ws credit heap).2.2 = true →
        (heap w).woken = false ∧
          (settle self ws credit heap).1 w = { heap w with woken := true }) ∧
      (∀ w, self = some w → (settle self ws credit heap).2.2 = false →
        (settle self ws credit heap).1 w = heap w) ∧
      (0 < (settle self ws credit heap).2.1 →
        ∀ w ∈ ws, ((settle self ws credit heap).1 w).woken = true) := by
  induction credit generalizing heap with
  | zero => exact ⟨.refl _ _ _, nofun, fun _ _ _ => rfl, nofun⟩
  | succ credit ih =>
    simp only [settle]
    split
    next hnone =>
      refine ⟨.refl _ _ _, nofun, fun _ _ _ => rfl, fun _ w hw => ?_⟩
      simpa using List.find?_eq_none.mp hnone w hw
    next x hx =>
      have hmem := mem_of_find?_eq_some hx
      have hidle : (heap x).woken = false := by simpa using List.find?_some hx
      split
      next hself =>
        -- `self` is woken once, so the rest of the loop leaves it alone
        obtain ⟨hn, hyes, hno, hcredit⟩ := ih (update heap x { heap x with woken := true })
        refine ⟨hn.cons hmem hidle rfl (by rw [if_pos hself]), fun w hw _ => ?_,
          nofun, hcredit⟩
        obtain rfl : x = w := Option.some.inj (hself.symm.trans hw)
        refine ⟨hidle, ?_⟩
        cases hr : (settle self ws credit (update heap x { heap x with woken := true })).2.2 with
        | true =>
          have := (hyes x hw hr).1
          rw [update_self] at this
          cases this
        | false => rw [hno x hw hr, update_self]
      next hself =>
        obtain ⟨hn, hyes, hno, hcredit⟩ :=
          ih (update heap x (({ heap x with woken := true } : Waiter α).send .reroute))
        have hne : ∀ w, self = some w → w ≠ x := by
          intro w hw hwx
          exact hself (hwx ▸ hw)
        refine ⟨hn.cons hmem hidle rfl (by rw [if_neg hself]; rfl), fun w hw hr => ?_,
          fun w hw hr => ?_, hcredit⟩
        · have := hyes w hw hr
          rwa [update_of_ne (hne w hw)] at this
        · have := hno w hw hr
          rwa [update_of_ne (hne w hw)] at this

theorem wakeLoop_nudge (ws us : List Nat) (hsub : ∀ w ∈ us, w ∈ ws) (n : Nat)
    (heap : Nat → Waiter α) : Nudge none ws heap (wakeLoop us n heap).1 := by
  induction us generalizing n heap with
  | nil => exact .refl _ _ _
  | cons w us ih =>
    have hsub' : ∀ x ∈ us, x ∈ ws := fun x hx => hsub x (by simp [hx])
    cases n with
    | zero => exact .refl _ _ _
    | succ n =>
      simp only [wakeLoop]
      split
      · exact ih hsub' _ _
      next hidle =>
        exact (ih hsub' n _).cons (hsub w (by simp)) (by simpa using hidle) rfl rfl

/-! ### Queues and their waiters -/

/-- The lists hold waiters that have not left, each once and under its model. -/
def Queue.Listed (q : Queue α) : Prop :=
  ∀ m mq, q.models.lookup m = some mq → mq.waiters ≠ [] ∧ mq.waiters.Nodup ∧
    ∀ w ∈ mq.waiters, w < q.next ∧ (q.heap w).model = m ∧ (q.heap w).left = false

/-- Spend the credit of a model, with `extra` units more. -/
def Queue.settleModel (q : Queue α) (self : Option Nat) (m : String) (extra : Nat) : Queue α :=
  match q.models.lookup m with
  | none => q
  | some mq =>
    let r := settle self mq.waiters (mq.credit + extra) q.heap
    { q with heap := r.1, models := q.models.insert m { mq with credit := r.2.1 } }

/-- Take a waiter out of its queue without spending credit. -/
def Queue.unlink (q : Queue α) (w : Nat) : Queue α := q.leaveLocked w false false

/-- The three ways a hand-off ends: nobody waits, the head is routing and the slot becomes credit,
or the head is served. -/
theorem Queue.handoff_cases (q : Queue α) (model : String) (v : α) :
    q.waitersOf model = [] ∧ q.handoff model v = (q, false) ∨
    ∃ mq head rest, q.models.lookup model = some mq ∧ mq.waiters = head :: rest ∧
      ((q.heap head).woken = true ∧ q.handoff model v = (q.settleModel none model 1, false) ∨
        (q.heap head).woken = false ∧
          q.handoff model v = ((q.unlink head).send head (.handoff v), true)) := by
  unfold Queue.handoff Queue.waitersOf Queue.settleModel
  cases q.models.lookup model with
  | none => exact .inl ⟨rfl, rfl⟩
  | some mq =>
    cases hws : mq.waiters with
    | nil => exact .inl ⟨hws, by simp only [hws]⟩
    | cons head rest =>
      refine .inr ⟨mq, head, rest, rfl, hws, ?_⟩
      cases hwoken : (q.heap head).woken with
      | true => exact .inl ⟨rfl, by simp only [hws, hwoken, if_true]⟩
      | false => exact .inr ⟨rfl, by simp only [hws, hwoken]; rfl⟩

/-- `Park`: the waiter is idle again, and then the credit is spent. -/
theorem Queue.park_fst (q : Queue α) (w : Nat) : (q.park w).1 = if (q.heap w).left then q
    else ({ q with heap := update q.heap w { q.heap w with woken := false } } :
      Queue α).settleModel (some w) (q.heap w).model 0 := by
  unfold Queue.park Queue.settleModel
  dsimp only
  cases q.models.lookup (q.heap w).model <;> split <;> rfl

section Unlink

variable {q : Queue α} {w : Nat} {mq : ModelQueue}

/-- The waiter is not in the list of its model. -/
def Queue.Unlisted (q : Queue α) (w : Nat) : Prop :=
  ∀ mq, q.models.lookup (q.heap w).model = some mq → w ∉ mq.waiters

theorem Queue.mem_or_unlisted (q : Queue α) (w : Nat) :
    (∃ mq, q.models.lookup (q.heap w).model = some mq ∧ w ∈ mq.waiters) ∨ q.Unlisted w :=
  or_iff_not_imp_left.mpr fun h mq hmq hw => h ⟨mq, hmq, hw⟩

theorem leaveLocked_of_not_mem (h : q.Unlisted w) (settleAfter giveBack : Bool) :
    q.leaveLocked w settleAfter giveBack =
      { q with heap := update q.heap w { q.heap w with left := true, woken := false } } := by
  simp only [Queue.leaveLocked]
  split
  · rfl
  next mq hmq => rw [if_pos (h mq hmq)]

theorem unlink_of_mem (hmq : q.models.lookup (q.heap w).model = some mq) (hw : w ∈ mq.waiters) :
    q.unlink w =
      { q with
        heap := update q.heap w { q.heap w with left := true, woken := false }
        models :=
          if (mq.remove w (q.heap w).tenant).waiters = [] then q.models.erase (q.heap w).model
          else q.models.insert (q.heap w).model (mq.remove w (q.heap w).tenant) } := by
  simp only [Queue.unlink, Queue.leaveLocked, hmq, if_neg (not_not_intro hw), Bool.false_eq_true,
    if_false]
  split <;> rfl

/-- Leaving is unlinking and then, if asked for, spending the credit. -/
theorem leaveLocked_of_mem (hmq : q.models.lookup (q.heap w).model = some mq) (hw : w ∈ mq.waiters)
    (giveBack : Bool) :
    q.leaveLocked w true giveBack =
      (q.unlink w).settleModel none (q.heap w).model
        (if giveBack && (q.heap w).woken then 1 else 0) := by
  rw [unlink_of_mem hmq hw]
  simp only [Queue.leaveLocked, hmq, if_neg (not_not_intro hw), if_true, Queue.settleModel]
  split
  · simp
  · rw [lookup_insert]
    dsimp only
    rw [insert_insert]
    split <;> rfl

/-- The list of a waiter that is in some list is the one of its model. -/
theorem Queue.Listed.not_mem_other (h : q.Listed) (hw : q.Unlisted w) {m : String}
    (hmq : q.models.lookup m = some mq) : w ∉ mq.waiters := by
  intro hmem
  have hm := ((h m mq hmq).2.2 w hmem).2.1
  exact hw mq (by rw [hm]; exact hmq) hmem

theorem Queue.Listed.unlink (h : q.Listed) (w : Nat) : (q.unlink w).Listed := by
  have hother : ∀ {m : String} {mq : ModelQueue}, q.models.lookup m = some mq → w ∉ mq.waiters →
      mq.waiters ≠ [] ∧ mq.waiters.Nodup ∧ ∀ x ∈ mq.waiters, x < q.next ∧
        (update q.heap w { q.heap w with left := true, woken := false } x).model = m ∧
        (update q.heap w { q.heap w with left := true, woken := false } x).left = false := by
    intro m mq hmq hnot
    obtain ⟨hne, hnd, hall⟩ := h m mq hmq
    refine ⟨hne, hnd, fun x hx => ?_⟩
    rw [update_of_ne (show x ≠ w from fun hxw => hnot (hxw ▸ hx))]
    exact hall x hx
  rcases q.mem_or_unlisted w with ⟨mq, hmq, hw⟩ | hnot
  · rw [unlink_of_mem hmq hw]
    intro m mq' hmq'
    have hmodel : ∀ {mq'}, m ≠ (q.heap w).model → q.models.lookup m = some mq' →
        w ∉ mq'.waiters := by
      intro mq' hm hmq' hmem
      exact hm ((h m mq' hmq').2.2 w hmem).2.1.symm
    obtain ⟨hne, hnd, hall⟩ := h _ mq hmq
    dsimp only at hmq'
    split at hmq'
    · obtain ⟨hm, hmq'⟩ := of_lookup_erase hmq'
      exact hother hmq' (hmodel hm hmq')
    next hrest =>
      rcases of_lookup_insert hmq' with ⟨hm, rfl⟩ | ⟨hm, hmq'⟩
      · refine ⟨hrest, hnd.erase w, fun x hx => ?_⟩
        have hxw : x ≠ w := ((hnd.mem_erase_iff).mp hx).1
        dsimp only
        rw [update_of_ne hxw, hm]
        exact hall x (mem_of_mem_erase hx)
      · exact hother hmq' (hmodel hm hmq')
  · rw [Queue.unlink, leaveLocked_of_not_mem hnot]
    exact fun m mq hmq => hother hmq (h.not_mem_other hnot hmq)

/-- Waking changes no list. -/
theorem Queue.Listed.nudge (h : q.Listed)
    {heap : Nat → Waiter α} (hn : Nudge self ws q.heap heap) {models : GoMap String ModelQueue}
    (hmodels : ∀ m mq, models.lookup m = some mq →
      ∃ mq₀, q.models.lookup m = some mq₀ ∧ mq.waiters = mq₀.waiters) :
    Queue.Listed { q with heap := heap, models := models } := by
  intro m mq hmq
  obtain ⟨mq₀, hmq₀, hws⟩ := hmodels m mq hmq
  obtain ⟨hne, hnd, hall⟩ := h m mq₀ hmq₀
  rw [hws]
  refine ⟨hne, hnd, fun w hw => ?_⟩
  obtain ⟨hmodel, hleft⟩ := hn.frame w
  rw [show ({ q with heap := heap, models := models } : Queue α).heap w = heap w from rfl, hmodel,
    hleft]
  exact hall w hw

/-- The new waiter stands behind the ones its model already had. -/
theorem Queue.Listed.enqueue (h : q.Listed) (model tenant : String) (now : Time) :
    (q.enqueue model tenant now).1.Listed := by
  simp only [Queue.enqueue]
  split
  · exact h
  · have hold : ∀ x, x < q.next → update q.heap q.next
        ⟨model, tenant, now, none, false, false⟩ x = q.heap x := fun x hx =>
      update_of_ne (by omega) _ _
    intro m mq hmq
    change (q.models.insert model _).lookup m = some mq at hmq
    rcases of_lookup_insert hmq with ⟨hm, rfl⟩ | ⟨hm, hmq⟩
    · have hws : ((q.models.lookup model).getD ⟨[], ∅, 0⟩).waiters.Nodup ∧
          ∀ x ∈ ((q.models.lookup model).getD ⟨[], ∅, 0⟩).waiters,
            x < q.next ∧ (q.heap x).model = model ∧ (q.heap x).left = false := by
        cases hlook : q.models.lookup model with
        | none => exact ⟨nodup_nil, nofun⟩
        | some mq₀ => exact (h model mq₀ hlook).2
      refine ⟨by simp [ModelQueue.pushBack], ?_, fun x hx => ?_⟩
      · refine List.Nodup.append hws.1 (nodup_singleton _) ?_
        intro x hx hx'
        have := (hws.2 x hx).1
        rw [mem_singleton] at hx'
        omega
      · rcases List.mem_append.mp hx with hx | hx
        · have hlt := (hws.2 x hx).1
          dsimp only
          rw [hold x hlt, hm]
          exact ⟨by omega, (hws.2 x hx).2⟩
        · rw [mem_singleton] at hx
          subst hx
          dsimp only
          rw [update_self]
          exact ⟨by omega, hm.symm, rfl⟩
    next =>
      obtain ⟨hne, hnd, hall⟩ := h m mq hmq
      refine ⟨hne, hnd, fun x hx => ?_⟩
      have hlt := (hall x hx).1
      dsimp only
      rw [hold x hlt]
      exact ⟨by omega, (hall x hx).2⟩

end Unlink

/-- The heap after unlinking. -/
theorem unlink_heap (q : Queue α) (w : Nat) : (q.unlink w).heap =
    update q.heap w { q.heap w with left := true, woken := false } ∧
      (q.unlink w).next = q.next := by
  rcases q.mem_or_unlisted w with ⟨mq, hmq, hw⟩ | hnot
  · rw [unlink_of_mem hmq hw]
    exact ⟨rfl, rfl⟩
  · rw [Queue.unlink, leaveLocked_of_not_mem hnot]
    exact ⟨rfl, rfl⟩

end ServerFlow.Resilience
