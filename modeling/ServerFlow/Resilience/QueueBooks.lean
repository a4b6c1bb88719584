import ServerFlow.Resilience.QueueCredit

/-!
# Resilience.QueueBooks

The bookkeeping of a queue: how deep the lists are, how many waiters a tenant holds, which models
have a list. Here the operations come from anybody and in any order: a `Park`, a `Done` or a `Leave`
is not bound to a waiter that is routing, only to one that exists.

An operation changes the books in two places, where a waiter is put at a tail (`Enqueue`) and where
one is unlinked. Everything else keeps them as they are (`SameBooks`).
-/

namespace ServerFlow.Resilience

open List Option Function AList

variable {α : Type} {p : QueueParams} {q q' : Queue α} {w : Nat} {mq : ModelQueue} {tenant : String}
  {ws : List Nat}

/-- One operation, by anybody, on any waiter that exists. -/
def Queue.act (q : Queue α) : QueueAct α → Option (Queue α)
  | .enqueue model tenant now => some (q.enqueue model tenant now).1
  | .handoff model v => some (q.handoff model v).1
  | .wake model n => some (q.wake model n).1
  | .recv w => if w < q.next then some (q.drain w) else none
  | .park w => if w < q.next then some (q.park w).1 else none
  | .done w => if w < q.next then some (q.leave w false).1 else none
  | .leave w => if w < q.next then some (q.leave w true).1 else none
  | .flush model => some (q.flush model)
  | .close => some q.close

/-- How many of the waiters are of a tenant. -/
def heldBy (heap : Nat → Waiter α) (ws : List Nat) (tenant : String) : Nat :=
  ws.countP fun w => decide ((heap w).tenant = tenant)

/-- The entry of `tenants` for a tenant with `n` waiters: none for `""` and for zero. -/
def entryFor (tenant : String) (n : Nat) : Option Int :=
  if tenant = "" ∨ n = 0 then none else some n

theorem entryFor_empty (n : Nat) : entryFor "" n = none := if_pos (.inl rfl)

theorem entryFor_zero (tenant : String) : entryFor tenant 0 = none := if_pos (.inr rfl)

theorem entryFor_some (ht : tenant ≠ "") {n : Nat} (hn : n ≠ 0) :
    entryFor tenant n = some (n : Int) := if_neg fun hor => hor.elim ht hn

/-- The books of one model's queue. -/
structure ModelQueue.Booked (p : QueueParams) (heap : Nat → Waiter α) (mq : ModelQueue) : Prop where
  depth : (mq.waiters.length : Int) ≤ p.maxModelDepth
  tenants : ∀ t, mq.tenants.lookup t = entryFor t (heldBy heap mq.waiters t)
  share : 0 < p.tenantCap → ∀ t, t ≠ "" → (heldBy heap mq.waiters t : Int) ≤ p.tenantCap

/-- The books of a queue. -/
structure Queue.Booked (p : QueueParams) (q : Queue α) : Prop where
  params : q.p = p
  listed : q.Listed
  linked : ∀ w, w < q.next → (q.heap w).left = false → w ∈ q.waitersOf (q.heap w).model
  queues : ∀ m mq, q.models.lookup m = some mq → mq.Booked p q.heap
  models : 0 < p.maxModels → (q.models.len : Int) ≤ p.maxModels

theorem Queue.Booked.start (p : QueueParams) : (newQueue p : Queue α).Booked p := by
  have hnone : ∀ m, (newQueue p : Queue α).models.lookup m = none := fun m => lookup_empty m
  refine ⟨rfl, fun m mq hmq => ?_, nofun, fun m mq hmq => ?_, fun hpos => ?_⟩
  · rw [hnone] at hmq
    cases hmq
  · rw [hnone] at hmq
    cases hmq
  · exact hpos.le

/-! ### Operations that keep the books -/

/-- The lists, the tenants and where the waiters stand are the same. -/
structure Queue.SameBooks (q q' : Queue α) : Prop where
  params : q'.p = q.p
  next : q'.next = q.next
  waiter : ∀ w, (q'.heap w).model = (q.heap w).model ∧ (q'.heap w).tenant = (q.heap w).tenant ∧
    (q'.heap w).left = (q.heap w).left
  lookup : ∀ m, (q'.models.lookup m).map (fun mq => (mq.waiters, mq.tenants)) =
    (q.models.lookup m).map fun mq => (mq.waiters, mq.tenants)
  len : q'.models.len = q.models.len

theorem heldBy_congr {heap heap' : Nat → Waiter α}
    (h : ∀ w ∈ ws, (heap' w).tenant = (heap w).tenant) (t : String) :
    heldBy heap' ws t = heldBy heap ws t := by
  refine countP_congr fun w hw => ?_
  rw [h w hw]

/-- The books of a model say nothing of the credit, nor of what else the waiters hold. -/
theorem ModelQueue.Booked.congr {heap heap' : Nat → Waiter α} {mq' : ModelQueue}
    (h : mq.Booked p heap) (hws : mq'.waiters = mq.waiters) (htenants : mq'.tenants = mq.tenants)
    (hheap : ∀ w ∈ mq.waiters, (heap' w).tenant = (heap w).tenant) : mq'.Booked p heap' := by
  refine ⟨by rw [hws]; exact h.depth, fun t => ?_, fun hcap t ht => ?_⟩
  · rw [hws, htenants, heldBy_congr hheap]
    exact h.tenants t
  · rw [hws, heldBy_congr hheap]
    exact h.share hcap t ht

theorem Queue.SameBooks.of_lookup (h : q.SameBooks q') {m : String} {mq' : ModelQueue}
    (hmq : q'.models.lookup m = some mq') : ∃ mq, q.models.lookup m = some mq ∧
      mq'.waiters = mq.waiters ∧ mq'.tenants = mq.tenants := by
  have hlook := h.lookup m
  rw [hmq, map_some] at hlook
  obtain ⟨mq, hmq, heq⟩ := map_eq_some_iff.mp hlook.symm
  obtain ⟨hws, htenants⟩ := Prod.mk.inj heq
  exact ⟨mq, hmq, hws.symm, htenants.symm⟩

theorem Queue.SameBooks.waitersOf (h : q.SameBooks q') (m : String) :
    q'.waitersOf m = q.waitersOf m := by
  have hlook := congrArg (Option.map Prod.fst) (h.lookup m)
  rw [Option.map_map, Option.map_map] at hlook
  exact congrArg (Option.getD · []) hlook

theorem Queue.Booked.same (h : q.Booked p) (hsame : q.SameBooks q') : q'.Booked p := by
  refine ⟨hsame.params.trans h.params, fun m mq' hmq' => ?_, fun w hw hleft => ?_,
    fun m mq' hmq' => ?_, fun hpos => ?_⟩
  · obtain ⟨mq, hmq, hws, -⟩ := hsame.of_lookup hmq'
    obtain ⟨hne, hnd, hall⟩ := h.listed m mq hmq
    rw [hws]
    refine ⟨hne, hnd, fun w hw => ?_⟩
    obtain ⟨hmodel, -, hleft⟩ := hsame.waiter w
    rw [hsame.next, hmodel, hleft]
    exact hall w hw
  · obtain ⟨hmodel, -, hleft'⟩ := hsame.waiter w
    rw [hsame.waitersOf, hmodel]
    exact h.linked w (hsame.next ▸ hw) (hleft' ▸ hleft)
  · obtain ⟨mq, hmq, hws, htenants⟩ := hsame.of_lookup hmq'
    exact (h.queues m mq hmq).congr hws htenants fun w _ => (hsame.waiter w).2.1
  · rw [hsame.len]
    exact h.models hpos

/-- Waiters are woken, and the credit of a model changes. -/
theorem Queue.SameBooks.nudge {self : Option Nat} {heap : Nat → Waiter α}
    {m : String} (hmq : q.models.lookup m = some mq) (hn : Nudge self ws q.heap heap)
    (credit : Nat) :
    q.SameBooks { q with heap := heap, models := q.models.insert m { mq with credit := credit } } := by
  refine ⟨rfl, rfl, fun w => ?_, fun m' => ?_, len_insert_of_lookup hmq _⟩
  · show (heap w).model = _ ∧ (heap w).tenant = _ ∧ (heap w).left = _
    rcases hn w with heq | ⟨-, -, heq⟩
    · rw [heq]
      exact ⟨rfl, rfl, rfl⟩
    · rw [heq]
      split <;> exact ⟨rfl, rfl, rfl⟩
  · dsimp only
    rw [lookup_insert_ite]
    split
    next hm => rw [hm, hmq, map_some, map_some]
    next => rfl

/-- What a waiter holds changes, but not where it stands. -/
theorem Queue.SameBooks.heap (q : Queue α) (w : Nat) {wtr : Waiter α}
    (hwtr : wtr.model = (q.heap w).model ∧ wtr.tenant = (q.heap w).tenant ∧
      wtr.left = (q.heap w).left) :
    q.SameBooks { q with heap := update q.heap w wtr } := by
  refine ⟨rfl, rfl, fun x => ?_, fun _ => rfl, rfl⟩
  dsimp only
  by_cases hx : x = w
  · subst hx
    rw [update_self]
    exact hwtr
  · rw [update_of_ne hx]
    exact ⟨rfl, rfl, rfl⟩

section

variable (h : q.Booked p)
include h

theorem Queue.Booked.send (w : Nat) (g : Grant α) : (q.send w g).Booked p :=
  h.same (.heap q w ⟨rfl, rfl, rfl⟩)

theorem Queue.Booked.drain (w : Nat) : (q.drain w).Booked p :=
  h.same (.heap q w ⟨rfl, rfl, rfl⟩)

theorem Queue.Booked.settleModel (self : Option Nat) (m : String) (extra : Nat) :
    (q.settleModel self m extra).Booked p := by
  simp only [Queue.settleModel]
  split
  · exact h
  next mq hmq => exact h.same (.nudge hmq (settle_spec self mq.waiters _ q.heap).1 _)

theorem Queue.Booked.wake (model : String) (n : Int) : (q.wake model n).1.Booked p := by
  simp only [Queue.wake]
  split
  · exact h
  next mq hmq =>
    have hn := wakeLoop_nudge mq.waiters mq.waiters (fun _ hw => hw) n.toNat q.heap
    have hsame := h.same (.nudge hmq hn mq.credit)
    refine hsame.same ⟨rfl, rfl, fun _ => ⟨rfl, rfl, rfl⟩, fun m => ?_,
      (len_insert_of_lookup hmq _).symm⟩
    dsimp only
    rw [lookup_insert_ite]
    split
    next hm => rw [hm, hmq]
    next => rfl

theorem Queue.Booked.park (w : Nat) : (q.park w).1.Booked p := by
  rw [Queue.park_fst]
  split
  · exact h
  · have hidle : ({ q with heap := update q.heap w { q.heap w with woken := false } } :
        Queue α).Booked p := h.same (.heap q w ⟨rfl, rfl, rfl⟩)
    exact hidle.settleModel (some w) _ 0

end

/-! ### A waiter is put at the tail -/

/-- What `refuseLocked` lets through. -/
theorem refuse_eq_none {model : String} (h : q.refuse model tenant = none) :
    0 < q.p.maxModelDepth ∧
      (q.models.lookup model = none → 0 < q.p.maxModels → (q.models.len : Int) < q.p.maxModels) ∧
      ∀ mq, q.models.lookup model = some mq → (mq.waiters.length : Int) < q.p.maxModelDepth ∧
        (0 < q.p.tenantCap → tenant ≠ "" → (mq.tenants.lookup tenant).getD 0 < q.p.tenantCap) := by
  unfold Queue.refuse at h
  split at h
  · cases h
  · split at h
    · cases h
    next hdepth =>
      refine ⟨not_le.mp hdepth, fun hnone hpos => ?_, fun mq hmq => ?_⟩
      · rw [hnone] at h
        by_contra hfull
        simp only [if_pos (show q.p.maxModels > 0 ∧ (q.models.len : Int) ≥ q.p.maxModels from
          ⟨hpos, not_lt.mp hfull⟩)] at h
        cases h
      · rw [hmq] at h
        dsimp only at h
        split at h
        · cases h
        next hlen =>
          split at h
          · cases h
          next hshare =>
            refine ⟨not_le.mp hlen, fun hcap htenant => ?_⟩
            by_contra hge
            exact hshare ⟨hcap, htenant, not_lt.mp hge⟩

/-- The waiters of a tenant after one more. -/
theorem heldBy_concat (heap : Nat → Waiter α) (ws : List Nat) (w : Nat) (t : String) :
    heldBy heap (ws ++ [w]) t = heldBy heap ws t + if (heap w).tenant = t then 1 else 0 := by
  unfold heldBy
  rw [countP_append, countP_singleton]
  simp only [decide_eq_true_eq]

/-- The books of a model after a waiter was put at its tail. -/
theorem ModelQueue.Booked.pushBack {heap : Nat → Waiter α} (h : mq.Booked p heap)
    (hw : (heap w).tenant = tenant) (hdepth : (mq.waiters.length : Int) < p.maxModelDepth)
    (hshare : 0 < p.tenantCap → tenant ≠ "" → (mq.tenants.lookup tenant).getD 0 < p.tenantCap) :
    (mq.pushBack w tenant).Booked p heap := by
  have hheld : ∀ t, t ≠ "" → (mq.tenants.lookup t).getD 0 = (heldBy heap mq.waiters t : Int) := by
    intro t ht
    rw [h.tenants t]
    by_cases hzero : heldBy heap mq.waiters t = 0
    · rw [hzero, entryFor_zero]
      rfl
    · rw [entryFor_some ht hzero, getD_some]
  refine ⟨?_, fun t => ?_, fun hcap t ht => ?_⟩
  · simp only [ModelQueue.pushBack, length_append, length_singleton]
    push_cast
    omega
  · simp only [ModelQueue.pushBack, heldBy_concat, hw]
    by_cases htenant : tenant = ""
    · rw [if_neg (not_not_intro htenant), h.tenants t]
      by_cases ht : t = ""
      · rw [ht, entryFor_empty, entryFor_empty]
      · rw [if_neg (show ¬ tenant = t from fun heq => ht (heq ▸ htenant)), Nat.add_zero]
    · rw [if_pos htenant, lookup_insert_ite]
      by_cases ht : t = tenant
      · subst ht
        rw [if_pos rfl, if_pos rfl, hheld t htenant, entryFor_some htenant (Nat.succ_ne_zero _)]
        push_cast
        rfl
      · rw [if_neg ht, if_neg (show ¬ tenant = t from fun heq => ht heq.symm), Nat.add_zero,
          h.tenants t]
  · simp only [ModelQueue.pushBack, heldBy_concat, hw]
    split
    next heq =>
      have hlt := hshare hcap (heq ▸ ht)
      rw [heq, hheld t ht] at hlt
      push_cast
      omega
    next => exact h.share hcap t ht

theorem Queue.Booked.enqueue (h : q.Booked p) (model tenant : String) (now : Time) :
    (q.enqueue model tenant now).1.Booked p := by
  have hlisted := h.listed.enqueue model tenant now
  unfold Queue.enqueue at hlisted ⊢
  cases hrefuse : q.refuse model tenant with
  | some err => exact h
  | none =>
    rw [hrefuse] at hlisted
    obtain ⟨hpos, hroom, hmq⟩ := refuse_eq_none hrefuse
    rw [h.params] at hpos hroom hmq
    have hold : ∀ x, x < q.next → update q.heap q.next
        ⟨model, tenant, now, none, false, false⟩ x = q.heap x := fun x hx =>
      update_of_ne (by omega) _ _
    have hother : ∀ {m mq}, q.models.lookup m = some mq → mq.Booked p (update q.heap q.next
        ⟨model, tenant, now, none, false, false⟩) := by
      intro m mq hlook
      refine (h.queues m mq hlook).congr rfl rfl fun x hx => ?_
      rw [hold x ((h.listed m mq hlook).2.2 x hx).1]
    refine ⟨h.params, hlisted, fun w hw hleft => ?_, fun m mq' hmq' => ?_, fun hmax => ?_⟩
    · simp only [Queue.waitersOf, lookup_insert_ite]
      by_cases hx : w = q.next
      · subst hx
        rw [update_self, if_pos rfl]
        exact mem_append_right _ (mem_singleton_self _)
      · have hlt : w < q.next := by
          have : w < q.next + 1 := hw
          omega
        dsimp only at hleft
        rw [hold w hlt] at hleft ⊢
        have hmem := h.linked w hlt hleft
        split
        next hm =>
          rw [hm] at hmem
          refine mem_append_left _ ?_
          revert hmem
          unfold Queue.waitersOf
          cases q.models.lookup model with
          | none => exact fun hmem => hmem
          | some mq => exact fun hmem => hmem
        next => exact hmem
    · change (q.models.insert model _).lookup m = some mq' at hmq'
      rcases of_lookup_insert hmq' with ⟨-, rfl⟩ | ⟨-, hmq'⟩
      · have htenant : (update q.heap q.next
            ⟨model, tenant, now, none, false, false⟩ q.next).tenant = tenant := by
          rw [update_self]
        cases hlook : q.models.lookup model with
        | none =>
          have hempty : (⟨[], ∅, 0⟩ : ModelQueue).Booked p (update q.heap q.next
              ⟨model, tenant, now, none, false, false⟩) :=
            ⟨hpos.le, fun t => (entryFor_zero t).symm, fun hcap _ _ => hcap.le⟩
          exact hempty.pushBack htenant hpos fun hcap _ => hcap
        | some mq => exact (hother hlook).pushBack htenant (hmq mq hlook).1 (hmq mq hlook).2
      · exact hother hmq'
    · show ((q.models.insert model _).len : Int) ≤ p.maxModels
      cases hlook : q.models.lookup model with
      | none =>
        have := hroom hlook hmax
        have := len_insert_le model ((none.getD ⟨[], ∅, 0⟩ : ModelQueue).pushBack q.next tenant)
          q.models
        omega
      | some mq =>
        rw [len_insert_of_lookup hlook]
        exact h.models hmax

/-! ### A waiter is unlinked -/

/-- The waiters of a tenant without one of them. -/
theorem heldBy_erase (heap : Nat → Waiter α) (hw : w ∈ ws) (t : String) :
    heldBy heap ws t = heldBy heap (ws.erase w) t + if (heap w).tenant = t then 1 else 0 := by
  unfold heldBy
  rw [(perm_cons_erase hw).countP_eq, countP_cons]
  simp only [decide_eq_true_eq]

/-- The books of a model after a waiter was taken out. -/
theorem ModelQueue.Booked.remove {heap : Nat → Waiter α} (h : mq.Booked p heap)
    (hw : w ∈ mq.waiters) : (mq.remove w (heap w).tenant).Booked p heap := by
  have hheld := fun t => heldBy_erase heap hw t
  refine ⟨?_, fun t => ?_, fun hcap t ht => ?_⟩
  · have hlen : (mq.remove w (heap w).tenant).waiters.length ≤ mq.waiters.length :=
      length_erase_le
    have := h.depth
    omega
  · simp only [ModelQueue.remove]
    by_cases hempty : (heap w).tenant = ""
    · rw [if_pos hempty, h.tenants t]
      by_cases ht : t = ""
      · rw [ht, entryFor_empty, entryFor_empty]
      · rw [hheld t, if_neg (show ¬ (heap w).tenant = t from fun heq => ht (heq ▸ hempty)),
          Nat.add_zero]
    · rw [if_neg hempty]
      have hself := hheld (heap w).tenant
      rw [if_pos rfl] at hself
      have hlook : mq.tenants.lookup (heap w).tenant =
          some ((heldBy heap (mq.waiters.erase w) (heap w).tenant : Int) + 1) := by
        rw [h.tenants, hself, entryFor_some hempty (Nat.succ_ne_zero _)]
        push_cast
        rfl
      rw [hlook, getD_some, add_sub_cancel_right]
      by_cases ht : t = (heap w).tenant
      · subst ht
        by_cases hzero : heldBy heap (mq.waiters.erase w) (heap w).tenant = 0
        · rw [if_pos (by omega), hzero, entryFor_zero, lookup_erase]
        · rw [if_neg (by omega), entryFor_some hempty hzero, lookup_insert]
      · have hsame := hheld t
        rw [if_neg (fun heq => ht heq.symm), Nat.add_zero] at hsame
        rw [← hsame, ← h.tenants t]
        split
        · rw [lookup_erase_ne ht]
        · rw [lookup_insert_ne ht]
  · have := h.share hcap t ht
    rw [hheld t] at this
    push_cast at this
    show (heldBy heap (mq.waiters.erase w) t : Int) ≤ p.tenantCap
    split at this <;> omega

theorem Queue.Booked.unlink (h : q.Booked p) (hw : w < q.next) (hleft : (q.heap w).left = false) :
    (q.unlink w).Booked p := by
  have hmem := h.linked w hw hleft
  obtain ⟨hheap, hnext⟩ := unlink_heap q w
  obtain ⟨mq, hmq, hmem⟩ : ∃ mq, q.models.lookup (q.heap w).model = some mq ∧ w ∈ mq.waiters := by
    unfold Queue.waitersOf at hmem
    cases hmq : q.models.lookup (q.heap w).model with
    | none =>
      rw [hmq] at hmem
      cases hmem
    | some mq =>
      rw [hmq] at hmem
      exact ⟨mq, rfl, hmem⟩
  have htenant : ∀ x, ((q.unlink w).heap x).tenant = (q.heap x).tenant := by
    intro x
    rw [hheap]
    by_cases hx : x = w
    · rw [hx, update_self]
    · rw [update_of_ne hx]
  have hof := unlink_of_mem hmq hmem
  refine ⟨by rw [hof]; exact h.params, h.listed.unlink w, fun x hx hxleft => ?_,
    fun m mq' hmq' => ?_, fun hmax => ?_⟩
  · -- the other waiters stay in their lists
    have hne : x ≠ w := by
      intro heq
      rw [hheap, heq, update_self] at hxleft
      cases hxleft
    rw [hheap, update_of_ne hne] at hxleft ⊢
    rw [(unlink_waitersOf h.listed w _).1]
    exact (mem_erase_of_ne hne).mpr (h.linked x (hnext ▸ hx) hxleft)
  · rw [hof] at hmq'
    dsimp only at hmq'
    have hrest : q.models.lookup m = some mq' → mq'.Booked p (q.unlink w).heap := fun hlook =>
      (h.queues m mq' hlook).congr rfl rfl fun x _ => htenant x
    split at hmq'
    · exact hrest (of_lookup_erase hmq').2
    · rcases of_lookup_insert hmq' with ⟨-, rfl⟩ | ⟨-, hmq'⟩
      · exact ((h.queues _ mq hmq).remove hmem).congr rfl rfl fun x _ => htenant x
      · exact hrest hmq'
  · have hlen := h.models hmax
    rw [hof]
    dsimp only
    split
    · have := len_erase_le (q.heap w).model q.models
      omega
    · rw [len_insert_of_lookup hmq]
      exact hlen

theorem Queue.Booked.leaveLocked (h : q.Booked p) (hw : w < q.next)
    (hleft : (q.heap w).left = false) (giveBack : Bool) :
    (q.leaveLocked w true giveBack).Booked p := by
  have hmem := h.linked w hw hleft
  cases hmq : q.models.lookup (q.heap w).model with
  | none =>
    rw [(waitersOf_of_lookup_none hmq).1] at hmem
    cases hmem
  | some mq =>
    rw [(waitersOf_of_lookup hmq).1] at hmem
    rw [leaveLocked_of_mem hmq hmem]
    exact (h.unlink hw hleft).settleModel none _ _

theorem Queue.Booked.leave (h : q.Booked p) (hw : w < q.next) (giveBack : Bool) :
    (q.leave w giveBack).1.Booked p := by
  unfold Queue.leave
  cases hleft : (q.heap w).left with
  | true => exact h.drain w
  | false => exact (h.leaveLocked hw hleft giveBack).drain w

theorem Queue.Booked.handoff (h : q.Booked p) (model : String) (v : α) :
    (q.handoff model v).1.Booked p := by
  rcases q.handoff_cases model v with
    ⟨-, heq⟩ | ⟨mq, head, rest, hmq, hws, ⟨-, heq⟩ | ⟨-, heq⟩⟩ <;> rw [heq]
  · exact h
  · exact h.settleModel none model 1
  · obtain ⟨hlt, -, hleft⟩ := (h.listed model mq hmq).2.2 head (by rw [hws]; exact mem_cons_self)
    exact (h.unlink hlt hleft).send head (.handoff v)

theorem Queue.Booked.flushAll (ws : List Nat) (h : q.Booked p) (hnd : ws.Nodup)
    (hws : ∀ w ∈ ws, w < q.next ∧ (q.heap w).left = false) : (q.flushAll ws).Booked p := by
  induction ws generalizing q with
  | nil => exact h
  | cons w ws ih =>
    obtain ⟨hw, hnd⟩ := nodup_cons.mp hnd
    obtain ⟨hlt, hleft⟩ := hws w mem_cons_self
    obtain ⟨hheap, hnext⟩ := unlink_heap q w
    refine ih ((h.unlink hlt hleft).send w .flushed) hnd fun x hx => ?_
    have hne : x ≠ w := fun hxw => hw (hxw ▸ hx)
    obtain ⟨hxlt, hxleft⟩ := hws x (mem_cons_of_mem _ hx)
    refine ⟨by show x < (q.unlink w).next; rw [hnext]; exact hxlt, ?_⟩
    show (update (q.unlink w).heap w _ x).left = false
    rw [update_of_ne hne, hheap, update_of_ne hne]
    exact hxleft

theorem Queue.Booked.flush (h : q.Booked p) (model : String) : (q.flush model).Booked p := by
  have hfold : ∀ (ms : List String) {q : Queue α}, q.Booked p →
      (ms.foldl (fun q m => q.flushAll (q.waitersOf m)) q).Booked p := by
    intro ms
    induction ms with
    | nil => exact fun h => h
    | cons m ms ih =>
      intro q h
      obtain ⟨hnd, hall⟩ := h.listed.waiters m
      exact ih (h.flushAll _ hnd fun w hw => ⟨(hall w hw).1, (hall w hw).2.2⟩)
  exact hfold _ h

/-! ### Every run -/

theorem Queue.Booked.act (h : q.Booked p) {a : QueueAct α} (ha : q.act a = some q') :
    q'.Booked p := by
  cases a with
  | enqueue model tenant now =>
    obtain rfl := some.inj ha
    exact h.enqueue model tenant now
  | handoff model v =>
    obtain rfl := some.inj ha
    exact h.handoff model v
  | wake model n =>
    obtain rfl := some.inj ha
    exact h.wake model n
  | recv w =>
    obtain ⟨-, ha⟩ := ite_none_right_eq_some.mp ha
    obtain rfl := some.inj ha
    exact h.drain w
  | park w =>
    obtain ⟨-, ha⟩ := ite_none_right_eq_some.mp ha
    obtain rfl := some.inj ha
    exact h.park w
  | done w =>
    obtain ⟨hw, ha⟩ := ite_none_right_eq_some.mp ha
    obtain rfl := some.inj ha
    exact h.leave hw false
  | leave w =>
    obtain ⟨hw, ha⟩ := ite_none_right_eq_some.mp ha
    obtain rfl := some.inj ha
    exact h.leave hw true
  | flush model =>
    obtain rfl := some.inj ha
    exact h.flush model
  | close =>
    obtain rfl := some.inj ha
    exact ⟨h.params, h.listed, h.linked, h.queues, h.models⟩

/-- **Queue bookkeeping.** After every run, the list of a model is not empty and not too deep, its
tenants are counted exactly and within their share, and there are not too many lists. A waiter
stands in the list of its model, and in no other, exactly while it has not left, and a waiter that
left disturbs nothing when it parks or leaves again. -/
theorem queue_bookkeeping (hq : Machine.Reach Queue.act (newQueue p) q) :
    (∀ m mq, q.models.lookup m = some mq → mq.waiters ≠ [] ∧ mq.waiters.Nodup ∧
      (mq.waiters.length : Int) ≤ p.maxModelDepth ∧
      (∀ t, mq.tenants.lookup t = entryFor t (heldBy q.heap mq.waiters t)) ∧
      (0 < p.tenantCap → ∀ t, t ≠ "" → (heldBy q.heap mq.waiters t : Int) ≤ p.tenantCap)) ∧
    (0 < p.maxModels → (q.models.len : Int) ≤ p.maxModels) ∧
    (∀ w m, w ∈ q.waitersOf m ↔ w < q.next ∧ (q.heap w).model = m ∧ (q.heap w).left = false) ∧
    (∀ w, (q.heap w).left = true → (q.park w).1 = q ∧ ∀ giveBack,
      (q.leave w giveBack).1 =
        { q with heap := update q.heap w { q.heap w with ch := none } }) := by
  have h : q.Booked p := hq.invariant (P := Queue.Booked p) (.start p) fun _ _ _ h ha => h.act ha
  refine ⟨fun m mq hmq => ?_, h.models, fun w m => ⟨fun hw => (h.listed.waiters m).2 w hw, ?_⟩,
    fun w hleft => ⟨?_, fun giveBack => ?_⟩⟩
  · obtain ⟨hne, hnd, -⟩ := h.listed m mq hmq
    have hbooked := h.queues m mq hmq
    exact ⟨hne, hnd, hbooked.depth, hbooked.tenants, hbooked.share⟩
  · rintro ⟨hlt, rfl, hleft⟩
    exact h.linked w hlt hleft
  · unfold Queue.park
    dsimp only
    rw [if_pos hleft]
  · unfold Queue.leave
    rw [hleft]
    rfl

/-- Two tenants in one queue; the first waiter is woken and leaves, and a third one is refused. -/
def leavingRun : List (QueueAct Nat) :=
  [.enqueue "m" "a" 0, .wake "m" 1, .enqueue "m" "b" 1, .enqueue "m" "b" 2, .leave 0]

/-- What is left of the queue counts the other tenant's waiter, and the first may leave once
more. -/
theorem queue_bookkeeping_left : ∃ q : Queue Nat,
    Machine.Reach Queue.act (newQueue ⟨2, 1 / 2, 1⟩) q ∧ q.waitersOf "m" = [1] ∧
    (q.heap 0).left = true ∧
      (q.models.lookup "m").map (fun mq => mq.tenants.lookup "b") = some (some 1) ∧
    (q.leave 0 true).1.models = q.models := by
  obtain ⟨q, hq, hws, hleft, htenant⟩ : ∃ q ∈ Machine.runActs Queue.act
    (newQueue ⟨2, 1 / 2, 1⟩) leavingRun,
      q.waitersOf "m" = [1] ∧ (q.heap 0).left = true ∧
      (q.models.lookup "m").map (fun mq => mq.tenants.lookup "b") = some (some 1) := by
    decide +kernel
  have hreach := Machine.reach_of_runActs .refl leavingRun hq
  refine ⟨q, hreach, hws, hleft, htenant, ?_⟩
  rw [((queue_bookkeeping hreach).2.2.2 0 hleft).2 true]

end ServerFlow.Resilience
