import ServerFlow.Lib.Counting
import ServerFlow.Resilience.QueueInvariant

/-!
# Resilience.QueueCredit

What the credit of a queue is for. A slot that is free while a model has waiters must be matched by
a unit of credit or by a woken waiter that has not looked for a slot yet (`Covered`), and credit is
kept only while the head waiter is woken (`HeadWoken`). Every operation of the queue keeps both.
-/

namespace ServerFlow.Resilience

open List Function AList

variable {α : Type} {m : String}

/-! ### Queues and credit -/

section Views

variable {q : Queue α}

theorem waitersOf_of_lookup {mq : ModelQueue} (h : q.models.lookup m = some mq) :
    q.waitersOf m = mq.waiters ∧ q.creditOf m = mq.credit := by
  simp [Queue.waitersOf, Queue.creditOf, h]

theorem waitersOf_of_lookup_none (h : q.models.lookup m = none) :
    q.waitersOf m = [] ∧ q.creditOf m = 0 := by
  simp [Queue.waitersOf, Queue.creditOf, h]

theorem Queue.Listed.waiters (h : q.Listed) (m : String) : (q.waitersOf m).Nodup ∧
    ∀ w ∈ q.waitersOf m, w < q.next ∧ (q.heap w).model = m ∧ (q.heap w).left = false := by
  cases hmq : q.models.lookup m with
  | none =>
    rw [(waitersOf_of_lookup_none hmq).1]
    exact ⟨nodup_nil, nofun⟩
  | some mq =>
    rw [(waitersOf_of_lookup hmq).1]
    exact (h m mq hmq).2

/-- Credit is lost with the last waiter. -/
theorem Queue.Listed.creditOf_eq_zero (h : q.Listed) (hm : q.waitersOf m = []) :
    q.creditOf m = 0 := by
  cases hmq : q.models.lookup m with
  | none => exact (waitersOf_of_lookup_none hmq).2
  | some mq => exact absurd ((waitersOf_of_lookup hmq).1.symm.trans hm) (h m mq hmq).1

/-- A waiter that its model's queue does not have is in none. -/
theorem Queue.Listed.not_mem_waitersOf (h : q.Listed) {w : Nat}
    (hnot : q.Unlisted w) (m : String) : w ∉ q.waitersOf m := by
  intro hmem
  cases hmq : q.models.lookup m with
  | none =>
    rw [(waitersOf_of_lookup_none hmq).1] at hmem
    cases hmem
  | some mq =>
    rw [(waitersOf_of_lookup hmq).1] at hmem
    exact h.not_mem_other hnot hmq hmem

theorem unlink_waitersOf (h : q.Listed) (w : Nat) (m : String) :
    (q.unlink w).waitersOf m = (q.waitersOf m).erase w ∧
      ((q.waitersOf m).erase w ≠ [] → (q.unlink w).creditOf m = q.creditOf m) := by
  rcases q.mem_or_unlisted w with ⟨mq, hmq, hw⟩ | hnot
  · rw [unlink_of_mem hmq hw]
    simp only [Queue.waitersOf, Queue.creditOf]
    by_cases hm : m = (q.heap w).model
    · subst hm
      rw [hmq]
      split
      next hempty =>
        rw [lookup_erase]
        exact ⟨hempty.symm, fun hne => absurd hempty hne⟩
      next => simp [ModelQueue.remove]
    · have hnot : w ∉ q.waitersOf m := fun hmem => hm ((h.waiters m).2 w hmem).2.1.symm
      rw [Queue.waitersOf] at hnot
      rw [erase_of_not_mem hnot]
      split
      · rw [lookup_erase_ne hm]
        exact ⟨rfl, fun _ => rfl⟩
      · rw [lookup_insert_ne hm]
        exact ⟨rfl, fun _ => rfl⟩
  · rw [Queue.unlink, leaveLocked_of_not_mem hnot]
    exact ⟨(erase_of_not_mem (h.not_mem_waitersOf hnot m)).symm, fun _ => rfl⟩

theorem settleModel_waitersOf (q : Queue α) (self : Option Nat) (m : String) (extra : Nat)
    (m' : String) : (q.settleModel self m extra).waitersOf m' = q.waitersOf m' ∧
      (m' ≠ m → (q.settleModel self m extra).creditOf m' = q.creditOf m') := by
  simp only [Queue.settleModel]
  split
  · exact ⟨rfl, fun _ => rfl⟩
  next mq hmq =>
    simp only [Queue.waitersOf, Queue.creditOf, lookup_insert_ite]
    by_cases hm : m' = m
    · subst hm
      simp [hmq]
    · simp [hm]

end Views

/-- Waking one idle waiter adds it to the woken ones, whatever is sent to it. -/
theorem countP_wake {ws : List Nat} (hnd : ws.Nodup) {k : Nat → Bool} {heap : Nat → Waiter α}
    (hk : ∀ w ∈ ws, (heap w).woken = false → k w = true) {x : Nat} (hx : x ∈ ws)
    (hidle : (heap x).woken = false) {wtr : Waiter α} (hwoken : wtr.woken = true) :
    (∀ w ∈ ws, (update heap x wtr w).woken = false → k w = true) ∧
      ws.countP (fun w => (update heap x wtr w).woken && k w) =
        ws.countP (fun w => (heap w).woken && k w) + 1 := by
  refine ⟨fun w hw hidle' => ?_, ?_⟩
  · rw [update_apply] at hidle'
    split at hidle'
    next hwx => exact hk w hw (hwx ▸ hidle)
    next => exact hk w hw hidle'
  · have := countP_add_of_eq_off hnd hx
      (f := fun w => (update heap x wtr w).woken && k w)
      (g := fun w => (heap w).woken && k w)
      (fun w _ hwx => by simp only [update_of_ne hwx])
    simpa [update_self, hidle, hwoken, hk x hx hidle] using this

/-- Every unit of credit is spent on a waiter that had not looked, or kept. -/
theorem settle_count (self : Option Nat) {ws : List Nat} (hnd : ws.Nodup) (k : Nat → Bool)
    (credit : Nat) (heap : Nat → Waiter α) (hk : ∀ w ∈ ws, (heap w).woken = false → k w = true) :
    ws.countP (fun w => ((settle self ws credit heap).1 w).woken && k w) +
        (settle self ws credit heap).2.1 =
      ws.countP (fun w => (heap w).woken && k w) + credit := by
  induction credit generalizing heap with
  | zero => rfl
  | succ credit ih =>
    simp only [settle]
    split
    · rfl
    next x hx =>
      have hmem := List.mem_of_find?_eq_some hx
      have hidle : (heap x).woken = false := by simpa using List.find?_some hx
      split
      all_goals
        refine (ih _ (countP_wake hnd hk hmem hidle rfl).1).trans ?_
        rw [(countP_wake hnd hk hmem hidle rfl).2]
        omega

/-! ### The invariant of one model -/

/-- `due` units of credit and the woken waiters that have not looked cover the free slots. -/
structure Covered (ws : List Nat) (due free : Nat) (heap : Nat → Waiter α) (k : Nat → Bool) :
    Prop where
  /-- Only a woken waiter has looked. -/
  idle : ∀ w ∈ ws, (heap w).woken = false → k w = true
  slots : ws ≠ [] → free ≤ due + ws.countP fun w => (heap w).woken && k w

/-- Credit is kept only while the head waiter is woken. -/
def HeadWoken (ws : List Nat) (credit : Nat) (heap : Nat → Waiter α) : Prop :=
  0 < credit → ∃ w rest, ws = w :: rest ∧ (heap w).woken = true

/-- The invariant of a model; `k` says which waiters have not looked. -/
def CreditAt (q : Queue α) (k : Nat → Bool) (free : Nat) (m : String) : Prop :=
  Covered (q.waitersOf m) (q.creditOf m) free q.heap k ∧
    HeadWoken (q.waitersOf m) (q.creditOf m) q.heap

def CreditOk (q : Queue α) (k : Nat → Bool) (free : String → Nat) : Prop :=
  ∀ m, CreditAt q k (free m) m

section OneModel

variable {ws : List Nat} {due free free' : Nat} {heap heap' : Nat → Waiter α} {k k' : Nat → Bool}

theorem Covered.mono (h : Covered ws due free heap k) (hfree : free' ≤ free)
    (hwoken : ∀ w ∈ ws, (heap w).woken = true → (heap' w).woken = true)
    (hk : ∀ w ∈ ws, k w = true → k' w = true) : Covered ws due free' heap' k' := by
  refine ⟨fun w hw hidle => hk w hw (h.idle w hw ?_), fun hne => ?_⟩
  · by_contra hold
    cases (hwoken w hw (Bool.eq_true_of_not_eq_false hold)).symm.trans hidle
  · have hcount : ws.countP (fun w => (heap w).woken && k w) ≤
        ws.countP fun w => (heap' w).woken && k' w := by
      refine countP_mono_left fun w hw hboth => ?_
      simp only [Bool.and_eq_true] at hboth ⊢
      exact ⟨hwoken w hw hboth.1, hk w hw hboth.2⟩
    have := h.slots hne
    omega

theorem HeadWoken.mono {credit : Nat} (h : HeadWoken ws credit heap)
    (hwoken : ∀ w ∈ ws, (heap w).woken = true → (heap' w).woken = true) :
    HeadWoken ws credit heap' := by
  intro hpos
  obtain ⟨w, rest, rfl, hw⟩ := h hpos
  exact ⟨w, rest, rfl, hwoken w (by simp) hw⟩

/-- A model without waiters. -/
theorem Covered.nil : Covered [] due free heap k :=
  ⟨nofun, fun hne => absurd rfl hne⟩

/-- Spending the credit leaves some over only if everybody is woken, the head with them. -/
theorem Covered.settle (h : Covered ws due free heap k) (hne : ws ≠ []) (hnd : ws.Nodup)
    (self : Option Nat) :
    Covered ws (settle self ws due heap).2.1 free (settle self ws due heap).1 k ∧
      HeadWoken ws (settle self ws due heap).2.1 (settle self ws due heap).1 := by
  have hcount := settle_count self hnd k due heap h.idle
  obtain ⟨hn, -, -, hall⟩ := settle_spec self ws due heap
  refine ⟨⟨fun w hw hidle => h.idle w hw ?_, fun hne => ?_⟩, fun hpos => ?_⟩
  · rcases hn w with heq | ⟨-, hold, -⟩
    · rwa [heq] at hidle
    · exact hold
  · have := h.slots hne
    omega
  · cases ws with
    | nil => exact absurd rfl hne
    | cons w rest => exact ⟨w, rest, rfl, hall hpos w (by simp)⟩

/-- Waking leaves the woken waiters woken. -/
theorem Nudge.woken {self : Option Nat} (h : Nudge self ws heap heap') (w : Nat)
    (hw : (heap w).woken = true) : (heap' w).woken = true := by
  rcases h w with heq | ⟨-, hidle, -⟩
  · rwa [heq]
  · rw [hw] at hidle
    cases hidle

end OneModel

/-! ### Operations -/

section Operations

variable {q q' : Queue α} {k k' : Nat → Bool} {free free' : String → Nat}

/-- The lists and the credit of a model are as they were, and its waiters no less woken. -/
theorem CreditAt.mono {n n' : Nat} (h : CreditAt q k n m)
    (hws : q'.waitersOf m = q.waitersOf m) (hcredit : q'.creditOf m = q.creditOf m) (hn : n' ≤ n)
    (hwoken : ∀ w ∈ q.waitersOf m, (q.heap w).woken = true → (q'.heap w).woken = true)
    (hk : ∀ w ∈ q.waitersOf m, k w = true → k' w = true) : CreditAt q' k' n' m := by
  rw [CreditAt, hws, hcredit]
  exact ⟨h.1.mono hn hwoken hk, h.2.mono hwoken⟩

theorem CreditAt.nil (hq : q.Listed) {n : Nat} (hws : q.waitersOf m = []) : CreditAt q k n m := by
  rw [CreditAt, hws, hq.creditOf_eq_zero hws]
  exact ⟨.nil, nofun⟩

/-- The credit of `m`, with `extra` units more, is spent. -/
theorem creditOk_settleModel (hq : q.Listed) {extra : Nat}
    (hm : Covered (q.waitersOf m) (q.creditOf m + extra) (free m) q.heap k)
    (hother : ∀ m', m' ≠ m → CreditAt q k (free m') m') (self : Option Nat) :
    CreditOk (q.settleModel self m extra) k free := by
  intro m'
  obtain ⟨hws, hcredit⟩ := settleModel_waitersOf q self m extra m'
  cases hmq : q.models.lookup m with
  | none =>
    rw [show q.settleModel self m extra = q by simp only [Queue.settleModel, hmq]]
    by_cases hm' : m' = m
    · subst hm'
      exact .nil hq (waitersOf_of_lookup_none hmq).1
    · exact hother m' hm'
  | some mq =>
    obtain ⟨hwaiters, hold⟩ := waitersOf_of_lookup hmq
    have hheap : (q.settleModel self m extra).heap =
        (settle self mq.waiters (mq.credit + extra) q.heap).1 := by
      simp only [Queue.settleModel, hmq]
    by_cases hm' : m' = m
    · subst hm'
      have hleft : (q.settleModel self m' extra).creditOf m' =
          (settle self mq.waiters (mq.credit + extra) q.heap).2.1 := by
        simp only [Queue.settleModel, hmq, Queue.creditOf, lookup_insert, Option.map_some,
          Option.getD_some]
      rw [hwaiters, hold] at hm
      rw [CreditAt, hws, hleft, hheap, hwaiters]
      exact hm.settle (hq m' mq hmq).1 (hq m' mq hmq).2.1 self
    · refine (hother m' hm').mono hws (hcredit hm') le_rfl (fun w _ hw => ?_) fun _ _ hk => hk
      rw [hheap]
      exact (settle_spec self mq.waiters (mq.credit + extra) q.heap).1.woken w hw

section

variable (h : CreditOk q k free)
include h

/-- Unlinking a waiter uncovers at most the slot that it was woken for. -/
theorem CreditOk.unlink (hq : q.Listed) (w extra : Nat)
    (hextra : (q.heap w).woken = true → k w = true → extra = 1) :
    (∀ m, m ≠ (q.heap w).model → CreditAt (q.unlink w) k (free m) m) ∧
      Covered ((q.unlink w).waitersOf (q.heap w).model)
        ((q.unlink w).creditOf (q.heap w).model + extra) (free (q.heap w).model)
          (q.unlink w).heap k := by
  have hheap : ∀ x, x ≠ w → (q.unlink w).heap x = q.heap x := by
    intro x hx
    rw [(unlink_heap q w).1, update_of_ne hx]
  constructor
  · intro m hm
    have hnot : w ∉ q.waitersOf m := fun hmem => hm ((hq.waiters m).2 w hmem).2.1.symm
    obtain ⟨hws, hcredit⟩ := unlink_waitersOf hq w m
    rw [erase_of_not_mem hnot] at hws hcredit
    by_cases hempty : q.waitersOf m = []
    · exact .nil (hq.unlink w) (hws.trans hempty)
    · refine (h m).mono hws (hcredit hempty) le_rfl (fun x hx hwoken => ?_) fun _ _ hk => hk
      rw [hheap x fun hxw => hnot (hxw ▸ hx)]
      exact hwoken
  · obtain ⟨hws, hcredit⟩ := unlink_waitersOf hq w (q.heap w).model
    obtain ⟨hidle, hslots⟩ := (h (q.heap w).model).1
    have hnd := (hq.waiters (q.heap w).model).1
    rw [hws]
    have hne : ∀ x ∈ (q.waitersOf (q.heap w).model).erase w, x ≠ w :=
      fun x hx => (hnd.mem_erase_iff.mp hx).1
    refine ⟨fun x hx hx' => ?_, fun hrest => ?_⟩
    · rw [hheap x (hne x hx)] at hx'
      exact hidle x (mem_of_mem_erase hx) hx'
    · have hcount : ((q.waitersOf (q.heap w).model).erase w).countP
            (fun x => ((q.unlink w).heap x).woken && k x) =
          ((q.waitersOf (q.heap w).model).erase w).countP fun x => (q.heap x).woken && k x :=
        countP_congr fun x hx => by rw [hheap x (hne x hx)]
      have hold := hslots fun hnil => hrest (by rw [hnil]; rfl)
      rw [hcount, hcredit hrest]
      by_cases hmem : w ∈ q.waitersOf (q.heap w).model
      · rw [countP_eq_erase_add hmem] at hold
        split at hold
        next hboth =>
          rw [Bool.and_eq_true] at hboth
          have := hextra hboth.1 hboth.2
          omega
        next => omega
      · rw [erase_of_not_mem hmem]
        omega

theorem CreditOk.mono (hws : ∀ m, q'.waitersOf m = q.waitersOf m)
    (hcredit : ∀ m, q'.creditOf m = q.creditOf m) (hfree : ∀ m, free' m ≤ free m)
    (hwoken : ∀ m, ∀ w ∈ q.waitersOf m, (q.heap w).woken = true → (q'.heap w).woken = true)
    (hk : ∀ m, ∀ w ∈ q.waitersOf m, k w = true → k' w = true) : CreditOk q' k' free' :=
  fun m => (h m).mono (hws m) (hcredit m) (hfree m) (hwoken m) (hk m)

/-- Only which waiters are woken matters of the heap. -/
theorem CreditOk.reheap {heap : Nat → Waiter α}
    (hwoken : ∀ m, ∀ w ∈ q.waitersOf m, (q.heap w).woken = true → (heap w).woken = true) :
    CreditOk { q with heap := heap } k free :=
  h.mono (fun _ => rfl) (fun _ => rfl) (fun _ => le_rfl) hwoken fun _ _ _ hk => hk

/-- What is in the channels does not matter. -/
theorem CreditOk.channel (w : Nat) (ch : Option (Grant α)) :
    CreditOk { q with heap := update q.heap w { q.heap w with ch := ch } } k free := by
  refine h.reheap fun _ x _ hx => ?_
  rw [update_apply]
  split
  next hxw => exact hxw ▸ hx
  next => exact hx

end

theorem update_of_true {k : Nat → Bool} (w : Nat) {x : Nat} (hx : k x = true) :
    update k w true x = true := by
  rw [update_apply, hx, ite_self]

section

variable (h : CreditOk q k free)
include h

/-- A waiter that may look again covers no less. -/
theorem CreditOk.forget (w : Nat) : CreditOk q (update k w true) free :=
  h.mono (fun _ => rfl) (fun _ => rfl) (fun _ => le_rfl) (fun _ _ _ hx => hx) fun _ _ _ hx =>
    update_of_true w hx

theorem CreditOk.enqueue (hq : q.Listed) {model : String}
    (hguard : free model = 0 ∨ q.busy model = true) (hk : k q.next = true) (tenant : String)
    (now : Time) : CreditOk (q.enqueue model tenant now).1 k free := by
  simp only [Queue.enqueue]
  split
  · exact h
  · intro m
    have hold : ∀ x ∈ q.waitersOf m, update q.heap q.next
        ⟨model, tenant, now, none, false, false⟩ x = q.heap x := fun x hx =>
      update_of_ne (Nat.ne_of_lt ((hq.waiters m).2 x hx).1) _ _
    by_cases hm : m = model
    · subst hm
      -- the new waiter is idle, so only an empty queue could lose its cover
      have hcount : (q.waitersOf m ++ [q.next]).countP (fun x => (update q.heap q.next
            ⟨m, tenant, now, none, false, false⟩ x).woken && k x) =
          (q.waitersOf m).countP fun x => (q.heap x).woken && k x := by
        rw [countP_append, countP_singleton, update_self]
        exact countP_congr fun x hx => by rw [hold x hx]
      have hview : (((q.models.lookup m).getD ⟨[], ∅, 0⟩).pushBack q.next tenant).waiters =
            q.waitersOf m ++ [q.next] ∧
          (((q.models.lookup m).getD ⟨[], ∅, 0⟩).pushBack q.next tenant).credit = q.creditOf m := by
        simp only [Queue.waitersOf, Queue.creditOf]
        cases q.models.lookup m <;> exact ⟨rfl, rfl⟩
      obtain ⟨hws, hcredit⟩ := waitersOf_of_lookup (q := { q with
        heap := update q.heap q.next ⟨m, tenant, now, none, false, false⟩
        next := q.next + 1
        models := q.models.insert m _ }) (lookup_insert q.models)
      rw [CreditAt, hws, hcredit, hview.1, hview.2]
      obtain ⟨hcov, hhead⟩ := h m
      refine ⟨⟨fun x hx hidle => ?_, fun _ => ?_⟩, fun hpos => ?_⟩
      · rcases mem_append.mp hx with hx | hx
        · dsimp only at hidle
          rw [hold x hx] at hidle
          exact hcov.idle x hx hidle
        · rw [mem_singleton.mp hx]
          exact hk
      · rw [hcount]
        rcases hguard with hzero | hbusy
        · omega
        · exact hcov.slots (by simpa [Queue.busy] using hbusy)
      · obtain ⟨x, rest, hx, hwoken⟩ := hhead hpos
        refine ⟨x, rest ++ [q.next], by rw [hx]; rfl, ?_⟩
        dsimp only
        rw [hold x (by rw [hx]; simp)]
        exact hwoken
    · refine (h m).mono ?_ ?_ le_rfl (fun x hx hwoken => ?_) fun _ _ hk => hk
      · simp only [Queue.waitersOf, lookup_insert_ne hm]
      · simp only [Queue.creditOf, lookup_insert_ne hm]
      · dsimp only
        rw [hold x hx]
        exact hwoken

theorem CreditOk.wake (model : String) (n : Int) : CreditOk (q.wake model n).1 k free := by
  simp only [Queue.wake]
  split
  · exact h
  next mq hmq =>
    have hn := wakeLoop_nudge mq.waiters mq.waiters (fun _ hw => hw) n.toNat q.heap
    exact h.reheap fun _ w _ hw => hn.woken w hw

/-- A slot goes to the head waiter, or it is free and covered by one more unit of credit. -/
theorem CreditOk.handoff (hq : q.Listed) (model : String) (v : α) :
    CreditOk (q.handoff model v).1 k
      (if (q.handoff model v).2 then free else update free model (free model + 1)) := by
  have hadd : ∀ m', m' ≠ model →
      CreditAt q k (update free model (free model + 1) m') m' := by
    intro m' hm'
    rw [update_of_ne hm']
    exact h m'
  rcases q.handoff_cases model v with
    ⟨hws, heq⟩ | ⟨mq, head, rest, hmq, hws, ⟨-, heq⟩ | ⟨hidle, heq⟩⟩ <;> rw [heq]
  · intro m'
    by_cases hm' : m' = model
    · subst hm'
      exact .nil hq hws
    · exact hadd m' hm'
  · have hcov : Covered (q.waitersOf model) (q.creditOf model + 1)
        (update free model (free model + 1) model) q.heap k := by
      obtain ⟨hidle, hslots⟩ := (h model).1
      refine ⟨hidle, fun hne => ?_⟩
      have := hslots hne
      rw [update_self]
      omega
    exact creditOk_settleModel hq hcov hadd none
  · have hwoken : ¬ (q.heap head).woken = true := by simp [hidle]
    have hmodel : (q.heap head).model = model :=
      ((hq model mq hmq).2.2 head (by rw [hws]; simp)).2.1
    -- the head is idle, so there is no credit
    have hzero : q.creditOf model = 0 := by
      by_contra hpos
      obtain ⟨x, rest', hx, hxw⟩ := (h model).2 (by omega)
      rw [(waitersOf_of_lookup hmq).1, hws] at hx
      obtain ⟨rfl, -⟩ := cons_eq_cons.mp hx
      exact hwoken hxw
    obtain ⟨hother, hcov⟩ := h.unlink hq head 0 fun hw => absurd hw hwoken
    have hunlinked : CreditOk (q.unlink head) k free := by
      intro m
      by_cases hm : m = model
      · subst hm
        rw [hmodel] at hcov
        by_cases hempty : (q.unlink head).waitersOf m = []
        · exact .nil (hq.unlink head) hempty
        · obtain ⟨hws', hcredit'⟩ := unlink_waitersOf hq head m
          refine ⟨hcov, fun hpos => ?_⟩
          rw [hcredit' (hws' ▸ hempty), hzero] at hpos
          cases hpos
      · exact hother m (by rw [hmodel]; exact hm)
    exact hunlinked.channel head _

/-- A waiter leaves. With `giveBack` its wake-up goes to another waiter; without, it must have
looked. -/
theorem CreditOk.leave (hq : q.Listed) (w : Nat) (giveBack : Bool)
    (hk : giveBack = false → k w = false) : CreditOk (q.leave w giveBack).1 k free := by
  suffices hlocked : CreditOk (q.leaveLocked w true giveBack) k free by
    simp only [Queue.leave]
    split
    · exact hlocked.channel w none
    · exact h.channel w none
  rcases q.mem_or_unlisted w with ⟨mq, hmq, hw⟩ | hnot
  · rw [leaveLocked_of_mem hmq hw]
    obtain ⟨hother, hcov⟩ := h.unlink hq w (if giveBack && (q.heap w).woken then 1 else 0)
      fun hwoken hkw => by
        cases giveBack with
        | true => simp [hwoken]
        | false =>
          rw [hk rfl] at hkw
          cases hkw
    exact creditOk_settleModel (hq.unlink w) hcov hother none
  · rw [leaveLocked_of_not_mem hnot]
    refine h.reheap fun m x hx hwoken => ?_
    have hxw : x ≠ w := fun hxw => hq.not_mem_waitersOf hnot m (hxw ▸ hx)
    rw [update_of_ne hxw]
    exact hwoken

end

/-- A waiter is changed, but for where it waits. -/
theorem Queue.Listed.rewrite (hq : q.Listed) (w : Nat) {wtr : Waiter α}
    (hmodel : wtr.model = (q.heap w).model) (hleft : wtr.left = (q.heap w).left) :
    Queue.Listed { q with heap := update q.heap w wtr } := by
  intro m mq hmq
  obtain ⟨hne, hnd, hall⟩ := hq m mq hmq
  refine ⟨hne, hnd, fun x hx => ?_⟩
  by_cases hxw : x = w
  · subst hxw
    simpa [hmodel, hleft] using hall x hx
  · simpa [update_of_ne hxw] using hall x hx

/-- A waiter that found no slot waits again, unless the credit sends it back at once. -/
theorem CreditOk.park (h : CreditOk q k free) (hq : q.Listed) {w : Nat} (hkw : k w = false) :
    CreditOk (q.park w).1 (update k w true) free := by
  cases hleft : (q.heap w).left with
  | true =>
    rw [Queue.park_fst, if_pos hleft]
    exact h.forget w
  | false =>
    let parked : Queue α :=
      { q with heap := update q.heap w { q.heap w with woken := false } }
    have hlisted : parked.Listed := hq.rewrite w rfl rfl
    rw [Queue.park_fst, hleft]
    refine creditOk_settleModel hlisted ⟨fun x hx hidle => ?_, fun hne => ?_⟩ (fun m hm => ?_) _
    · by_cases hxw : x = w
      · rw [hxw, update_self]
      · simp only [parked, update_of_ne hxw] at hidle
        exact update_of_true w ((h _).1.idle x hx hidle)
    · -- it had looked already, so it covered nothing
      have hcount : (q.waitersOf (q.heap w).model).countP
            (fun x => (parked.heap x).woken && update k w true x) =
          (q.waitersOf (q.heap w).model).countP fun x => (q.heap x).woken && k x := by
        refine countP_congr fun x _ => ?_
        by_cases hxw : x = w
        · subst hxw
          simp [parked, hkw]
        · simp [parked, update_of_ne hxw]
      show free _ ≤ q.creditOf _ + 0 + (q.waitersOf _).countP _
      rw [hcount]
      exact (h _).1.slots hne
    · have hne : ∀ x ∈ q.waitersOf m, x ≠ w := by
        rintro x hx rfl
        exact hm ((hq.waiters m).2 x hx).2.1.symm
      refine (h m).mono rfl rfl le_rfl (fun x hx hw => ?_) fun _ _ hx => update_of_true w hx
      simpa only [parked, update_of_ne (hne x hx)] using hw

theorem Queue.Listed.send (hq : q.Listed) (w : Nat) (g : Grant α) : (q.send w g).Listed :=
  hq.rewrite w rfl rfl

/-- Flushing some waiters takes them off the lists and leaves the others alone. -/
theorem flushAll_view (hq : q.Listed) (ws : List Nat) : (q.flushAll ws).Listed ∧
    (∀ w, w ∉ ws → (q.flushAll ws).heap w = q.heap w) ∧
    ∀ m, (q.flushAll ws).waitersOf m = (q.waitersOf m).diff ws ∧
      ((q.waitersOf m).diff ws ≠ [] → (q.flushAll ws).creditOf m = q.creditOf m) := by
  induction ws generalizing q with
  | nil => exact ⟨hq, fun _ _ => rfl, fun m => ⟨(diff_nil _).symm, fun _ => rfl⟩⟩
  | cons w ws ih =>
    obtain ⟨hlisted, hheap, hview⟩ := ih ((hq.unlink w).send w .flushed)
    refine ⟨hlisted, fun x hx => ?_, fun m => ?_⟩
    · rw [mem_cons, not_or] at hx
      refine (hheap x hx.2).trans ?_
      show update (q.unlink w).heap w _ x = q.heap x
      rw [update_of_ne hx.1, (unlink_heap q w).1, update_of_ne hx.1]
    · obtain ⟨hws, hcredit⟩ := hview m
      obtain ⟨hws', hcredit'⟩ := unlink_waitersOf hq w m
      change (q.flushAll (w :: ws)).waitersOf m = ((q.unlink w).waitersOf m).diff ws at hws
      change ((q.unlink w).waitersOf m).diff ws ≠ [] →
        (q.flushAll (w :: ws)).creditOf m = (q.unlink w).creditOf m at hcredit
      rw [hws'] at hws hcredit
      rw [diff_cons]
      refine ⟨hws, fun hne => (hcredit hne).trans (hcredit' fun hnil => hne ?_)⟩
      rw [hnil, nil_diff]

theorem CreditOk.flush (h : CreditOk q k free) (hq : q.Listed) (model : String) :
    CreditOk (q.flush model) k free := by
  simp only [Queue.flush]
  induction q.models.keys.filter (fun m => decide (model = "" ∨ m = model)) generalizing q with
  | nil => exact h
  | cons m ms ih =>
    obtain ⟨hlisted, hheap, hview⟩ := flushAll_view hq (q.waitersOf m)
    refine ih (fun m' => ?_) hlisted
    by_cases hm : m' = m
    · -- nobody of the model is left
      subst hm
      refine .nil hlisted ((hview m').1.trans ?_)
      exact subset_nil.mp fun x hx =>
        absurd ((hq.waiters m').1.mem_sdiff_iff.mp hx).1 ((hq.waiters m').1.mem_sdiff_iff.mp hx).2
    · have hdisj : ∀ x ∈ q.waitersOf m', x ∉ q.waitersOf m := by
        intro x hx hx'
        exact hm (((hq.waiters m').2 x hx).2.1.symm.trans ((hq.waiters m).2 x hx').2.1)
      have hdiff : (q.waitersOf m').diff (q.waitersOf m) = q.waitersOf m' := by
        rw [(hq.waiters m').1.sdiff_eq_filter, filter_eq_self]
        intro x hx
        simpa using hdisj x hx
      obtain ⟨hws, hcredit⟩ := hview m'
      rw [hdiff] at hws hcredit
      by_cases hempty : q.waitersOf m' = []
      · exact .nil hlisted (hws.trans hempty)
      · refine (h m').mono hws (hcredit hempty) le_rfl (fun x hx hw => ?_) fun _ _ hk => hk
        rw [hheap x (hdisj x hx)]
        exact hw

/-- A woken waiter looks: it takes a free slot if there is one, and covers none from now on. -/
theorem CreditOk.look (h : CreditOk q k free) (hq : q.Listed) {w : Nat}
    (hwoken : (q.heap w).left = false → (q.heap w).woken = true) :
    CreditOk q (update k w false)
      (update free (q.heap w).model (free (q.heap w).model - 1)) := by
  intro m
  by_cases hmem : w ∈ q.waitersOf m
  · obtain ⟨-, hmodel, hleft⟩ := (hq.waiters m).2 w hmem
    obtain ⟨hcov, hhead⟩ := h m
    rw [hmodel, update_self]
    refine ⟨⟨fun x hx hidle => ?_, fun hne => ?_⟩, hhead⟩
    · have hxw : x ≠ w := by
        rintro rfl
        rw [hwoken hleft] at hidle
        cases hidle
      rw [update_of_ne hxw]
      exact hcov.idle x hx hidle
    · have hcount := countP_add_of_eq_off (hq.waiters m).1 hmem
        (f := fun x => (q.heap x).woken && update k w false x)
        (g := fun x => (q.heap x).woken && k x)
        fun x _ hxw => by rw [update_of_ne hxw]
      have := hcov.slots hne
      simp only [update_self, Bool.and_false, Bool.false_eq_true, if_false] at hcount
      split at hcount <;> omega
  · refine (h m).mono rfl rfl ?_ (fun _ _ hx => hx) fun x hx hkx => ?_
    · by_cases hm : m = (q.heap w).model
      · subst hm
        rw [update_self]
        omega
      · rw [update_of_ne hm]
    · rw [update_of_ne (show x ≠ w from fun hxw => hmem (hxw ▸ hx))]
      exact hkx

end Operations

end ServerFlow.Resilience
