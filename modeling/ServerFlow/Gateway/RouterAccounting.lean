import ServerFlow.Gateway.RouterSlots

/-!
# Gateway.RouterAccounting

The counts of the router never exceed the workers' limits, with either load overlay, and the slot
accounting as a whole.
-/

namespace ServerFlow.Gateway

open Resilience Signals Option

variable {a : RouterAct}

/-- The view has the limit of every worker. -/
def RouterAct.keeps (limit : String → Int) : RouterAct → Bool
  | .reserve _ _ workers _ _ _ _ =>
    workers.all fun w => decide (w.maxConcurrency = limit w.workerID)
  | _ => true

/-- A step while no worker's `MaxConcurrency` changes. -/
def RouterSys.stepWithin (limit : String → Int) (s : RouterSys) (a : RouterAct) :
    Option RouterSys :=
  if a.keeps limit then s.step a else none

section Steps

variable {s t : RouterSys}

/-- No step but `reserve` adds to a count. -/
theorem step_inflightOf_le (ha : s.step a = some t)
    (hres : ∀ req tenant workers viewAt broke picks now,
      a ≠ .reserve req tenant workers viewAt broke picks now) :
    t.r.sig.isSome = s.r.sig.isSome ∧ ∀ w, t.r.inflightOf w ≤ max (s.r.inflightOf w) 0 := by
  have hsame : ∀ {r : Router}, r.inflight = s.r.inflight →
      ∀ w, r.inflightOf w ≤ max (s.r.inflightOf w) 0 := by
    intro r hr w
    simp only [Router.inflightOf, hr]
    exact le_max_left _ _
  have hunslot : ∀ {r : Router} (id : String), r.inflight = s.r.inflight →
      ∀ w, (r.unslot id).inflightOf w ≤ max (s.r.inflightOf w) 0 := by
    intro r id hr w
    have := r.unslot_le id w
    rwa [show r.inflightOf w = s.r.inflightOf w by simp only [Router.inflightOf, hr]] at this
  revert ha
  fun_cases RouterSys.step s a <;> intro ha <;> try with_reducible cases ha
  next => exact absurd rfl (hres _ _ _ _ _ _ _)
  next => exact absurd rfl (hres _ _ _ _ _ _ _)
  next => exact absurd rfl (hres _ _ _ _ _ _ _)
  next =>
    obtain ⟨q, -, rfl⟩ := Option.map_eq_some_iff.mp ha
    exact ⟨rfl, hsame rfl⟩
  next => exact ⟨rfl, hsame rfl⟩
  next => exact ⟨isSome_map, hsame rfl⟩
  next hr =>
    obtain ⟨hin, hsig, -⟩ := Router.offer_inflight hr
    exact ⟨hsig, hunslot _ hin⟩
  next hr =>
    obtain ⟨hin, hsig, -⟩ := Router.offer_inflight hr
    exact ⟨hsig, hsame hin⟩
  next =>
    obtain ⟨q, -, rfl⟩ := Option.map_eq_some_iff.mp ha
    split
    · exact ⟨rfl, hsame rfl⟩
    · exact ⟨isSome_map, hunslot _ rfl⟩
  next =>
    obtain ⟨q, -, rfl⟩ := Option.map_eq_some_iff.mp ha
    exact ⟨rfl, hsame rfl⟩
  next =>
    obtain ⟨slot, -, rfl⟩ := Option.map_eq_some_iff.mp ha
    fun_cases RouterSys.charge
    · exact ⟨rfl, hsame rfl⟩
    · exact ⟨rfl, hsame rfl⟩
    next hsig _ _ => exact ⟨by rw [hsig]; rfl, hsame rfl⟩
  next => exact ⟨rfl, hsame rfl⟩
  next => exact ⟨isSome_map, hsame rfl⟩

/-- While the router's lock is held, and when a hand-off is accepted, no count changes. -/
theorem step_inflight_of_locked (ha : s.step a = some t) (hmu : t.mu ≠ .free) :
    t.r.inflight = s.r.inflight := by
  revert ha
  fun_cases RouterSys.step s a <;> intro ha <;> try with_reducible cases ha
  next hfree _ _ _ _ _ => exact absurd (not_not.mp hfree) hmu
  next hr => exact Router.reserve_inflight hr
  next hr => exact Router.reserve_inflight hr
  next =>
    obtain ⟨q, -, rfl⟩ := Option.map_eq_some_iff.mp ha
    rfl
  next => rfl
  next => rfl
  next => exact absurd rfl hmu
  next hr => exact (Router.offer_inflight hr).1
  next =>
    obtain ⟨q, -, rfl⟩ := Option.map_eq_some_iff.mp ha
    split at hmu <;> exact absurd rfl hmu
  next =>
    obtain ⟨q, -, rfl⟩ := Option.map_eq_some_iff.mp ha
    rfl
  next =>
    obtain ⟨slot, -, rfl⟩ := Option.map_eq_some_iff.mp ha
    fun_cases RouterSys.charge <;> rfl
  next => rfl
  next => rfl

end Steps

/-! ### The limit -/

/-- No count is above its worker's limit. -/
structure Within (limit : String → Int) (ledger : Bool) (s : RouterSys) : Prop where
  ok : SlotsOk s
  mode : s.r.sig.isSome = ledger
  bound : ∀ w, s.r.inflightOf w ≤ max (limit w) 0

theorem SlotsOk.nonneg {s : RouterSys} (h : SlotsOk s) (w : String) : 0 ≤ s.r.inflightOf w := by
  rw [h.count w]
  omega

theorem Within.step {limit : String → Int} {ledger : Bool}
    (hledger : ledger = true → ∀ w, limit w ≤ maxCount) {s t : RouterSys}
    (h : Within limit ledger s) (ha : s.stepWithin limit a = some t) : Within limit ledger t := by
  simp only [RouterSys.stepWithin] at ha
  split at ha
  next hkeeps =>
    by_cases hres : ∀ req tenant workers viewAt broke picks now,
        a ≠ .reserve req tenant workers viewAt broke picks now
    · obtain ⟨hsig, hle⟩ := step_inflightOf_le ha hres
      refine ⟨h.ok.step ha, hsig.trans h.mode, fun w => (hle w).trans ?_⟩
      rw [max_eq_left (h.ok.nonneg w)]
      exact h.bound w
    · push Not at hres
      obtain ⟨req, tenant, workers, viewAt, broke, picks, now, rfl⟩ := hres
      have hok := h.ok.step ha
      -- `reserve` without a slot leaves the counts alone
      have hsame : ∀ {r : Router}, r.inflight = s.r.inflight →
          ∀ w, r.inflightOf w ≤ max (limit w) 0 := by
        intro r hr w
        simp only [Router.inflightOf, hr]
        exact h.bound w
      simp only [RouterSys.step] at ha
      split at ha
      · cases ha
      split at ha <;> cases ha
      next r c ticket lease hr =>
        refine ⟨hok, (Router.reserve_sig hr).trans h.mode, fun w => ?_⟩
        -- the scheduler saw the worker below its limit, and at least as loaded as the count says
        have hbelow : s.r.inflightOf c.workerID < limit c.workerID := by
          refine Router.reserve_below hr (fun w hw => ?_) h.ok.nonneg fun hsig w => ?_
          · exact of_decide_eq_true (List.all_eq_true.mp hkeeps w hw)
          · refine (h.bound w).trans (max_le (hledger (h.mode ▸ hsig) w) ?_)
            decide
        have hin : r.inflightOf w = if w = c.workerID then s.r.inflightOf c.workerID + 1
            else s.r.inflightOf w := by
          rw [← s.r.inflightOf_insert]
          simp only [Router.inflightOf, show r.inflight = _ from Router.reserve_inflight hr]
        show r.inflightOf w ≤ _
        rw [hin]
        split
        next hw =>
          subst hw
          omega
        next => exact h.bound w
      next hr =>
        exact ⟨hok, (Router.reserve_sig hr).trans h.mode, hsame (Router.reserve_inflight hr)⟩
      next hr =>
        exact ⟨hok, (Router.reserve_sig hr).trans h.mode, hsame (Router.reserve_inflight hr)⟩
  next => cases ha

theorem within_of_reach {limit : String → Int} {res : Option Breakers} {sig : Option Tracker}
    {p : QueueParams} (hledger : sig.isSome = true → ∀ w, limit w ≤ maxCount) {s : RouterSys}
    (h : Machine.Reach (RouterSys.stepWithin limit) (RouterSys.start res sig p) s) :
    Within limit sig.isSome s :=
  h.invariant ⟨slotsOk_start res sig p, rfl, fun _ => le_max_right _ _⟩
    fun _ _ _ hs ha => hs.step hledger ha

/-- Router slot accounting, in every state that the gateway's goroutines reach. A count is never
negative, and while the lock is free it is the number of slots taken and not released. Each of those
is held by a request or waits in a channel. The counts do not change while the lock is held or when
a hand-off is accepted, and releasing again does nothing. They stay within the workers' limits, if
those do not change; with the ledger overlay the limits must be within the bound on counts, which
registration sees to (it refuses more than 100000). -/
theorem slot_accounting {res : Option Breakers} {sig : Option Tracker} {p : QueueParams}
    {s : RouterSys} (h : Machine.Reach RouterSys.step (RouterSys.start res sig p) s) :
    (∀ w, 0 ≤ s.r.inflightOf w) ∧
    (s.mu = .free → ∀ w, s.r.inflightOf w = s.openSlots w) ∧
    (∀ (rt : Nat) (slot : Slot), s.slots[rt]? = some slot → slot.taken = true →
      slot.released = false →
      s.holds rt = true ∨ ∃ w, (s.queue.q.heap w).ch = some (.handoff rt)) ∧
    (∀ a t, s.step a = some t → t.mu ≠ .free → t.r.inflight = s.r.inflight) ∧
    (∀ (rt next : Nat) (slot : Slot) now t, s.mu = .offering rt next → s.slots[rt]? = some slot →
      (s.queue.q.handoff slot.worker.model next).2 = true → s.step (.handoff now) = some t →
      t.r.inflight = s.r.inflight) ∧
    (∀ (rt : Nat) (slot : Slot) now, s.slots[rt]? = some slot → slot.released = true →
      s.holds rt = true → s.mu = .free → s.step (.release rt now) = some s) ∧
    (∀ limit : String → Int, (sig.isSome = true → ∀ w, limit w ≤ maxCount) →
      Machine.Reach (RouterSys.stepWithin limit) (RouterSys.start res sig p) s →
      ∀ w, 0 ≤ limit w → s.r.inflightOf w ≤ limit w) := by
  have hok := slotsOk_of_reach h
  refine ⟨hok.nonneg, fun hmu w => ?_,
    fun rt slot hslot htaken _ => hok.held_or_pending hslot htaken,
    fun a t ha hmu => step_inflight_of_locked ha hmu, fun rt next slot now t hmu hslot hacc ha =>
      ?_,
    fun rt slot now hslot hrel hrt hmu => ?_, fun limit hledger hwithin w hw => ?_⟩
  · have := hok.count w
    simpa [RouterSys.leavingOf, RouterSys.leaving, hmu] using this
  · simp only [RouterSys.step, hmu, hslot] at ha
    split at ha
    next slot' new hslot' hnew =>
      obtain ⟨q, -, rfl⟩ := Option.map_eq_some_iff.mp ha
      obtain rfl := some.inj hslot'
      rw [if_pos hacc]
    next => cases ha
  · simp only [RouterSys.step, if_pos (And.intro hmu hrt), hslot, if_pos hrel]
  · have := (within_of_reach hledger hwithin).bound w
    rwa [max_eq_left hw] at this

/-- With the ledger overlay, a worker that takes one request at a time serves one, and its slot is
handed to a second that waits. -/
theorem slot_accounting_handed_over :
    let w : WorkerSnapshot := ⟨"w1", "m", 1, .ready, .healthy, true, 0, 0, 0⟩
    let start := RouterSys.start
      (some (Breakers.new ⟨1, 0, 1, second, second, second, 1, 1, 1 / 2, 0⟩ fun _ => 0))
      (some (newTracker ⟨0, 0, 0⟩)) ⟨10, 0, 0⟩
    let acts : List RouterAct := [.reserve ⟨"m", 5⟩ (some "") [w] 0 0 [.worker w 0] 0,
      .reserve ⟨"m", 5⟩ (some "") [w] 0 0 [.noWorker 1 1 1 false 0 []] 0, .enqueue 1, .release 0 2,
      .offer (some w) 2, .handoff 2]
    ∃ s, Machine.runActs (RouterSys.stepWithin fun _ => 1) start acts = some s ∧ s.mu = .free ∧
      s.openSlots "w1" = 1 ∧ s.r.inflightOf "w1" = s.openSlots "w1" ∧ s.r.inflightOf "w1" ≤ 1 := by
  intro w start acts
  obtain ⟨s, hs, hmu, hopen⟩ : ∃ s ∈ Machine.runActs (RouterSys.stepWithin fun _ => 1) start acts,
      s.mu = .free ∧ s.openSlots "w1" = 1 := by
    decide +kernel
  have hwithin := Machine.reach_of_runActs .refl acts hs
  have hreach : Machine.Reach RouterSys.step start s := hwithin.mono fun s t a ha => by
    simp only [RouterSys.stepWithin] at ha
    split at ha
    · exact ha
    · cases ha
  obtain ⟨-, hcount, -, -, -, -, hlimit⟩ := slot_accounting hreach
  exact ⟨s, hs, hmu, hopen, hcount hmu "w1",
    hlimit (fun _ => 1) (fun _ _ => by decide) hwithin "w1" (by decide)⟩

end ServerFlow.Gateway
