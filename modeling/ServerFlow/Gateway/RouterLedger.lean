import ServerFlow.Gateway.RouterSlots
import ServerFlow.Signals.Ledger

/-!
# Gateway.RouterLedger

The router keeps the ledger exact. `reserve` begins a lease and charges it, a hand-off begins one
whose cost the waiter adds later (`charge`), `releaseSlot` ends the lease of its routed value, and a
hand-off that the queue refuses is ended at once. Sections of different goroutines interleave, and
registry snapshots come in between.
-/

namespace ServerFlow.Gateway

open Resilience Signals Option Machine List

/-! ### The router's calls of the tracker -/

/-- The ledger is exact, if there is one. -/
def ExactOn (sig : Option Tracker) (ls : List Lease) : Prop := ∀ t, sig = some t → Exact t ls

namespace ExactOn

variable {r r' : Router} {sig : Option Tracker} {ls ls' : List Lease}

theorem none : ExactOn none ls := nofun

theorem perm (h : ExactOn sig ls) (hp : ls.Perm ls') : ExactOn sig ls' :=
  fun t ht => (h t ht).perm hp

theorem overlay (h : ExactOn r.sig ls) (w : WorkerSnapshot) (now : Time) :
    ExactOn (r.overlay w now).1.sig ls := by
  cases hsig : r.sig with
  | none =>
    simp only [Router.overlay, hsig]
    exact .none
  | some t =>
    simp only [Router.overlay, hsig]
    rintro t' ⟨⟩
    exact ((h t hsig).overlay now _).1

theorem overlayAll (h : ExactOn r.sig ls) (viewAt : Time) (ws : List WorkerSnapshot) :
    ExactOn (r.overlayAll viewAt ws).1.sig ls := by
  induction ws generalizing r with
  | nil => exact h
  | cons w ws ih => exact ih (h.overlay w viewAt)

/-- Taking a slot begins a lease and puts the request's cost on it. -/
theorem takeLease (h : ExactOn sig ls) (now : Time) (w : WorkerSnapshot) (cost : Int)
    (hfit : Fits (⟨(takeLease sig now w cost).2.tok, (takeLease sig now w cost).2.cost⟩ :: ls)) :
    ExactOn (takeLease sig now w cost).1
      (⟨(takeLease sig now w cost).2.tok, (takeLease sig now w cost).2.cost⟩ :: ls) := by
  cases hsig : sig with
  | none => exact .none
  | some t =>
    rw [hsig] at hfit
    rintro t' ⟨⟩
    exact (((h t hsig).begin now (signalsKeyOf w)).1.addCost _ hfit).1

theorem reserve {busy wait : Bool} {req : Request} {ws : List WorkerSnapshot} {viewAt now : Time}
    {broke : Int} {picks : List Pick} {out : Reserved} (h : ExactOn r.sig ls)
    (hr : r.reserve busy req ws viewAt broke wait picks now = some (r', out)) : match out with
    | .slot _ _ lease => Fits (⟨lease.tok, lease.cost⟩ :: ls) →
      ExactOn r'.sig (⟨lease.tok, lease.cost⟩ :: ls)
    | _ => ExactOn r'.sig ls := by
  have hview := h.overlayAll viewAt ws
  simp only [Router.reserve] at hr
  split at hr
  · cases hr
    exact h
  · split at hr
    · cases hr
    · split at hr <;> cases hr <;> exact hview
    next res c ticket hsel =>
      cases hr
      exact hview.takeLease now c req.cost

/-- `releaseSlot` ends the lease of its routed value. -/
theorem endLease {l : Lease} (h : ExactOn r.sig (l :: ls)) (hfit : Fits ls) (now : Time) :
    ExactOn (r.endLease l.tok l.cost now).sig ls := by
  intro t' ht'
  obtain ⟨t, ht, rfl⟩ := map_eq_some_iff.mp ht'
  exact ((h t ht).finish hfit now).1

/-- `handoffLocked` begins a lease for the new holder, if it gets as far as the queue. -/
theorem offer {busy : Bool} {w : WorkerSnapshot} {cur : Option WorkerSnapshot} {now : Time}
    {out : Offer} (h : ExactOn r.sig ls) (hr : r.offer busy w cur now = (r', out)) : match out with
    | .free _ => ExactOn r'.sig ls
    | .handoff _ _ tok => ExactOn r'.sig (⟨tok, 0⟩ :: ls) := by
  simp only [Router.offer] at hr
  split at hr
  · cases hr
    exact h
  · split at hr
    · cases hr
      exact h
    · split at hr
      · cases hr
        exact h
      · split at hr
        · cases hr
          exact h
        · split at hr
          · cases hr
            exact h
          · split at hr
            next hsig =>
              cases hr
              dsimp only
              rw [hsig]
              exact .none
            next t hsig =>
              cases hr
              rintro t' ⟨⟩
              exact ((h t hsig).begin now _).1

/-- A refused hand-off: the lease goes back at no cost. -/
theorem takeBack {tok : Token} (h : ExactOn r.sig (⟨tok, 0⟩ :: ls)) (hfit : Fits ls)
    (ticket : Ticket) (now : Time) : ExactOn (r.takeBack ticket tok now).sig ls := by
  intro t' ht'
  obtain ⟨t, ht, rfl⟩ := map_eq_some_iff.mp ht'
  exact ((h t ht).finish hfit now).1

end ExactOn

/-! ### The leases of the gateway -/

/-- A slot has its lease out until its routed value is released. -/
def Slot.lease? (slot : Slot) : Option Lease :=
  if slot.taken && !slot.released then some ⟨slot.lease, slot.cost⟩ else none

theorem Slot.lease?_of_open {slot : Slot} (htaken : slot.taken = true)
    (hrel : slot.released = false) : slot.lease? = some ⟨slot.lease, slot.cost⟩ :=
  by simp [Slot.lease?, htaken, hrel]

/-- The lease of a routed value that the queue has not answered for yet. -/
def RouterSys.offered (s : RouterSys) : List Lease :=
  match s.mu with
  | .offering _ next => ((s.slots[next]?).map fun slot => (⟨slot.lease, slot.cost⟩ : Lease)).toList
  | _ => []

def RouterSys.leases (s : RouterSys) : List Lease := s.offered ++ s.slots.filterMap Slot.lease?

/-- A charge after the release. -/
def RouterSys.late (s : RouterSys) : RouterAct → Bool
  | .charge rt _ => (s.slots[rt]?).any (·.released)
  | _ => false

/-- A step of the goroutines as they are: whoever is handed a slot charges it before anything else,
so never after it was released. The leases are within the bounds. -/
def RouterSys.stepPaired (s : RouterSys) (a : RouterAct) : Option RouterSys :=
  if s.late a then none else (s.step a).filter fun t => Signals.Within t.leases

theorem RouterSys.of_stepPaired {s t : RouterSys} {a : RouterAct} (h : s.stepPaired a = some t) :
    s.late a = false ∧ s.step a = some t ∧ Fits t.leases := by
  simp only [RouterSys.stepPaired] at h
  split at h
  · cases h
  next hlate =>
    obtain ⟨hstep, hin⟩ := filter_eq_some_iff.mp h
    exact ⟨by simpa using hlate, hstep, (of_decide_eq_true hin).fits⟩

/-- The invariant: the slot accounting, and the exact ledger. -/
structure LedgerKept (s : RouterSys) : Prop where
  slots : SlotsOk s
  exact_ : ExactOn s.r.sig s.leases
  /-- A routed value on offer has no cost. -/
  offer : ∀ rt next slot, s.mu = .offering rt next → s.slots[next]? = some slot → slot.cost = 0

theorem ledgerKept_start (res : Option Breakers) (cfg : Option Signals.Config) (p : QueueParams) :
    LedgerKept (RouterSys.start res (cfg.map newTracker) p) := by
  refine ⟨slotsOk_start _ _ p, fun t ht => ?_, fun rt next slot hmu => (by cases hmu)⟩
  obtain ⟨c, -, rfl⟩ := map_eq_some_iff.mp ht
  exact exact_new c

namespace LedgerKept

variable {s t : RouterSys}

variable {rt next : Nat} {slot : Slot}

/-- The routed value on offer, with its lease. -/
theorem offered_eq (hmu : s.mu = .offering rt next)
    (hslot : s.slots[next]? = some slot) : s.offered = [⟨slot.lease, slot.cost⟩] := by
  simp only [RouterSys.offered, hmu, hslot]
  rfl

theorem offered_eq_nil (h : ∀ rt next, s.mu ≠ .offering rt next) : s.offered = [] := by
  cases hmu : s.mu with
  | offering rt next => exact absurd hmu (h rt next)
  | _ => simp only [RouterSys.offered, hmu]

/-- The leases after a step that ends with no routed value on offer. -/
theorem of_settled (hslots : SlotsOk t) (hfits : Fits t.leases)
    (hmu : ∀ rt next, t.mu ≠ .offering rt next)
    (hex : Fits (t.slots.filterMap Slot.lease?) → ExactOn t.r.sig (t.slots.filterMap Slot.lease?)) :
    LedgerKept t := by
  rw [RouterSys.leases, offered_eq_nil hmu] at hfits
  refine ⟨hslots, ?_, fun rt next slot h => absurd h (hmu rt next)⟩
  rw [RouterSys.leases, offered_eq_nil hmu]
  exact hex hfits

/-- The leases before a step that starts with no routed value on offer. -/
theorem settled (h : LedgerKept s) (hmu : ∀ rt next, s.mu ≠ .offering rt next) :
    ExactOn s.r.sig (s.slots.filterMap Slot.lease?) := by
  have := h.exact_
  rwa [RouterSys.leases, offered_eq_nil hmu] at this

/-- A step that changes neither the routed values nor the lock. -/
theorem of_router (h : LedgerKept s) (hslots : SlotsOk t) (hmu : t.mu = s.mu)
    (hsame : t.slots = s.slots) (hex : ExactOn t.r.sig s.leases) : LedgerKept t := by
  refine ⟨hslots, ?_, fun rt next slot hoff hslot => ?_⟩
  · rwa [RouterSys.leases, RouterSys.offered, hmu, hsame]
  · rw [hmu] at hoff
    rw [hsame] at hslot
    exact h.offer rt next slot hoff hslot

/-- The routed value on offer, as the goroutine that offers it left it. -/
theorem offering_slot (h : LedgerKept s) {new : Slot} (hmu : s.mu = .offering rt next)
    (hnew : s.slots[next]? = some new) : new.taken = false ∧ new.released = false := by
  obtain ⟨-, new', -, -, hnew', htaken, hrel, -⟩ :=
    show ∃ slot new, _ by simpa only [RouterSys.SectionOk, hmu] using h.slots.sectionOk
  obtain rfl := some.inj (hnew.symm.trans hnew')
  exact ⟨htaken, hrel⟩

/-- An accepted hand-off: the lease moves from the offer to the routed value. -/
theorem accepted_perm {new : Slot} (hnew : s.slots[next]? = some new) (htaken : new.taken = false)
    (hrel : new.released = false) : (⟨new.lease, new.cost⟩ :: s.slots.filterMap Slot.lease?).Perm
      ((s.slots.set next { new with taken := true }).filterMap Slot.lease?) := by
  have hold := Table.filterMap_perm hnew Slot.lease?
  have hset := Table.filterMap_set_perm hnew { new with taken := true } Slot.lease?
  rw [Slot.lease?_of_open rfl (by exact hrel)] at hset
  rw [Slot.lease?, htaken] at hold
  exact (hold.cons _).trans hset.symm

/-- The routed value on offer is not a slot that was taken. -/
theorem offering_ne (h : LedgerKept s) {i : Nat} (hslot : s.slots[rt]? = some slot)
    (htaken : slot.taken = true) (hmu : s.mu = .offering i next) : next ≠ rt := by
  rintro rfl
  cases htaken.symm.trans (h.offering_slot hmu hslot).1

/-- `charge`, on a slot that was not released. -/
theorem charge (h : LedgerKept s) {cost : Int}
    (hslot : s.slots[rt]? = some slot) (hrel : slot.released = false)
    (ha : s.step (.charge rt cost) = some t) (hfits : Fits t.leases) : LedgerKept t := by
  have hslots := h.slots.step ha
  simp only [RouterSys.step, hslot, map_some] at ha
  split at ha
  next hholds =>
    obtain rfl := some.inj ha
    have htaken := h.slots.taken_of_holds hholds hslot
    simp only [RouterSys.charge] at hslots hfits ⊢
    cases hsig : s.r.sig with
    | none => exact h
    | some sig =>
      simp only [hsig] at hslots hfits ⊢
      by_cases hcost : slot.cost ≠ 0
      · rw [if_pos hcost]
        exact h
      rw [if_neg hcost] at hslots hfits ⊢
      have hzero : slot.lease? = some ⟨slot.lease, 0⟩ := by
        rw [Slot.lease?_of_open htaken hrel, not_not.mp hcost]
      -- the lease of the slot, in front of the others
      have hsplit : s.leases.Perm
          (⟨slot.lease, 0⟩ :: (s.offered ++ (s.slots.eraseIdx rt).filterMap Slot.lease?)) := by
        have hold := Table.filterMap_perm hslot Slot.lease?
        rw [hzero] at hold
        exact (hold.append_left _).trans perm_middle
      have hadd := ((h.exact_ sig hsig).perm hsplit).addCost cost
      cases hok : (sig.addCost slot.lease cost).2 with
      | false =>
        simp only [hok, Bool.false_eq_true, if_false] at hslots hadd hfits ⊢
        refine h.of_router hslots rfl rfl ?_
        rintro t' ⟨⟩
        exact (hadd (hfits.perm hsplit.symm)).1.perm hsplit.symm
      | true =>
        simp only [hok, if_true] at hslots hadd hfits ⊢
        have hother : ∀ i next, s.mu = .offering i next →
            (s.slots.set rt { slot with cost := cost })[next]? = s.slots[next]? := by
          intro i next hmu
          rw [List.getElem?_set, if_neg fun heq => h.offering_ne hslot htaken hmu heq.symm]
        have hset := Table.filterMap_set_perm hslot { slot with cost := cost } Slot.lease?
        rw [Slot.lease?_of_open (by exact htaken) (by exact hrel)] at hset
        have hmoved := fun hafter => (hadd (hfits.perm hafter)).1.perm hafter
        refine ⟨hslots, ?_, fun i next x hmu hx => ?_⟩
        · rintro t' ⟨⟩
          refine hmoved (((hset.append_left _).trans perm_middle).symm.trans ?_)
          refine .of_eq (congrArg (· ++ _) ?_)
          simp only [RouterSys.offered]
          split
          next i next hmu => rw [hother i next hmu]
          next => rfl
        · exact h.offer i next x hmu ((hother i next hmu).symm.trans hx)
  next => cases ha

theorem step (h : LedgerKept s) {a : RouterAct} (hp : s.stepPaired a = some t) : LedgerKept t := by
  obtain ⟨hlate, ha, hfits⟩ := RouterSys.of_stepPaired hp
  have hslots := h.slots.step ha
  have hidle : ∀ {mu : Section}, s.mu = mu → (∀ rt next, mu ≠ .offering rt next) →
      ExactOn s.r.sig (s.slots.filterMap Slot.lease?) := fun hmu hne => h.settled (hmu ▸ hne)
  revert ha
  fun_cases RouterSys.step s a <;> intro ha <;> try with_reducible cases ha
  next hmu r w ticket lease hr =>
    have hfree := not_not.mp hmu
    refine of_settled hslots hfits (by simp [hfree]) fun hfits => ?_
    rw [filterMap_append] at hfits ⊢
    refine ((hidle hfree (by simp)).reserve hr (hfits.perm ?_)).perm ?_ <;>
      exact (perm_append_singleton _ _).symm
  next hmu r counts hr =>
    exact of_settled hslots hfits (by simp) fun _ => (hidle (not_not.mp hmu) (by simp)).reserve hr
  next hmu r err hr =>
    have hfree := not_not.mp hmu
    exact of_settled hslots hfits (by simp [hfree]) fun _ => (hidle hfree (by simp)).reserve hr
  next hmu =>
    obtain ⟨q, -, rfl⟩ := map_eq_some_iff.mp ha
    exact of_settled hslots hfits (by simp) fun _ => hidle hmu (by simp)
  next => exact h
  next hguard slot hslot hrel =>
    have hout := (hidle hguard.1 (by simp)).perm (Table.filterMap_perm hslot Slot.lease?)
    rw [Slot.lease?_of_open (h.slots.taken_of_holds hguard.2 hslot) (by simpa using hrel)] at hout
    have hset := Table.filterMap_set_perm hslot { slot with released := true } Slot.lease?
    have hnone : Slot.lease? { slot with released := true } = none := by simp [Slot.lease?]
    rw [hnone] at hset
    exact of_settled hslots hfits (by simp) fun hfits =>
      (hout.endLease (hfits.perm hset.symm) _).perm hset.symm
  next hmu slot hslot hcur r wake hr =>
    exact of_settled hslots hfits (by simp) fun _ => (hidle hmu (by simp)).offer hr
  next hmu slot hslot hcur r w ticket tok hr =>
    have hnew := Table.getElem?_concat_length s.slots ⟨w, ticket, tok, 0, false, false, false⟩
    refine ⟨hslots, ?_, ?_⟩
    · rw [RouterSys.leases, offered_eq rfl hnew, filterMap_append]
      exact ((hidle hmu (by simp)).offer hr).perm (by simp [Slot.lease?])
    · rintro rt next x ⟨⟩ hx
      obtain rfl := some.inj (hnew.symm.trans hx)
      rfl
  next rt next hmu slot new hnew hslot =>
    obtain ⟨q, -, rfl⟩ := map_eq_some_iff.mp ha
    obtain ⟨htaken, hrel⟩ := h.offering_slot hmu hnew
    have hout := h.exact_
    rw [RouterSys.leases, offered_eq hmu hnew] at hout
    split at hslots
    next hok =>
      rw [if_pos hok] at hfits ⊢
      exact of_settled hslots hfits (by simp) fun _ =>
        hout.perm (accepted_perm hnew htaken hrel)
    next hno =>
      rw [if_neg hno] at hfits ⊢
      rw [h.offer rt next new hmu hnew] at hout
      exact of_settled hslots hfits (by simp) fun hfits => hout.takeBack hfits new.ticket _
  next =>
    obtain ⟨q, -, rfl⟩ := map_eq_some_iff.mp ha
    exact h.of_router hslots rfl rfl h.exact_
  next rt cost hholds =>
    obtain ⟨slot, hslot, -⟩ := map_eq_some_iff.mp ha
    exact h.charge hslot (by simpa [RouterSys.late, hslot] using hlate)
      (RouterSys.of_stepPaired hp).2.1 hfits
  next => exact h.of_router hslots rfl rfl h.exact_
  next =>
    refine h.of_router hslots rfl rfl fun t' ht' => ?_
    obtain ⟨t, ht, rfl⟩ := map_eq_some_iff.mp ht'
    exact ((h.exact_ t ht).sync _ _).1

theorem of_reach {res : Option Breakers} {cfg : Option Signals.Config} {p : QueueParams}
    (hreach : Machine.Reach RouterSys.stepPaired (RouterSys.start res (cfg.map newTracker) p) s) :
    LedgerKept s :=
  hreach.invariant (P := LedgerKept) (ledgerKept_start res cfg p) fun _ _ _ h ha => h.step ha

end LedgerKept

/-! ### The ledger is exact -/

/-- **Ledger exactness**, with the leases within the bounds. In every state that a tracker and its
requests reach (`s`): the ledger of each entry is that of the unfinished requests begun on it, no
clamp of `End` takes effect, and with all requests ended the totals are zero. The token of an entry
that is gone does nothing, then and ever after. In every state that the gateway's goroutines reach
(`g`), the tracker's ledger is that of the slots not released and of the hand-off under way. -/
theorem ledger_exact {cfg : Signals.Config} {s : LedgerSys}
    (hs : Machine.Reach LedgerSys.stepWithin (.start cfg) s) {res : Option Breakers}
    {sigCfg : Option Signals.Config} {p : QueueParams} {g : RouterSys}
    (hg : Machine.Reach RouterSys.stepPaired (RouterSys.start res (sigCfg.map newTracker) p) g) :
    s.t.Balanced s.leases ∧
    ((∀ r ∈ s.reqs, r.ended = true) → s.t.totals = (0, 0)) ∧
    (∀ r ∈ s.reqs, r.tok.Stale s.t → ∀ s', Machine.Reach LedgerSys.stepWithin s s' → ∀ now cost,
      (s'.t.addCost r.tok cost).1.entries = s'.t.entries ∧
        (s'.t.finish now r.tok cost).entries = s'.t.entries) ∧
    ∀ t, g.r.sig = some t → t.Balanced g.leases := by
  have hok := LedgerOk.of_reach hs
  refine ⟨hok.exact_.balanced, fun hended => ?_, fun r hr hstale s' hs' now cost => ?_,
    fun t ht => ?_⟩
  · have hnil : s.leases = [] := by
      refine List.filterMap_eq_nil_iff.mpr fun r hr => ?_
      rw [Req.lease?, if_pos (hended r hr)]
    exact hok.exact_.balanced.2.2 hnil
  · have hstale' := (hok.later hs').stale (hok.issued r hr) hstale
    exact ⟨by rw [hstale'.addCost cost], (hstale'.finish now cost).1⟩
  · exact ((LedgerKept.of_reach hg).exact_ t ht).balanced

/-- A worker leaves the registry and comes back while its first request is in flight: the end of
that request leaves the new entry alone. In the gateway, a slot is handed over and then charged. -/
theorem ledger_exact_reincarnated :
    let w : WorkerSnapshot := ⟨"w1", "m", 1, .ready, .healthy, true, 0, 0, 0⟩
    let reqs : List LedgerAct := [.begin 0 ⟨"w1", 0⟩, .addCost 0 5, .sync 1 [],
      .begin 2 ⟨"w1", 0⟩, .addCost 1 3, .finish 0 3]
    let start := RouterSys.start
      (some (Breakers.new ⟨1, 0, 1, second, second, second, 1, 1, 1 / 2, 0⟩ fun _ => 0))
      ((some ⟨0, 0, 0⟩ : Option Signals.Config).map newTracker) ⟨10, 0, 0⟩
    let acts : List RouterAct := [.reserve ⟨"m", 5⟩ (some "") [w] 0 0 [.worker w 0] 0,
      .reserve ⟨"m", 5⟩ (some "") [w] 0 0 [.noWorker 1 1 1 false 0 []] 0, .enqueue 1, .release 0 2,
      .offer (some w) 2, .handoff 2, .waiter (.recv 0), .charge 1 7]
    (∃ s ∈ runActs LedgerSys.stepWithin (.start ⟨0, 0, 0⟩) reqs,
      s.leases = [⟨⟨⟨"w1", 0⟩, 2⟩, 3⟩] ∧ s.t.Balanced s.leases) ∧
    ∃ g ∈ runActs RouterSys.stepPaired start acts, ∃ t ∈ g.r.sig,
      g.leases = [⟨⟨⟨"w1", 0⟩, 1⟩, 7⟩] ∧ t.Balanced g.leases := by
  intro w reqs start acts
  obtain ⟨s, hs, hsleases⟩ : ∃ s ∈ runActs LedgerSys.stepWithin (.start ⟨0, 0, 0⟩) reqs,
      s.leases = [⟨⟨⟨"w1", 0⟩, 2⟩, 3⟩] := by decide +kernel
  obtain ⟨g, hg, hsig, hgleases⟩ : ∃ g ∈ runActs RouterSys.stepPaired start acts,
      g.r.sig.isSome ∧ g.leases = [⟨⟨⟨"w1", 0⟩, 1⟩, 7⟩] := by decide +kernel
  obtain ⟨t, ht⟩ := isSome_iff_exists.mp hsig
  obtain ⟨hledger, -, -, hgateway⟩ := ledger_exact (reach_of_runActs .refl reqs hs)
    (reach_of_runActs .refl acts hg)
  exact ⟨⟨s, hs, hsleases, hledger⟩, g, hg, t, ht, hgleases, hgateway t ht⟩

/-- Without a bound the work of two requests is reduced to `-2`. -/
theorem unbounded_costs_reduced : ∃ (cfg : Signals.Config) (acts : List LedgerAct)
    (k : Signals.Key),
    ∃ s ∈ runActs LedgerSys.step (.start cfg) acts, ∃ e ∈ s.t.entries.lookup k,
      e.work = -2 ∧ workOn ⟨k, e.gen⟩ s.leases = 2 ^ 64 - 2 :=
  ⟨⟨0, 0, 0⟩, [.begin 0 ⟨"w1", 0⟩, .begin 0 ⟨"w1", 0⟩, .addCost 0 (2 ^ 63 - 1),
    .addCost 1 (2 ^ 63 - 1)], ⟨"w1", 0⟩, by decide +kernel⟩

end ServerFlow.Gateway
