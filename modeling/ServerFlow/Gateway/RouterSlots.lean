import ServerFlow.Gateway.Router
import ServerFlow.Resilience.QueueHandoff

/-!
# Gateway.RouterSlots

Slot accounting of the router: `inflight` counts the slots that were taken and whose routed value
was not released yet.

The goroutines of the gateway share the router, its lock and the admission queue. A routed value is
an index into `slots`; its `once` is the flag `released`. It comes from a `reserve`, or it is
handed to a waiter and then read from the waiter's channel or returned by `Leave`
(`QueueSys.got`). Other goroutines use the queue while one holds the router's lock, so the critical
sections are cut (`Section`) where they call it.
-/

namespace ServerFlow.Gateway

open Resilience Signals List Option Bool

/-! ### The gateway's goroutines -/

/-- A routed value. -/
structure Slot where
  worker : WorkerSnapshot
  ticket : Ticket
  lease : Token
  cost : Int
  /-- A `reserve` returned it; otherwise it was made for a hand-off. -/
  reserved : Bool
  /-- It stands for a slot: it was reserved, or its hand-off was accepted. -/
  taken : Bool
  released : Bool

/-- Who holds the router's lock, and how far they are. -/
inductive Section
  | free
  /-- `releaseSlot` of a routed value, before `handoffLocked`. -/
  | releasing (rt : Nat)
  /-- `handoffLocked`, before `Handoff` of the routed value `next`. -/
  | offering (rt next : Nat)
  /-- `reserve`, before `enqueueLocked`. -/
  | enqueueing (model tenant : String) (counts : RouteError)
  deriving Repr, DecidableEq

structure RouterSys where
  r : Router
  queue : QueueSys Nat
  slots : List Slot
  mu : Section

inductive RouterAct
  | reserve (req : Request) (tenant : Option String) (workers : List WorkerSnapshot) (viewAt : Time)
      (broke : Int) (picks : List Pick) (now : Time)
  | enqueue (now : Time)
  | release (rt : Nat) (now : Time)
  | offer (cur : Option WorkerSnapshot) (now : Time)
  | handoff (now : Time)
  /-- A waiter's goroutine, or `Wake`, `Flush` and `Close`. -/
  | waiter (a : QueueAct Nat)
  | charge (rt : Nat) (cost : Int)
  /-- Any use of the breakers. -/
  | breakers (c : BreakersCall)
  /-- A new registry snapshot. -/
  | sync (now : Time) (members : List Observation)

def RouterSys.start (res : Option Breakers) (sig : Option Tracker) (p : QueueParams) : RouterSys :=
  ⟨newRouter res sig, .start p, [], .free⟩

/-- A request has the routed value: from `reserve`, or from the queue. -/
def RouterSys.holds (s : RouterSys) (rt : Nat) : Bool :=
  (s.slots[rt]?).any (·.reserved) ||
    (List.range s.queue.q.next).any fun w => decide (rt ∈ s.queue.got w)

/-- The operations of the queue that need not hold the router's lock. -/
def waiterOnly : QueueAct Nat → Bool
  | .enqueue _ _ _ => false
  | .handoff _ _ => false
  | _ => true

/-- The cache answers for the worker it was asked for. -/
def answersFor (w : WorkerSnapshot) (cur : Option WorkerSnapshot) : Bool :=
  cur.all fun c => decide (c.workerID = w.workerID ∧ c.model = w.model)

/-- `charge`: a request puts its cost on the ledger entry of a slot it was handed. -/
def RouterSys.charge (s : RouterSys) (rt : Nat) (slot : Slot) (cost : Int) : RouterSys :=
  match s.r.sig with
  | none => s
  | some sig =>
    if slot.cost ≠ 0 then s
    else
      let a := sig.addCost slot.lease cost
      { s with
        r := { s.r with sig := some a.1 }
        slots := if a.2 then s.slots.set rt { slot with cost := cost } else s.slots }

/-- One step of one goroutine; `none` if it has to wait for the lock or does not exist. -/
def RouterSys.step (s : RouterSys) : RouterAct → Option RouterSys
  | .reserve req tenant workers viewAt broke picks now =>
    if s.mu ≠ .free then none
    else
      match s.r.reserve (s.queue.q.busy req.model) req workers viewAt broke tenant.isSome picks
          now with
      | none => none
      | some (r, .slot w ticket lease) =>
        some { s with
          r := r
          slots := s.slots ++ [⟨w, ticket, lease.tok, lease.cost, true, true, false⟩] }
      | some (r, .wait counts) =>
        some { s with r := r, mu := .enqueueing req.model (tenant.getD "") counts }
      | some (r, .refused _) => some { s with r := r }
  | .enqueue now =>
    match s.mu with
    | .enqueueing model tenant _ =>
      (s.queue.step (.enqueue model tenant now)).map fun q => { s with queue := q, mu := .free }
    | _ => none
  | .release rt now =>
    if s.mu = .free ∧ s.holds rt = true then
      match s.slots[rt]? with
      | none => none
      | some slot =>
        if slot.released then some s
        else some { s with
          r := s.r.endLease slot.lease slot.cost now
          slots := s.slots.set rt { slot with released := true }
          mu := .releasing rt }
    else none
  | .offer cur now =>
    match s.mu with
    | .releasing rt =>
      match s.slots[rt]? with
      | none => none
      | some slot =>
        if answersFor slot.worker cur then
          match s.r.offer (s.queue.q.busy slot.worker.model) slot.worker cur now with
          | (r, .free _) => some { s with r := r.unslot slot.worker.workerID, mu := .free }
          | (r, .handoff w ticket tok) =>
            some { s with
              r := r
              slots := s.slots ++ [⟨w, ticket, tok, 0, false, false, false⟩]
              mu := .offering rt s.slots.length }
        else none
    | _ => none
  | .handoff now =>
    match s.mu with
    | .offering rt next =>
      match s.slots[rt]?, s.slots[next]? with
      | some slot, some new =>
        (s.queue.step (.handoff slot.worker.model next)).map fun q =>
          if (s.queue.q.handoff slot.worker.model next).2 then
            { s with queue := q, slots := s.slots.set next { new with taken := true }, mu := .free }
          else
            { s with
              queue := q
              r := (s.r.takeBack new.ticket new.lease now).unslot slot.worker.workerID
              mu := .free }
      | _, _ => none
    | _ => none
  | .waiter a => if waiterOnly a then (s.queue.step a).map fun q => { s with queue := q } else none
  | .charge rt cost =>
    if s.holds rt then (s.slots[rt]?).map fun slot => s.charge rt slot cost else none
  | .breakers c => some { s with r := { s.r with res := s.r.res.map fun bs => (bs.step c).1 } }
  | .sync now members => some { s with r := { s.r with sig := s.r.sig.map (·.sync now members) } }

/-! ### Counting slots -/

/-- The slot counts for a worker: it was taken and its routed value was not released. -/
def Slot.counts (w : String) (slot : Slot) : Bool :=
  slot.taken && !slot.released && decide (slot.worker.workerID = w)

/-- How many slots of a worker are taken. -/
def RouterSys.openSlots (s : RouterSys) (w : String) : Nat := s.slots.countP (·.counts w)

/-- The slot of the goroutine that holds the lock to release it. -/
def RouterSys.leaving (s : RouterSys) : Option Slot :=
  match s.mu with
  | .releasing rt => s.slots[rt]?
  | .offering rt _ => s.slots[rt]?
  | _ => none

/-- One if that slot is of worker `w`. -/
def RouterSys.leavingOf (s : RouterSys) (w : String) : Nat :=
  if s.leaving.any fun slot => decide (slot.worker.workerID = w) then 1 else 0

variable {l : List Slot} {i : Nat} {x : Slot}

theorem getElem?_append_of_some {l' : List Slot} (h : l[i]? = some x) : (l ++ l')[i]? = some x := by
  rw [List.getElem?_append_left (List.getElem?_eq_some_iff.mp h).1]
  exact h

theorem getElem?_set_of_some (h : l[i]? = some x) (y : Slot) : (l.set i y)[i]? = some y := by
  simp [(List.getElem?_eq_some_iff.mp h).1]

/-- One routed value changes: the count moves with it. -/
theorem countP_set_counts (h : l[i]? = some x) (y : Slot)
    (w : String) : (l.set i y).countP (·.counts w) + (if x.counts w then 1 else 0) =
      l.countP (·.counts w) + if y.counts w then 1 else 0 := by
  obtain ⟨hlt, rfl⟩ := List.getElem?_eq_some_iff.mp h
  rw [countP_set hlt]
  have hpos : (l[i].counts w) = true → 0 < l.countP (·.counts w) := fun hx =>
    countP_pos_iff.mpr ⟨l[i], getElem_mem hlt, hx⟩
  split
  next hx =>
    have := hpos hx
    omega
  next => omega

/-- The critical sections hold what they need: the slot being released is released and still
counted, and the routed value on offer is of the same worker. -/
def RouterSys.SectionOk (s : RouterSys) : Prop :=
  match s.mu with
  | .releasing rt => ∃ slot, s.slots[rt]? = some slot ∧ slot.released = true
  | .offering rt next => ∃ slot new, s.slots[rt]? = some slot ∧ slot.released = true ∧
      s.slots[next]? = some new ∧ new.taken = false ∧ new.released = false ∧
      new.worker.workerID = slot.worker.workerID
  | _ => True

/-- The invariant of the gateway's goroutines. -/
structure SlotsOk (s : RouterSys) : Prop where
  queue : QueueOk s.queue
  reserved : ∀ (rt : Nat) (slot : Slot), s.slots[rt]? = some slot → slot.reserved = true →
    slot.taken = true
  given : ∀ w, ∀ rt ∈ s.queue.given w, ∃ slot, s.slots[rt]? = some slot ∧ slot.taken = true
  /-- A slot was reserved or handed to a waiter. -/
  place : ∀ (rt : Nat) (slot : Slot), s.slots[rt]? = some slot → slot.taken = true →
    slot.reserved = true ∨ ∃ w, rt ∈ s.queue.given w
  sectionOk : s.SectionOk
  count : ∀ w, s.r.inflightOf w = s.openSlots w + s.leavingOf w

theorem slotsOk_start (res : Option Breakers) (sig : Option Tracker) (p : QueueParams) :
    SlotsOk (RouterSys.start res sig p) := by
  refine ⟨queueOk_start p, fun rt slot h => ?_, fun w rt h => ?_, fun rt slot h => ?_, trivial,
    fun w => rfl⟩
  · simp [RouterSys.start] at h
  · simp [RouterSys.start, QueueSys.start] at h
  · simp [RouterSys.start] at h

namespace SlotsOk

variable {s : RouterSys} {slot : Slot} {r : Router} {rt : Nat} {mu : Section} {q : QueueSys Nat}

section

variable (h : SlotsOk s)
include h

/-- A request holds only slots that were taken. -/
theorem taken_of_holds (hrt : s.holds rt = true)
    (hslot : s.slots[rt]? = some slot) : slot.taken = true := by
  simp only [RouterSys.holds, hslot, any_some, or_eq_true, List.any_eq_true,
    decide_eq_true_eq] at hrt
  rcases hrt with hres | ⟨w, -, hgot⟩
  · exact h.reserved rt slot hslot hres
  · have hgiven : rt ∈ s.queue.given w := by
      rw [(h.queue.waiter w).conserved]
      exact mem_append_left _ hgot
    obtain ⟨slot', hslot', htaken⟩ := h.given w rt hgiven
    obtain rfl := some.inj (hslot.symm.trans hslot')
    exact htaken

/-- A slot is held by a request, or its hand-off is in the channel of a waiter. -/
theorem held_or_pending (hslot : s.slots[rt]? = some slot) (htaken : slot.taken = true) :
    s.holds rt = true ∨ ∃ w, (s.queue.q.heap w).ch = some (.handoff rt) := by
  rcases h.place rt slot hslot htaken with hres | ⟨w, hgiven⟩
  · exact .inl (by simp [RouterSys.holds, hslot, hres])
  · have hw : w < s.queue.q.next := by
      by_contra hge
      rw [(h.queue.fresh w (not_lt.mp hge)).2.1] at hgiven
      cases hgiven
    rw [(h.queue.waiter w).conserved] at hgiven
    rcases mem_append.mp hgiven with hgot | hch
    · refine .inl ?_
      simp only [RouterSys.holds, or_eq_true, List.any_eq_true, decide_eq_true_eq]
      exact .inr ⟨w, mem_range.mpr hw, hgot⟩
    · refine .inr ⟨w, ?_⟩
      cases hc : (s.queue.q.heap w).ch with
      | none =>
        rw [hc] at hch
        cases hch
      | some g =>
        rw [hc] at hch
        cases g with
        | handoff v =>
          obtain rfl := mem_singleton.mp hch
          rfl
        | reroute => cases hch
        | flushed => cases hch

/-- The router changes, but not its counts. -/
theorem of_router (hr : r.inflight = s.r.inflight) : SlotsOk { s with r := r } := by
  refine ⟨h.queue, h.reserved, h.given, h.place, h.sectionOk, fun w => ?_⟩
  rw [← show s.r.inflightOf w = r.inflightOf w by simp only [Router.inflightOf, hr]]
  exact h.count w

/-- The queue takes a step that hands nothing over. -/
theorem of_queue (hq : QueueOk q)
    (hgiven : q.given = s.queue.given) : SlotsOk { s with queue := q } := by
  refine ⟨hq, h.reserved, ?_, ?_, h.sectionOk, h.count⟩ <;> dsimp only <;> rw [hgiven]
  · exact h.given
  · exact h.place

/-- The lock changes hands between goroutines that release no slot. -/
theorem relock (hsec : RouterSys.SectionOk { s with mu := mu })
    (hleaving : RouterSys.leaving { s with mu := mu } = s.leaving) :
    SlotsOk { s with mu := mu } := by
  refine ⟨h.queue, h.reserved, h.given, h.place, hsec, fun w => ?_⟩
  have hleave : RouterSys.leavingOf { s with mu := mu } w = s.leavingOf w := by
    simp only [RouterSys.leavingOf, hleaving]
  rw [hleave]
  exact h.count w

/-- The slot that is being released becomes free. -/
theorem unslot (hleaving : s.leaving = some slot)
    (hr : r.inflight = s.r.inflight) :
    SlotsOk { s with r := r.unslot slot.worker.workerID, mu := .free } := by
  have hcount : ∀ w, r.inflightOf w = s.openSlots w + if slot.worker.workerID =
      w then 1 else 0 := by
    intro w
    rw [← show s.r.inflightOf w = r.inflightOf w by simp only [Router.inflightOf, hr], h.count w]
    simp only [RouterSys.leavingOf, hleaving, any_some, decide_eq_true_eq]
    push_cast
    rfl
  refine ⟨h.queue, h.reserved, h.given, h.place, trivial, fun w => ?_⟩
  have hpos : 0 < r.inflightOf slot.worker.workerID := by
    rw [hcount, if_pos rfl]
    omega
  show (r.unslot slot.worker.workerID).inflightOf w = (s.openSlots w : Int) + (0 : Nat)
  rw [Router.unslot_inflightOf hpos, hcount w]
  by_cases hw : slot.worker.workerID = w
  · rw [if_pos hw, if_pos hw.symm]
    omega
  · rw [if_neg hw, if_neg fun heq => hw heq.symm]
    omega

/-- A routed value is added. -/
theorem append (slot : Slot) (hres : slot.reserved = slot.taken)
    (hsec : RouterSys.SectionOk ⟨r, s.queue, s.slots ++ [slot], mu⟩)
    (hleaving : RouterSys.leaving ⟨r, s.queue, s.slots ++ [slot], mu⟩ = s.leaving)
    (hcount : ∀ w, r.inflightOf w = s.r.inflightOf w + if slot.counts w then 1 else 0) :
    SlotsOk ⟨r, s.queue, s.slots ++ [slot], mu⟩ := by
  have hnew : ∀ (rt : Nat) (x : Slot), (s.slots ++ [slot])[rt]? = some x →
      s.slots[rt]? = some x ∨ x = slot := by
    intro rt x hx
    rcases Nat.lt_or_ge rt s.slots.length with hlt | hge
    · rw [List.getElem?_append_left hlt] at hx
      exact .inl hx
    · rw [List.getElem?_append_right hge] at hx
      exact .inr (mem_singleton.mp (mem_of_getElem? hx))
  refine ⟨h.queue, fun rt x hx hr => ?_, fun w rt hrt => ?_, fun rt x hx ht => ?_, hsec,
    fun w => ?_⟩
  · rcases hnew rt x hx with hx | rfl
    · exact h.reserved rt x hx hr
    · rw [← hres]
      exact hr
  · obtain ⟨x, hx, ht⟩ := h.given w rt hrt
    exact ⟨x, getElem?_append_of_some hx, ht⟩
  · rcases hnew rt x hx with hx | rfl
    · exact h.place rt x hx ht
    · exact .inl (hres.trans ht)
  · have hleave : RouterSys.leavingOf ⟨r, s.queue, s.slots ++ [slot], mu⟩ w = s.leavingOf w := by
      simp only [RouterSys.leavingOf, hleaving]
    have hopen : RouterSys.openSlots ⟨r, s.queue, s.slots ++ [slot], mu⟩ w =
        s.openSlots w + if slot.counts w then 1 else 0 := by
      simp only [RouterSys.openSlots, countP_append, countP_singleton]
    rw [hleave, hopen, hcount w, h.count w]
    push_cast
    ring

/-- One routed value changes, but not where it is from. -/
theorem set (hslot : s.slots[rt]? = some slot)
    (slot' : Slot) (hres : slot'.reserved = slot.reserved) (htaken : slot'.taken = slot.taken)
    (hsec : RouterSys.SectionOk ⟨r, s.queue, s.slots.set rt slot', mu⟩)
    (hcount : ∀ w, r.inflightOf w = RouterSys.openSlots ⟨r, s.queue, s.slots.set rt slot', mu⟩ w +
      RouterSys.leavingOf ⟨r, s.queue, s.slots.set rt slot', mu⟩ w) :
    SlotsOk ⟨r, s.queue, s.slots.set rt slot', mu⟩ := by
  have hlt := (List.getElem?_eq_some_iff.mp hslot).1
  have hold : ∀ (i : Nat) (x : Slot), (s.slots.set rt slot')[i]? = some x →
      ∃ y, s.slots[i]? = some y ∧ x.reserved = y.reserved ∧ x.taken = y.taken := by
    intro i x hx
    rw [List.getElem?_set] at hx
    split at hx
    next hi =>
      subst hi
      obtain rfl := some.inj hx
      exact ⟨slot, hslot, hres, htaken⟩
    next => exact ⟨x, hx, rfl, rfl⟩
  refine ⟨h.queue, fun i x hx hr => ?_, fun w i hi => ?_, fun i x hx ht => ?_, hsec, hcount⟩
  · obtain ⟨y, hy, hyr, hyt⟩ := hold i x hx
    rw [hyt]
    exact h.reserved i y hy (hyr ▸ hr)
  · obtain ⟨x, hx, hxt⟩ := h.given w i hi
    by_cases hi' : rt = i
    · subst hi'
      obtain rfl := some.inj (hslot.symm.trans hx)
      exact ⟨slot', getElem?_set_of_some hslot _, htaken.trans hxt⟩
    · exact ⟨x, by simp only [List.getElem?_set, if_neg hi']; exact hx, hxt⟩
  · obtain ⟨y, hy, hyr, hyt⟩ := hold i x hx
    rw [hyr]
    exact h.place i y hy (hyt ▸ ht)

/-- `reserve` returns a slot. -/
theorem reserve (hmu : s.mu = .free) {w : WorkerSnapshot}
    (hr : r.inflight = s.r.inflight.insert w.workerID (s.r.inflightOf w.workerID + 1))
    (ticket : Ticket) (lease : LedgerLease) :
    SlotsOk { s with
      r := r
      slots := s.slots ++ [⟨w, ticket, lease.tok, lease.cost, true, true, false⟩] } := by
  refine h.append _ rfl ?_ ?_ fun v => ?_
  · simp only [RouterSys.SectionOk, hmu]
  · simp only [RouterSys.leaving, hmu]
  · have hin : r.inflightOf v = if v = w.workerID then s.r.inflightOf w.workerID + 1
        else s.r.inflightOf v := by
      rw [← s.r.inflightOf_insert]
      simp only [Router.inflightOf, hr]
    rw [hin]
    by_cases hv : v = w.workerID
    · subst hv
      simp [Slot.counts]
    · simp [Slot.counts, hv, Ne.symm hv]

/-- A request releases a slot that it holds, for the first time. -/
theorem release (hmu : s.mu = .free) (hrt : s.holds rt = true)
    (hslot : s.slots[rt]? = some slot) (hreleased : slot.released = false)
    (hr : r.inflight = s.r.inflight) :
    SlotsOk { s with r := r, slots := s.slots.set rt { slot with released := true }, mu := .releasing rt } := by
  have hself := getElem?_set_of_some hslot { slot with released := true }
  refine h.set hslot { slot with released := true } rfl rfl ?_ fun w => ?_
  · exact ⟨_, hself, rfl⟩
  -- the slot is not open any more, but the goroutine that releases it still stands for it
  have hmove := countP_set_counts hslot { slot with released := true } w
  have hwas : slot.counts w = decide (slot.worker.workerID = w) := by
    simp [Slot.counts, h.taken_of_holds hrt hslot, hreleased]
  have hnow : Slot.counts w { slot with released := true } = false := by simp [Slot.counts]
  rw [hwas, hnow] at hmove
  have hleft : s.leavingOf w = 0 := by simp [RouterSys.leavingOf, RouterSys.leaving, hmu]
  have hold := h.count w
  rw [show s.r.inflightOf w = r.inflightOf w by simp only [Router.inflightOf, hr], hleft] at hold
  simp only [RouterSys.leavingOf, RouterSys.leaving, hself, any_some]
  simp only [RouterSys.openSlots, false_eq_true, if_false] at hold hmove ⊢
  omega

/-- A routed value is made for the worker whose slot is being released. -/
theorem offer (hmu : s.mu = .releasing rt)
    (hslot : s.slots[rt]? = some slot) {w : WorkerSnapshot} (hw : w.workerID = slot.worker.workerID)
    (hr : r.inflight = s.r.inflight) (ticket : Ticket) (tok : Token) :
    SlotsOk { s with
      r := r
      slots := s.slots ++ [⟨w, ticket, tok, 0, false, false, false⟩]
      mu := .offering rt s.slots.length } := by
  have hreleased : slot.released = true := by
    have := h.sectionOk
    simp only [RouterSys.SectionOk, hmu] at this
    obtain ⟨slot', hslot', hrel⟩ := this
    obtain rfl := some.inj (hslot.symm.trans hslot')
    exact hrel
  refine h.append _ rfl ?_ ?_ fun v => ?_
  · refine ⟨slot, ⟨w, ticket, tok, 0, false, false, false⟩, getElem?_append_of_some hslot,
      hreleased, ?_, rfl, rfl, hw⟩
    simp
  · simp only [RouterSys.leaving, hmu]
    exact (getElem?_append_of_some hslot).trans hslot.symm
  · simp [Slot.counts, Router.inflightOf, hr]

/-- The hand-off was accepted: the new routed value stands for the slot. -/
theorem handoff {next : Nat} (hmu : s.mu = .offering rt next) {new : Slot}
    (hslot : s.slots[rt]? = some slot) (hnew : s.slots[next]? = some new)
    (hq : QueueOk q) (head : Nat) (hgiven : q.given = logged s.queue.given head [next]) :
    SlotsOk { s with queue := q, slots := s.slots.set next { new with taken := true }, mu := .free } := by
  obtain ⟨slot', new', hslot', -, hnew', htaken, hreleased, hworker⟩ :=
    show ∃ slot new, _ by simpa only [RouterSys.SectionOk, hmu] using h.sectionOk
  obtain rfl := some.inj (hslot.symm.trans hslot')
  obtain rfl := some.inj (hnew.symm.trans hnew')
  have hself := getElem?_set_of_some hnew { new with taken := true }
  have hother : ∀ i, i ≠ next →
      (s.slots.set next { new with taken := true })[i]? = s.slots[i]? := by
    intro i hi
    simp only [List.getElem?_set, if_neg (Ne.symm hi)]
  have hmem : ∀ w i, i ∈ q.given w ↔ i ∈ s.queue.given w ∨ w = head ∧ i = next := by
    intro w i
    rw [hgiven, logged]
    by_cases hw : w = head
    · subst hw
      simp
    · simp [hw]
  refine ⟨hq, fun i x hx hr => ?_, fun w i hi => ?_, fun i x hx ht => ?_, trivial, fun w => ?_⟩
  · by_cases hi : i = next
    · subst hi
      obtain rfl := some.inj (hself.symm.trans hx)
      rfl
    · exact h.reserved i x ((hother i hi).symm.trans hx) hr
  · by_cases hi' : i = next
    · subst hi'
      exact ⟨_, hself, rfl⟩
    · rcases (hmem w i).mp hi with hi | ⟨-, hi⟩
      · obtain ⟨x, hx, ht⟩ := h.given w i hi
        exact ⟨x, (hother i hi').trans hx, ht⟩
      · exact absurd hi hi'
  · by_cases hi : i = next
    · exact .inr ⟨head, (hmem head i).mpr (.inr ⟨rfl, hi⟩)⟩
    · refine (h.place i x ((hother i hi).symm.trans hx) ht).imp_right ?_
      rintro ⟨w, hw⟩
      exact ⟨w, (hmem w i).mpr (.inl hw)⟩
  · have hmove := countP_set_counts hnew { new with taken := true } w
    have hwas : new.counts w = false := by simp [Slot.counts, htaken]
    have hnow : Slot.counts w { new with taken := true } = decide (slot.worker.workerID = w) := by
      simp [Slot.counts, hreleased, hworker]
    rw [hwas, hnow] at hmove
    have hold := h.count w
    simp only [RouterSys.leavingOf, RouterSys.leaving, hmu, hslot, any_some] at hold
    show s.r.inflightOf w = _ + ((0 : Nat) : Int)
    simp only [RouterSys.openSlots, false_eq_true, if_false] at hold hmove ⊢
    omega

/-- A request's cost is written to a routed value. -/
theorem setCost (hslot : s.slots[rt]? = some slot) (cost : Int)
    (hr : r.inflight = s.r.inflight) :
    SlotsOk { s with r := r, slots := s.slots.set rt { slot with cost := cost } } := by
  have hget : ∀ (i : Nat) (x : Slot), s.slots[i]? = some x →
      ∃ y, (s.slots.set rt { slot with cost := cost })[i]? = some y ∧ y.released = x.released ∧
        y.taken = x.taken ∧ y.worker = x.worker := by
    intro i x hx
    by_cases hi : rt = i
    · subst hi
      obtain rfl := some.inj (hslot.symm.trans hx)
      exact ⟨_, getElem?_set_of_some hslot _, rfl, rfl, rfl⟩
    · exact ⟨x, by simp only [List.getElem?_set, if_neg hi]; exact hx, rfl, rfl, rfl⟩
  have hsec := h.sectionOk
  have hleave : ∀ (i : Nat) (w : String), ((s.slots.set rt { slot with cost := cost })[i]?).any
      (fun x : Slot => decide (x.worker.workerID = w)) =
        (s.slots[i]?).any fun x : Slot => decide (x.worker.workerID = w) := by
    intro i w
    cases hx : s.slots[i]? with
    | none =>
      have hi : rt ≠ i := by
        rintro rfl
        rw [hx] at hslot
        cases hslot
      simp only [List.getElem?_set, if_neg hi, hx]
    | some x =>
      obtain ⟨y, hy, -, -, hworker⟩ := hget i x hx
      rw [hy, any_some, any_some, hworker]
  refine h.set hslot { slot with cost := cost } rfl rfl ?_ fun w => ?_
  · cases hmu : s.mu with
    | free => trivial
    | enqueueing _ _ _ => trivial
    | releasing i =>
      simp only [RouterSys.SectionOk, hmu] at hsec ⊢
      obtain ⟨x, hx, hrel⟩ := hsec
      obtain ⟨y, hy, hyrel, -, -⟩ := hget i x hx
      exact ⟨y, hy, hyrel.trans hrel⟩
    | offering i next =>
      simp only [RouterSys.SectionOk, hmu] at hsec ⊢
      obtain ⟨x, new, hx, hrel, hnew, htaken, hnrel, hworker⟩ := hsec
      obtain ⟨y, hy, hyrel, -, hyw⟩ := hget i x hx
      obtain ⟨z, hz, hzrel, hztaken, hzw⟩ := hget next new hnew
      exact ⟨y, z, hy, hyrel.trans hrel, hz, hztaken.trans htaken, hzrel.trans hnrel,
        by rw [hzw, hyw]; exact hworker⟩
  · have hopen : (s.slots.set rt { slot with cost := cost }).countP (·.counts w) =
        s.slots.countP (·.counts w) := by
      have := countP_set_counts hslot { slot with cost := cost } w
      simp only [show Slot.counts w { slot with cost := cost } = slot.counts w from rfl] at this
      omega
    have hold := h.count w
    rw [show s.r.inflightOf w = r.inflightOf w by simp only [Router.inflightOf, hr]] at hold
    have hsame : RouterSys.leavingOf
        ⟨r, s.queue, s.slots.set rt { slot with cost := cost }, s.mu⟩ w = s.leavingOf w := by
      rcases hmu : s.mu <;> simp [RouterSys.leavingOf, RouterSys.leaving, hmu, hleave]
    rw [hold, hsame]
    simp only [RouterSys.openSlots, hopen]

end

/-- A queue operation that hands nothing over. -/
theorem step_given {q' : QueueSys Nat} {a : QueueAct Nat} (ha : q.step a = some q')
    (hhand : ∀ model v, a ≠ .handoff model v) : q'.given = q.given := by
  revert ha
  fun_cases QueueSys.step q a <;> intro ha <;> cases ha
  case case2 model v _ => exact absurd rfl (hhand model v)
  all_goals rfl

theorem step {t : RouterSys} (h : SlotsOk s) {a : RouterAct} (ha : s.step a = some t) :
    SlotsOk t := by
  revert ha
  fun_cases RouterSys.step s a <;> intro ha <;> try with_reducible cases ha
  next hmu r w ticket lease hr =>
    exact h.reserve (not_not.mp hmu) (Router.reserve_inflight hr) ticket lease
  next hmu r counts hr =>
    refine (h.of_router (Router.reserve_inflight hr)).relock trivial ?_
    simp only [RouterSys.leaving, not_not.mp hmu]
  next r err hr => exact h.of_router (Router.reserve_inflight hr)
  next hmu =>
    obtain ⟨q, hq, rfl⟩ := map_eq_some_iff.mp ha
    have hstep := h.of_queue (h.queue.step hq) (step_given hq nofun)
    refine hstep.relock trivial ?_
    simp only [RouterSys.leaving, hmu]
  next => exact h
  next hguard slot hslot hreleased =>
    exact h.release hguard.1 hguard.2 hslot (by simpa using hreleased) rfl
  next hmu slot hslot hcur r wake hr =>
    refine h.unslot ?_ (Router.offer_inflight hr).1
    simp only [RouterSys.leaving, hmu]
    exact hslot
  next hmu slot hslot hcur r w ticket tok hr =>
    obtain ⟨hin, -, hw⟩ := Router.offer_inflight hr
    rw [hw w ticket tok rfl] at hcur
    have hsame : w.workerID = slot.worker.workerID ∧ w.model = slot.worker.model := by
      simpa [answersFor] using hcur
    exact h.offer hmu hslot hsame.1 hin ticket tok
  next hmu slot new hnew hslot =>
    obtain ⟨q, hq, rfl⟩ := map_eq_some_iff.mp ha
    have hqok := h.queue.step hq
    obtain rfl := some.inj hq
    split
    next hok =>
      obtain ⟨head, rest, hws, -⟩ := handoff_accepted hok
      exact h.handoff hmu hslot hnew hqok head (by simp only [hok, hws, accepted])
    next hno =>
      have hgiven := h.of_queue hqok (by simp only [accepted, hno])
      refine hgiven.unslot ?_ rfl
      simp only [RouterSys.leaving, hmu]
      exact hslot
  next hwaiter =>
    obtain ⟨q, hq, rfl⟩ := map_eq_some_iff.mp ha
    refine h.of_queue (h.queue.step hq) (step_given hq ?_)
    rintro model v rfl
    cases hwaiter
  next =>
    obtain ⟨slot, hslot, rfl⟩ := map_eq_some_iff.mp ha
    fun_cases RouterSys.charge
    · exact h
    · exact h
    · dsimp only
      split
      · exact h.setCost hslot _ rfl
      · exact h.of_router rfl
  next => exact h.of_router rfl
  next => exact h.of_router rfl

end SlotsOk

theorem slotsOk_of_reach {res : Option Breakers} {sig : Option Tracker} {p : QueueParams}
    {s : RouterSys} (h : Machine.Reach RouterSys.step (RouterSys.start res sig p) s) : SlotsOk s :=
  h.invariant (slotsOk_start res sig p) fun _ _ _ hs ha => hs.step ha

end ServerFlow.Gateway
