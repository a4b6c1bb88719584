import ServerFlow.Resilience.Breakers
import ServerFlow.Resilience.Queue
import ServerFlow.Signals.Tracker

/-!
# Gateway.Router

The router of a gateway (`internal/gateway/router.go`): it overlays the load that the gateway has in
flight on the registry's view, lets the scheduler choose, takes a breaker ticket for the chosen
worker and counts the slot as taken.

The functions here are the ones that run under the router's lock, cut where they call the admission
queue, whose own lock other goroutines take in between. The scheduler is an argument: the answers
that `SelectWorker` gives (`Pick`). What the cache and the clock read is an argument too. The
texts of the errors are left out.
-/

namespace ServerFlow.Gateway

open Resilience Signals AList

variable {P : WorkerSnapshot → Prop}

inductive WorkerState
  | registering
  | loadingModel
  | warming
  | ready
  | draining
  | terminated
  | failed
  | unhealthy
  | lost
  deriving Repr, DecidableEq

inductive Health
  | healthy
  | suspect
  | unhealthy
  | lost
  deriving Repr, DecidableEq

/-- A worker in a registry view, with what the router and the scheduler's filter read. -/
structure WorkerSnapshot where
  workerID : String
  model : String
  maxConcurrency : Int
  state : WorkerState
  health : Health
  eligible : Bool
  activeRequests : Int
  registeredAt : Time
  heartbeatAgeSeconds : ℚ
  deriving Repr, DecidableEq

/-- `schedulable`: the scheduler's eligibility test, without the capacity check. -/
def schedulable (w : WorkerSnapshot) : Bool :=
  decide (w.state = .ready) && w.eligible &&
    (decide (w.health = .healthy) || decide (w.health = .suspect))

def anySchedulable (workers : List WorkerSnapshot) : Bool := workers.any schedulable

/-- `keyOf`: the breaker's key of a worker. -/
def keyOf (w : WorkerSnapshot) : Resilience.Key := ⟨w.workerID, w.registeredAt⟩

/-- `signals.KeyOf`. -/
def signalsKeyOf (w : WorkerSnapshot) : Signals.Key := ⟨w.workerID, w.registeredAt⟩

/-- A request, with its estimated cost. -/
structure Request where
  model : String
  cost : Int

/-- What a slot took from the ledger. -/
structure LedgerLease where
  tok : Token
  cost : Int

def LedgerLease.zero : LedgerLease := ⟨.zero, 0⟩

/-! ### Errors -/

inductive ApiError
  | internal
  | workerUnavailable
  | modelNotFound (model : String)
  | noCapacity (model : String) (eligibleWorkers retryAfter : Int)
  | overloaded (reason : String) (model : String) (eligibleWorkers : Int)
  deriving Repr, DecidableEq

structure RouteError where
  error : ApiError
  serving : Int
  eligible : Int
  atCapacity : Int
  shed : String
  deriving Repr, DecidableEq

/-- The refusal that a request may wait out: every worker the registry offers is full. -/
def RouteError.full (e : RouteError) : Bool :=
  match e.error with
  | .noCapacity _ _ _ => decide (e.shed = "" ∧ e.eligible > 0 ∧ e.eligible = e.atCapacity)
  | _ => false

/-! ### The router -/

structure Router where
  /-- Worker ID to requests sent and not yet finished. -/
  inflight : GoMap String Int
  /-- The breakers, with resilience on. -/
  res : Option Breakers
  /-- The ledger, with the ledger overlay on. -/
  sig : Option Tracker

def newRouter (res : Option Breakers) (sig : Option Tracker) : Router := ⟨∅, res, sig⟩

/-- `InFlight`. -/
def Router.inflightOf (r : Router) (id : String) : Int := (r.inflight.lookup id).getD 0

/-- `overlay`: the effective load of a worker. -/
def Router.overlay (r : Router) (w : WorkerSnapshot) (now : Time) : Router × Int :=
  let own := r.inflightOf w.workerID
  match r.sig with
  | none => (r, max w.activeRequests own)
  | some sig =>
    let res := sig.overlay now
      ⟨signalsKeyOf w, own, w.activeRequests, reportTime now w.heartbeatAgeSeconds⟩
    ({ r with sig := some res.1 }, res.2.active)

/-- The loop of `reserve` that overlays the view. The work-aware branch of it computes the same
active counts. -/
def Router.overlayAll (viewAt : Time) : Router → List WorkerSnapshot → Router × List WorkerSnapshot
  | r, [] => (r, [])
  | r, w :: ws =>
    let o := r.overlay w viewAt
    let rest := overlayAll viewAt o.1 ws
    (rest.1, { w with activeRequests := o.2 } :: rest.2)

/-- An answer of the scheduler, with what is read right after it: the clock for the breaker, and
whether the cached view is degraded. -/
inductive Pick
  | worker (chosen : WorkerSnapshot) (now : Time)
  | noWorker (serving eligible atCapacity : Int) (degraded : Bool) (now : Time)
    (order : List String)
  /-- The client went away, or the scheduler failed. -/
  | failed

/-- `breakers.Acquire`. -/
def acquire (bs : Breakers) (w : WorkerSnapshot) (now : Time) : Breakers × Option Ticket :=
  match bs.step ⟨now, [], .acquire (keyOf w)⟩ with
  | (bs, .ticket t true, _) => (bs, some t)
  | (bs, _, _) => (bs, none)

/-- `breakers.RetryAfter`. -/
def retryAfter (bs : Breakers) (now : Time) (order : List String) : Breakers × Int :=
  match bs.step ⟨now, order, .retryAfter⟩ with
  | (bs, .retryAfter secs, _) => (bs, secs)
  | (bs, _, _) => (bs, 1)

/-- The error for a request that no worker may serve. -/
def noWorkerError (res : Option Breakers) (model : String) (broke serving eligible atCapacity : Int)
    (degraded : Bool) (now : Time) (order : List String) : Option Breakers × RouteError :=
  let counts (e : ApiError) : RouteError := ⟨e, serving, eligible, atCapacity, ""⟩
  if serving = 0 then (res, counts (.modelNotFound model))
  else if degraded then (res, counts .workerUnavailable)
  else
    match res with
    | some bs =>
      if broke > 0 ∧ eligible = 0 then
        -- every worker the registry offers is ejected
        let r := retryAfter bs now order
        (some r.1, counts (.noCapacity model eligible r.2))
      else (some bs, counts (.noCapacity model eligible 1))
    | none => (none, counts (.noCapacity model eligible 1))

/-- Drop a worker from the selection. -/
def markIneligible (id : String) : List WorkerSnapshot → List WorkerSnapshot
  | [] => []
  | w :: ws =>
    if w.workerID = id then { w with eligible := false } :: ws else w :: markIneligible id ws

inductive Selected
  | chosen (w : WorkerSnapshot) (ticket : Ticket)
  | noWorker (err : RouteError)

/-- The loop of `reserve`: the scheduler chooses again while the breaker of its choice refuses.
`none` if a choice is not an offered worker below its limit, or if the answers run out. -/
def selectLoop (model : String) :
    Option Breakers → Int → List WorkerSnapshot → List Pick → Option (Option Breakers × Selected)
  | _, _, _, [] => none
  | res, _, _, .failed :: _ => some (res, .noWorker ⟨.internal, 0, 0, 0, ""⟩)
  | res, broke, _, .noWorker serving eligible atCapacity degraded now order :: _ =>
    let r := noWorkerError res model broke serving eligible atCapacity degraded now order
    some (r.1, .noWorker r.2)
  | res, broke, workers, .worker c now :: picks =>
    if c ∈ workers ∧ c.activeRequests < c.maxConcurrency then
      match res with
      | none => some (none, .chosen c .zero)
      | some bs =>
        match acquire bs c now with
        | (bs, some t) => some (some bs, .chosen c t)
        | (bs, none) =>
          selectLoop model (some bs) (broke + 1) (markIneligible c.workerID workers) picks
    else none

inductive Reserved
  | slot (w : WorkerSnapshot) (ticket : Ticket) (lease : LedgerLease)
  /-- The request joins the queue. -/
  | wait (counts : RouteError)
  | refused (err : RouteError)

/-- The ledger's part of taking a slot. -/
def takeLease (sig : Option Tracker) (now : Time) (w : WorkerSnapshot) (cost : Int) :
    Option Tracker × LedgerLease :=
  match sig with
  | none => (none, .zero)
  | some t =>
    let b := t.begin now (signalsKeyOf w)
    let a := b.1.addCost b.2 cost
    (some a.1, ⟨b.2, if a.2 then cost else 0⟩)

/-- `reserve`, up to the call of `enqueueLocked`. `busy` is what the queue answered, and `now` the
clock reading for the ledger. -/
def Router.reserve (r : Router) (busy : Bool) (req : Request) (workers : List WorkerSnapshot)
    (viewAt : Time) (broke : Int) (wait : Bool) (picks : List Pick) (now : Time) :
    Option (Router × Reserved) :=
  if wait && anySchedulable workers && busy then some (r, .wait ⟨.internal, 0, 0, 0, ""⟩)
  else
    let o := r.overlayAll viewAt workers
    match selectLoop req.model o.1.res broke o.2 picks with
    | none => none
    | some (res, .noWorker e) =>
      some ({ o.1 with res := res }, if wait && e.full then .wait e else .refused e)
    | some (res, .chosen c ticket) =>
      let l := takeLease o.1.sig now c req.cost
      some ({ inflight := o.1.inflight.insert c.workerID (o.1.inflightOf c.workerID + 1)
              res := res
              sig := l.1 },
        .slot c ticket l.2)

/-- The count of a worker whose slot becomes free. -/
def Router.unslot (r : Router) (id : String) : Router :=
  let n := r.inflightOf id - 1
  { r with inflight := if n ≤ 0 then r.inflight.erase id else r.inflight.insert id n }

inductive Offer
  /-- The slot becomes free; `wake` asks for a waiter to route again. -/
  | free (wake : Bool)
  | handoff (w : WorkerSnapshot) (ticket : Ticket) (tok : Token)

/-- `handoffLocked`, up to the call of `Handoff`. `cur` is what the cache answered for the
worker. -/
def Router.offer (r : Router) (busy : Bool) (w : WorkerSnapshot) (cur : Option WorkerSnapshot)
    (now : Time) : Router × Offer :=
  match r.res with
  | none => (r, .free false)
  | some bs =>
    if !busy then (r, .free false)
    else
      match cur with
      | none => (r, .free true)
      | some cur =>
        if cur.registeredAt ≠ w.registeredAt ∨ schedulable cur = false then (r, .free true)
        else
          match acquire bs cur now with
          | (bs, none) => ({ r with res := some bs }, .free true)
          | (bs, some ticket) =>
            match r.sig with
            | none => ({ r with res := some bs }, .handoff cur ticket .zero)
            | some t =>
              let b := t.begin now (signalsKeyOf cur)
              ({ r with res := some bs, sig := some b.1 }, .handoff cur ticket b.2)

/-- The queue refused the hand-off: the ticket and the ledger entry go back. -/
def Router.takeBack (r : Router) (ticket : Ticket) (tok : Token) (now : Time) : Router :=
  { r with
    res := r.res.map fun bs => bs.release ticket
    sig := r.sig.map fun t => t.finish now tok 0 }

/-- The ledger's part of `releaseSlot`. -/
def Router.endLease (r : Router) (tok : Token) (cost : Int) (now : Time) : Router :=
  { r with sig := r.sig.map fun t => t.finish now tok cost }

/-! ### What happens to the counts -/

section Counts

variable (r : Router) {r' : Router} {busy wait : Bool} {req : Request} {ws : List WorkerSnapshot}
  {viewAt now : Time} {broke : Int} {picks : List Pick} {out : Reserved}

theorem Router.overlay_frame (w : WorkerSnapshot) (now : Time) :
    (r.overlay w now).1.inflight = r.inflight ∧ (r.overlay w now).1.sig.isSome = r.sig.isSome := by
  cases hsig : r.sig <;> simp [Router.overlay, hsig]

/-- The effective load covers what the gateway has in flight. With the ledger, that count must be
within the bound on counts. -/
theorem Router.overlay_active (w : WorkerSnapshot) (now : Time)
    (hnonneg : 0 ≤ r.inflightOf w.workerID)
    (hmax : r.sig.isSome = true → r.inflightOf w.workerID ≤ maxCount) :
    r.inflightOf w.workerID ≤ (r.overlay w now).2 := by
  cases hsig : r.sig with
  | none =>
    simp only [Router.overlay, hsig]
    exact le_max_right _ _
  | some sig =>
    simp only [Router.overlay, hsig]
    have := sig.overlay_active now
      ⟨signalsKeyOf w, r.inflightOf w.workerID, w.activeRequests,
        reportTime now w.heartbeatAgeSeconds⟩
    rwa [clampCount_eq hnonneg (hmax (by rw [hsig]; rfl))] at this

/-- Every worker that the scheduler sees is one of the view, with its effective load. -/
theorem Router.overlayAll_spec (viewAt : Time) (ws : List WorkerSnapshot) :
    (r.overlayAll viewAt ws).1.inflight = r.inflight ∧
    (r.overlayAll viewAt ws).1.sig.isSome = r.sig.isSome ∧
    ∀ w' ∈ (r.overlayAll viewAt ws).2, ∃ w ∈ ws, ∃ r' : Router, r'.inflight = r.inflight ∧
      r'.sig.isSome = r.sig.isSome ∧ w' = { w with activeRequests := (r'.overlay w viewAt).2 } := by
  induction ws generalizing r with
  | nil => exact ⟨rfl, rfl, fun w' hw' => (by cases hw')⟩
  | cons w ws ih =>
    obtain ⟨hin, hsig⟩ := r.overlay_frame w viewAt
    obtain ⟨hrest, hrestSig, hall⟩ := ih (r.overlay w viewAt).1
    refine ⟨hrest.trans hin, hrestSig.trans hsig, fun w' hw' => ?_⟩
    rcases List.mem_cons.mp hw' with rfl | hw'
    · exact ⟨w, by simp, r, rfl, rfl, rfl⟩
    · obtain ⟨v, hv, r', hr', hsig', rfl⟩ := hall w' hw'
      exact ⟨v, by simp [hv], r', hr'.trans hin, hsig'.trans hsig, rfl⟩

theorem mem_markIneligible (hmark : ∀ w, P w → P { w with eligible := false }) {id : String}
    {ws : List WorkerSnapshot} (h : ∀ w ∈ ws, P w) : ∀ w ∈ markIneligible id ws, P w := by
  induction ws with
  | nil => exact h
  | cons v ws ih =>
    intro w hw
    simp only [markIneligible] at hw
    split at hw
    · rcases List.mem_cons.mp hw with rfl | hw
      · exact hmark v (h v (by simp))
      · exact h w (by simp [hw])
    · rcases List.mem_cons.mp hw with rfl | hw
      · exact h w (by simp)
      · exact ih (fun x hx => h x (by simp [hx])) w hw

/-- The worker that is chosen is an offered one, below its limit. -/
theorem selectLoop_chosen (hmark : ∀ w, P w → P { w with eligible := false }) {model : String}
    {res res' : Option Breakers} {broke : Int} {ws : List WorkerSnapshot} {picks : List Pick}
    {c : WorkerSnapshot} {t : Ticket} (h : ∀ w ∈ ws, P w)
    (hsel : selectLoop model res broke ws picks = some (res', .chosen c t)) :
    P c ∧ c.activeRequests < c.maxConcurrency := by
  induction picks generalizing res broke ws with
  | nil => cases hsel
  | cons pick picks ih =>
    cases pick with
    | failed =>
      simp only [selectLoop] at hsel
      cases hsel
    | noWorker serving eligible atCapacity degraded now order =>
      simp only [selectLoop] at hsel
      cases hsel
    | worker c' now =>
      simp only [selectLoop] at hsel
      split at hsel
      next hlawful =>
        cases res with
        | none =>
          cases hsel
          exact ⟨h _ hlawful.1, hlawful.2⟩
        | some bs =>
          dsimp only at hsel
          split at hsel
          · cases hsel
            exact ⟨h _ hlawful.1, hlawful.2⟩
          · exact ih (mem_markIneligible hmark h) hsel
      next => cases hsel

variable {r : Router}

/-- `reserve` counts the slot that it takes, and changes no other count. -/
theorem Router.reserve_inflight
    (h : r.reserve busy req ws viewAt broke wait picks now = some (r', out)) : match out with
    | .slot w _ _ => r'.inflight = r.inflight.insert w.workerID (r.inflightOf w.workerID + 1)
    | _ => r'.inflight = r.inflight := by
  have hin := (r.overlayAll_spec viewAt ws).1
  simp only [Router.reserve] at h
  split at h
  · cases h
    rfl
  · split at h
    · cases h
    · split at h <;> cases h <;> exact hin
    · cases h
      simp only [Router.inflightOf, hin]

theorem Router.reserve_sig
    (h : r.reserve busy req ws viewAt broke wait picks now = some (r', out)) :
    r'.sig.isSome = r.sig.isSome := by
  have hsig := (r.overlayAll_spec viewAt ws).2.1
  simp only [Router.reserve] at h
  split at h
  · cases h
    rfl
  · split at h
    · cases h
    · cases h
      exact hsig
    · cases h
      rw [← hsig]
      cases (r.overlayAll viewAt ws).1.sig <;> rfl

/-- The slot that `reserve` takes is one that the worker had free, if the view has its limit. -/
theorem Router.reserve_below {c : WorkerSnapshot} {ticket : Ticket} {lease : LedgerLease}
    {limit : String → Int}
    (h : r.reserve busy req ws viewAt broke wait picks now = some (r', .slot c ticket lease))
    (hlimit : ∀ w ∈ ws, w.maxConcurrency = limit w.workerID) (hnonneg : ∀ id, 0 ≤ r.inflightOf id)
    (hmax : r.sig.isSome = true → ∀ id, r.inflightOf id ≤ maxCount) :
    r.inflightOf c.workerID < limit c.workerID := by
  obtain ⟨-, -, hall⟩ := r.overlayAll_spec viewAt ws
  have hoffered : ∀ w ∈ (r.overlayAll viewAt ws).2, w.maxConcurrency = limit w.workerID ∧
      r.inflightOf w.workerID ≤ w.activeRequests := by
    intro w' hw'
    obtain ⟨w, hw, r', hr', hsig, rfl⟩ := hall w' hw'
    have hsame : ∀ id, r'.inflightOf id = r.inflightOf id := fun id => by
      simp only [Router.inflightOf, hr']
    refine ⟨hlimit w hw, ?_⟩
    have := r'.overlay_active w viewAt (by rw [hsame]; exact hnonneg _)
      (fun hs => by rw [hsame]; exact hmax (hsig ▸ hs) _)
    rwa [hsame] at this
  simp only [Router.reserve] at h
  split at h
  · cases h
  · split at h
    · cases h
    · split at h <;> cases h
    next hsel =>
      cases h
      obtain ⟨⟨hlim, hload⟩, hlt⟩ := selectLoop_chosen (P := fun w =>
        w.maxConcurrency = limit w.workerID ∧ r.inflightOf w.workerID ≤ w.activeRequests)
        (fun w hw => hw) hoffered hsel
      omega

theorem Router.offer_inflight {w : WorkerSnapshot} {cur : Option WorkerSnapshot} {out : Offer}
    (h : r.offer busy w cur now = (r', out)) :
    r'.inflight = r.inflight ∧ r'.sig.isSome = r.sig.isSome ∧
      ∀ v ticket tok, out = .handoff v ticket tok → cur = some v := by
  have hfree : ∀ {wake}, out = .free wake → ∀ v ticket tok, out = .handoff v ticket tok →
      cur = some v := by
    intro wake hout v ticket tok hout'
    rw [hout] at hout'
    cases hout'
  revert h
  fun_cases Router.offer r busy w cur now <;> intro h <;> cases h
  case case6 => exact ⟨rfl, rfl, fun _ _ _ hout => (by cases hout; rfl)⟩
  case case7 hsig _ => exact ⟨rfl, by rw [hsig]; rfl, fun _ _ _ hout => (by cases hout; rfl)⟩
  all_goals exact ⟨rfl, rfl, hfree rfl⟩

theorem Router.inflightOf_insert (id : String) (n : Int) (w : String) :
    ({ r with inflight := r.inflight.insert id n } : Router).inflightOf w =
      if w = id then n else r.inflightOf w := by
  simp only [Router.inflightOf, lookup_insert_ite]
  split <;> rfl

theorem Router.unslot_le (id w : String) : (r.unslot id).inflightOf w ≤ max (r.inflightOf w) 0 := by
  simp only [Router.unslot]
  split
  · simp only [Router.inflightOf, lookup_erase_ite]
    split
    · exact le_max_right _ _
    · exact le_max_left _ _
  · rw [Router.inflightOf_insert]
    split
    next hw =>
      subst hw
      omega
    next => exact le_max_left _ _

theorem Router.unslot_inflightOf {id : String} (h : 0 < r.inflightOf id) (w : String) :
    (r.unslot id).inflightOf w = r.inflightOf w - if w = id then 1 else 0 := by
  simp only [Router.unslot]
  split
  next hzero =>
    simp only [Router.inflightOf, lookup_erase_ite] at hzero h ⊢
    split
    next hw =>
      subst hw
      simp only [Option.getD_none]
      omega
    next => simp
  next =>
    rw [Router.inflightOf_insert]
    split
    next hw => rw [hw]
    next => simp

end Counts

end ServerFlow.Gateway
