import ServerFlow.Resilience.BreakerMoves
import ServerFlow.Scheduler.Fairness

/-!
# Gateway.Reservation

The loop of `reserve` (`internal/gateway/router.go`) with the scheduler in it, and `route` around
it. In `Router` the answers of the scheduler are an argument; here they are computed from the view
that each round offers, by any scheduler that keeps the contract of `SelectWorker`. The breakers
have a lock of their own, so before each call other goroutines may have used them: a `Moment` says
how, and what the clock read.

A refused ticket strikes the worker out of the view. That is what ends the loop (one candidate less
in each round), and it is also why a refusal can be trusted: a candidate that is gone was tried in
this call.
-/

namespace ServerFlow.Gateway

open Resilience Signals List Option

variable {p : Router × Int × List WorkerSnapshot} {fuel : Nat}

/-! ### Schedulers -/

/-- The scheduler may choose the worker: it is eligible and not full. -/
def offerable (model : String) (w : WorkerSnapshot) : Bool :=
  decide (w.model = model) && schedulable w && decide (w.activeRequests < w.maxConcurrency)

theorem offerable_iff {model : String} {w : WorkerSnapshot} :
    offerable model w = true ↔
      w.model = model ∧ schedulable w = true ∧ w.activeRequests < w.maxConcurrency := by
  unfold offerable
  rw [Bool.and_eq_true, Bool.and_eq_true, decide_eq_true_eq, decide_eq_true_eq, and_assoc]

/-- A scheduler with a state of its own. `SelectWorker` returns one of the offered workers, or a
no-worker error if there is none to choose. -/
structure Selector (σ : Type) where
  selectWorker : σ → Request → List WorkerSnapshot →
    σ × Except Scheduler.NoWorkerError WorkerSnapshot
  chosen : ∀ {s s' req ws w}, selectWorker s req ws = (s', .ok w) → w ∈ ws ∧
    offerable req.model w = true
  exhausted : ∀ {s s' req ws why}, selectWorker s req ws = (s', .error why) →
    ∀ w ∈ ws, offerable req.model w = false

section Strategy

variable {choose : String → Scheduler.Rotor → List Protocol.WorkerSnapshot →
    Scheduler.Rotor × Option Protocol.WorkerSnapshot}
  {rest : WorkerSnapshot → Protocol.WorkerSnapshot}

/-- A strategy of the scheduler package, for a request that is not cancelled. `rest` completes the
workers with the fields that only the strategy reads. -/
def strategySelect (choose : String → Scheduler.Rotor → List Protocol.WorkerSnapshot →
      Scheduler.Rotor × Option Protocol.WorkerSnapshot)
    (rest : WorkerSnapshot → Protocol.WorkerSnapshot) (r : Scheduler.Rotor) (req : Request)
    (ws : List WorkerSnapshot) : Scheduler.Rotor × Except Scheduler.NoWorkerError WorkerSnapshot :=
  match Scheduler.selectWith (choose req.model) r false req.model (ws.map rest) with
  | (r, .ok w) => (r, .ok w.toWorkerSnapshot)
  | (r, .error (.noWorker why)) => (r, .error why)
  | (r, .error .cancelled) => (r, .error ⟨req.model, 0, 0, 0⟩)

theorem candidate_rest (hrest : ∀ w, (rest w).toWorkerSnapshot = w) (model : String)
    (w : WorkerSnapshot) : Scheduler.candidate model (rest w) = offerable model w := by
  unfold Scheduler.candidate Scheduler.offered Scheduler.full offerable
  rw [hrest w, ← decide_not]
  simp only [not_le]

theorem selectWith_cases
    (hchoose : ∀ model r kept, kept ≠ [] → ∃ w ∈ kept, (choose model r kept).2 = some w)
    (r : Scheduler.Rotor) (model : String) (ws : List Protocol.WorkerSnapshot) :
    (∃ r', ∃ w ∈ Scheduler.candidates model ws,
        Scheduler.selectWith (choose model) r false model ws = (r', .ok w)) ∨
      (Scheduler.candidates model ws = [] ∧ ∃ why,
        Scheduler.selectWith (choose model) r false model ws = (r, .error (.noWorker why))) := by
  unfold Scheduler.selectWith
  rcases Scheduler.eligible_eq model ws with ⟨hnil, why, herr⟩ | ⟨hne, hok⟩
  · refine .inr ⟨hnil, why, ?_⟩
    rw [herr]
    rfl
  · obtain ⟨w, hw, hsome⟩ := hchoose model r _ hne
    refine .inl ⟨(choose model r (Scheduler.candidates model ws)).1, w, hw, ?_⟩
    rw [hok]
    dsimp only [Bool.false_eq_true]
    rw [← Prod.mk.eta (p := choose model r (Scheduler.candidates model ws)), hsome]
    rfl

/-- A strategy that always chooses among the workers its filter keeps is a scheduler. -/
def Selector.ofStrategy (choose : String → Scheduler.Rotor → List Protocol.WorkerSnapshot →
      Scheduler.Rotor × Option Protocol.WorkerSnapshot)
    (rest : WorkerSnapshot → Protocol.WorkerSnapshot)
    (hchoose : ∀ model r kept, kept ≠ [] → ∃ w ∈ kept, (choose model r kept).2 = some w)
    (hrest : ∀ w, (rest w).toWorkerSnapshot = w) : Selector Scheduler.Rotor where
  selectWorker := strategySelect choose rest
  chosen := by
    intro r r' req ws w hsel
    unfold strategySelect at hsel
    rcases selectWith_cases hchoose r req.model (ws.map rest) with ⟨r'', v, hv, heq⟩ | ⟨-, why, heq⟩
    · rw [heq] at hsel
      obtain ⟨hmem, hcand⟩ := Scheduler.mem_candidates.mp hv
      obtain ⟨u, hu, rfl⟩ := mem_map.mp hmem
      have hw : w = u := by
        have := congrArg Prod.snd hsel
        exact (Except.ok.inj this).symm.trans (hrest u)
      rw [hw, ← candidate_rest hrest]
      exact ⟨hu, hcand⟩
    · rw [heq] at hsel
      cases congrArg Prod.snd hsel
  exhausted := by
    intro r r' req ws why hsel w hw
    unfold strategySelect at hsel
    rcases selectWith_cases hchoose r req.model (ws.map rest) with ⟨r'', v, hv, heq⟩ | ⟨hnil, -⟩
    · rw [heq] at hsel
      cases congrArg Prod.snd hsel
    · rw [← candidate_rest hrest]
      by_contra hcand
      have hmem := Scheduler.mem_candidates.mpr
        ⟨mem_map_of_mem hw, Bool.eq_true_of_not_eq_false hcand⟩
      rw [hnil] at hmem
      exact not_mem_nil hmem

/-- The rotor hands a worker out if there is one. -/
theorem hand_some (r : Scheduler.Rotor) (model : String) {kept : List Protocol.WorkerSnapshot}
    (hne : kept ≠ []) : ∃ w ∈ kept, (r.hand model kept).2 = some w := by
  have hpos : 0 < kept.length := length_pos_iff.mpr hne
  have hlt : (r.next model (kept.map (·.workerID))).2 < kept.length := by
    unfold Scheduler.Rotor.next
    dsimp only
    split
    next => exact hpos
    next hend =>
      have hle := Search.search_le (n := (kept.map (·.workerID)).length)
        (f := fun i => ((kept.map (·.workerID))[i]?).all fun id => decide (r.lastOf model < id))
      rw [length_map] at hle hend ⊢
      exact lt_of_le_of_ne hle hend
  exact ⟨_, getElem_mem hlt, List.getElem?_eq_getElem hlt⟩

/-- Round robin is a scheduler. -/
def Selector.roundRobin (rest : WorkerSnapshot → Protocol.WorkerSnapshot)
    (hrest : ∀ w, (rest w).toWorkerSnapshot = w) : Selector Scheduler.Rotor :=
  .ofStrategy (fun model r kept => r.hand model kept) rest
    (fun model r _ hne => hand_some r model hne) hrest

/-- The least loaded strategies are schedulers. -/
def Selector.leastLoaded (load : Protocol.WorkerSnapshot → Int)
    (rest : WorkerSnapshot → Protocol.WorkerSnapshot) (hrest : ∀ w, (rest w).toWorkerSnapshot = w) :
    Selector Scheduler.Rotor :=
  .ofStrategy (fun model r kept => Scheduler.chooseWith load r model kept) rest
    (fun model r kept hne => by
      obtain ⟨-, u, hu, hload⟩ := Scheduler.leastLoad_spec load hne
      have hleast : u ∈ kept.filter fun w => decide (load w = Scheduler.leastLoad load kept) :=
        mem_filter.mpr ⟨hu, decide_eq_true hload⟩
      obtain ⟨w, hw, hsome⟩ := hand_some r model (ne_nil_of_mem hleast)
      exact ⟨w, (mem_filter.mp hw).1, hsome⟩) hrest

end Strategy

/-! ### The loop -/

/-- Right before a call: what other goroutines did to the breakers since the last one, the clock,
the order in which `RetryAfter` visits the breakers, and whether the cached view is degraded. -/
structure Moment where
  others : List BreakersCall
  now : Time
  order : List String
  degraded : Bool

/-- The breakers as the call finds them. -/
def Moment.found (m : Moment) (bs : Breakers) : Breakers := Machine.final Breakers.step bs m.others

/-- A call of `Acquire` in the loop: the worker, the breakers as it found them, and its clock. -/
structure Trial where
  worker : WorkerSnapshot
  found : Breakers
  now : Time

/-- The answer of the call. -/
def Trial.ticket (t : Trial) : Option Ticket := (acquire t.found t.worker t.now).2

/-- How the loop ends. -/
structure LoopEnd (σ : Type) where
  sched : σ
  res : Option Breakers
  out : Selected
  /-- Calls of `SelectWorker`. -/
  calls : Nat
  trials : List Trial

/-- One more round before the ones that are counted. -/
def LoopEnd.after (t : Trial) {σ : Type} (e : LoopEnd σ) : LoopEnd σ :=
  { e with calls := e.calls + 1, trials := t :: e.trials }

section Loop

variable {σ : Type} (S : Selector σ) (req : Request)

/-- The loop of `reserve`, for at most as many rounds as the first argument says. -/
def reserveLoop :
    Nat → (Nat → Moment) → σ → Option Breakers → Int → List WorkerSnapshot → Option (LoopEnd σ)
  | 0, _, _, _, _, _ => none
  | fuel + 1, env, s, res, broke, workers =>
    match S.selectWorker s req workers with
    | (s, .error why) =>
      let r := noWorkerError (res.map (env 0).found) req.model broke why.serving why.eligible
        why.atCapacity (env 0).degraded (env 0).now (env 0).order
      some ⟨s, r.1, .noWorker r.2, 1, []⟩
    | (s, .ok chosen) =>
      match res with
      | none => some ⟨s, none, .chosen chosen .zero, 1, []⟩
      | some bs =>
        let t : Trial := ⟨chosen, (env 0).found bs, (env 0).now⟩
        match acquire t.found chosen t.now with
        | (bs, some ticket) => some ⟨s, some bs, .chosen chosen ticket, 1, [t]⟩
        | (bs, none) =>
          (reserveLoop fuel (fun n => env (n + 1)) s (some bs) (broke + 1)
            (markIneligible chosen.workerID workers)).map (LoopEnd.after t)

end Loop

/-! ### Striking a worker out -/

section Strike

variable {id model : String} {ws : List WorkerSnapshot} {w : WorkerSnapshot}

/-- The candidates that are left are the others. -/
theorem mem_markIneligible_iff (hids : (ws.map (·.workerID)).Nodup)
    (hw : offerable model w = true) :
    w ∈ markIneligible id ws ↔ w ∈ ws ∧ w.workerID ≠ id := by
  have hnot : ∀ v : WorkerSnapshot, w ≠ { v with eligible := false } := by
    intro v heq
    have := (offerable_iff.mp hw).2.1
    rw [heq] at this
    simp [schedulable] at this
  induction ws with
  | nil => simp [markIneligible]
  | cons v ws ih =>
    rw [map_cons, nodup_cons] at hids
    simp only [markIneligible]
    split
    next hv =>
      have hgone : w ∈ ws → w.workerID ≠ id := fun hmem heq =>
        hids.1 (hv.trans heq.symm ▸ mem_map_of_mem hmem)
      rw [mem_cons, mem_cons]
      constructor
      · rintro (heq | hmem)
        · exact absurd heq (hnot v)
        · exact ⟨.inr hmem, hgone hmem⟩
      · rintro ⟨rfl | hmem, hne⟩
        · exact absurd hv hne
        · exact .inr hmem
    next hv =>
      have hrest := ih hids.2
      rw [mem_cons, mem_cons]
      constructor
      · rintro (rfl | hmem)
        · exact ⟨.inl rfl, hv⟩
        · exact ⟨.inr (hrest.mp hmem).1, (hrest.mp hmem).2⟩
      · rintro ⟨rfl | hmem, hne⟩
        · exact .inl rfl
        · exact .inr (hrest.mpr ⟨hmem, hne⟩)

/-- One candidate less. -/
theorem countP_markIneligible (hids : (ws.map (·.workerID)).Nodup) (hmem : w ∈ ws)
    (hw : offerable model w = true) :
    (markIneligible w.workerID ws).countP (offerable model) + 1 = ws.countP (offerable model) := by
  induction ws with
  | nil => cases hmem
  | cons v ws ih =>
    rw [map_cons, nodup_cons] at hids
    simp only [markIneligible]
    split
    next hv =>
      have heq : w = v := by
        rcases mem_cons.mp hmem with heq | hmem
        · exact heq
        · exact absurd (mem_map_of_mem (f := (·.workerID)) hmem) (hv ▸ hids.1)
      subst heq
      have hstruck : offerable model { w with eligible := false } = false := by
        simp [offerable, schedulable]
      rw [countP_cons_of_neg (by rw [hstruck]; decide), countP_cons_of_pos hw]
    next hv =>
      have hmem' : w ∈ ws := by
        rcases mem_cons.mp hmem with rfl | hmem
        · exact absurd rfl hv
        · exact hmem
      have := ih hids.2 hmem'
      rw [countP_cons, countP_cons]
      omega

end Strike

/-! ### Tickets -/

section Tickets

variable {bs : Breakers} {w : WorkerSnapshot} {now : Time}

/-- The worker's breaker is closed or has a free probe slot when it is asked. A worker without a
breaker counts as closed. -/
def breakerFree (bs : Breakers) (w : WorkerSnapshot) (now : Time) : Prop :=
  ∀ b, bs.find (keyOf w) = some b →
    (b.advance now bs.p).1.state = .closed ∨ (b.advance now bs.p).1.probeFree bs.p = true

end Tickets

/-! ### What the loop does -/

/-- What holds when the loop ends. -/
structure LoopEnd.Settled {σ : Type} (model : String) (on : Bool) (ws : List WorkerSnapshot)
    (e : LoopEnd σ) : Prop where
  calls_pos : 0 < e.calls
  calls : e.calls ≤ ws.countP (offerable model) + 1
  once : (e.trials.map (·.worker.workerID)).Nodup
  tried : ∀ t ∈ e.trials, t.worker ∈ ws ∧ offerable model t.worker = true
  chosen : ∀ w ticket, e.out = .chosen w ticket → w ∈ ws ∧ offerable model w = true ∧
    (on = true → ∃ t ∈ e.trials, t.worker = w ∧ t.ticket = some ticket) ∧
    ∀ t ∈ e.trials, t.worker ≠ w → t.ticket = none
  turnedAway : ∀ err, e.out = .noWorker err → (∀ t ∈ e.trials, t.ticket = none) ∧
    ∀ w ∈ ws, offerable model w = true → ∃ t ∈ e.trials, t.worker = w

section Loop

variable {σ : Type} {S : Selector σ} {req : Request} {ws : List WorkerSnapshot}

/-- A refused round before a loop that is settled on what is left. -/
theorem LoopEnd.Settled.after {model : String} {on : Bool} {e : LoopEnd σ} {t : Trial}
    (h : e.Settled model on (markIneligible t.worker.workerID ws))
    (hids : (ws.map (·.workerID)).Nodup) (hmem : t.worker ∈ ws)
    (hoffer : offerable model t.worker = true) (hrefused : t.ticket = none) :
    (e.after t).Settled model on ws := by
  have hback : ∀ w ∈ markIneligible t.worker.workerID ws, offerable model w = true →
      w ∈ ws ∧ w.workerID ≠ t.worker.workerID :=
        fun w hw hwo => (mem_markIneligible_iff hids hwo).mp hw
  have hcount := countP_markIneligible hids hmem hoffer
  refine ⟨Nat.succ_pos _, ?_, ?_, ?_, ?_, ?_⟩
  · have := h.calls
    show e.calls + 1 ≤ _
    omega
  · show (t.worker.workerID :: e.trials.map (·.worker.workerID)).Nodup
    rw [nodup_cons]
    refine ⟨fun hin => ?_, h.once⟩
    obtain ⟨u, hu, heq⟩ := mem_map.mp hin
    obtain ⟨huw, huo⟩ := h.tried u hu
    exact (hback _ huw huo).2 heq
  · intro u hu
    rcases mem_cons.mp hu with rfl | hu
    · exact ⟨hmem, hoffer⟩
    · obtain ⟨huw, huo⟩ := h.tried u hu
      exact ⟨(hback _ huw huo).1, huo⟩
  · intro w ticket hout
    obtain ⟨hw, hwo, hgranted, hothers⟩ := h.chosen w ticket hout
    refine ⟨(hback w hw hwo).1, hwo, fun hon => ?_, fun u hu hne => ?_⟩
    · obtain ⟨u, hu, huw⟩ := hgranted hon
      exact ⟨u, mem_cons_of_mem _ hu, huw⟩
    · rcases mem_cons.mp hu with rfl | hu
      · exact hrefused
      · exact hothers u hu hne
  · intro err hout
    obtain ⟨hnone, hall⟩ := h.turnedAway err hout
    refine ⟨fun u hu => ?_, fun w hw hwo => ?_⟩
    · rcases mem_cons.mp hu with rfl | hu
      · exact hrefused
      · exact hnone u hu
    · by_cases hid : w.workerID = t.worker.workerID
      · exact ⟨t, mem_cons_self, (inj_on_of_nodup_map hids hw hmem hid).symm⟩
      · obtain ⟨u, hu, huw⟩ := hall w ((mem_markIneligible_iff hids hwo).mpr ⟨hw, hid⟩) hwo
        exact ⟨u, mem_cons_of_mem _ hu, huw⟩

end Loop

/-! ### `reserve` and `route` -/

/-- How `reserve` ends. -/
structure ReserveEnd (σ : Type) where
  router : Router
  sched : σ
  out : Reserved
  calls : Nat
  trials : List Trial

section Reserve

variable {σ : Type} (S : Selector σ) (fuel : Nat)

/-- `reserve`, up to the call of `enqueueLocked`, with the rounds of its loop bounded by `fuel`. -/
def Router.reserveWith (r : Router) (busy : Bool) (req : Request) (workers : List WorkerSnapshot)
    (viewAt : Time) (broke : Int) (wait : Bool) (env : Nat → Moment) (s : σ) (now : Time) :
    Option (ReserveEnd σ) :=
  if wait && anySchedulable workers && busy then some ⟨r, s, .wait ⟨.internal, 0, 0, 0, ""⟩, 0, []⟩
  else
    let o := r.overlayAll viewAt workers
    match reserveLoop S req fuel env s o.1.res broke o.2 with
    | none => none
    | some ⟨s, res, .noWorker err, calls, trials⟩ =>
      some ⟨{ o.1 with res := res }, s, if wait && err.full then .wait err else .refused err, calls,
        trials⟩
    | some ⟨s, res, .chosen c ticket, calls, trials⟩ =>
      let l := takeLease o.1.sig now c req.cost
      some ⟨{ inflight := o.1.inflight.insert c.workerID (o.1.inflightOf c.workerID + 1)
              res := res
              sig := l.1 }, s, .slot c ticket l.2, calls, trials⟩

/-- `breakers.Admissible`. -/
def admissible (bs : Breakers) (w : WorkerSnapshot) (now : Time) : Breakers × Bool :=
  match bs.step ⟨now, [], .admissible (keyOf w)⟩ with
  | (bs, .admissible ok, _) => (bs, ok)
  | (bs, _, _) => (bs, false)

/-- The loop of `route` that takes the workers out whose breakers would refuse, and counts them. -/
def strikeOut :
    (Nat → Moment) → Breakers → List WorkerSnapshot → Breakers × Int × List WorkerSnapshot
  | _, bs, [] => (bs, 0, [])
  | env, bs, w :: ws =>
    if schedulable w then
      match admissible ((env 0).found bs) w (env 0).now with
      | (bs, true) =>
        let rest := strikeOut (fun n => env (n + 1)) bs ws
        (rest.1, rest.2.1, w :: rest.2.2)
      | (bs, false) =>
        let rest := strikeOut (fun n => env (n + 1)) bs ws
        (rest.1, rest.2.1 + 1, { w with eligible := false } :: rest.2.2)
    else
      let rest := strikeOut env bs ws
      (rest.1, rest.2.1, w :: rest.2.2)

/-- The pre-filter of `route`. `nonClosed` is what the counter of breakers that are not closed
read. -/
def Router.preFilter (r : Router) (nonClosed : Int) (env : Nat → Moment)
    (ws : List WorkerSnapshot) :
    Router × Int × List WorkerSnapshot :=
  match r.res with
  | none => (r, 0, ws)
  | some bs =>
    if nonClosed > 0 then
      let p := strikeOut env bs ws
      ({ r with res := some p.1 }, p.2.1, p.2.2)
    else (r, 0, ws)

/-- The workers that were not tried for the request before. -/
def notTried (exclude : List String) (ws : List WorkerSnapshot) : List WorkerSnapshot :=
  ws.filter fun w => decide (w.workerID ∉ exclude)

/-- `route`. The view is what the cache answered, with its time; `pre` are the moments of the
pre-filter. -/
def Router.route (r : Router) (view : Option (List WorkerSnapshot × Time)) (exclude : List String)
    (nonClosed : Int) (pre : Nat → Moment) (busy : Bool) (req : Request) (wait : Bool)
    (env : Nat → Moment) (s : σ) (now : Time) : Option (ReserveEnd σ) :=
  match view with
  | none => some ⟨r, s, .refused ⟨.workerUnavailable, 0, 0, 0, ""⟩, 0, []⟩
  | some (workers, viewAt) =>
    let kept := notTried exclude workers
    if kept = [] ∧ workers ≠ [] then
      some ⟨r, s, .refused ⟨.noCapacity req.model 0 1, workers.length, 0, 0, ""⟩, 0, []⟩
    else
      let p := r.preFilter nonClosed pre kept
      p.1.reserveWith S fuel busy req p.2.2 viewAt p.2.1 wait env s now

end Reserve

/-! ### What a request gets -/

/-- What a request can rely on when `reserve` ends, `offered` being the view under the overlay. -/
structure ReserveEnd.Settled {σ : Type} (r : Router) (req : Request) (offered : List WorkerSnapshot)
    (e : ReserveEnd σ) : Prop where
  /-- The scheduler is asked, unless the request is put off or turned away at once. -/
  asked : e.calls = 0 → e.trials = [] ∧ ∀ c ticket lease, e.out ≠ .slot c ticket lease
  calls : e.calls ≤ offered.countP (offerable req.model) + 1
  once : (e.trials.map (·.worker.workerID)).Nodup
  /-- A worker that is returned was to be had, and its breaker granted the ticket in this call. -/
  slot : ∀ c ticket lease, e.out = .slot c ticket lease →
    c ∈ offered ∧ schedulable c = true ∧ c.activeRequests < c.maxConcurrency ∧
      (r.res.isSome = true →
        ∃ t ∈ e.trials, t.worker = c ∧ t.ticket = some ticket ∧ breakerFree t.found c t.now)
  /-- If the scheduler was asked in vain, every worker that was to be had was refused a ticket in
  this call. -/
  tried : (∀ c ticket lease, e.out ≠ .slot c ticket lease) → 0 < e.calls →
    ∀ w ∈ offered, offerable req.model w = true → ∃ t ∈ e.trials, t.worker = w ∧ t.ticket = none
  /-- Without a slot for the request, no count and no ticket is kept. -/
  nothingKept : (∀ c ticket lease, e.out ≠ .slot c ticket lease) →
    e.router.inflight = r.inflight ∧
      ∀ t ∈ e.trials, t.ticket = none ∧ t.found.Onward (acquire t.found t.worker t.now).1

section Reserve

variable {σ : Type} {S : Selector σ} {fuel : Nat} {req : Request} {ws : List WorkerSnapshot}
  {env : Nat → Moment} {s : σ} {broke : Int}

/-- Nobody uses the breakers in between. -/
def Quiet (env : Nat → Moment) : Prop := ∀ n, (env n).others = []

theorem Quiet.found (h : Quiet env) (bs : Breakers) : (env 0).found bs = bs := by
  unfold Moment.found
  rw [h 0]
  rfl

/-- Undisturbed, the loop is the one of `selectLoop` on the answers that the scheduler gives. -/
theorem selectLoop_of_reserveLoop {S : Selector σ} {res : Option Breakers} {e : LoopEnd σ}
    (hquiet : Quiet env) (h : reserveLoop S req fuel env s res broke ws = some e) :
    ∃ picks, selectLoop req.model res broke ws picks = some (e.res, e.out) := by
  induction fuel generalizing env s res broke ws e with
  | zero => cases h
  | succ fuel ih =>
    unfold reserveLoop at h
    cases hsel : S.selectWorker s req ws with
    | mk s' answer =>
      rw [hsel] at h
      cases answer with
      | error why =>
        cases h
        have hres : res.map (env 0).found = res := by
          cases res with
          | none => rfl
          | some bs => rw [map_some, hquiet.found]
        refine ⟨[.noWorker why.serving why.eligible why.atCapacity (env 0).degraded (env 0).now
          (env 0).order], ?_⟩
        rw [hres]
        rfl
      | ok c =>
        obtain ⟨hc, hco⟩ := S.chosen hsel
        have hlawful : c ∈ ws ∧ c.activeRequests < c.maxConcurrency :=
          ⟨hc, (offerable_iff.mp hco).2.2⟩
        cases res with
        | none =>
          cases h
          refine ⟨[.worker c 0], ?_⟩
          simp only [selectLoop]
          rw [if_pos hlawful]
        | some bs =>
          dsimp only at h
          rw [hquiet.found] at h
          cases hacq : acquire bs c (env 0).now with
          | mk bs' answer =>
            rw [hacq] at h
            cases answer with
            | some ticket =>
              cases h
              refine ⟨[.worker c (env 0).now], ?_⟩
              simp only [selectLoop]
              rw [if_pos hlawful, hacq]
            | none =>
              dsimp only at h
              obtain ⟨e', he', rfl⟩ := Option.map_eq_some_iff.mp h
              obtain ⟨picks, hpicks⟩ := ih (fun n => hquiet (n + 1)) he'
              refine ⟨.worker c (env 0).now :: picks, ?_⟩
              simp only [selectLoop]
              rw [if_pos hlawful, hacq]
              exact hpicks

/-- Undisturbed, `reserve` with a scheduler is `reserve` on the answers that the scheduler gives. -/
theorem Router.reserve_of_reserveWith {S : Selector σ} {r : Router} {busy wait : Bool}
    {viewAt now : Time} {e : ReserveEnd σ} (hquiet : Quiet env)
    (h : r.reserveWith S fuel busy req ws viewAt broke wait env s now = some e) :
    ∃ picks, r.reserve busy req ws viewAt broke wait picks now = some (e.router, e.out) := by
  unfold Router.reserveWith at h
  unfold Router.reserve
  split at h
  next hbusy =>
    cases h
    exact ⟨[], by rw [if_pos hbusy]⟩
  next hbusy =>
    simp only [if_neg hbusy]
    dsimp only at h
    cases hloop : reserveLoop S req fuel env s (r.overlayAll viewAt ws).1.res broke
      (r.overlayAll viewAt ws).2 with
    | none =>
      rw [hloop] at h
      cases h
    | some l =>
      obtain ⟨picks, hpicks⟩ := selectLoop_of_reserveLoop hquiet hloop
      rw [hloop] at h
      obtain ⟨s', res, out, calls, trials⟩ := l
      refine ⟨picks, ?_⟩
      rw [hpicks]
      cases out with
      | noWorker err =>
        cases h
        rfl
      | chosen c ticket =>
        cases h
        rfl

end Reserve

end ServerFlow.Gateway
