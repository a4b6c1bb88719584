import ServerFlow.Lib.Machine
import ServerFlow.Gateway.Attempt

/-!
# Gateway.PhaseGuard

The race between an attempt's response and the timers that bound its retryable phase. The first-byte
deadline and, for a probe, the header timeout run as timers whose callbacks set a flag under the
guard's lock and cancel the attempt after they have released it. The attempt's goroutine takes the
same lock when the headers are there, when the response has arrived and at the decision point.

Both sides see what the other one did under the lock, and after that nothing changes any more: once
`headers` is set no header timeout is noted, and once `done` is set no deadline is
(`PhaseGuard.Later`). So a flag that was set is read by the goroutine before it decides, and the
attempt is the timer's; and one that was not set when the response arrived is never set, so nobody
cancels. The timers may fire at any time and the worker may answer anything at any time.
-/

namespace ServerFlow.Gateway

open Resilience

/-! ### The guard -/

/-- Where a timer and its callback are. -/
inductive Callback
  | armed
  /-- The timer has fired, and the callback waits for the lock. -/
  | fired
  /-- The callback has set its flag and released the lock, and is about to cancel. -/
  | cancelling
  | returned
  /-- The timer was stopped before it fired. -/
  | stopped
  deriving Repr, DecidableEq

/-- `Timer.Stop`: it does not reach a callback that has started. -/
def Callback.stop : Callback → Callback
  | .armed => .stopped
  | c => c

/-- The callback has had the lock. -/
def Callback.tookLock : Callback → Bool
  | .cancelling | .returned => true
  | _ => false

structure PhaseGuard where
  done : Bool
  headers : Bool
  deadlineHit : Bool
  headerHit : Bool
  dt : Callback
  ht : Option Callback

namespace PhaseGuard

/-- `newPhaseGuard`: a probe has a header timer. -/
def new (probe : Bool) : PhaseGuard :=
  ⟨false, false, false, false, .armed, if probe then some .armed else none⟩

/-- The part of `onDeadline` under the lock. -/
def onDeadline (g : PhaseGuard) : PhaseGuard :=
  if g.done then { g with dt := .returned } else { g with deadlineHit := true, dt := .cancelling }

/-- The part of `onHeader` under the lock. -/
def onHeader (g : PhaseGuard) : PhaseGuard :=
  if g.done || g.headers then { g with ht := some .returned }
  else { g with headerHit := true, ht := some .cancelling }

def headersDone (g : PhaseGuard) : PhaseGuard :=
  { g with headers := true, ht := g.ht.map Callback.stop }

/-- `end`: the guard after it. Its answer is `deadlineHit`. -/
def end_ (g : PhaseGuard) : PhaseGuard :=
  { g with done := true, dt := g.dt.stop, ht := g.ht.map Callback.stop }

/-! ### What can still change -/

/-- What an earlier guard fixes about a later one. -/
structure Later (g g' : PhaseGuard) : Prop where
  headers : g.headers = true → g'.headers = true ∧ g'.headerHit = g.headerHit
  done : g.done = true → g'.done = true ∧ g'.headerHit = g.headerHit ∧
    g'.deadlineHit = g.deadlineHit

namespace Later

variable {g g' g'' : PhaseGuard}

theorem refl (g : PhaseGuard) : g.Later g := ⟨fun h => ⟨h, rfl⟩, fun h => ⟨h, rfl, rfl⟩⟩

theorem trans (h : g.Later g') (h' : g'.Later g'') : g.Later g'' := by
  constructor
  · intro hg
    obtain ⟨hheaders, hhit⟩ := h.headers hg
    obtain ⟨hheaders', hhit'⟩ := h'.headers hheaders
    exact ⟨hheaders', hhit'.trans hhit⟩
  · intro hg
    obtain ⟨hdone, hheader, hdeadline⟩ := h.done hg
    obtain ⟨hdone', hheader', hdeadline'⟩ := h'.done hdone
    exact ⟨hdone', hheader'.trans hheader, hdeadline'.trans hdeadline⟩

/-- The flags are the same, and no mark is taken back. -/
theorem of_flags (hheaders : g.headers = true → g'.headers = true)
    (hdone : g.done = true → g'.done = true) (hheader : g'.headerHit = g.headerHit)
    (hdeadline : g'.deadlineHit = g.deadlineHit) : g.Later g' :=
  ⟨fun h => ⟨hheaders h, hheader⟩, fun h => ⟨hdone h, hheader, hdeadline⟩⟩

section

variable (g : PhaseGuard)

theorem onDeadline : g.Later g.onDeadline := by
  unfold PhaseGuard.onDeadline
  split
  next => exact of_flags id id rfl rfl
  next hdone => exact ⟨fun h => ⟨h, rfl⟩, fun h => absurd h hdone⟩

theorem onHeader : g.Later g.onHeader := by
  unfold PhaseGuard.onHeader
  split
  next => exact of_flags id id rfl rfl
  next hopen =>
    rw [Bool.or_eq_true, not_or] at hopen
    exact ⟨fun h => absurd h hopen.2, fun h => absurd h hopen.1⟩

theorem headersDone : g.Later g.headersDone := of_flags (fun _ => rfl) id rfl rfl

theorem end_ : g.Later g.end_ := of_flags id (fun _ => rfl) rfl rfl

end

end Later

end PhaseGuard

/-! ### One attempt -/

/-- What one read of the body gives. -/
inductive FirstRead
  | bytes
  | nothing
  | failed (e : AttemptError)

/-- Where the attempt's goroutine is. -/
inductive AttemptPc
  /-- In `Do`. -/
  | sending
  /-- `Do` has returned, before `headersDone`. -/
  | sent (answer : Except AttemptError Response)
  /-- Before `headerExpired`. -/
  | checking (answer : Except AttemptError Response)
  /-- Waiting for the first byte. -/
  | reading
  /-- The body failed, before the context is looked at. -/
  | failing (e : AttemptError)
  /-- Before `arrived`. -/
  | arriving
  /-- `sendOnce` has returned, before `endPhase`. -/
  | returned
  /-- At the decision point. -/
  | decided
  | ended (e : Ending)

/-- An attempt with its guard. -/
structure GuardedAttempt where
  guard : PhaseGuard
  run : AttemptRun
  pc : AttemptPc
  /-- The attempt's context is cancelled. -/
  ctxDone : Bool
  /-- The guard has cancelled it. -/
  guardCancelled : Bool
  clientLeft : Bool
  /-- What `end` has answered so far. -/
  answers : List Bool

inductive AttemptAct
  | fireDeadline
  | lockDeadline
  | cancelDeadline
  | fireHeader
  | lockHeader
  | cancelHeader
  /-- The idle clock cancels. -/
  | idle
  | leave
  | answer (answer : Except AttemptError Response)
  | read (r : FirstRead)
  /-- The goroutine's next step, where it needs nothing from outside. -/
  | go
  | settle (attemptsLeft permitted peekIsNeutral found : Bool)
  /-- A later `end`, from the cleanup. -/
  | stop

namespace GuardedAttempt

def start (probe : Bool) : GuardedAttempt := ⟨.new probe, .new, .sending, false, false, false, []⟩

/-- A call of `end`. -/
def endGuard (s : GuardedAttempt) : GuardedAttempt :=
  { s with guard := s.guard.end_, answers := s.answers ++ [s.guard.deadlineHit] }

/-- `sendOnce` after the header check. -/
def proceed (p : RetryPolicy) (s : GuardedAttempt) (answer : Except AttemptError Response) :
    GuardedAttempt :=
  { s with
    run := (s.run.answered p s.clientLeft answer).1
    pc := match (s.run.answered p s.clientLeft answer).2 with
      | .back => .returned
      | .arrived => .arriving
      | .firstByte => .reading }

/-- The goroutine's own steps. -/
def go (p : RetryPolicy) (s : GuardedAttempt) : Option GuardedAttempt :=
  match s.pc with
  | .sent a => some { s with guard := s.guard.headersDone, pc := .checking a }
  | .checking a =>
    if s.guard.headerHit && !s.clientLeft then some (s.proceed p (.error .headerTimeout))
    else some (s.proceed p a)
  | .failing e =>
    some { s with run := s.run.firstByteFailed s.clientLeft s.ctxDone e, pc := .returned }
  | .arriving => some { s.endGuard with pc := .returned }
  | .returned =>
    if s.guard.deadlineHit && !s.clientLeft then some
      { s.endGuard with run := s.run.markDeadline, pc := .decided }
    else some { s.endGuard with pc := .decided }
  | _ => none

def step (p : RetryPolicy) (s : GuardedAttempt) : AttemptAct → Option GuardedAttempt
  | .fireDeadline =>
    if s.guard.dt = .armed then some { s with guard := { s.guard with dt := .fired } } else none
  | .lockDeadline =>
    if s.guard.dt = .fired then some { s with guard := s.guard.onDeadline } else none
  | .cancelDeadline =>
    if s.guard.dt = .cancelling then
      some { s with guard := { s.guard with dt := .returned }, ctxDone := true, guardCancelled := true }
    else none
  | .fireHeader =>
    if s.guard.ht = some .armed then some { s with guard := { s.guard with ht := some .fired } }
      else none
  | .lockHeader =>
    if s.guard.ht = some .fired then some { s with guard := s.guard.onHeader } else none
  | .cancelHeader =>
    if s.guard.ht = some .cancelling then
      some { s with guard := { s.guard with ht := some .returned }, ctxDone := true, guardCancelled := true }
    else none
  | .idle => some { s with ctxDone := true }
  | .leave => some { s with clientLeft := true, ctxDone := true }
  | .answer a =>
    match s.pc with
    | .sending => some { s with pc := .sent a }
    | _ => none
  | .read r =>
    match s.pc, r with
    | .reading, .bytes => some { s with pc := .arriving }
    | .reading, .nothing => some s
    | .reading, .failed e => some { s with pc := .failing e }
    | _, _ => none
  | .go => s.go p
  | .settle attemptsLeft permitted peekIsNeutral found =>
    match s.pc with
    | .decided =>
      some { s with pc := .ended (s.run.settle s.clientLeft attemptsLeft permitted peekIsNeutral found) }
    | _ => none
  | .stop =>
    match s.pc with
    | .ended _ => some s.endGuard
    | _ => none

/-! ### What a step does to the guard -/

/-- The steps of the guard: the guard after it, whether it has cancelled, and the answers of
`end`. -/
inductive GuardMove (s : GuardedAttempt) : PhaseGuard → Bool → List Bool → Prop
  | same : GuardMove s s.guard s.guardCancelled s.answers
  | fireDeadline (h : s.guard.dt = .armed) :
      GuardMove s { s.guard with dt := .fired } s.guardCancelled s.answers
  | lockDeadline (h : s.guard.dt = .fired) : GuardMove s s.guard.onDeadline s.guardCancelled
    s.answers
  | cancelDeadline (h : s.guard.dt = .cancelling) : GuardMove s
    { s.guard with dt := .returned } true s.answers
  | fireHeader (h : s.guard.ht = some .armed) :
      GuardMove s { s.guard with ht := some .fired } s.guardCancelled s.answers
  | lockHeader (h : s.guard.ht = some .fired) : GuardMove s s.guard.onHeader s.guardCancelled
    s.answers
  | cancelHeader (h : s.guard.ht = some .cancelling) :
      GuardMove s { s.guard with ht := some .returned } true s.answers
  | headersDone : GuardMove s s.guard.headersDone s.guardCancelled s.answers
  | end_ : GuardMove s s.guard.end_ s.guardCancelled (s.answers ++ [s.guard.deadlineHit])

section Moves

variable {p : RetryPolicy} {s t : GuardedAttempt} {a : AttemptAct}

theorem go_move (ht : s.go p = some t) :
    s.GuardMove t.guard t.guardCancelled t.answers ∧
      (t.clientLeft = false → s.clientLeft = false) := by
  revert ht
  fun_cases go p s <;> intro ht <;> cases ht
  next => exact ⟨.headersDone, id⟩
  next => exact ⟨.same, id⟩
  next => exact ⟨.same, id⟩
  next => exact ⟨.same, id⟩
  next => exact ⟨.end_, id⟩
  next => exact ⟨.end_, id⟩
  next => exact ⟨.end_, id⟩

/-- Every step is one of the guard's; and a client that left stays away. -/
theorem step_move (ht : s.step p a = some t) :
    s.GuardMove t.guard t.guardCancelled t.answers ∧
      (t.clientLeft = false → s.clientLeft = false) := by
  revert ht
  fun_cases step p s a <;> intro ht <;> try with_reducible cases ht
  next h => exact ⟨.fireDeadline h, id⟩
  next h => exact ⟨.lockDeadline h, id⟩
  next h => exact ⟨.cancelDeadline h, id⟩
  next h => exact ⟨.fireHeader h, id⟩
  next h => exact ⟨.lockHeader h, id⟩
  next h => exact ⟨.cancelHeader h, id⟩
  next => exact ⟨.same, id⟩
  next => exact ⟨.same, nofun⟩
  next => exact ⟨.same, id⟩
  next => exact ⟨.same, id⟩
  next => exact ⟨.same, id⟩
  next => exact ⟨.same, id⟩
  next => exact go_move ht
  next => exact ⟨.same, id⟩
  next => exact ⟨.end_, id⟩

/-- Every step leads to a later guard. -/
theorem step_later (ht : s.step p a = some t) : s.guard.Later t.guard := by
  have hmove := (step_move ht).1
  generalize t.guard = g' at hmove ⊢
  generalize t.guardCancelled = c' at hmove
  generalize t.answers = as' at hmove
  cases hmove with
  | same => exact .refl _
  | lockDeadline => exact .onDeadline _
  | lockHeader => exact .onHeader _
  | headersDone => exact .headersDone _
  | end_ => exact .end_ _
  | fireDeadline | cancelDeadline | fireHeader | cancelHeader => exact .of_flags id id rfl rfl

theorem reach_later (h : Machine.Reach (step p) s t) : s.guard.Later t.guard :=
  h.invariant (P := fun t => s.guard.Later t.guard) (.refl _) fun _ _ _ hst ht =>
    hst.trans (step_later ht)

end Moves

/-! ### Flags, cancellation and answers -/

/-- Nobody cancels without a flag, a callback that has not had the lock has set none, and `end`
answers the flag. -/
structure Flagged (s : GuardedAttempt) : Prop where
  cancelled : s.guardCancelled = true → s.guard.deadlineHit = true ∨ s.guard.headerHit = true
  deadline : s.guard.dt = .cancelling → s.guard.deadlineHit = true
  header : s.guard.ht = some .cancelling → s.guard.headerHit = true
  untouched : s.guard.dt.tookLock = false → s.guard.deadlineHit = false
  answers : ∀ a ∈ s.answers, s.guard.done = true ∧ a = s.guard.deadlineHit

theorem Callback.stop_cancelling {c : Callback} (h : c.stop = .cancelling) : c = .cancelling := by
  cases c with
  | armed => cases h
  | _ => exact h

theorem Callback.tookLock_stop (c : Callback) : c.stop.tookLock = c.tookLock := by
  cases c <;> rfl

theorem stop_header {o : Option Callback} (h : o.map Callback.stop = some .cancelling) :
    o = some .cancelling := by
  obtain ⟨c, rfl, hc⟩ := Option.map_eq_some_iff.mp h
  rw [Callback.stop_cancelling hc]

theorem Flagged.step {p : RetryPolicy} {s t : GuardedAttempt} {a : AttemptAct} (h : s.Flagged)
    (ht : s.step p a = some t) : t.Flagged := by
  obtain ⟨hcancelled, hdeadline, hheader, huntouched, hanswers⟩ := h
  have hmove := (step_move ht).1
  obtain ⟨g', run', pc', ctx', c', left', as'⟩ := t
  dsimp only at hmove
  cases hmove with
  | same => exact ⟨hcancelled, hdeadline, hheader, huntouched, hanswers⟩
  | fireDeadline hdt =>
    have hno := huntouched (by rw [hdt]; rfl)
    exact ⟨hcancelled, nofun, hheader, fun _ => hno, hanswers⟩
  | lockDeadline hdt =>
    unfold PhaseGuard.onDeadline
    split
    next =>
      exact ⟨hcancelled, nofun, hheader, nofun, hanswers⟩
    next hopen =>
      refine ⟨fun _ => .inl rfl, fun _ => rfl, hheader, nofun, fun a ha => ?_⟩
      exact absurd (hanswers a ha).1 hopen
  | cancelDeadline hdt =>
    have hhit := hdeadline hdt
    exact ⟨fun _ => .inl hhit, nofun, hheader, nofun, hanswers⟩
  | fireHeader hht => exact ⟨hcancelled, hdeadline, nofun, huntouched, hanswers⟩
  | lockHeader hht =>
    unfold PhaseGuard.onHeader
    split
    next => exact ⟨hcancelled, hdeadline, nofun, huntouched, hanswers⟩
    next => exact ⟨fun _ => .inr rfl, hdeadline, fun _ => rfl, huntouched, hanswers⟩
  | cancelHeader hht =>
    have hhit := hheader hht
    exact ⟨fun _ => .inr hhit, hdeadline, nofun, huntouched, hanswers⟩
  | headersDone =>
    exact ⟨hcancelled, hdeadline, fun h => hheader (stop_header h), huntouched, hanswers⟩
  | end_ =>
    refine ⟨hcancelled, fun h => hdeadline (Callback.stop_cancelling h),
      fun h => hheader (stop_header h), ?_, ?_⟩
    · intro h
      exact huntouched ((Callback.tookLock_stop _).symm.trans h)
    · intro a ha
      rcases List.mem_append.mp ha with ha | ha
      · exact ⟨rfl, (hanswers a ha).2⟩
      · exact ⟨rfl, List.mem_singleton.mp ha⟩

theorem Flagged.start (probe : Bool) : (start probe).Flagged where
  cancelled := nofun
  deadline := nofun
  header := by
    intro h
    cases probe <;> cases h
  untouched := fun _ => rfl
  answers := nofun

/-! ### The goroutine -/

/-- What the goroutine knows at each point, while the client is there. -/
def Course (s : GuardedAttempt) : Prop :=
  match s.pc with
  | .sending | .sent _ => s.run = .new
  | .checking _ => s.run = .new ∧ s.guard.headers = true
  | .reading | .failing _ | .arriving => s.guard.headers = true ∧ s.guard.headerHit = false
  | .returned => s.guard.headers = true ∧ (s.guard.headerHit = true → s.run = .headerTimedOut)
  | .decided =>
    s.guard.done = true ∧ (s.guard.deadlineHit = true → s.run = .deadlined) ∧
      (s.guard.deadlineHit = false → s.guard.headerHit = true → s.run = .headerTimedOut)
  | .ended e =>
    s.guard.done = true ∧ (s.guard.deadlineHit = true → e = .deadlined) ∧
      (s.guard.deadlineHit = false → s.guard.headerHit = true → e = .headerTimedOut)

section Course

variable {p : RetryPolicy} {s t : GuardedAttempt} {a : AttemptAct}

/-- A later guard does not change what the goroutine knows. -/
theorem Course.later (h : s.Course) (hlater : s.guard.Later t.guard) (hrun : t.run = s.run)
    (hpc : t.pc = s.pc) : t.Course := by
  unfold Course at h ⊢
  rw [hpc, hrun]
  cases hs : s.pc with
  | sending | sent a =>
    simp only [hs] at h ⊢
    exact h
  | checking a =>
    simp only [hs] at h ⊢
    exact ⟨h.1, (hlater.headers h.2).1⟩
  | reading | failing e | arriving =>
    simp only [hs] at h ⊢
    obtain ⟨hheaders, hhit⟩ := hlater.headers h.1
    exact ⟨hheaders, hhit.trans h.2⟩
  | returned =>
    simp only [hs] at h ⊢
    obtain ⟨hheaders, hhit⟩ := hlater.headers h.1
    exact ⟨hheaders, hhit ▸ h.2⟩
  | decided | ended e =>
    simp only [hs] at h ⊢
    obtain ⟨hdone, hheader, hdeadline⟩ := hlater.done h.1
    rw [hheader, hdeadline]
    exact ⟨hdone, h.2⟩

/-- After the header check, with no header timeout. -/
theorem Course.proceed (hheaders : s.guard.headers = true) (hhit : s.guard.headerHit = false)
    (answer : Except AttemptError Response) : (s.proceed p answer).Course := by
  unfold Course GuardedAttempt.proceed
  cases (s.run.answered p s.clientLeft answer).2 with
  | back => exact ⟨hheaders, fun h => by cases hhit.symm.trans h⟩
  | arrived => exact ⟨hheaders, hhit⟩
  | firstByte => exact ⟨hheaders, hhit⟩

theorem Course.go (h : s.Course) (hclient : s.clientLeft = false) (ht : s.go p = some t) :
    t.Course := by
  unfold Course at h
  revert ht
  fun_cases GuardedAttempt.go p s <;> intro ht <;> cases ht <;> rename s.pc = _ =>
    hpc <;> rw [hpc] at h
  next => exact ⟨h, rfl⟩
  next =>
    unfold Course GuardedAttempt.proceed
    simp only [h.1, hclient, AttemptRun.answered_headerTimeout]
    exact ⟨h.2, fun _ => trivial⟩
  next hno => exact .proceed h.2 (by simpa [hclient] using hno) _
  next => exact ⟨h.1, fun hhit => by cases h.2.symm.trans hhit⟩
  next => exact ⟨h.1, fun hhit => by cases h.2.symm.trans hhit⟩
  next hhit =>
    have hhit : s.guard.deadlineHit = true := (Bool.and_eq_true_iff.mp hhit).1
    exact ⟨rfl, fun _ => rfl, fun hno => by cases hhit.symm.trans hno⟩
  next hno =>
    have hhit : s.guard.deadlineHit = false := by simpa [hclient] using hno
    exact ⟨rfl, fun hyes => (by cases hhit.symm.trans hyes), fun _ => h.2⟩

theorem Course.step (h : s.Course) (hclient : s.clientLeft = false) (ht : s.step p a = some t) :
    t.Course := by
  have hlater := step_later ht
  have hat : ∀ {pc : AttemptPc}, s.pc = pc → ({ s with pc := pc } : GuardedAttempt).Course :=
    fun hpc => hpc ▸ h
  revert ht
  fun_cases GuardedAttempt.step p s a <;> intro ht <;> try with_reducible cases ht
  all_goals try exact h.later hlater rfl rfl
  next hpc => exact (hat hpc :)
  next hpc => exact (hat hpc :)
  next hpc => exact (hat hpc :)
  next => exact h.go hclient ht
  next hpc =>
    obtain ⟨hdone, hdeadline, hheader⟩ := hat hpc
    refine ⟨hdone, fun hhit => ?_, fun hno hhit => ?_⟩
    · rw [hdeadline hhit, hclient]
      exact settle_deadlined _ _ _ _
    · rw [hheader hno hhit, hclient]
      exact settle_headerTimedOut _ _ _ _

theorem invariant {probe : Bool} (h : Machine.Reach (GuardedAttempt.step p) (start probe) s) :
    s.Flagged ∧ (s.clientLeft = false → s.Course) := by
  refine h.invariant (P := fun s => s.Flagged ∧ (s.clientLeft = false → s.Course))
    ⟨.start probe, fun _ => rfl⟩ ?_
  rintro s t a ⟨hflagged, hcourse⟩ ht
  refine ⟨hflagged.step ht, fun hclient => ?_⟩
  have hbefore := (step_move ht).2 hclient
  exact (hcourse hbefore).step hbefore ht

end Course

/-- **The deadline and the response never both win.** In every run of one attempt, its two timers,
its worker and its client, and at every point at which the client is still there: an attempt that
the guard has cancelled, before or after it ended, ended as the deadline's, or as the header
timeout's if the deadline had not passed; if the response arrives before the deadline's callback has
had the lock, the guard cancels at no later point; and all answers of `end` are the same. -/
theorem deadline_and_response_exclusive (p : RetryPolicy) (probe : Bool) {s : GuardedAttempt}
    (h : Machine.Reach (step p) (start probe) s) (hclient : s.clientLeft = false) :
    (s.guardCancelled = true → ∀ e, s.pc = .ended e →
        s.guard.deadlineHit = true ∧ e = .deadlined ∨
          s.guard.deadlineHit = false ∧ s.guard.headerHit = true ∧ e = .headerTimedOut) ∧
      (s.pc = .arriving → s.guard.dt.tookLock = false → ∀ t u, s.step p .go = some t →
        Machine.Reach (step p) t u →
        u.guardCancelled = false) ∧
      ∀ a ∈ s.answers, ∀ b ∈ s.answers, a = b := by
  obtain ⟨hflagged, hcourse⟩ := invariant h
  replace hcourse := hcourse hclient
  refine ⟨fun hcancelled e hpc => ?_, fun hpc hlock t u ht hu => ?_, fun a ha b hb => ?_⟩
  · unfold Course at hcourse
    rw [hpc] at hcourse
    obtain ⟨-, hdeadline, hheader⟩ := hcourse
    cases hhit : s.guard.deadlineHit with
    | true => exact .inl ⟨rfl, hdeadline hhit⟩
    | false =>
      have hhit' : s.guard.headerHit = true := by
        rcases hflagged.cancelled hcancelled with h' | h'
        · cases hhit.symm.trans h'
        · exact h'
      exact .inr ⟨rfl, hhit', hheader hhit hhit'⟩
  · unfold Course at hcourse
    rw [hpc] at hcourse
    have hnodeadline := hflagged.untouched hlock
    have hreach : Machine.Reach (step p) (start probe) u := (h.tail ht).trans hu
    have hlater := reach_later hu
    simp only [GuardedAttempt.step, go, hpc, Option.some.injEq] at ht
    subst ht
    obtain ⟨-, hheader, hdeadline⟩ := hlater.done rfl
    by_contra hcancelled
    rcases (invariant hreach).1.cancelled (Bool.eq_true_of_not_eq_false hcancelled) with hhit | hhit
    · cases hnodeadline.symm.trans (hdeadline.symm.trans hhit)
    · cases hcourse.2.symm.trans (hheader.symm.trans hhit)
  · exact (hflagged.answers a ha).2.trans (hflagged.answers b hb).2.symm

/-- A probe whose worker answers 200. The deadline passes while the first byte is awaited, the byte
arrives before the callback has cancelled, and the callback cancels when all is over. -/
def lateCancel : List AttemptAct :=
  [.answer (.ok ⟨200⟩), .go, .go, .fireDeadline, .lockDeadline, .read .bytes, .go, .go,
    .settle true true false true, .cancelDeadline, .stop]

theorem deadline_and_response_exclusive_late_cancel :
    ∃ s e, Machine.runActs (step ⟨2, [503]⟩) (start true) lateCancel = some s ∧
      s.clientLeft = false ∧
      s.guardCancelled = true ∧ s.pc = .ended e ∧ e = .deadlined ∧
        s.answers = [true, true, true] := by
  refine ⟨_, _, rfl, rfl, rfl, rfl, ?_, rfl⟩
  have hreach : Machine.Reach (step ⟨2, [503]⟩) (start true) _ :=
    Machine.reach_of_runActs .refl lateCancel rfl
  rcases (deadline_and_response_exclusive ⟨2, [503]⟩ true hreach rfl).1 rfl _ rfl with ⟨-, he⟩ |
    ⟨hno, -⟩
  · exact he
  · cases hno

end GuardedAttempt

end ServerFlow.Gateway
