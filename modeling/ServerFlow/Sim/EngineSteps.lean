import ServerFlow.Sim.EngineInvariant

/-!
# Sim.EngineSteps

The functions of the engine, as runs of small steps, and what each of them ends with. The loop of
`startIteration` has fewer running sequences each time it goes round, so it never uses up its guard.
-/

namespace ServerFlow.Sim.Engine

open List Function
open Resilience (Duration)

/-! ### What is left alone -/

/-- The parts that admission and preemption leave alone. -/
structure Frame (e e' : Engine) : Prop where
  cfg : e'.cfg = e.cfg
  iter : e'.iter = e.iter
  guardSpent : e'.guardSpent = e.guardSpent
  busy : e'.busy = e.busy
  submitted : e'.submitted = e.submitted
  now : e'.now = e.now

theorem Frame.refl (e : Engine) : Frame e e := ⟨rfl, rfl, rfl, rfl, rfl, rfl⟩

theorem Frame.trans {e₁ e₂ e₃ : Engine} (h : Frame e₁ e₂) (h' : Frame e₂ e₃) : Frame e₁ e₃ :=
  ⟨h'.cfg.trans h.cfg, h'.iter.trans h.iter, h'.guardSpent.trans h.guardSpent, h'.busy.trans h.busy,
    h'.submitted.trans h.submitted, h'.now.trans h.now⟩

section Frames

variable (e : Engine) (t : Duration)

theorem admitHead_frame (i : Nat) (rest : List Nat) : Frame e (e.admitHead t i rest) ∧
    (e.admitHead t i rest).waiting = rest ∧ (e.admitHead t i rest).running = e.running ∧
    (e.admitHead t i rest).prefilling = e.prefilling ++ [i] := by
  rw [admitHead_eq]
  exact ⟨⟨rfl, rfl, rfl, rfl, rfl, rfl⟩, rfl, rfl, rfl⟩

theorem preempt_frame (v : Nat) : Frame e (e.preempt t v) ∧
    (e.preempt t v).running = e.running.dropLast ∧ (e.preempt t v).prefilling = e.prefilling :=
  ⟨⟨rfl, rfl, rfl, rfl, rfl, rfl⟩, rfl, rfl⟩

variable {e}

theorem finish_frame {i : Nat} (hs : (e.heap i).state = .running) (reason : Finish) :
    Frame e (e.finish t i reason) ∧ (e.finish t i reason).running = e.running.erase i ∧
    (e.finish t i reason).prefilling = e.prefilling := by
  rw [finish_of_running hs]
  exact ⟨⟨rfl, rfl, rfl, rfl, rfl, rfl⟩, rfl, rfl⟩

theorem emitToken_frame {i : Nat} (hs : (e.heap i).state = .running) :
    Frame e (e.emitToken t i) ∧ (e.emitToken t i).prefilling = e.prefilling ∧
    ∀ j, j ≠ i → (e.emitToken t i).heap j = e.heap j := by
  rcases le_or_gt (e.heap i).target (((e.heap i).generated + 1 : Nat) : Int) with hdone | hopen
  · rw [emitToken_of_le hs hdone]
    exact ⟨⟨rfl, rfl, rfl, rfl, rfl, rfl⟩, rfl, fun j hj => update_of_ne hj _ _⟩
  · rw [emitToken_of_lt hopen]
    exact ⟨⟨rfl, rfl, rfl, rfl, rfl, rfl⟩, rfl, fun j hj => update_of_ne hj _ _⟩

end Frames

/-! ### `admit` -/

variable {P : List Nat} {e : Engine} {t : Duration}

/-- What `admit` ends with: the head of the queue, if there is one, gets no slot or no KV tokens. -/
structure Admitted (e e' : Engine) : Prop extends Frame e e' where
  running : e'.running = e.running
  prefilling : e.prefilling <+: e'.prefilling
  stuck : ∀ i rest, e'.waiting = i :: rest → e'.cfg.maxSeqs ≤ e'.active ∨
    e'.kvUsed + ((e'.heap i).prefillTarget + 1) > e'.cfg.budget

theorem admitLoop_spec (l : List Nat) : ∀ {e : Engine}, e.waiting = l →
    Steps t (P, e) (P, admitLoop t l e) ∧ Admitted e (admitLoop t l e) := by
  induction l with
  | nil =>
    intro e hl
    refine ⟨.refl, ⟨.refl e, rfl, prefix_refl _, fun i rest hw => ?_⟩⟩
    rw [admitLoop, hl] at hw
    cases hw
  | cons i rest ih =>
    intro e hl
    simp only [admitLoop]
    split
    next hslot =>
      split
      next hkv =>
        refine ⟨.refl, ⟨.refl e, rfl, prefix_refl _, fun j rest' hw => .inr ?_⟩⟩
        rw [hl] at hw
        obtain ⟨rfl, -⟩ := List.cons.inj hw
        exact hkv
      next hkv =>
        obtain ⟨hframe, hw, hr, hp⟩ := e.admitHead_frame t i rest
        obtain ⟨hsteps, hadm⟩ := ih hw
        refine ⟨.head (.admitted hl hslot (not_lt.mp hkv)) hsteps,
          ⟨hframe.trans hadm.toFrame, hadm.running.trans hr, ?_, hadm.stuck⟩⟩
        have hpre := hadm.prefilling
        rw [hp] at hpre
        exact (prefix_append _ _).trans hpre
    next hslot =>
      exact ⟨.refl, ⟨.refl e, rfl, prefix_refl _, fun _ _ _ => .inl (not_lt.mp hslot)⟩⟩

theorem admitWaiting_spec (P : List Nat) (e : Engine) (t : Duration) :
    Steps t (P, e) (P, e.admitWaiting t) ∧ Admitted e (e.admitWaiting t) :=
  admitLoop_spec e.waiting rfl

/-- With no slot taken, everything that waits is admitted: one request fits alone. -/
theorem Core.waiting_eq_nil (h : Core P e) (hseqs : 1 ≤ e.cfg.maxSeqs) (hp : e.prefilling = [])
    (hr : e.running = []) (hstuck : ∀ i rest, e.waiting = i :: rest → e.cfg.maxSeqs ≤ e.active ∨
      e.kvUsed + ((e.heap i).prefillTarget + 1) > e.cfg.budget) : e.waiting = [] := by
  cases hw : e.waiting with
  | nil => rfl
  | cons i rest =>
    have hfits := (h.waiting i (by rw [hw]; exact mem_cons_self)).fits
    have hkv : e.kvUsed = 0 := by
      rw [h.kv, live, hp, hr, append_nil, append_nil]
      refine sum_eq_zero fun x hx => ?_
      obtain ⟨j, hj, rfl⟩ := mem_map.mp hx
      exact (h.waiting j hj).kvHeld
    rcases hstuck i rest hw with hfull | hfull
    · simp only [active, hp, hr, length_nil] at hfull
      omega
    · omega

/-! ### `reserveDecodeKV` -/

/-- What `reserveDecodeKV` ends with. -/
structure ReservedKV (e : Engine) (r : Engine × Bool) : Prop extends Frame e r.1 where
  prefilling : r.1.prefilling = e.prefilling
  length_le : r.1.running.length ≤ e.running.length
  fits : r.1.running = [] ∨ r.1.kvUsed + r.1.running.length ≤ r.1.cfg.budget

theorem reserveLoop_spec (l : List Nat) : ∀ (changed : Bool) {e : Engine}, Core [] e →
    e.running.reverse = l →
    Steps t ([], e) ([], (reserveLoop t l e changed).1) ∧ ReservedKV e (reserveLoop t l e changed) ∧
    (changed = true → (reserveLoop t l e changed).2 = true) ∧
    ((reserveLoop t l e changed).2 = false → (reserveLoop t l e changed).1 = e) ∧
    ((reserveLoop t l e changed).2 = true → changed = true ∨
      (reserveLoop t l e changed).1.running.length < e.running.length) := by
  induction l with
  | nil =>
    intro changed e _ hl
    have hnil : e.running = [] := reverse_eq_nil_iff.mp hl
    exact ⟨.refl, ⟨.refl e, rfl, le_rfl, .inl hnil⟩, id, fun _ => rfl, .inl⟩
  | cons v rest ih =>
    intro changed e hcore hl
    have hrun : e.running = rest.reverse ++ [v] := by
      rw [← reverse_reverse e.running, hl, reverse_cons]
    have hv : v ∈ e.running := by rw [hrun]; simp
    simp only [reserveLoop]
    split
    next hfull =>
      -- one sequence fewer: it is ended if it is alone, and preempted otherwise
      obtain ⟨e', hmicro, hframe, hr', hp', heq⟩ : ∃ e', Micro t ([], e) ([], e') ∧ Frame e e' ∧
          e'.running = rest.reverse ∧ e'.prefilling = e.prefilling ∧
          (if e.running.length = 1 ∧ e.prefilling = [] then
            reserveLoop t rest ({ e with kvEnded := e.kvEnded + 1 }.finish t v .length) true
          else reserveLoop t rest (e.preempt t v) true) = reserveLoop t rest e' true := by
        split
        next halone =>
          have hnil : rest = [] := by
            have := halone.1
            rw [hrun, length_append, length_reverse, length_singleton] at this
            exact length_eq_zero_iff.mp (by omega)
          subst hnil
          obtain ⟨hframe, hr', hp'⟩ := finish_frame (e := { e with kvEnded := e.kvEnded + 1 }) t
            (hcore.running v hv).state .length
          refine ⟨_, .kvEnd (by simpa using hrun) halone.2 hfull,
            ⟨hframe.cfg, hframe.iter, hframe.guardSpent, hframe.busy, hframe.submitted,
              hframe.now⟩, ?_, hp', rfl⟩
          rw [hr']
          show e.running.erase v = _
          rw [hrun]
          simp
        next hnot =>
          obtain ⟨hframe, hr', hp'⟩ := e.preempt_frame t v
          refine ⟨_, .preempt (by rw [hrun, List.getLast?_concat]) hfull hnot, hframe, ?_, hp', rfl⟩
          rw [hr', hrun, dropLast_concat]
      rw [heq]
      have hcore' : Core [] e' := Core.micro (x := ([], e)) hcore hmicro
      obtain ⟨hsteps, hres, htrue, -, -⟩ := ih true hcore' (by rw [hr', reverse_reverse])
      have hlen : e'.running.length < e.running.length := by
        rw [hr', hrun, length_append, length_singleton]
        omega
      refine ⟨.head hmicro hsteps, ⟨hframe.trans hres.toFrame, hres.prefilling.trans hp',
        hres.length_le.trans hlen.le, hres.fits⟩, fun _ => htrue rfl, fun hch => ?_,
        fun _ => .inr (hres.length_le.trans_lt hlen)⟩
      rw [htrue rfl] at hch
      cases hch
    next hfits =>
      exact ⟨.refl, ⟨.refl e, rfl, le_rfl, .inr (not_lt.mp hfits)⟩, id, fun _ => rfl, .inl⟩

theorem reserveDecodeKV_spec (h : Core [] e) (t : Duration) :
    Steps t ([], e) ([], (e.reserveDecodeKV t).1) ∧ ReservedKV e (e.reserveDecodeKV t) ∧
    ((e.reserveDecodeKV t).2 = false → (e.reserveDecodeKV t).1 = e) ∧
    ((e.reserveDecodeKV t).2 = true →
      (e.reserveDecodeKV t).1.running.length < e.running.length) := by
  obtain ⟨hsteps, hres, -, hsame, hless⟩ :=
    reserveLoop_spec (t := t) e.running.reverse false h rfl
  refine ⟨hsteps, hres, hsame, fun hch => ?_⟩
  exact (hless hch).resolve_left Bool.false_ne_true

/-! ### `startIteration` -/

/-- What the loop of `startIteration` ends with. -/
structure LoopEnd (e : Engine) (r : Engine × Prepared) : Prop extends Frame e r.1 where
  unspent : r.2 ≠ .spent
  idle : r.2 = .idle → r.1.live = []
  ready : r.2 = .ready → (r.1.prefilling ≠ [] ∨ r.1.running ≠ []) ∧
    (r.1.decoding = true → r.1.kvUsed + r.1.running.length ≤ r.1.cfg.budget)

/-- **The guard suffices**: each time round there are fewer running sequences. -/
theorem prepareLoop_spec (guard : Nat) : ∀ {e : Engine}, Core [] e → 1 ≤ e.cfg.maxSeqs →
    e.running.length < guard →
    Steps t ([], e) ([], (prepareLoop t guard e).1) ∧ LoopEnd e (prepareLoop t guard e) := by
  induction guard with
  | zero => exact fun _ _ hlt => absurd hlt (Nat.not_lt_zero _)
  | succ guard ih =>
    intro e hcore hseqs hlt
    obtain ⟨hadmitted, hadm⟩ := admitWaiting_spec [] e t
    have hcore' : Core [] (e.admitWaiting t) := hcore.steps (x := ([], e)) hadmitted
    have hseqs' : 1 ≤ (e.admitWaiting t).cfg.maxSeqs := by rw [hadm.cfg]; exact hseqs
    simp only [prepareLoop]
    split
    next hnone =>
      refine ⟨hadmitted, ⟨hadm.toFrame, fun h => (by cases h), fun _ => ?_,
        fun h => (by cases h)⟩⟩
      have hw := hcore'.waiting_eq_nil hseqs' hnone.1 hnone.2 hadm.stuck
      simp only [live, hw, hnone.1, hnone.2, append_nil]
    next hsome =>
      have hbusy : (e.admitWaiting t).prefilling ≠ [] ∨ (e.admitWaiting t).running ≠ [] :=
        not_and_or.mp hsome
      split
      next hdec =>
        obtain ⟨hreserve, hres, hsame, hless⟩ := reserveDecodeKV_spec hcore' t
        rcases hr : (e.admitWaiting t).reserveDecodeKV t with ⟨e', _ | _⟩
        · rw [hr] at hsame hres
          obtain rfl := hsame rfl
          refine ⟨hadmitted, ⟨hadm.toFrame, fun h => (by cases h), fun h => (by cases h),
            fun _ => ⟨hbusy, fun _ => ?_⟩⟩⟩
          exact hres.fits.resolve_left (of_decide_eq_true hdec).1
        · rw [hr] at hreserve hres hless
          have hcore'' : Core [] e' := hcore'.steps (x := ([], e.admitWaiting t)) hreserve
          have hlen : e'.running.length < guard := by
            have := hless rfl
            rw [hadm.running] at this
            exact this.trans_le (Nat.lt_succ_iff.mp hlt)
          obtain ⟨hsteps, hend⟩ := ih hcore'' (by rw [hres.cfg]; exact hseqs') hlen
          exact ⟨(hadmitted.trans hreserve).trans hsteps,
            ⟨(hadm.toFrame.trans hres.toFrame).trans hend.toFrame, hend.unspent, hend.idle,
              hend.ready⟩⟩
      next hdec =>
        exact ⟨hadmitted, ⟨hadm.toFrame, fun h => (by cases h), fun h => (by cases h),
          fun _ => ⟨hbusy, fun hd => absurd hd hdec⟩⟩⟩

/-- The decode step takes its KV tokens. -/
theorem holdLoop_spec (l : List Nat) : ∀ {P : List Nat} {e : Engine}, (∀ i ∈ l, i ∈ e.running) →
    l.Nodup → (∀ i ∈ l, i ∉ P) → e.kvUsed + l.length ≤ e.cfg.budget →
    Steps t (P, e) (l.reverse ++ P, l.foldl hold e) := by
  induction l with
  | nil => exact fun _ _ _ _ => .refl
  | cons i l ih =>
    intro P e hrun hnd hP hkv
    obtain ⟨hil, hnd'⟩ := nodup_cons.mp hnd
    rw [length_cons] at hkv
    have hstep : Micro t (P, e) (i :: P, e.hold i) :=
      .hold (hrun i mem_cons_self) (hP i mem_cons_self) (by omega)
    have hrest := ih (P := i :: P) (e := e.hold i)
      (fun j hj => hrun j (mem_cons_of_mem i hj)) hnd' (fun j hj hmem => ?_)
      (by show e.kvUsed + 1 + l.length ≤ e.cfg.budget; omega)
    · rw [reverse_cons, append_assoc]
      exact .head hstep hrest
    · rcases mem_cons.mp hmem with rfl | hmem
      · exact hil hj
      · exact hP j (mem_cons_of_mem i hj) hmem

/-- `e'` has the lists and the requests of `e`. Launching an iteration changes no more. -/
structure Launching (e e' : Engine) : Prop where
  engine : e' = { e with
    drawn := e'.drawn
    heap := e'.heap
    kvUsed := e'.kvUsed
    busy := e'.busy
    iterEnd := e'.iterEnd
    iter := e'.iter }
  seq : ∀ i, e'.heap i = { e.heap i with
    kvHeld := (e'.heap i).kvHeld
    prefillBegun := (e'.heap i).prefillBegun }

namespace Launching

variable {e' e'' : Engine}

theorem refl (e : Engine) : Launching e e := ⟨rfl, fun _ => rfl⟩

section

variable (h : Launching e e')
include h

theorem trans (h' : Launching e' e'') : Launching e e'' := by
  constructor
  · rw [h'.engine, h.engine]
  · intro i
    rw [h'.seq i, h.seq i]

theorem cfg : e'.cfg = e.cfg := by rw [h.engine]

theorem running : e'.running = e.running := by rw [h.engine]

theorem prefilling : e'.prefilling = e.prefilling := by rw [h.engine]

theorem plan : e'.plan = e.plan := by
  have hchunk : e'.chunkOf = e.chunkOf := by
    funext p
    simp only [chunkOf, h.cfg]
    rw [h.seq p]
  have hdec : e'.decoding = e.decoding := by
    simp only [decoding, h.cfg, h.running, h.prefilling]
  simp only [Engine.plan, hdec, h.running, h.prefilling, hchunk]

end

theorem set (e : Engine) (p : Nat) {s : Seq}
    (hs : s = { e.heap p with kvHeld := s.kvHeld, prefillBegun := s.prefillBegun }) :
    Launching e (e.set p s) := by
  refine ⟨rfl, fun i => ?_⟩
  by_cases hi : i = p
  · subst hi
    simpa only [Engine.set, update_self] using hs
  · simp only [Engine.set, update_of_ne hi]

theorem hold (e : Engine) (i : Nat) : Launching e (e.hold i) :=
  (set e i rfl).trans ⟨rfl, fun _ => rfl⟩

theorem holdLoop (l : List Nat) : ∀ e : Engine, Launching e (l.foldl Engine.hold e) := by
  induction l with
  | nil => exact refl
  | cons i l ih => exact fun e => (hold e i).trans (ih (e.hold i))

end Launching

/-- Launching takes small steps, and the iteration is the one planned. -/
theorem launch_spec (h : Core [] e)
    (hkv : e.decoding = true → e.kvUsed + e.running.length ≤ e.cfg.budget) (t dur : Duration) :
    Steps t ([], e) (e.plan.decode, e.launch t dur) ∧ Launching e (e.launch t dur) ∧
    (e.launch t dur).iter = e.plan := by
  -- the prefill of the first sequence begins
  obtain ⟨e₁, hbegin, hlaunch, hkvUsed, heq⟩ : ∃ e₁, Steps t ([], e) ([], e₁) ∧ Launching e e₁ ∧
      e₁.kvUsed = e.kvUsed ∧ e.launch t dur =
        { e.plan.decode.foldl Engine.hold e₁ with
          iter := e.plan, busy := true, iterEnd := addDuration t dur } := by
    cases hp : e.plan.prefill with
    | none => exact ⟨e, .refl, .refl e, rfl, by simp only [launch, hp]⟩
    | some p =>
      refine ⟨_, .single (.begin (mem_of_mem_head? hp)), .set e p rfl, rfl, ?_⟩
      simp only [launch, hp]
  have hdec : e.plan.decode = [] ∨ e.decoding = true ∧ e.plan.decode = e.running := by
    simp only [plan]
    cases e.decoding with
    | true => exact .inr ⟨rfl, rfl⟩
    | false => exact .inl rfl
  have hholds : Steps t ([], e₁) (e.plan.decode, e.plan.decode.foldl Engine.hold e₁) := by
    rcases hdec with hnil | ⟨hd, hall⟩
    · rw [hnil]
      exact .refl
    · rw [hall]
      have hsteps := holdLoop_spec (t := t) (P := []) (e := e₁) e.running
        (fun i hi => by rw [hlaunch.running]; exact hi) h.nodup_lists.2.2
        (fun _ _ => not_mem_nil) (by rw [hkvUsed, hlaunch.cfg]; exact hkv hd)
      rw [append_nil] at hsteps
      exact hsteps.tail (.regroup (reverse_perm _))
  have hend := Launching.holdLoop e.plan.decode e₁
  rw [heq]
  exact ⟨(hbegin.trans hholds).tail (.control rfl), (hlaunch.trans hend).trans ⟨rfl, fun _ => rfl⟩,
    rfl⟩

/-- What `startIteration` ends with: an iteration under way, as planned, or an idle engine. -/
structure Begun (dur : Engine → Nat × Duration) (t : Duration) (e e' : Engine) : Prop where
  steps : Steps t ([], e) (e'.iter.decode, e')
  cfg : e'.cfg = e.cfg
  submitted : e'.submitted = e.submitted
  now : e'.now = e.now
  guardSpent : e'.guardSpent = e.guardSpent
  idle : e'.busy = false → e'.live = [] ∧ e'.iter = .none
  busy : e'.busy = true → e'.iter = e'.plan ∧ (e'.prefilling ≠ [] ∨ e'.running ≠ []) ∧
    ∃ x : Engine, e'.iterEnd = addDuration t (dur x).2

/-- An iteration is launched when the loop ends before its guard. -/
theorem startIteration_of_ready {e' : Engine} (dur : Engine → Nat × Duration)
    (h : prepareLoop t (4 * e.cfg.maxSeqs + 8).toNat { e with busy := false } = (e', .ready))
    (hsome : e'.prefilling ≠ [] ∨ e'.running ≠ []) :
    e.startIteration dur t = { e' with drawn := (dur e').1 }.launch t (dur e').2 := by
  have hflag : (e'.guardSpent || decide (Prepared.ready = Prepared.spent)) = e'.guardSpent := by
    simp
  simp only [startIteration, h, hflag]
  rw [if_neg (not_and_or.mpr hsome)]

theorem startIteration_spec (h : Core [] e) (hseqs : 1 ≤ e.cfg.maxSeqs) (hiter : e.iter = .none)
    (dur : Engine → Nat × Duration) (t : Duration) : Begun dur t e (e.startIteration dur t) := by
  have hguard : e.running.length < (4 * e.cfg.maxSeqs + 8).toNat := by
    have := h.slots
    simp only [active] at this
    omega
  have hidle : Micro t ([], e) ([], { e with busy := false }) := .control rfl
  obtain ⟨hsteps, hend⟩ := prepareLoop_spec (t := t) (e := { e with busy := false }) _
    (Core.micro (x := ([], e)) h hidle) hseqs hguard
  rcases hr : prepareLoop t (4 * e.cfg.maxSeqs + 8).toNat { e with busy := false } with ⟨e', out⟩
  rw [hr] at hsteps hend
  have hcore' : Core [] e' := h.steps (x := ([], e)) (.head hidle hsteps)
  have hiter' : e'.iter = .none := hend.iter.trans hiter
  cases out with
  | spent => exact absurd rfl hend.unspent
  | idle =>
    simp only [startIteration, hr]
    refine ⟨?_, hend.cfg, hend.submitted, hend.now, hend.guardSpent,
      fun _ => ⟨hend.idle rfl, hiter'⟩, fun hb => ?_⟩
    · rw [hiter']
      exact .head hidle hsteps
    · cases hend.busy.symm.trans hb
  | ready =>
    obtain ⟨hsome, hkv⟩ := hend.ready rfl
    rw [startIteration_of_ready dur hr hsome]
    have hready : Micro t ([], e') ([], { e' with drawn := (dur e').1 }) := .control rfl
    obtain ⟨hlaunch, hsame, hplan⟩ := launch_spec (Core.micro (x := ([], e')) hcore' hready) hkv t
      (dur e').2
    refine ⟨?_, hsame.cfg.trans hend.cfg, ?_, ?_, ?_, fun h => (by cases h),
      fun _ => ⟨?_, ?_, _, rfl⟩⟩
    · rw [hplan]
      exact (Relation.ReflTransGen.head hidle hsteps).trans (.head hready hlaunch)
    · rw [hsame.engine]
      exact hend.submitted
    · rw [hsame.engine]
      exact hend.now
    · rw [hsame.engine]
      exact hend.guardSpent
    · rw [hplan, hsame.plan]
    · rw [hsame.prefilling, hsame.running]
      exact hsome

/-! ### `finishIteration` -/

theorem decodeLoop_spec (t : Duration) (l : List Nat) : ∀ {P : List Nat} {e : Engine},
    Core (l ++ P) e →
    Steps t (l ++ P, e) (P, l.foldl (fun e i => e.decodeOne t i) e) ∧
    Frame e (l.foldl (fun e i => e.decodeOne t i) e) ∧
    (l.foldl (fun e i => e.decodeOne t i) e).prefilling = e.prefilling ∧
    ∀ p ∈ e.prefilling, (l.foldl (fun e i => e.decodeOne t i) e).heap p = e.heap p := by
  induction l with
  | nil => exact fun _ => ⟨.refl, .refl _, rfl, fun _ _ => rfl⟩
  | cons i l ih =>
    intro P e hcore
    obtain ⟨hmicro, hframe, hpre, hheap⟩ : Micro t (i :: l ++ P, e) (l ++ P, e.decodeOne t i) ∧
        Frame e (e.decodeOne t i) ∧ (e.decodeOne t i).prefilling = e.prefilling ∧
        ∀ p ∈ e.prefilling, (e.decodeOne t i).heap p = e.heap p := by
      simp only [decodeOne]
      split
      next hrun =>
        have hi := hcore.state_running_iff.mp hrun
        obtain ⟨hframe, hpre, hheap⟩ := emitToken_frame t hrun
        refine ⟨.token hi, hframe, hpre, fun p hp => hheap p ?_⟩
        rintro rfl
        exact (hcore.not_mem_of_running hi).2 hp
      next hrun =>
        exact ⟨.skip fun hi => hrun (hcore.state_running_iff.mpr hi), .refl e, rfl, fun _ _ => rfl⟩
    obtain ⟨hsteps, hframe', hpre', hheap'⟩ := ih (Core.micro (x := (i :: l ++ P, e)) hcore hmicro)
    refine ⟨.head hmicro hsteps, hframe.trans hframe', hpre'.trans hpre, fun p hp => ?_⟩
    exact (hheap' p (by rw [hpre]; exact hp)).trans (hheap p hp)

/-- The prefill under way, if its sequence was not cancelled, is not past its target. -/
def PrefillOk (e : Engine) : Prop :=
  ∀ p, e.iter.prefill = some p → p ∈ e.prefilling →
    0 < e.iter.chunk ∧ (e.heap p).prefilled + e.iter.chunk ≤ (e.heap p).prefillTarget

/-- A prefill as planned ends at its target, if not before. -/
theorem Core.prefillOk (h : Core P e) (hplan : e.iter = e.plan) : e.PrefillOk := by
  intro p hp hmem
  rw [hplan] at hp ⊢
  have hhead : e.prefilling.head? = some p := hp
  have hseq := (h.prefilling p hmem).prefilled
  simp only [plan, hhead, Option.map_some, Option.getD_some, chunkOf]
  split <;> omega

theorem prefillOne_spec {p : Nat} {c : Int} (h : Core [] e)
    (hc : p ∈ e.prefilling → 0 < c ∧ (e.heap p).prefilled + c ≤ (e.heap p).prefillTarget)
    (t : Duration) : Steps t ([], e) ([], e.prefillOne t p c) ∧ Frame e (e.prefillOne t p c) := by
  simp only [prefillOne]
  split
  next hpre =>
    have hp := h.state_prefilling_iff.mp hpre
    split
    next hdone =>
      have hpromote : Micro t ([], e) ([p], e.promote p c) := .promote hp not_mem_nil
      have hrun : p ∈ (e.promote p c).running := mem_append_right _ (mem_singleton_self p)
      have hstate := (Core.micro (x := ([], e)) h hpromote).state_running_iff.mpr hrun
      obtain ⟨hframe, -, -⟩ := emitToken_frame t hstate
      exact ⟨.head hpromote (.single (.token hrun)),
        ⟨hframe.cfg, hframe.iter, hframe.guardSpent, hframe.busy, hframe.submitted, hframe.now⟩⟩
    next hopen =>
      exact ⟨.single (.chunk hp (hc hp).1 (not_le.mp hopen)), ⟨rfl, rfl, rfl, rfl, rfl, rfl⟩⟩
  next => exact ⟨.refl, .refl e⟩

/-- What `finishIteration` ends with. -/
structure Ended (t : Duration) (e e' : Engine) : Prop where
  steps : Steps t (e.iter.decode, e) ([], e')
  cfg : e'.cfg = e.cfg
  submitted : e'.submitted = e.submitted
  now : e'.now = e.now
  guardSpent : e'.guardSpent = e.guardSpent
  iter : e'.iter = .none
  busy : e'.busy = false

theorem finishIteration_spec (h : Core e.iter.decode e) (hpre : e.PrefillOk) (t : Duration) :
    Ended t e (e.finishIteration t) := by
  have hstop : Micro t (e.iter.decode, e)
      (e.iter.decode, { e with iter := .none, busy := false }) := .control rfl
  have hcore := Core.micro (x := (e.iter.decode, e)) h hstop
  obtain ⟨hsteps, hframe, hprefilling, hheap⟩ := decodeLoop_spec t e.iter.decode (P := [])
    (by rw [append_nil]; exact hcore)
  rw [append_nil] at hsteps
  have hall : Steps t (e.iter.decode, e) ([], e.iter.decode.foldl (fun e i => e.decodeOne t i)
      { e with iter := .none, busy := false }) := .head hstop hsteps
  have hcore' := h.steps (x := (e.iter.decode, e)) hall
  simp only [finishIteration]
  cases hp : e.iter.prefill with
  | none => exact ⟨hall, hframe.cfg, hframe.submitted, hframe.now, hframe.guardSpent, hframe.iter,
      hframe.busy⟩
  | some p =>
    obtain ⟨hlast, hframe'⟩ := prefillOne_spec (p := p) (c := e.iter.chunk) hcore' (fun hmem => by
      rw [hprefilling] at hmem
      rw [hheap p hmem]
      exact hpre p hp hmem) t
    have hf := hframe.trans hframe'
    exact ⟨hall.trans hlast, hf.cfg, hf.submitted, hf.now, hf.guardSpent, hf.iter, hf.busy⟩

end ServerFlow.Sim.Engine
