import ServerFlow.Sim.EngineRuns

/-!
# Sim.Drain

The engine drains: without new requests finitely many turns of `advanceTo` lead to an idle engine,
however long the iterations take. Time is no measure of progress, since it saturates, and neither is
prefill work, since preemption throws it away. What decreases is the output still to be produced
(`remaining`). A turn that produces none has no running sequence, so it preempts none, and there the
prefill work (`unprefilled`) decreases.
-/

namespace ServerFlow.Sim

open List Function
open Resilience (Duration)

/-- The tokens a request still has to get. -/
def Seq.remaining (q : Seq) : Nat := (q.target - q.generated).toNat

namespace Engine

variable {P : List Nat} {e e' : Engine} {i : Nat} {q : Seq} {t : Duration}

/-! ### Output -/

/-- The tokens all live requests still have to get. -/
def remaining (e : Engine) : Nat := ∑ i ∈ e.byID, (e.heap i).remaining

theorem remaining_split (hi : i ∈ e.byID) :
    e.remaining = (e.heap i).remaining + ∑ j ∈ e.byID.erase i, (e.heap j).remaining :=
  (Finset.add_sum_erase e.byID (fun j => (e.heap j).remaining) hi).symm

theorem sum_update (heap : Nat → Seq) (ids : Finset Nat) (i : Nat) (q : Seq) :
    ∑ j ∈ ids.erase i, (update heap i q j).remaining =
      ∑ j ∈ ids.erase i, (heap j).remaining :=
  Finset.sum_congr rfl fun j hj => by rw [update_of_ne (Finset.ne_of_mem_erase hj)]

/-- One record changes. -/
theorem remaining_of_update (hi : i ∈ e.byID) (hheap : e'.heap = update e.heap i q)
    (hids : e'.byID = e.byID) :
    e'.remaining + (e.heap i).remaining = e.remaining + q.remaining := by
  have hi' : i ∈ e'.byID := by rw [hids]; exact hi
  rw [remaining_split hi, remaining_split hi', hheap, hids, sum_update, update_self]
  omega

/-- One request leaves. -/
theorem remaining_of_erase (hi : i ∈ e.byID) (hheap : e'.heap = update e.heap i q)
    (hids : e'.byID = e.byID.erase i) : e'.remaining + (e.heap i).remaining = e.remaining := by
  rw [remaining_split hi, remaining, hheap, hids, sum_update]
  omega

/-- Unless requests are accepted, every token that is produced is one that was still to come. -/
structure Drift (e e' : Engine) : Prop where
  submitted : e.submitted ≤ e'.submitted
  tokens : e.tokens ≤ e'.tokens
  output : e'.submitted = e.submitted → e'.remaining + e'.tokens ≤ e.remaining + e.tokens

theorem Drift.refl (e : Engine) : Drift e e := ⟨le_rfl, le_rfl, fun _ => le_rfl⟩

theorem Drift.trans {e₁ e₂ e₃ : Engine} (h : Drift e₁ e₂) (h' : Drift e₂ e₃) : Drift e₁ e₃ := by
  refine ⟨h.submitted.trans h'.submitted, h.tokens.trans h'.tokens, fun heq => ?_⟩
  have hle := h.submitted
  have hle' := h'.submitted
  exact (h'.output (by omega)).trans (h.output (by omega))

/-- A request stays; what it gets is counted. -/
theorem Drift.stay (hi : i ∈ e.byID) (hheap : e'.heap = update e.heap i q)
    (hids : e'.byID = e.byID) (hsub : e'.submitted = e.submitted) (htok : e.tokens ≤ e'.tokens)
    (hq : q.remaining + e'.tokens ≤ (e.heap i).remaining + e.tokens) : Drift e e' := by
  refine ⟨hsub.ge, htok, fun _ => ?_⟩
  have := remaining_of_update hi hheap hids
  omega

/-- A request leaves; what it gets then is counted. -/
theorem Drift.leave (hi : i ∈ e.byID) (hheap : e'.heap = update e.heap i q)
    (hids : e'.byID = e.byID.erase i) (hsub : e'.submitted = e.submitted)
    (htok : e.tokens ≤ e'.tokens) (hq : e'.tokens ≤ (e.heap i).remaining + e.tokens) :
    Drift e e' := by
  refine ⟨hsub.ge, htok, fun _ => ?_⟩
  have := remaining_of_erase hi hheap hids
  omega

theorem emitToken_tokens (hs : (e.heap i).state = .running) (t : Duration) :
    (e.emitToken t i).tokens = e.tokens + 1 := by
  rcases le_or_gt (e.heap i).target (((e.heap i).generated + 1 : Nat) : Int) with hdone | hopen
  · rw [emitToken_of_le hs hdone]
  · rw [emitToken_of_lt hopen]

theorem Core.mem_byID (h : Core P e) (hi : i ∈ e.waiting ∨ i ∈ e.prefilling ∨ i ∈ e.running) :
    i ∈ e.byID := (h.indexed i).mpr (mem_live.mpr hi)

theorem Core.drift_emitToken (h : Core P e) (hi : i ∈ e.running) (t : Duration) :
    Drift e (e.emitToken t i) := by
  have hseq := h.running i hi
  have hid := h.mem_byID (.inr (.inr hi))
  have htarget := hseq.target
  rcases le_or_gt (e.heap i).target (((e.heap i).generated + 1 : Nat) : Int) with hdone | hopen
  · rw [emitToken_of_le hseq.state hdone]
    refine .leave hid rfl rfl rfl (Nat.le_succ _) ?_
    simp only [Seq.remaining]
    omega
  · rw [emitToken_of_lt hopen]
    refine .stay hid rfl rfl rfl (Nat.le_succ _) ?_
    simp only [Seq.remaining]
    push_cast at hopen ⊢
    omega

/-- **Small steps drift.** -/
theorem Core.drift {x y : List Nat × Engine} (h : Core x.1 x.2) (hm : Micro t x y) :
    Drift x.2 y.2 := by
  cases hm with
  | control hs =>
    rw [SameBody] at hs
    rw [hs]
    exact ⟨le_rfl, le_rfl, fun _ => le_rfl⟩
  | regroup _ => exact .refl _
  | skip _ => exact .refl _
  | token hi => exact h.drift_emitToken hi t
  | @admitted P e i rest hw _ _ =>
    rw [admitHead_eq]
    exact .stay (h.mem_byID (.inl (by rw [hw]; exact mem_cons_self))) rfl rfl rfl le_rfl le_rfl
  | @preempt e v hv _ _ =>
    exact .stay (h.mem_byID (.inr (.inr (mem_of_getLast? hv)))) rfl rfl rfl le_rfl le_rfl
  | @kvEnd e v hv _ _ =>
    have hrun : v ∈ e.running := by rw [hv]; exact mem_singleton_self v
    rw [finish_of_running (e := { e with kvEnded := e.kvEnded + 1 }) (h.running v hrun).state]
    exact .leave (h.mem_byID (.inr (.inr hrun))) rfl rfl rfl le_rfl (Nat.le_add_left _ _)
  | begin hp => exact .stay (h.mem_byID (.inr (.inl hp))) rfl rfl rfl le_rfl le_rfl
  | hold hi _ _ => exact .stay (h.mem_byID (.inr (.inr hi))) rfl rfl rfl le_rfl le_rfl
  | chunk hp _ _ => exact .stay (h.mem_byID (.inr (.inl hp))) rfl rfl rfl le_rfl le_rfl
  | promote hp _ => exact .stay (h.mem_byID (.inr (.inl hp))) rfl rfl rfl le_rfl le_rfl
  | @cancel P e i hi =>
    have hid := (h.indexed i).mpr hi
    rw [h.remove_eq i]
    exact .leave hid rfl rfl rfl le_rfl (Nat.le_add_left _ _)
  | @enqueue P e d r hr =>
    refine ⟨Nat.le_succ _, le_rfl, fun heq => ?_⟩
    exact absurd heq (Nat.succ_ne_self _)

theorem Core.drift_steps {x y : List Nat × Engine} (h : Core x.1 x.2) (hs : Steps t x y) :
    Drift x.2 y.2 := by
  induction hs with
  | refl => exact .refl _
  | tail hs hm ih => exact ih.trans ((h.steps hs).drift hm)

/-! ### Prefill work -/

/-- What there is to prefill, with something for being admitted. -/
def unprefilled (e : Engine) : Nat :=
  (e.waiting.map fun i => ((e.heap i).prefillTarget + 2).toNat).sum +
    (e.prefilling.map fun i => ((e.heap i).prefillTarget - (e.heap i).prefilled + 1).toNat).sum

theorem Launching.unprefilled (h : Launching e e') : e'.unprefilled = e.unprefilled := by
  have hwaiting : e'.waiting = e.waiting := by rw [h.engine]
  simp only [Engine.unprefilled, hwaiting, h.prefilling]
  congr 2
  · refine congrArg (fun f => e.waiting.map f) (funext fun i => ?_)
    rw [h.seq i]
  · refine congrArg (fun f => e.prefilling.map f) (funext fun i => ?_)
    rw [h.seq i]

/-- A sum over a list that has not the one record that changes. -/
theorem map_update_of_notMem (heap : Nat → Seq) (f : Seq → Nat) {l : List Nat} (hi : i ∉ l)
    (q : Seq) : (l.map fun j => f (update heap i q j)) = l.map fun j => f (heap j) := by
  refine map_congr_left fun j hj => ?_
  rw [update_of_ne]
  rintro rfl
  exact hi hj

/-- Admission is progress. -/
theorem Core.unprefilled_admitHead (h : Core P e) {rest : List Nat} (hw : e.waiting = i :: rest)
    (t : Duration) : (e.admitHead t i rest).unprefilled ≤ e.unprefilled := by
  have hi : i ∈ e.waiting := by rw [hw]; exact mem_cons_self
  have hrest : i ∉ rest := (nodup_cons.mp (hw ▸ h.nodup_lists.1)).1
  have hp := (h.not_mem_of_waiting hi).1
  rw [admitHead_eq]
  simp only [Engine.unprefilled, Engine.set, hw, map_append, map_cons, map_nil,
    sum_append, sum_cons, sum_nil, update_self]
  rw [map_update_of_notMem e.heap (fun q => (q.prefillTarget + 2).toNat) hrest,
    map_update_of_notMem e.heap (fun q => (q.prefillTarget - q.prefilled + 1).toNat) hp]
  omega

theorem Core.unprefilled_admitLoop (l : List Nat) : ∀ {e : Engine}, Core P e → e.waiting = l →
    (admitLoop t l e).unprefilled ≤ e.unprefilled := by
  induction l with
  | nil => exact fun _ _ => le_rfl
  | cons i rest ih =>
    intro e h hw
    simp only [admitLoop]
    split
    next hslot =>
      split
      next => exact le_rfl
      next hkv =>
        have hcore := h.admitHead hw hslot (not_lt.mp hkv) t
        exact (ih hcore (e.admitHead_frame t i rest).2.1).trans (h.unprefilled_admitHead hw t)
    next => exact le_rfl

/-- A chunk is progress. -/
theorem Core.unprefilled_chunk (h : Core P e) {p : Nat} {rest : List Nat} {c : Int}
    (hp : e.prefilling = p :: rest) (hc : 0 < c)
    (hlt : (e.heap p).prefilled + c < (e.heap p).prefillTarget) :
    (e.set p { e.heap p with prefilled := (e.heap p).prefilled + c }).unprefilled <
      e.unprefilled := by
  have hmem : p ∈ e.prefilling := by rw [hp]; exact mem_cons_self
  have hw := (h.not_mem_of_prefilling hmem).1
  have hrest : p ∉ rest := (nodup_cons.mp (hp ▸ h.nodup_lists.2.1)).1
  simp only [Engine.unprefilled, Engine.set, hp, map_cons, sum_cons, update_self]
  rw [map_update_of_notMem e.heap (fun q => (q.prefillTarget + 2).toNat) hw,
    map_update_of_notMem e.heap (fun q => (q.prefillTarget - q.prefilled + 1).toNat) hrest]
  omega

/-! ### A turn -/

theorem tokens_le_decodeOne (e : Engine) (t : Duration) (i : Nat) :
    e.tokens ≤ (e.decodeOne t i).tokens := by
  simp only [decodeOne]
  split
  next hrun =>
    rw [emitToken_tokens hrun]
    exact Nat.le_succ _
  next => exact le_rfl

theorem tokens_le_decodeLoop (t : Duration) (l : List Nat) : ∀ e : Engine,
    e.tokens ≤ (l.foldl (fun e i => e.decodeOne t i) e).tokens := by
  induction l with
  | nil => exact fun _ => le_rfl
  | cons i l ih => exact fun e => (e.tokens_le_decodeOne t i).trans (ih _)

/-- The token that a complete prefill produces. -/
theorem prefillOne_tokens {p : Nat} {c : Int} (hs : (e.heap p).state = .prefilling)
    (hc : (e.heap p).prefillTarget ≤ (e.heap p).prefilled + c) (t : Duration) :
    (e.prefillOne t p c).tokens = e.tokens + 1 := by
  simp only [prefillOne, hs, if_true]
  rw [if_pos hc, emitToken_tokens (by simp only [Engine.set, update_self])]
  rfl

theorem tokens_le_prefillOne (e : Engine) (t : Duration) (p : Nat) (c : Int) :
    e.tokens ≤ (e.prefillOne t p c).tokens := by
  by_cases hs : (e.heap p).state = .prefilling
  · by_cases hc : (e.heap p).prefillTarget ≤ (e.heap p).prefilled + c
    · rw [prefillOne_tokens hs hc]
      exact Nat.le_succ _
    · simp only [prefillOne, hs, if_true]
      rw [if_neg hc]
      exact le_rfl
  · simp only [prefillOne, hs, if_false]
    exact le_rfl

/-- An iteration under way as it was planned. -/
structure Clean (e : Engine) : Prop where
  iter : e.iter = e.plan
  some : e.prefilling ≠ [] ∨ e.running ≠ []

/-- A part of a prompt was processed, and nothing else happens. -/
structure ChunkOnly (t : Duration) (e : Engine) (p : Nat) (rest : List Nat) : Prop where
  prefilling : e.prefilling = p :: rest
  running : e.running = []
  pos : 0 < e.iter.chunk
  incomplete : (e.heap p).prefilled + e.iter.chunk < (e.heap p).prefillTarget
  eq : e.finishIteration t = { e.set p { e.heap p with
    prefilled := (e.heap p).prefilled + e.iter.chunk } with iter := .none, busy := false }

/-- **An iteration produces a token, or only a part of a prompt is processed.** -/
theorem finishIteration_progress (h : Settled e) (hc : Clean e) (t : Duration) :
    e.tokens < (e.finishIteration t).tokens ∨ ∃ p rest, ChunkOnly t e p rest := by
  cases hdec : e.decoding with
  | true =>
    -- the first running sequence gets its token
    left
    obtain ⟨i, l, hrun⟩ := exists_cons_of_ne_nil (of_decide_eq_true hdec).1
    have hdecode : e.iter.decode = i :: l := by rw [hc.iter, plan, hdec, ← hrun]; rfl
    have hstate := (h.core.running i (by rw [hrun]; exact mem_cons_self)).state
    have hloop : e.tokens < (e.iter.decode.foldl (fun (e : Engine) i => e.decodeOne t i)
        { e with iter := .none, busy := false }).tokens := by
      rw [hdecode, foldl_cons]
      refine lt_of_lt_of_le ?_ (tokens_le_decodeLoop t l _)
      simp only [decodeOne, hstate, if_true]
      rw [emitToken_tokens (e := { e with iter := .none, busy := false }) hstate]
      exact Nat.lt_succ_self _
    simp only [finishIteration]
    split
    · exact hloop.trans_le (tokens_le_prefillOne _ _ _ _)
    · exact hloop
  | false =>
    have hno := of_decide_eq_false hdec
    have hdecode : e.iter.decode = [] := by rw [hc.iter, plan, hdec]; rfl
    have hpre : e.prefilling ≠ [] := fun hnil =>
      hno ⟨hc.some.resolve_left (not_not.mpr hnil), .inl hnil⟩
    obtain ⟨p, rest, hp⟩ := exists_cons_of_ne_nil hpre
    have hmem : p ∈ e.prefilling := by rw [hp]; exact mem_cons_self
    have hprefill : e.iter.prefill = some p := by rw [hc.iter, plan, hp]; rfl
    have hchunk : e.iter.chunk = e.chunkOf p := by rw [hc.iter, plan, hp]; rfl
    have hstate := (h.core.prefilling p hmem).state
    have hfinish : e.finishIteration t =
        { e with iter := .none, busy := false }.prefillOne t p e.iter.chunk := by
      simp only [finishIteration, hdecode, hprefill, foldl_nil]
    rw [hfinish]
    by_cases hdone : (e.heap p).prefillTarget ≤ (e.heap p).prefilled + e.iter.chunk
    · left
      rw [prefillOne_tokens (e := { e with iter := .none, busy := false }) hstate hdone]
      exact Nat.lt_succ_self _
    · -- the chunk was cut, so prefill is chunked, and yet there was no decode step
      right
      have hcut : e.cfg.params.prefillChunkTokens > 0 := by
        rw [hchunk, chunkOf] at hdone
        by_contra hc
        rw [if_neg fun hand => hc hand.1] at hdone
        omega
      have hrunning : e.running = [] := by
        by_contra hrun
        exact hno ⟨hrun, .inr hcut⟩
      refine ⟨p, rest, hp, hrunning, (h.prefillOk p hprefill hmem).1, not_le.mp hdone, ?_⟩
      rw [hfinish]
      simp only [prefillOne, hstate, if_true]
      rw [if_neg hdone]
      rfl

/-- With no sequence running, starting an iteration only admits. -/
theorem startIteration_unprefilled (h : Core [] e) (hseqs : 1 ≤ e.cfg.maxSeqs) (hr : e.running = [])
    (hp : e.prefilling ≠ []) (dur : Engine → Nat × Duration) (t : Duration) :
    (e.startIteration dur t).unprefilled ≤ e.unprefilled := by
  have hidle : Micro t ([], e) ([], { e with busy := false }) := .control rfl
  have hcore := Core.micro (x := ([], e)) h hidle
  obtain ⟨hadmitted, hadm⟩ := admitWaiting_spec [] { e with busy := false } t
  have hle : ({ e with busy := false }.admitWaiting t).unprefilled ≤ e.unprefilled :=
    hcore.unprefilled_admitLoop _ rfl
  obtain ⟨e', he'⟩ : ∃ e', { e with busy := false }.admitWaiting t = e' := ⟨_, rfl⟩
  rw [he'] at hadmitted hadm hle
  have hcore' : Core [] e' := hcore.steps (x := ([], { e with busy := false })) hadmitted
  have hrun : e'.running = [] := hadm.running.trans hr
  have hpre : e'.prefilling ≠ [] := by
    intro hnil
    have hpfx := hadm.prefilling
    rw [hnil] at hpfx
    exact hp (prefix_nil.mp hpfx)
  have hdec : e'.decoding = false := decide_eq_false fun hand => hand.1 hrun
  obtain ⟨g, hg⟩ : ∃ g, (4 * e.cfg.maxSeqs + 8).toNat = g + 1 :=
    ⟨(4 * e.cfg.maxSeqs + 7).toNat, by omega⟩
  have hprepare : prepareLoop t (4 * e.cfg.maxSeqs + 8).toNat { e with busy := false } =
      (e', .ready) := by
    simp only [hg, prepareLoop, he', hdec, Bool.false_eq_true, if_false]
    rw [if_neg fun hand => hpre hand.1]
  rw [startIteration_of_ready dur hprepare (.inl hpre)]
  obtain ⟨-, hlaunch, -⟩ := launch_spec (e := { e' with drawn := (dur e').1 }) (hcore'.sameBody rfl)
    (fun hd => absurd (hdec.symm.trans hd) (by simp)) t (dur e').2
  rw [hlaunch.unprefilled]
  exact hle

/-! ### Draining -/

/-- **A turn makes progress**: less output is to be produced, or as much, and less prefill work is
to be done. -/
theorem turn_progress (h : Settled e) (hc : Clean e) (dur : Engine → Nat × Duration) :
    (e.turn dur).remaining < e.remaining ∨
    ((e.turn dur).remaining ≤ e.remaining ∧ (e.turn dur).unprefilled < e.unprefilled) := by
  obtain ⟨hsteps, -, e₁, he₁, hend, hbegun⟩ := turn_spec h dur
  have hcore₁ : Core [] e₁ := h.core.steps (x := (e.iter.decode, e)) hend.steps
  have hdrift := (h.core.drift_steps (x := (e.iter.decode, e)) hsteps).output
    (hbegun.submitted.trans hend.submitted)
  have hdrift₁ : e₁.tokens ≤ (e.turn dur).tokens :=
    (hcore₁.drift_steps (x := ([], e₁)) hbegun.steps).tokens
  have htokens : e.tokens ≤ (e.turn dur).tokens :=
    (h.core.drift_steps (x := (e.iter.decode, e)) hsteps).tokens
  change (e.turn dur).remaining + (e.turn dur).tokens ≤ e.remaining + e.tokens at hdrift
  rcases finishIteration_progress h hc e.iterEnd with htoken | ⟨p, rest, hchunk⟩
  · left
    rw [← he₁] at htoken
    omega
  · right
    refine ⟨by omega, ?_⟩
    have hfinish := hchunk.eq
    rw [← he₁] at hfinish
    have hless : e₁.unprefilled < e.unprefilled := by
      rw [hfinish]
      exact h.core.unprefilled_chunk hchunk.prefilling hchunk.pos hchunk.incomplete
    have hrun : e₁.running = [] := by rw [hfinish]; exact hchunk.running
    have hpre : e₁.prefilling ≠ [] := by
      rw [hfinish]
      show e.prefilling ≠ []
      rw [hchunk.prefilling]
      exact cons_ne_nil p rest
    have hseqs : 1 ≤ e₁.cfg.maxSeqs := by rw [hend.cfg]; exact h.maxSeqs
    refine lt_of_le_of_lt ?_ hless
    rw [turn, ← he₁]
    exact startIteration_unprefilled hcore₁ hseqs hrun hpre dur e.iterEnd

/-- So many turns, or fewer if the engine becomes idle. The `k`-th iteration from now takes as long
as `durs k` says. -/
def turns (durs : Nat → Engine → Nat × Duration) : Nat → Engine → Engine
  | 0, e => e
  | n + 1, e => if e.busy then turns (fun k => durs (k + 1)) n (e.turn (durs 0)) else e

theorem turns_succ_of_busy (durs : Nat → Engine → Nat × Duration) (n : Nat) (hb : e.busy = true) :
    turns durs (n + 1) e = turns (fun k => durs (k + 1)) n (e.turn (durs 0)) := by
  rw [turns, if_pos hb]

/-- An engine that is at work as planned becomes idle, by induction on what is left to do. -/
theorem idle_of_clean (x : Nat ×ₗ Nat) : ∀ {e : Engine} (durs : Nat → Engine → Nat × Duration),
    Settled e → (e.busy = true → Clean e) → toLex (e.remaining, e.unprefilled) = x →
    ∃ n, (turns durs n e).busy = false ∧ Settled (turns durs n e) := by
  induction x using WellFoundedLT.induction with
  | ind x ih =>
    intro e durs hs hclean hx
    cases hb : e.busy with
    | false => exact ⟨0, hb, hs⟩
    | true =>
      obtain ⟨-, hs', e₁, -, -, hbegun⟩ := turn_spec hs (durs 0)
      have hlt : toLex ((e.turn (durs 0)).remaining, (e.turn (durs 0)).unprefilled) < x := by
        rw [← hx, Prod.Lex.toLex_lt_toLex]
        rcases turn_progress hs (hclean hb) (durs 0) with hless | ⟨hle, hless⟩
        · exact .inl hless
        · rcases hle.lt_or_eq with hlt | heq
          · exact .inl hlt
          · exact .inr ⟨heq, hless⟩
      obtain ⟨n, hidle, hset⟩ := ih _ hlt (fun k => durs (k + 1)) hs'
        (fun hb' => ⟨(hbegun.busy hb').1, (hbegun.busy hb').2.1⟩) rfl
      refine ⟨n + 1, ?_, ?_⟩
      · rw [turns_succ_of_busy durs n hb]
        exact hidle
      · rw [turns_succ_of_busy durs n hb]
        exact hset

/-- Cancelled sequences may leave an iteration with nothing to do. After one turn it is as
planned. -/
theorem Settled.idle_after (h : Settled e) (durs : Nat → Engine → Nat × Duration) :
    ∃ n, (turns durs n e).busy = false ∧ Settled (turns durs n e) := by
  cases hb : e.busy with
  | false => exact ⟨0, hb, h⟩
  | true =>
    obtain ⟨-, hs', e₁, -, -, hbegun⟩ := turn_spec h (durs 0)
    obtain ⟨n, hidle, hset⟩ := idle_of_clean _ (fun k => durs (k + 1)) hs'
      (fun hb' => ⟨(hbegun.busy hb').1, (hbegun.busy hb').2.1⟩) rfl
    refine ⟨n + 1, ?_, ?_⟩
    · rw [turns_succ_of_busy durs n hb]
      exact hidle
    · rw [turns_succ_of_busy durs n hb]
      exact hset

/-- The loop of `advanceTo` takes no more turns than lead to an idle engine. -/
theorem advanceLoop_of_turns (dur : Engine → Nat × Duration) (now : Duration) (n : Nat) :
    ∀ {e : Engine}, (turns (fun _ => dur) n e).busy = false →
    ∃ e', ∀ fuel, n < fuel → advanceLoop dur now fuel e = some e' := by
  induction n with
  | zero =>
    intro e hidle
    refine ⟨{ e with now := now }, fun fuel hfuel => ?_⟩
    obtain ⟨fuel, rfl⟩ := Nat.exists_eq_succ_of_ne_zero (Nat.ne_of_gt hfuel)
    have hb : ¬ (e.busy = true ∧ e.iterEnd ≤ now) := fun hand => by cases hidle.symm.trans hand.1
    rw [advanceLoop, if_neg hb]
  | succ n ih =>
    intro e hidle
    by_cases hturn : e.busy = true ∧ e.iterEnd ≤ now
    · rw [turns_succ_of_busy _ n hturn.1] at hidle
      obtain ⟨e', hall⟩ := ih hidle
      refine ⟨e', fun fuel hfuel => ?_⟩
      obtain ⟨fuel, rfl⟩ := Nat.exists_eq_succ_of_ne_zero (Nat.ne_of_gt (Nat.zero_lt_of_lt hfuel))
      rw [advanceLoop, if_pos hturn]
      exact hall fuel (Nat.lt_of_succ_lt_succ hfuel)
    · refine ⟨{ e with now := now }, fun fuel hfuel => ?_⟩
      obtain ⟨fuel, rfl⟩ := Nat.exists_eq_succ_of_ne_zero (Nat.ne_of_gt (Nat.zero_lt_of_lt hfuel))
      rw [advanceLoop, if_neg hturn]

/-- **The engine drains.** From every reachable state finitely many turns lead to an idle engine
with no live request, whatever the iterations take; and so `advanceTo` returns, for every time. -/
theorem drains {cfg : Config} (hcfg : cfg.validate = none) (d : Draws)
    (h : Machine.Reach (Engine.step d) (newEngine cfg) e) :
    (∀ durs : Nat → Engine → Nat × Duration,
      ∃ n, (turns durs n e).busy = false ∧ (turns durs n e).live = []) ∧
    ∀ now, ∃ n e', ∀ fuel, n < fuel →
      advanceLoop (fun e => e.iterationDuration d) now fuel e = some e' := by
  have hs := ((newEngine_ready hcfg).came h).settled
  constructor
  · intro durs
    obtain ⟨n, hidle, hset⟩ := hs.idle_after durs
    exact ⟨n, hidle, (hset.idle hidle).1⟩
  · intro now
    obtain ⟨n, hidle, -⟩ := hs.idle_after fun _ e => e.iterationDuration d
    exact ⟨n, advanceLoop_of_turns _ now n hidle⟩

/-- The clock has saturated: all iterations end at the same time. -/
theorem drains_saturated :
    ∃ e : Engine, Machine.Reach (Engine.step plainDraws) (newEngine smallConfig) e ∧
    (e.completed = 1 ∧ e.busy = true ∧ e.now = maxDuration ∧ e.iterEnd = maxDuration) ∧
    (∀ durs : Nat → Engine → Nat × Duration,
      ∃ n, (turns durs n e).busy = false ∧ (turns durs n e).live = []) ∧
    ∀ now, ∃ n e', ∀ fuel, n < fuel →
      advanceLoop (fun e => e.iterationDuration plainDraws) now fuel e = some e' := by
  obtain ⟨e, he, hfacts⟩ : ∃ e ∈ Machine.runActs (Engine.step plainDraws) (newEngine smallConfig)
      [⟨.submit maxDuration ⟨3, 0⟩, 9⟩, ⟨.submit maxDuration ⟨4, 0⟩, 9⟩],
      e.completed = 1 ∧ e.busy = true ∧ e.now = maxDuration ∧ e.iterEnd = maxDuration := by
    decide +kernel
  have hreach := Machine.reach_of_runActs .refl _ he
  exact ⟨e, hreach, hfacts, drains (by decide +kernel) plainDraws hreach⟩

/-- `advanceTo` stops at an iteration that ends later, or when there is none. -/
theorem advanceLoop_stops {dur : Engine → Nat × Duration} {now : Duration} {fuel : Nat}
    {e e' : Engine} (h : advanceLoop dur now fuel e = some e') :
    ¬ (e'.busy = true ∧ e'.iterEnd ≤ now) := by
  induction fuel generalizing e with
  | zero => cases h
  | succ fuel ih =>
    rw [advanceLoop] at h
    split at h
    next => exact ih h
    next hstop =>
      cases h
      exact hstop

/-- **Everything is served in the end.** From every reachable state, an `Advance` to the last
instant there is returns, and it leaves nothing alive and no KV token in use: each request that was
accepted has been completed, cancelled or ended for lack of KV, also where the clock saturates. -/
theorem advance_serves_all {cfg : Config} (hcfg : cfg.validate = none) (d : Draws)
    (h : Machine.Reach (Engine.step d) (newEngine cfg) e) : ∃ n e',
      (∀ fuel, n < fuel → e.call d fuel (.advance maxDuration) = some (e', .advanced)) ∧
        e'.live = [] ∧
        e'.kvUsed = 0 ∧ e'.submitted = e'.completed + e'.cancelled + e'.kvEnded := by
  have hcame := (newEngine_ready hcfg).came h
  obtain ⟨n, hidle, -⟩ := hcame.settled.idle_after fun _ e => e.iterationDuration d
  obtain ⟨e', hall⟩ := advanceLoop_of_turns _ maxDuration n hidle
  have hadv := hall (n + 1) n.lt_succ_self
  obtain ⟨⟨-, hsettled, hclocked, -⟩, -⟩ :=
    advanceLoop_spec (fun x => x.iterationDuration_nonneg d) le_rfl (n + 1)
    hcame.settled hcame.clocked hcame.clocked.time hadv
  -- No iteration ends later than the last instant, so the loop stopped because there is none.
  have hbusy : e'.busy = false := by
    by_contra hb
    rw [Bool.not_eq_false] at hb
    exact advanceLoop_stops hadv ⟨hb, (hclocked.iterEnd hb).2⟩
  have hlive := (hsettled.idle hbusy).1
  refine ⟨n, e', fun fuel hfuel => ?_, hlive, ?_, ?_⟩
  · simp only [call, Call.now, if_neg (not_lt.mpr hcame.clocked.time), hall fuel hfuel]
    rfl
  · rw [hsettled.core.kv, held, hlive]
    rfl
  · have htally := hsettled.core.tally
    rwa [hlive] at htally

theorem advance_serves_all_busyRun : ∃ (e e' : Engine) (n : Nat),
    Machine.runActs (Engine.step plainDraws) (newEngine smallConfig) busyRun = some e ∧
      e.busy = true ∧
    (∀ fuel, n < fuel → e.call plainDraws fuel (.advance maxDuration) = some (e', .advanced)) ∧
    e'.live = [] := by
  obtain ⟨e, he, hbusy⟩ : ∃ e ∈ Machine.runActs (Engine.step plainDraws)
    (newEngine smallConfig) busyRun,
      e.busy = true := by
    decide +kernel
  obtain ⟨n, e', hall, hlive, -⟩ :=
    advance_serves_all (by decide +kernel) plainDraws (Machine.reach_of_runActs .refl _ he)
  exact ⟨e, e', n, he, hbusy, hall, hlive⟩

end Engine

end ServerFlow.Sim
