import ServerFlow.Sim.Drain

/-!
# Sim.Stepwise

Advancing in steps. No decision of the engine depends on when its clock was last moved: every
operation commutes with setting the clock (`stamp`), so `advanceTo` may stop anywhere on its way,
and `Advance` calls may be put in before any call of a run.
-/

namespace ServerFlow.Sim

open Option

open Resilience (Duration)

namespace Engine

variable {e e' : Engine} {t now : Duration}

/-! ### The clock is not read -/

/-- The clock is set, and nothing else. -/
def stamp (e : Engine) (t : Duration) : Engine := { e with now := t }

theorem stamp_set (i : Nat) (s : Seq) : (e.stamp t).set i s = (e.set i s).stamp t := rfl

theorem stamp_remove (i : Nat) : (e.stamp t).remove i = (e.remove i).stamp t := by
  simp only [remove, stamp]
  cases (e.heap i).state <;> rfl

theorem stamp_finish (h : e' = e.stamp t) (u : Duration) (i : Nat) (reason : Finish) :
    e'.finish u i reason = (e.finish u i reason).stamp t := by
  subst h
  simp only [finish, stamp_remove]
  rfl

theorem stamp_emitToken (h : e' = e.stamp t) (u : Duration) (i : Nat) :
    e'.emitToken u i = (e.emitToken u i).stamp t := by
  subst h
  simp only [emitToken, apply_ite (stamp · t)]
  exact if_congr Iff.rfl (stamp_finish (by rfl) u i _) rfl

theorem stamp_admitHead (u : Duration) (i : Nat) (rest : List Nat) :
    (e.stamp t).admitHead u i rest = (e.admitHead u i rest).stamp t := by
  simp only [admitHead]
  cases hs : (e.heap i).started <;> simp only [stamp, hs] <;> rfl

theorem stamp_admitLoop (u : Duration) (l : List Nat) :
    admitLoop u l (e.stamp t) = (admitLoop u l e).stamp t := by
  induction l generalizing e with
  | nil => rfl
  | cons i rest ih =>
    simp only [admitLoop, stamp_admitHead, ih]
    simp only [apply_ite (stamp · t)]
    rfl

theorem stamp_reserveLoop (u : Duration) (l : List Nat) (changed : Bool) :
    reserveLoop u l (e.stamp t) changed =
      (reserveLoop u l e changed).map (stamp · t) id := by
  induction l generalizing e changed with
  | nil => rfl
  | cons v rest ih =>
    have hpreempt : (e.stamp t).preempt u v = (e.preempt u v).stamp t := rfl
    have hend : { e.stamp t with kvEnded := (e.stamp t).kvEnded + 1 }.finish u v .length =
        ({ e with kvEnded := e.kvEnded + 1 }.finish u v .length).stamp t :=
          stamp_finish (by rfl) u v _
    simp only [reserveLoop, hpreempt, hend, ih, apply_ite (Prod.map (stamp · t) id)]
    rfl

theorem stamp_prepareLoop (u : Duration) (guard : Nat) :
    prepareLoop u guard (e.stamp t) = (prepareLoop u guard e).map (stamp · t) id := by
  induction guard generalizing e with
  | zero => rfl
  | succ guard ih =>
    have hadmit : (e.stamp t).admitWaiting u = (e.admitWaiting u).stamp t :=
      stamp_admitLoop u e.waiting
    simp only [prepareLoop, hadmit]
    generalize e.admitWaiting u = e
    have hreserve : (e.stamp t).reserveDecodeKV u = (e.reserveDecodeKV u).map (stamp · t) id :=
      stamp_reserveLoop u _ _
    simp only [hreserve, apply_ite (Prod.map (stamp · t) id)]
    refine if_congr Iff.rfl rfl (if_congr Iff.rfl ?_ rfl)
    cases e.reserveDecodeKV u with
    | mk e changed =>
      cases changed with
      | false => rfl
      | true => exact ih

theorem stamp_foldl (op : Engine → Nat → Engine) (hop : ∀ e i, op (stamp e t) i = (op e i).stamp t)
    (l : List Nat) : l.foldl op (e.stamp t) = (l.foldl op e).stamp t := by
  induction l generalizing e with
  | nil => rfl
  | cons i l ih => rw [List.foldl_cons, hop, ih, List.foldl_cons]

theorem stamp_launch (h : e' = e.stamp t) (u dur : Duration) :
    e'.launch u dur = (e.launch u dur).stamp t := by
  subst h
  simp only [launch, show (e.stamp t).plan = e.plan from rfl]
  cases e.plan.prefill with
  | none =>
    simp only [stamp_foldl hold fun _ _ => rfl]
    rfl
  | some p =>
    simp only [stamp_set, stamp_foldl hold fun _ _ => rfl]
    rfl

variable {dur : Engine → Nat × Duration} {fuel : Nat}

theorem stamp_startIteration (hdur : ∀ e t, dur (stamp e t) = dur e)
    (u : Duration) : (e.stamp t).startIteration dur u = (e.startIteration dur u).stamp t := by
  have hprep : prepareLoop u (4 * (e.stamp t).cfg.maxSeqs + 8).toNat
    { e.stamp t with busy := false } =
      (prepareLoop u (4 * e.cfg.maxSeqs + 8).toNat { e with busy := false }).map (stamp · t) id :=
    stamp_prepareLoop (e := { e with busy := false }) u _
  rw [startIteration, startIteration, hprep]
  cases prepareLoop u (4 * e.cfg.maxSeqs + 8).toNat { e with busy := false } with
  | mk e out =>
    have hlaunch : ∀ e : Engine,
      { e.stamp t with drawn := (dur (e.stamp t)).1 }.launch u (dur (e.stamp t)).2 =
        ({ e with drawn := (dur e).1 }.launch u (dur e).2).stamp t := by
      intro e
      rw [hdur]
      exact stamp_launch (by rfl) u _
    cases out with
    | idle => rfl
    | ready =>
      simp only [apply_ite (stamp · t)]
      exact if_congr Iff.rfl rfl
        (hlaunch { e with guardSpent := e.guardSpent || decide (Prepared.ready = .spent) })
    | spent =>
      simp only [apply_ite (stamp · t)]
      exact if_congr Iff.rfl rfl
        (hlaunch { e with guardSpent := e.guardSpent || decide (Prepared.spent = .spent) })

theorem stamp_decodeOne (u : Duration) (i : Nat) :
    (e.stamp t).decodeOne u i = (e.decodeOne u i).stamp t := by
  simp only [decodeOne, apply_ite (stamp · t)]
  exact if_congr Iff.rfl (stamp_emitToken (by rfl) u i) rfl

theorem stamp_prefillOne (u : Duration) (p : Nat) (chunk : Int) :
    (e.stamp t).prefillOne u p chunk = (e.prefillOne u p chunk).stamp t := by
  simp only [prefillOne, apply_ite (stamp · t)]
  exact if_congr Iff.rfl (if_congr Iff.rfl (stamp_emitToken (by rfl) u p) rfl) rfl

theorem stamp_finishIteration (u : Duration) :
    (e.stamp t).finishIteration u = (e.finishIteration u).stamp t := by
  have hdecode : e.iter.decode.foldl (fun e i => e.decodeOne u i)
    { e.stamp t with iter := .none, busy := false } =
      _ := stamp_foldl (e := { e with iter := .none, busy := false }) (t := t) _
        (fun _ i => stamp_decodeOne u i) _
  simp only [finishIteration, show (e.stamp t).iter = e.iter from rfl, hdecode]
  cases e.iter.prefill with
  | none => rfl
  | some p => exact stamp_prefillOne u p _

/-- The clock does not matter to `advanceTo`, which sets it. -/
theorem advanceLoop_stamp (hdur : ∀ e t, dur (stamp e t) = dur e)
    (fuel : Nat) : advanceLoop dur now fuel (e.stamp t) = advanceLoop dur now fuel e := by
  induction fuel generalizing e with
  | zero => rfl
  | succ fuel ih =>
    have hturn : (e.stamp t).turn dur = (e.turn dur).stamp t := by
      rw [turn, stamp_finishIteration, stamp_startIteration hdur]
      rfl
    simp only [advanceLoop, hturn, ih]
    rfl

/-! ### Stopping on the way -/

theorem advanceLoop_succ
    (h : advanceLoop dur now fuel e = some e') : advanceLoop dur now (fuel + 1) e = some e' := by
  induction fuel generalizing e with
  | zero => cases h
  | succ fuel ih =>
    rw [advanceLoop] at h ⊢
    split at h
    next hturn =>
      rw [if_pos hturn]
      exact ih h
    next hstop =>
      rw [if_neg hstop]
      exact h

/-- `advanceTo` may stop on the way, and no part of it takes more turns than the whole. -/
theorem advanceLoop_split (hdur : ∀ e t, dur (stamp e t) = dur e) (ht : t ≤ now)
    (h : advanceLoop dur now fuel e = some e') :
    ∃ e₁, advanceLoop dur t fuel e = some e₁ ∧ e₁.now = t ∧
      advanceLoop dur now fuel e₁ = some e' := by
  induction fuel generalizing e with
  | zero => cases h
  | succ fuel ih =>
    by_cases hturn : e.busy ∧ e.iterEnd ≤ t
    · rw [advanceLoop, if_pos ⟨hturn.1, hturn.2.trans ht⟩] at h
      obtain ⟨e₁, hfirst, hnow, hrest⟩ := ih h
      refine ⟨e₁, ?_, hnow, advanceLoop_succ hrest⟩
      rw [advanceLoop, if_pos hturn]
      exact hfirst
    · refine ⟨e.stamp t, ?_, rfl, (advanceLoop_stamp hdur _).trans h⟩
      rw [advanceLoop, if_neg hturn]
      rfl

/-- An `Advance` before a call that is not earlier changes neither what the call does nor its
answer. -/
theorem call_after_advance {d : Draws} {c : Call} {ans : Answer}
    (h : e.call d fuel c = some (e', ans)) (ht : t ≤ c.now) :
    ∃ e₁ ans₁, e.call d fuel (.advance t) = some (e₁, ans₁) ∧
      e₁.call d fuel c = some (e', ans) := by
  by_cases hback : t < e.now
  · exact ⟨e, _, if_pos hback, h⟩
  · rw [call, if_neg fun hlt => hback (ht.trans_lt hlt)] at h
    obtain ⟨e₂, hadv, hserve⟩ := Option.map_eq_some_iff.mp h
    obtain ⟨e₁, hfirst, hnow, hrest⟩ := advanceLoop_split (fun _ _ => rfl) ht hadv
    refine ⟨e₁, .advanced, ?_, ?_⟩
    · simp only [call, Call.now, if_neg hback, hfirst]
      rfl
    · rw [call, if_neg (by rw [hnow]; exact not_lt.mpr ht), hrest, map_some, hserve]

/-! ### Runs -/

end Engine

/-- Calls other than `Advance`. -/
def Call.asks : Call → Bool
  | .advance _ => false
  | _ => true

namespace Engine

variable {e e' : Engine} {t now : Duration}

/-- A run of calls: the final state, with all events, and the answers to `Submit` and `Cancel`. No
`advanceTo` may take more than `fuel` turns. -/
def runCalls (d : Draws) (fuel : Nat) : List Call → Engine → Option (Engine × List Answer)
  | [], e => some (e, [])
  | c :: cs, e => do
    let (e, ans) ← e.call d fuel c
    let (e, rest) ← runCalls d fuel cs e
    return (e, if c.asks then ans :: rest else rest)

/-- `cs'` is `cs` with `Advance` calls put in, each no later than the call of `cs` that follows. -/
inductive Refined : List Call → List Call → Prop
  | nil : Refined [] []
  | keep (c : Call) {cs cs' : List Call} (h : Refined cs cs') : Refined (c :: cs) (c :: cs')
  | advance {t : Duration} {c : Call} (ht : t ≤ c.now) {cs cs' : List Call}
    (h : Refined (c :: cs) cs') : Refined (c :: cs) (.advance t :: cs')

theorem runCalls_refined {d : Draws} {fuel : Nat} {cs cs' : List Call} (hcs : Refined cs cs')
    {out : Engine × List Answer} (h : runCalls d fuel cs e = some out) :
    runCalls d fuel cs' e = some out := by
  induction hcs generalizing e out with
  | nil => exact h
  | keep c _ ih =>
    simp only [runCalls, bind_eq_bind, bind_eq_some_iff, Prod.exists] at h ⊢
    obtain ⟨e₁, ans, hcall, e₂, rest, hrest, hout⟩ := h
    exact ⟨e₁, ans, hcall, e₂, rest, ih hrest, hout⟩
  | @advance t c ht cs cs' _ ih =>
    have hrun := h
    simp only [runCalls, bind_eq_bind, bind_eq_some_iff, Prod.exists] at h ⊢
    obtain ⟨e₁, ans, hcall, e₂, rest, hrest, hout⟩ := h
    obtain ⟨e₀, ans₀, hfirst, hthen⟩ := call_after_advance hcall ht
    refine ⟨e₀, ans₀, hfirst, out.1, out.2, ih ?_, rfl⟩
    simp only [runCalls, bind_eq_bind, bind_eq_some_iff, Prod.exists]
    exact ⟨e₁, ans, hthen, e₂, rest, hrest, hout⟩

/-- Every run comes to its end. -/
theorem Ready.runCalls (h : Ready e) (d : Draws) {cs : List Call}
    (hcs : ∀ c ∈ cs, c.now ≤ maxDuration) :
    ∃ n out, ∀ fuel, n < fuel → Engine.runCalls d fuel cs e = some out := by
  induction cs generalizing e with
  | nil => exact ⟨0, (e, []), fun _ _ => rfl⟩
  | cons c cs ih =>
    obtain ⟨hc, hcs⟩ := List.forall_mem_cons.mp hcs
    obtain ⟨n, r, hcall⟩ : ∃ n r, ∀ fuel, n < fuel → e.call d fuel c = some r := by
      by_cases hback : c.now < e.now
      · exact ⟨0, _, fun _ _ => if_pos hback⟩
      · obtain ⟨n, hidle, -⟩ := h.settled.idle_after fun _ e => e.iterationDuration d
        obtain ⟨e₁, hall⟩ := advanceLoop_of_turns _ c.now n hidle
        refine ⟨n, e₁.serve d c, fun fuel hfuel => ?_⟩
        rw [call, if_neg hback, hall fuel hfuel, map_some]
    obtain ⟨k, out, hrun⟩ := ih (call_spec h (hcall (n + 1) n.lt_succ_self) hc).ready hcs
    refine ⟨max n k, (out.1, if c.asks then r.2 :: out.2 else out.2), fun fuel hfuel => ?_⟩
    simp only [Engine.runCalls, hcall fuel (by omega), bind_eq_bind, bind_some,
      hrun fuel (by omega), pure_def]

/-- **Advancing in steps changes nothing.** Every run of calls ends, and with `Advance` calls put in
it ends in the same state, after the same events and with the same answers. -/
theorem runCalls_stepwise {cfg : Config} (hcfg : cfg.validate = none) (d : Draws)
    {cs cs' : List Call} (hmax : ∀ c ∈ cs, c.now ≤ maxDuration) (hcs : Refined cs cs') :
    ∃ n out, ∀ fuel, n < fuel → runCalls d fuel cs (newEngine cfg) = some out ∧
      runCalls d fuel cs' (newEngine cfg) = some out := by
  obtain ⟨n, out, hrun⟩ := (newEngine_ready hcfg).runCalls d hmax
  exact ⟨n, out, fun fuel hfuel => ⟨hrun fuel hfuel, runCalls_refined hcs (hrun fuel hfuel)⟩⟩

/-- A request is cancelled in the middle of an iteration; of the calls put in, the second is
refused. -/
theorem runCalls_stepwise_cancelled : ∃ n out, ∀ fuel, n < fuel →
    runCalls plainDraws fuel [.submit 0 ⟨3, 0⟩, .cancel 62000000 1] (newEngine smallConfig) =
      some out ∧
      runCalls plainDraws fuel
        [.submit 0 ⟨3, 0⟩, .advance 30000000, .advance 10, .cancel 62000000 1]
        (newEngine smallConfig) = some out :=
  runCalls_stepwise (by decide +kernel) plainDraws (by decide)
    (.keep _ (.advance (by decide) (.advance (by decide) (.keep _ .nil))))

end Engine

end ServerFlow.Sim
