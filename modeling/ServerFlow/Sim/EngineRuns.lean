import ServerFlow.Lib.Machine
import ServerFlow.Sim.EngineSteps

/-!
# Sim.EngineRuns

Runs of `Submit`, `Advance` and `Cancel`. Between two calls the engine is `Settled`, and a run of
calls is a path of small steps along a clock that never goes back (`Path`). What small steps keep
therefore holds after every call; `CheckInvariants` is a part of it.
-/

namespace ServerFlow.Sim

open List Function
open Resilience (Duration)

namespace Engine

variable {e e' : Engine} {t t' : Duration}

/-! ### Paths -/

/-- A small step at the present time, or the passage of time. -/
inductive Pace : Duration × List Nat × Engine → Duration × List Nat × Engine → Prop
  | act {t : Duration} {x y : List Nat × Engine} (h : Micro t x y) : Pace (t, x) (t, y)
  | wait {t t' : Duration} {x : List Nat × Engine} (h : t ≤ t') : Pace (t, x) (t', x)

abbrev Path := Relation.ReflTransGen Pace

theorem Steps.path {x y : List Nat × Engine} (h : Steps t x y) : Path (t, x) (t, y) := by
  induction h with
  | refl => exact .refl
  | tail _ hm ih => exact ih.tail (.act hm)

/-- The engine between two calls, as a point of a path. -/
def point (e : Engine) (t : Duration) : Duration × List Nat × Engine := (t, e.iter.decode, e)

/-! ### Between turns -/

/-- What holds of the engine between two turns of `advanceTo`, and so between two calls. -/
structure Settled (e : Engine) : Prop where
  core : Core e.iter.decode e
  maxSeqs : 1 ≤ e.cfg.maxSeqs
  prefillOk : e.PrefillOk
  idle : e.busy = false → e.live = [] ∧ e.iter = .none
  unspent : e.guardSpent = false

/-- An iteration under way ends at `t` or later. -/
structure Clocked (t : Duration) (e : Engine) : Prop where
  time : t ≤ maxDuration
  iterEnd : e.busy = true → t ≤ e.iterEnd ∧ e.iterEnd ≤ maxDuration

theorem le_addDuration {d : Duration} (hd : 0 ≤ d) (ht : t ≤ maxDuration) :
    t ≤ addDuration t d ∧ addDuration t d ≤ maxDuration := by
  simp only [addDuration]
  split
  · exact ⟨ht, le_rfl⟩
  · constructor <;> linarith

/-- Every iteration takes some time. -/
theorem iterationDuration_nonneg (e : Engine) (d : Draws) : 0 ≤ (e.iterationDuration d).2 := by
  have hclamp : ∀ v : Duration, 0 ≤ min (max v minIteration) maxIteration := fun v =>
    le_min (le_max_of_le_right (by decide)) (by decide)
  have hprefill : ∀ n c b, 0 ≤ (e.prefillDuration d n c b).2 := fun _ _ _ => hclamp _
  have hdecode : ∀ n b, 0 ≤ (e.decodeDuration d n b).2 := fun _ _ => hclamp _
  simp only [iterationDuration]
  refine add_nonneg ?_ ?_
  · split
    · exact le_rfl
    · exact hprefill _ _ _
  · split
    · exact hdecode _ _
    · exact le_rfl

variable {dur : Engine → Nat × Duration} {now : Duration} {d : Draws}

theorem Begun.settled (h : Begun dur t e e') (hcore : Core [] e)
    (hseqs : 1 ≤ e.cfg.maxSeqs) (hg : e.guardSpent = false) : Settled e' := by
  have hcore' : Core e'.iter.decode e' := hcore.steps (x := ([], e)) h.steps
  refine ⟨hcore', by rw [h.cfg]; exact hseqs, ?_, h.idle, h.guardSpent.trans hg⟩
  cases hb : e'.busy with
  | true => exact hcore'.prefillOk (h.busy hb).1
  | false =>
    intro p hp
    rw [(h.idle hb).2] at hp
    cases hp

theorem Begun.clocked (h : Begun dur t e e')
    (hdur : ∀ x, 0 ≤ (dur x).2) (ht : t ≤ maxDuration) : Clocked t e' := by
  refine ⟨ht, fun hb => ?_⟩
  obtain ⟨-, -, x, hx⟩ := h.busy hb
  rw [hx]
  exact le_addDuration (hdur x) ht

/-- A turn, as small steps at the time the iteration ends. -/
theorem turn_spec (h : Settled e) (dur : Engine → Nat × Duration) :
    Steps e.iterEnd (e.iter.decode, e) ((e.turn dur).iter.decode, e.turn dur) ∧
    Settled (e.turn dur) ∧
    ∃ e₁, e₁ = e.finishIteration e.iterEnd ∧ Ended e.iterEnd e e₁ ∧
      Begun dur e.iterEnd e₁ (e.turn dur) := by
  have hend := finishIteration_spec h.core h.prefillOk e.iterEnd
  have hcore := h.core.steps (x := (e.iter.decode, e)) hend.steps
  have hseqs : 1 ≤ (e.finishIteration e.iterEnd).cfg.maxSeqs := by
    rw [hend.cfg]
    exact h.maxSeqs
  have hbegun := startIteration_spec hcore hseqs hend.iter dur e.iterEnd
  exact ⟨hend.steps.trans hbegun.steps,
    hbegun.settled hcore hseqs (hend.guardSpent.trans h.unspent), _, rfl, hend, hbegun⟩

/-! ### Calls -/

/-- What a run of turns and calls keeps: from `e` at `t`, the engine came to `e'` at `t'`. -/
structure Came (t : Duration) (e : Engine) (t' : Duration) (e' : Engine) : Prop where
  path : Path (e.point t) (e'.point t')
  settled : Settled e'
  clocked : Clocked t' e'
  cfg : e'.cfg = e.cfg

theorem advanceLoop_spec (hdur : ∀ x, 0 ≤ (dur x).2)
    (hnow : now ≤ maxDuration) (fuel : Nat) : ∀ {e e' : Engine} {t : Duration},
    Settled e → Clocked t e → t ≤ now → advanceLoop dur now fuel e = some e' →
    Came t e now e' ∧ e'.now = now := by
  induction fuel with
  | zero => exact nofun
  | succ fuel ih =>
    intro e e' t hs hc hle hadv
    simp only [advanceLoop] at hadv
    split at hadv
    next hturn =>
      obtain ⟨hsteps, hs', e₁, -, hend, hbegun⟩ := turn_spec hs dur
      obtain ⟨hle', hmax⟩ := hc.iterEnd hturn.1
      obtain ⟨hcame, hnow'⟩ := ih hs' (hbegun.clocked hdur hmax) hturn.2 hadv
      have hpath : Path (e.point t) ((e.turn dur).point e.iterEnd) :=
        .head (.wait hle') (Steps.path hsteps)
      exact ⟨⟨hpath.trans hcame.path, hcame.settled, hcame.clocked,
        hcame.cfg.trans (hbegun.cfg.trans hend.cfg)⟩, hnow'⟩
    next hstop =>
      obtain rfl := Option.some.inj hadv
      have hcontrol : Micro now (e.iter.decode, e) (e.iter.decode, { e with now := now }) :=
        .control rfl
      refine ⟨⟨.head (.wait hle) (.single (.act hcontrol)),
        ⟨Core.micro (x := (e.iter.decode, e)) hs.core hcontrol, hs.maxSeqs, hs.prefillOk, hs.idle,
          hs.unspent⟩, ⟨hnow, fun hb => ⟨?_, (hc.iterEnd hb).2⟩⟩, rfl⟩, rfl⟩
      exact (not_le.mp fun hend => hstop ⟨hb, hend⟩).le

/-- The record of a live request is not where the next one will be. -/
theorem Core.ne_next {P : List Nat} (h : Core P e) {i : Nat} (hi : i ∈ e.live) : i ≠ e.next + 1 :=
  (Nat.lt_succ_of_le (h.ids i hi)).ne

/-- An iteration starts, if there is none. -/
def resume (e : Engine) (d : Draws) (now : Duration) : Engine :=
  if e.busy then e else e.startIteration (fun e => e.iterationDuration d) now

/-- `Submit` refuses the request, or queues it and starts an iteration if there is none. -/
theorem submit_cases (e : Engine) (d : Draws) (now : Duration) (r : Request) :
    (∃ err n, e.submit d now r = ({ e with rejected := n }, .refused err)) ∨
    (e.Accepts r ∧ e.submit d now r = ((e.enqueue d r).resume d now,
      .accepted ⟨e.next + 1, (e.drawOutput d (e.next + 1) r.maxTokens).1,
        (e.drawOutput d (e.next + 1) r.maxTokens).2⟩)) := by
  simp only [submit]
  split
  · exact .inl ⟨_, e.rejected, rfl⟩
  next hvalid =>
    split
    · exact .inl ⟨_, _, rfl⟩
    next hfits =>
      split
      · exact .inl ⟨_, _, rfl⟩
      next hroom =>
        exact .inr ⟨⟨not_lt.mp fun hlt => hvalid (.inl hlt), not_lt.mp hfits,
          not_le.mp hroom⟩, rfl⟩

section

variable (h : Settled e)
include h

/-- A request joins the queue of an engine that is at work. -/
theorem Settled.enqueue (hb : e.busy = true) {r : Request} (hr : e.Accepts r)
    (d : Draws) : Settled (e.enqueue d r) := by
  refine ⟨h.core.enqueue hr d, h.maxSeqs, fun p hp hmem => ?_, fun hno => ?_, h.unspent⟩
  · have hne := h.core.ne_next (mem_live.mpr (.inr (.inl hmem)))
    have hheap : (e.enqueue d r).heap p = e.heap p := by
      simp only [Engine.enqueue, Engine.set, update_of_ne hne]
    rw [hheap]
    exact h.prefillOk p hp hmem
  · cases hb.symm.trans hno

/-- What follows once a request was queued. -/
theorem resume_spec (hc : Clocked now e) {r : Request} (hr : e.Accepts r) :
    Came now (e.enqueue d r) now ((e.enqueue d r).resume d now) ∧
    ((e.enqueue d r).resume d now).now = e.now ∧
    ((e.enqueue d r).resume d now).submitted = e.submitted + 1 := by
  have hbusy : (e.enqueue d r).busy = e.busy := rfl
  simp only [resume, hbusy]
  cases hb : e.busy with
  | true => exact ⟨⟨.refl, h.enqueue hb hr d, ⟨hc.time, hc.iterEnd⟩, rfl⟩, rfl, rfl⟩
  | false =>
    have hiter : (e.enqueue d r).iter = .none := (h.idle hb).2
    have hcore : Core [] (e.enqueue d r) := by
      have := h.core.enqueue hr d
      rwa [(h.idle hb).2] at this
    have hbegun := startIteration_spec hcore h.maxSeqs hiter (fun e => e.iterationDuration d) now
    refine ⟨⟨?_, hbegun.settled hcore h.maxSeqs h.unspent,
      hbegun.clocked (fun x => x.iterationDuration_nonneg d) hc.time, hbegun.cfg⟩, hbegun.now,
      hbegun.submitted⟩
    rw [point, hiter]
    exact Steps.path hbegun.steps

theorem submit_spec (hc : Clocked now e) (d : Draws) (r : Request) :
    Came now e now (e.submit d now r).1 ∧ (e.submit d now r).1.now = e.now := by
  rcases submit_cases e d now r with ⟨err, n, heq⟩ | ⟨hr, heq⟩
  · rw [heq]
    have hcontrol : Micro now (e.iter.decode, e) (e.iter.decode, { e with rejected := n }) :=
      .control rfl
    exact ⟨⟨.single (.act hcontrol), ⟨Core.micro (x := (e.iter.decode, e)) h.core hcontrol,
      h.maxSeqs, h.prefillOk, h.idle, h.unspent⟩, ⟨hc.time, hc.iterEnd⟩, rfl⟩, rfl⟩
  · rw [heq]
    obtain ⟨hcame, hnow, -⟩ := resume_spec h hc (d := d) hr
    exact ⟨⟨.head (.act (.enqueue hr)) hcame.path, hcame.settled, hcame.clocked, hcame.cfg⟩, hnow⟩

theorem cancel_spec (hc : Clocked now e) (id : Nat) :
    Came now e now (e.cancel id).1 ∧ (e.cancel id).1.now = e.now := by
  simp only [cancel]
  split
  next hid =>
    have hlive := (h.core.indexed id).mp hid
    have hmicro : Micro now (e.iter.decode, e)
        (e.iter.decode, { e.remove id with cancelled := (e.remove id).cancelled + 1 }) :=
      .cancel hlive
    have hcore := Core.micro (x := (e.iter.decode, e)) h.core hmicro
    rw [h.core.remove_eq id] at hmicro hcore ⊢
    refine ⟨⟨.single (.act hmicro),
      ⟨hcore, h.maxSeqs, fun p hp hmem => ?_, fun hb => ?_, h.unspent⟩,
      ⟨hc.time, hc.iterEnd⟩, rfl⟩, rfl⟩
    · have hmem' := h.core.nodup_lists.2.1.mem_erase_iff.mp hmem
      simp only [Engine.set, update_of_ne hmem'.1]
      exact h.prefillOk p hp hmem'.2
    · rw [(h.idle hb).1] at hlive
      cases hlive
  next => exact ⟨⟨.refl, h, hc, rfl⟩, rfl⟩

theorem serve_spec (d : Draws) (c : Call) (hc : Clocked c.now e) :
    Came c.now e c.now (e.serve d c).1 ∧ (e.serve d c).1.now = e.now := by
  cases c with
  | advance now => exact ⟨⟨.refl, h, hc, rfl⟩, rfl⟩
  | submit now r => exact submit_spec h hc d r
  | cancel now id => exact cancel_spec h hc id

end

theorem Came.trans {t₁ t₂ t₃ : Duration} {e₁ e₂ e₃ : Engine} (h : Came t₁ e₁ t₂ e₂)
    (h' : Came t₂ e₂ t₃ e₃) : Came t₁ e₁ t₃ e₃ :=
  ⟨h.path.trans h'.path, h'.settled, h'.clocked, h'.cfg.trans h.cfg⟩

/-- The engine between two calls. -/
structure Ready (e : Engine) : Prop where
  settled : Settled e
  clocked : Clocked e.now e

/-- A call is refused, or the clock is advanced and the call is served. -/
theorem call_cases (h : Ready e) {fuel : Nat} {c : Call} {ans : Answer}
    (hcall : e.call d fuel c = some (e', ans)) (hc : c.now ≤ maxDuration) :
    (e' = e ∧ ans = .refused (.timeRegression c.now e.now)) ∨
    ∃ e₁, Came e.now e c.now e₁ ∧ e₁.now = c.now ∧ e₁.serve d c = (e', ans) := by
  simp only [call] at hcall
  split at hcall
  next =>
    obtain ⟨rfl, rfl⟩ := Prod.mk.inj (Option.some.inj hcall)
    exact .inl ⟨rfl, rfl⟩
  next hle =>
    obtain ⟨e₁, hadv, hserve⟩ := Option.map_eq_some_iff.mp hcall
    obtain ⟨hcame, hnow⟩ := advanceLoop_spec (fun x => x.iterationDuration_nonneg d) hc fuel
      h.settled h.clocked (not_lt.mp hle) hadv
    exact .inr ⟨e₁, hcame, hnow, hserve⟩

/-- A call, as a path. -/
theorem call_spec (h : Ready e) {fuel : Nat} {c : Call} {ans : Answer}
    (hcall : e.call d fuel c = some (e', ans)) (hc : c.now ≤ maxDuration) :
    Came e.now e e'.now e' := by
  rcases call_cases h hcall hc with ⟨rfl, -⟩ | ⟨e₁, hcame, hnow, hserve⟩
  · exact ⟨.refl, h.settled, h.clocked, rfl⟩
  · obtain ⟨hcame', hnow'⟩ := serve_spec hcame.settled d c hcame.clocked
    rw [hserve] at hcame' hnow'
    have hend : e'.now = c.now := hnow'.trans hnow
    rw [hend]
    exact hcame.trans hcame'

/-- A call of a run, with its answer. -/
theorem step_cases {m : Move} (h : e.step d m = some e') :
    m.call.now ≤ maxDuration ∧ ∃ ans, e.call d m.fuel m.call = some (e', ans) := by
  simp only [step] at h
  split at h
  next hmax =>
    obtain ⟨⟨e₁, ans⟩, hcall, rfl⟩ := Option.map_eq_some_iff.mp h
    exact ⟨hmax, ans, hcall⟩
  next => cases h

theorem Came.ready (h : Came t e e'.now e') : Ready e' := ⟨h.settled, h.clocked⟩

/-- **A run of calls is a path of small steps.** -/
theorem Ready.came (h : Ready e) (hr : Machine.Reach (Engine.step d) e e') :
    Came e.now e e'.now e' := by
  refine hr.invariant (P := fun e' => Came e.now e e'.now e') ⟨.refl, h.settled, h.clocked, rfl⟩ ?_
  intro e₁ e₂ m hcame hstep
  obtain ⟨hmax, ans, hcall⟩ := step_cases hstep
  exact hcame.trans (call_spec hcame.ready hcall hmax)

/-- A check that was passed. -/
theorem check_eq_none {c : Prop} [Decidable c] {err : ConfigError} {rest : Option ConfigError} :
    (if c then some err else rest) = none ↔ ¬ c ∧ rest = none := by
  split
  next hc => simp [hc]
  next hc => simp [hc]

/-- What the engine needs of a valid configuration. -/
theorem valid_bounds {cfg : Config} (h : cfg.validate = none) :
    1 ≤ cfg.maxSeqs ∧ 0 ≤ cfg.maxQueue ∧ 2 ≤ cfg.budget := by
  rw [Config.validate] at h
  cases hp : cfg.params.validate with
  | some err =>
    rw [hp] at h
    cases h
  | none =>
    rw [hp] at h
    dsimp only at h
    rw [check_eq_none, check_eq_none] at h
    obtain ⟨hseqs, hqueue, -⟩ := h
    rw [Params.validate, check_eq_none, check_eq_none, check_eq_none, check_eq_none, check_eq_none,
      check_eq_none, check_eq_none, check_eq_none] at hp
    obtain ⟨-, -, -, -, -, -, -, hbudget, -⟩ := hp
    simp only [Config.budget]
    omega

theorem newEngine_ready {cfg : Config} (h : cfg.validate = none) : Ready (newEngine cfg) := by
  obtain ⟨hseqs, hqueue, hbudget⟩ := valid_bounds h
  have hnone : ∀ i, i ∉ (newEngine cfg).live := fun _ => not_mem_nil
  have hcore : Core [] (newEngine cfg) := by
    refine ⟨nodup_nil, nodup_nil, fun i hi => absurd hi (hnone i), fun i => ?_,
      nofun, nofun, nofun, fun _ _ => rfl,
      rfl, ?_, ?_, ?_, rfl⟩
    · exact ⟨fun hi => absurd hi (Finset.notMem_empty i), fun hi => absurd hi (hnone i)⟩
    · show (0 : Int) ≤ cfg.budget
      omega
    · show ((0 : Nat) : Int) + ((0 : Nat) : Int) ≤ cfg.maxSeqs
      omega
    · show ((0 : Nat) : Int) ≤ cfg.maxSeqs + cfg.maxQueue
      omega
  exact ⟨⟨hcore, hseqs, nofun, fun _ => ⟨rfl, rfl⟩, rfl⟩,
    ⟨by show (0 : Int) ≤ _; decide, nofun⟩⟩

/-! ### `CheckInvariants` -/

/-- The loops of `CheckInvariants` find nothing and count everything. -/
theorem census_ok (l : List (ListName × Nat)) : ∀ c : Census, (l.map Prod.snd).Nodup →
    (∀ x ∈ l, x.2 ∉ c.seen ∧ x.2 ∈ e.byID ∧ (x.1 = .waiting → (e.heap x.2).kvHeld = 0)) →
    ∃ seen, l.foldlM e.checkSeq c =
      .ok ⟨seen, c.live + l.length, c.kv + (l.map fun x => (e.heap x.2).kvHeld).sum⟩ := by
  induction l with
  | nil => exact fun c _ _ => ⟨c.seen, by simp [pure, Except.pure]⟩
  | cons x l ih =>
    intro c hnd hall
    obtain ⟨hx, hnd'⟩ := nodup_cons.mp hnd
    obtain ⟨hseen, hbyID, hwait⟩ := hall x mem_cons_self
    have hone : e.checkSeq c x =
        .ok ⟨x.2 :: c.seen, c.live + 1, c.kv + (e.heap x.2).kvHeld⟩ := by
      simp only [checkSeq, hseen, if_false, hbyID, not_true_eq_false]
      rw [if_neg (fun hw => hw.2 (hwait hw.1))]
    obtain ⟨seen, hrest⟩ := ih ⟨x.2 :: c.seen, c.live + 1, c.kv + (e.heap x.2).kvHeld⟩ hnd'
      (fun y hy => by
        obtain ⟨hys, hyb, hyw⟩ := hall y (mem_cons_of_mem x hy)
        refine ⟨fun hmem => ?_, hyb, hyw⟩
        rcases mem_cons.mp hmem with heq | hmem
        · exact hx (heq ▸ mem_map_of_mem hy)
        · exact hys hmem)
    refine ⟨seen, ?_⟩
    rw [foldlM_cons, hone]
    refine hrest.trans ?_
    simp only [length_cons, map_cons, sum_cons, add_assoc, Nat.add_comm 1]

/-- All entries of the lists, each with the name of its list. -/
theorem entries_perm (e : Engine) {order : List ListName}
    (h : order.Perm [.waiting, .prefilling, .running]) :
    (order.flatMap fun n => (e.list n).map fun i => (n, i)).Perm
      (e.waiting.map (Prod.mk ListName.waiting) ++ e.prefilling.map (Prod.mk ListName.prefilling) ++
        e.running.map (Prod.mk ListName.running)) := by
  refine (h.flatMap_right _).trans ?_
  simp only [flatMap_cons, flatMap_nil, list, append_nil, append_assoc]
  exact .refl _

theorem Settled.checkInvariants_eq_none (h : Settled e) {order : List ListName}
    (horder : order.Perm [.waiting, .prefilling, .running]) : e.checkInvariants order = none := by
  have hperm := e.entries_perm horder
  have hids : ((order.flatMap fun n => (e.list n).map fun i => (n, i)).map Prod.snd).Perm
      e.live := by
    refine (hperm.map Prod.snd).trans ?_
    simp only [map_append, map_map, live, comp_def, map_id']
    exact .refl _
  obtain ⟨seen, hcensus⟩ := census_ok (e := e) _ ⟨[], 0, 0⟩ (hids.nodup_iff.mpr h.core.nodup)
    (fun x hx => by
      have hx' := hids.mem_iff.mp (mem_map_of_mem (f := Prod.snd) hx)
      refine ⟨not_mem_nil, (h.core.indexed x.2).mpr hx', fun hw => ?_⟩
      have hmem := hperm.mem_iff.mp hx
      simp only [mem_append, mem_map] at hmem
      rcases hmem with (⟨i, hi, rfl⟩ | ⟨i, hi, rfl⟩) | ⟨i, hi, rfl⟩
      · exact (h.core.waiting i hi).kvHeld
      · cases hw
      · cases hw)
  have hlen := hids.length_eq
  rw [length_map] at hlen
  have hsum : ((order.flatMap fun n => (e.list n).map fun i => (n, i)).map
      fun x => (e.heap x.2).kvHeld).sum = e.kvUsed := by
    rw [h.core.kv, held, ← (hids.map fun i => (e.heap i).kvHeld).sum_eq, map_map]
    rfl
  have hcard : e.byID.card = e.live.length := by
    rw [← toFinset_card_of_nodup h.core.nodup]
    congr 1
    ext i
    rw [h.core.indexed, mem_toFinset]
  have hnonneg : 0 ≤ e.kvUsed := by
    rw [h.core.kv]
    refine sum_nonneg fun x hx => ?_
    obtain ⟨i, hi, rfl⟩ := mem_map.mp hx
    exact h.core.held_nonneg hi
  simp only [checkInvariants, hcensus, hlen, hsum, hcard, zero_add]
  rw [if_neg (fun hne => hne rfl), if_neg (fun hne => hne rfl),
    if_neg (by have := h.core.kvMax; omega), if_neg (not_lt.mpr h.core.slots)]
  refine List.findSome?_eq_none_iff.mpr fun i hi => ?_
  rw [if_neg]
  exact not_not.mpr (h.core.running i hi).kvHeld

/-- What holds after every call of a run. -/
structure Consistent (e : Engine) : Prop where
  /-- `CheckInvariants` finds nothing, in whatever order it visits the lists. -/
  checked : ∀ order : List ListName, order.Perm [.waiting, .prefilling, .running] →
    e.checkInvariants order = none
  /-- What waits fits again. -/
  fits : ∀ i ∈ e.waiting, (e.heap i).prefillTarget + 1 ≤ e.cfg.budget
  bounded : (e.live.length : Int) ≤ e.cfg.maxSeqs + e.cfg.maxQueue
  tally : e.submitted = e.completed + e.cancelled + e.kvEnded + e.live.length
  unspent : e.guardSpent = false
  idle : e.busy = false → e.live = []

theorem Settled.consistent (h : Settled e) : Consistent e :=
  ⟨fun _ => h.checkInvariants_eq_none, fun i hi => (h.core.waiting i hi).fits, h.core.room,
    h.core.tally, h.unspent, fun hb => (h.idle hb).1⟩

/-- **The engine is consistent after every call**, for every valid configuration, all draws and
every run of calls. -/
theorem consistent_of_reach {cfg : Config} (hcfg : cfg.validate = none) (d : Draws)
    (h : Machine.Reach (Engine.step d) (newEngine cfg) e) : Consistent e ∧ e.cfg = cfg := by
  have hcame := (newEngine_ready hcfg).came h
  exact ⟨hcame.settled.consistent, hcame.cfg⟩

/-- A small worker that prefills two tokens at a time. -/
def smallConfig : Config :=
  { params :=
      { name := "small", provenance := "example", stepBaseMs := 20, stepPerSeqMs := 1,
        stepNoiseCV := 0, prefillFixedMs := 5, prefillPerTokenMs := 1 / 10, prefillNoiseCV := 0,
        prefillChunkTokens := 2, kvBudgetTokens := 12, kvBytesPerToken := 1, weightsMB := 1,
        outputCV := 0, outputFraction := 0 }
    maxSeqs := 2
    maxQueue := 3
    outputMeanTokens := 4 }

/-- Draws that change nothing. -/
def plainDraws : Draws := ⟨fun _ => 1, fun _ => 1⟩

/-- Four requests, of which the second is cancelled in the middle of an iteration that has it. -/
def busyRun : List Move :=
  [⟨.submit 0 ⟨3, 0⟩, 9⟩, ⟨.submit 1000000 ⟨4, 0⟩, 9⟩, ⟨.submit 2000000 ⟨5, 0⟩, 9⟩,
    ⟨.submit 3000000 ⟨2, 0⟩, 9⟩, ⟨.advance 60000000, 20⟩, ⟨.cancel 62000000 2, 20⟩]

theorem consistent_after_busyRun :
    ∃ e, Machine.runActs (Engine.step plainDraws) (newEngine smallConfig) busyRun = some e ∧
      (e.preemptions = 2 ∧ e.cancelled = 1 ∧ e.busy = true) ∧ Consistent e ∧
        e.cfg = smallConfig := by
  obtain ⟨e, he, hfacts⟩ : ∃ e ∈ Machine.runActs (Engine.step plainDraws)
    (newEngine smallConfig) busyRun,
      e.preemptions = 2 ∧ e.cancelled = 1 ∧ e.busy = true := by
    decide +kernel
  exact ⟨e, he, hfacts,
    consistent_of_reach (by decide +kernel) plainDraws (Machine.reach_of_runActs .refl busyRun he)⟩

end Engine

end ServerFlow.Sim
