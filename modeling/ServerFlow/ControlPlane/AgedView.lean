import ServerFlow.ControlPlane.Incarnations
import ServerFlow.Gateway.Snapshot

/-!
# ControlPlane.AgedView

The gateway's view is never more optimistic than the registry. The gateway stamps a snapshot with
the time before it asked for it, so the age it adds to a heartbeat age is at least the time that has
passed since the registry measured it; and its threshold is not above the registry's.

Instants are readings of the registry's clock. The gateway's clock runs at the same rate, `offset`
ahead.
-/

namespace ServerFlow.ControlPlane

open Option
open Resilience (Time Duration)
open Gateway (WorkerState Health SnapshotCache schedulable seconds)
open Protocol (WorkerInfo Metrics Heartbeat WorkerSnapshot)

variable {okGateway : String → Bool}

theorem Config.ordered_of_validate {cfg : Config} (h : cfg.validate = none) :
    cfg.suspect < cfg.unhealthy ∧ cfg.unhealthy < cfg.lost ∧ 0 < cfg.retention := by
  unfold Config.validate at h
  split_ifs at h with hpos hord
  simp only [not_or, not_le, ge_iff_le] at hpos hord
  exact ⟨hord.1, hord.2, hpos.2.2.2.1⟩

/-- The age of an entry grows at most as fast as the clock. -/
theorem Entry.age_le (e : Entry) {served at_ : Time} (h : served ≤ at_) :
    e.age at_ ≤ e.age served + (at_ - served) := by
  unfold Entry.age
  split <;> split <;> linarith

theorem Entry.age_mono (e : Entry) {now at_ : Time} (h : now ≤ at_) : e.age now ≤ e.age at_ := by
  unfold Entry.age
  split <;> split <;> linarith

namespace Sys

/-! ### A worker that is silent -/

/-- The call is a message of the worker. -/
def Call.sentBy (id : String) (c : Call) : Prop :=
  match c.op with
  | .register info _ => info.workerID = id
  | .heartbeat id' _ _ => id' = id
  | .deregister id' _ => id' = id
  | .sweep => False

instance (id : String) (c : Call) : Decidable (Call.sentBy id c) :=
  match c with
  | ⟨.register _ _, _⟩ => inferInstanceAs (Decidable (_ = _))
  | ⟨.heartbeat _ _ _, _⟩ => inferInstanceAs (Decidable (_ = _))
  | ⟨.deregister _ _, _⟩ => inferInstanceAs (Decidable (_ = _))
  | ⟨.sweep, _⟩ => isFalse not_false

/-- The calls up to an instant in which a worker is silent. -/
def silentStep (okAddress : String → Bool) (id : String) (until_ : Time) (s : Sys) (c : Call) :
    Option Sys :=
  if c.now ≤ until_ ∧ ¬ Call.sentBy id c then s.step okAddress c else none

variable {okAddress : String → Bool} {s t : Sys} {id : String} {e : Entry} {until_ : Time}

/-- What is stored about a silent worker stays, as long as its entry is not old enough to be
evicted. -/
theorem stored_of_silent (hok : Ok s) (he : s.reg.workers.lookup id = some e)
    (hyoung : e.age until_ ≤ s.reg.cfg.lost + s.reg.cfg.retention)
    (ht : Machine.Reach (silentStep okAddress id until_) s t) :
    Ok t ∧ t.reg.cfg = s.reg.cfg ∧ t.stored id = s.stored id := by
  refine ht.invariant (P := fun t => Ok t ∧ t.reg.cfg = s.reg.cfg ∧ t.stored id = s.stored id)
    ⟨hok, rfl, rfl⟩ ?_
  intro t t' c ⟨hokt, hcfg, hstored⟩ hstep
  unfold silentStep at hstep
  split at hstep
  next hsilent =>
    obtain ⟨hnow, hnot⟩ := hsilent
    obtain ⟨hfresh, rfl⟩ := step_eq_some.mp hstep
    have heff := hokt.call_effect okAddress c
    refine ⟨hokt.effect hfresh heff, heff.cfg_eq.trans hcfg, ?_⟩
    by_contra hne
    rw [← hstored] at hne
    cases hokt.cause heff hne with
    | registered info g hop hid _ =>
      refine hnot ?_
      simpa only [Call.sentBy, hop] using hid
    | beat g hb hop _ _ =>
      refine hnot ?_
      simp only [Call.sentBy, hop]
    | deregistered g hop _ _ =>
      refine hnot ?_
      simp only [Call.sentBy, hop]
    | evicted e' he' hold _ =>
      -- the entry has the time of the last report that it had
      have hlast : e'.lastBeat = e.lastBeat := by
        simp only [stored, he, he', map_some, some.injEq, Prod.mk.injEq] at hstored
        exact hstored.2.2.2.2
      have hage : e'.age c.now = e.age c.now := by simp only [Entry.age, hlast]
      have hmono := e.age_mono hnow
      rw [hage, hcfg] at hold
      linarith
  next => cases hstep

/-! ### Eligibility in the registry -/

theorem state_of_eligible {r : Registry} {now : Time} (h : (r.snapshot e now).eligible = true) :
    e.state = .ready := by
  simp only [Registry.snapshot, Bool.and_eq_true, decide_eq_true_eq] at h
  have hready := h.1
  unfold Registry.effective at hready
  split at hready
  · cases hready
  · cases hready
  · exact hready

/-- A ready worker that was heard of recently is eligible. -/
theorem eligible_of_young {r : Registry} {now : Time}
    (hord : r.cfg.suspect < r.cfg.unhealthy ∧ r.cfg.unhealthy < r.cfg.lost)
    (hready : e.state = .ready) (hyoung : e.age now < r.cfg.suspect) :
    (r.snapshot e now).eligible = true := by
  have hhealth : r.cfg.healthAt (e.age now) = .healthy := by
    unfold Config.healthAt
    rw [if_neg (by linarith), if_neg (by linarith), if_neg (by linarith)]
  simp only [Registry.snapshot, Registry.effective, hhealth, hready, decide_true, Bool.true_or,
    Bool.and_self]

/-! ### The gateway -/

theorem seconds_lt_iff {a b : Duration} : seconds a < seconds b ↔ a < b := by
  unfold seconds
  rw [div_lt_div_iff_of_pos_right (by norm_num)]
  exact Int.cast_lt

theorem seconds_add (a b : Duration) : seconds a + seconds b = seconds (a + b) := by
  simp only [seconds, Int.cast_add, add_div]

/-- An eligible worker of an aged snapshot was eligible when the registry served it, and its age
then and the age of the snapshot together are below the gateway's threshold. -/
theorem young_of_offered {c : SnapshotCache} {started served : Time} {model : String}
    {age : Duration} {w : WorkerSnapshot} (hok : Ok s)
    (hw : w ∈ c.aged ((Gateway.takeSnapshot okGateway started (s.reg.list .all served)).workers
      model)
      age) (helig : w.eligible = true) :
    ∃ e, s.reg.workers.lookup w.workerID = some e ∧ e.state = .ready ∧
      e.age served + age < c.suspectAfter := by
  obtain ⟨w₁, hw₁, rfl⟩ := List.mem_map.mp hw
  obtain ⟨w₀, hw₀, hmodel, rfl⟩ := Gateway.mem_takeSnapshot.mp hw₁
  rw [SnapshotCache.ageWorker_eligible, Bool.and_eq_true, decide_eq_true_eq] at helig
  obtain ⟨helig, hlt⟩ := helig
  have hsame := SnapshotCache.judged_eligible helig
  rw [hsame] at helig hlt
  obtain ⟨e, he, rfl⟩ := hok.mem_list hw₀
  refine ⟨e, ?_, state_of_eligible helig, ?_⟩
  · rw [SnapshotCache.ageWorker_workerID, hsame]
    exact he
  · rw [show (s.reg.snapshot e served).heartbeatAgeSeconds = seconds (e.age served) from rfl,
      seconds_add, seconds_lt_iff] at hlt
    exact hlt

/-- What the gateway offers of a silent worker, the registry would mark eligible. -/
theorem registry_agrees {c : SnapshotCache} {started served offset : Time} {model : String}
    {w : WorkerSnapshot} (hok : Ok s)
    (hord : s.reg.cfg.suspect < s.reg.cfg.unhealthy ∧ s.reg.cfg.unhealthy < s.reg.cfg.lost ∧
      0 < s.reg.cfg.retention) (hsuspect : c.suspectAfter ≤ s.reg.cfg.suspect)
    (hfetch : started ≤ served + offset) (hlater : served ≤ until_)
    (ht : Machine.Reach (silentStep okAddress w.workerID until_) s t)
    (hw : w ∈ c.aged ((Gateway.takeSnapshot okGateway started (s.reg.list .all served)).workers
      model)
      (until_ + offset - started)) (helig : w.eligible = true) :
    ∃ w', t.reg.get w.workerID until_ = some w' ∧ w'.eligible = true := by
  obtain ⟨e, he, hready, hyoung⟩ := young_of_offered hok hw helig
  have hage := e.age_le hlater
  have hlt : e.age until_ < s.reg.cfg.suspect := by linarith
  obtain ⟨-, hcfg, hstored⟩ := stored_of_silent hok he (by linarith) ht
  simp only [stored, he, map_some, map_eq_some_iff, Prod.mk.injEq] at hstored
  obtain ⟨e', he', hstate, -, -, -, hlast⟩ := hstored
  have hage' : e'.age until_ = e.age until_ := by simp only [Entry.age, hlast]
  refine ⟨t.reg.snapshot e' until_, by rw [Registry.get, he', map_some], ?_⟩
  refine eligible_of_young ?_ (hstate.trans hready) ?_
  · rw [hcfg]
    exact ⟨hord.1, hord.2.1⟩
  · rw [hcfg, hage']
    exact hlt

/-- **The aged view is never more optimistic than the registry.** The gateway recorded its fetch
time before the snapshot was served, and its threshold is not above the registry's. At every later
instant, if its view or its lookup has a worker that has been silent since as schedulable, the
registry asked at that instant has it as eligible. And in one snapshot, whatever is in it, a worker
that is eligible at some age was so at every smaller age. -/
theorem aged_view_not_optimistic {okAddress okGateway : String → Bool} {cfg : Config} {s t : Sys}
    {cache : SnapshotCache} {order : List String} {started refreshed served offset at_ : Time}
    {id : String} (hcfg : cfg.validate = none)
    (hs : Machine.Reach (Sys.step okAddress) (Sys.init cfg) s)
    (hsuspect : cache.suspectAfter ≤ cfg.suspect) (hfetch : started ≤ served + offset)
    (hlater : served ≤ at_) (ht : Machine.Reach (silentStep okAddress id at_) s t) :
    (∀ order' model view va, ((cache.refresh okGateway order started refreshed
        (s.reg.list .all served)).1.viewAt order' model (at_ + offset)).2.2 = some (view, va) →
      ∀ w ∈ view, w.workerID = id → schedulable w.toWorkerSnapshot = true →
        ∃ w', t.reg.get id at_ = some w' ∧ w'.eligible = true) ∧
    (∀ model w, (cache.refresh okGateway order started refreshed
        (s.reg.list .all served)).1.worker model id (at_ + offset) = some w →
      schedulable w.toWorkerSnapshot = true →
        ∃ w', t.reg.get id at_ = some w' ∧ w'.eligible = true) ∧
    ∀ (c : SnapshotCache) order' model (now later : Time) view va, now ≤ later →
      (c.viewAt order' model later).2.2 = some (view, va) →
      ∃ view₀ va₀, (c.viewAt order' model now).2.2 = some (view₀, va₀) ∧
        ∀ (i : Nat) (w : WorkerSnapshot), view[i]? = some w → w.eligible = true →
          ∃ w₀, view₀[i]? = some w₀ ∧ w₀.workerID = w.workerID ∧ w₀.eligible = true := by
  have hok : Ok s := (Ok.init hcfg).reach hs
  have hcfg' : s.reg.cfg = cfg := cfg_of_reach (Ok.init hcfg) hs
  have hord := Config.ordered_of_validate hcfg
  rw [← hcfg'] at hord hsuspect
  obtain ⟨nextAge, hcur⟩ :=
    cache.cur_refresh okGateway order started refreshed (s.reg.list .all served)
  have hafter : (cache.refresh okGateway order started refreshed
      (s.reg.list .all served)).1.suspectAfter ≤ s.reg.cfg.suspect := by
    rw [hcur]
    exact hsuspect
  refine ⟨?_, ?_, ?_⟩
  · intro order' model view va hview w hw hid hsched
    subst hid
    obtain ⟨snap, age, hfresh, rfl, -⟩ := SnapshotCache.viewAt_eq_some hview
    obtain ⟨hworkers, rfl⟩ := SnapshotCache.fresh_refresh hfresh
    rw [hworkers] at hw
    exact registry_agrees hok hord hafter hfetch hlater ht hw
      (SnapshotCache.eligible_of_schedulable hsched).2
  · intro model w hworker hsched
    obtain ⟨snap, age, hfresh, hw, rfl⟩ := SnapshotCache.worker_eq_some hworker
    obtain ⟨hworkers, rfl⟩ := SnapshotCache.fresh_refresh hfresh
    rw [hworkers] at hw
    exact registry_agrees hok hord hafter hfetch hlater ht hw
      (SnapshotCache.eligible_of_schedulable hsched).2
  · intro c order' model now later view va hle hview
    exact SnapshotCache.viewAt_antitone hle hview

/-- A gateway that trusts a snapshot for ten nanoseconds, with the registry's threshold. -/
def smallCache : SnapshotCache := Gateway.newSnapshotCache 10 3 false

/-- Calls in which the worker `a` becomes ready. -/
def readyRun : List Call :=
  [⟨.register (worker "a") "g1", 0⟩, ⟨.heartbeat "a" "g1" (report "g1" .ready), 1⟩]

/-- With clocks that are 100 apart, the gateway has the worker as schedulable one instant after it
sent its request, and so does the registry, which was swept in between. -/
theorem aged_view_not_optimistic_swept : ∃ s t,
    Machine.Reach (Sys.step fun _ => true) (Sys.init smallConfig) s ∧
    Machine.Reach (silentStep (fun _ => true) "a" 2) s t ∧
    (((smallCache.refresh (fun _ => true) [] 101 102 (s.reg.list .all 2)).1.worker "m" "a" 102).any
      fun w => schedulable w.toWorkerSnapshot) = true ∧
    ∃ w', t.reg.get "a" 2 = some w' ∧ w'.eligible = true := by
  obtain ⟨s, hs, ⟨w, hw, hwsched⟩, t, ht, -⟩ :
      ∃ s ∈ Machine.runActs (Sys.step fun _ => true) (Sys.init smallConfig) readyRun,
        (∃ w ∈ (smallCache.refresh (fun _ => true) [] 101 102 (s.reg.list .all 2)).1.worker "m" "a"
          102, schedulable w.toWorkerSnapshot = true) ∧
        ∃ t ∈ Machine.runActs (silentStep (fun _ => true) "a" 2) s [⟨.sweep, 2⟩], True := by
    decide +kernel
  have hreach := Machine.reach_of_runActs .refl readyRun hs
  have hreach' := Machine.reach_of_runActs .refl ([⟨.sweep, 2⟩] : List Call) ht
  refine ⟨s, t, hreach, hreach', (any_eq_true _ _).mpr ⟨w, hw, hwsched⟩, ?_⟩
  have hsuspect : smallCache.suspectAfter ≤ smallConfig.suspect := by decide
  have hfetch : (101 : Time) ≤ 2 + 100 := by decide
  have hlater : (2 : Time) ≤ 2 := le_rfl
  exact (aged_view_not_optimistic (by decide) hreach hsuspect hfetch hlater hreach').2.1 "m" w hw
    hwsched

end Sys

end ServerFlow.ControlPlane
