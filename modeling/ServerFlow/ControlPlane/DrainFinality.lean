import ServerFlow.ControlPlane.Incarnations
import ServerFlow.Gateway.Snapshot

/-!
# ControlPlane.DrainFinality

A drain is final. `FAILED` may be followed by `READY`, so this does not rest on the states alone:
the registry remembers that a registration has drained, and only a new registration forgets it. The
gateway's copy ages, and aging makes no worker eligible.
-/

namespace ServerFlow.ControlPlane

open List
open Resilience (Time Duration)
open Gateway (WorkerState Health SnapshotCache schedulable)
open Protocol (WorkerInfo Metrics Heartbeat WorkerSnapshot)

variable {okGateway : String → Bool}

namespace Sys

variable {okAddress : String → Bool} {s s₁ t : Sys} {c : Call} {id g : String} {ans : Answer}

/-! ### The flag along a run -/

/-- Whatever a worker has registered as since `s₁`, its registration `g` of then has drained. -/
def DrainedSince (s₁ : Sys) (id g : String) (t : Sys) : Prop :=
  ∃ new, t.log = s₁.log ++ new ∧ ∀ e, t.reg.workers.lookup id = some e →
    (e.regID = g ∧ e.drained = true) ∨ (id, e.regID) ∈ new

/-- The entry that a worker has is one it has registered since `s₁`. -/
def Renewed (s₁ : Sys) (id g : String) (t : Sys) : Prop :=
  ∃ e new, t.reg.workers.lookup id = some e ∧ t.log = s₁.log ++ new ∧ (id, e.regID) ∈ new ∧
    e.regID ≠ g

theorem DrainedSince.effect {t' : Sys} (h : DrainedSince s₁ id g t) (heff : Effect t c t' ans) :
    DrainedSince s₁ id g t' := by
  obtain ⟨new, hlog, hentry⟩ := h
  obtain ⟨more, hmore⟩ := heff.log_extends
  refine ⟨new ++ more, by rw [hmore, hlog, append_assoc], ?_⟩
  intro e' he'
  cases heff.origin he' with
  | @kept e he hsame _ =>
    rw [hsame]
    exact (hentry e he).imp_right (mem_append_left more)
  | @beat e g' hb hop he hallowed hbeat _ =>
    rw [hbeat]
    refine (hentry e he).imp ?_ (mem_append_left more)
    rintro ⟨hreg, hd⟩
    exact ⟨hreg, Bool.or_eq_true_iff.mpr (.inl hd)⟩
  | @registered info g' hop hid hnew _ hlog' =>
    have hone : more = [(id, g')] := append_cancel_left (hmore.symm.trans hlog')
    refine .inr (mem_append_right new ?_)
    rw [hone, hnew]
    exact mem_singleton_self _

/-- An accepted report of `DRAINING` marks the registration. -/
theorem Ok.drainedSince {hb : Heartbeat} {now : Time} (h : Ok s) (hdrain : hb.state = .draining)
    (hacc : (s.call okAddress ⟨.heartbeat id g hb, now⟩).2 = .accepted) :
    DrainedSince (s.call okAddress ⟨.heartbeat id g hb, now⟩).1 id g
      (s.call okAddress ⟨.heartbeat id g hb, now⟩).1 ∧
    (id, g) ∈ (s.call okAddress ⟨.heartbeat id g hb, now⟩).1.log := by
  have heff := h.call_effect okAddress ⟨.heartbeat id g hb, now⟩
  generalize hcall : s.call okAddress ⟨.heartbeat id g hb, now⟩ = r at heff hacc ⊢
  obtain ⟨s', ans⟩ := r
  cases heff with
  | rejected err => cases hacc
  | registered hop _ _ => cases hop
  | deregistered hop _ _ => cases hop
  | swept hop => cases hop
  | @beat id' g' hb' e hop he hg _ =>
    cases hop
    refine ⟨⟨[], (append_nil _).symm, ?_⟩, ?_⟩
    · intro e' he'
      rw [AList.lookup_insert_ite, if_pos rfl] at he'
      rw [← Option.some.inj he']
      exact .inl ⟨hg, Bool.or_eq_true_iff.mpr (.inr (decide_eq_true hdrain))⟩
    · have hlatest := h.current id e he
      rw [hg] at hlatest
      exact mem_log_of_latest hlatest

theorem DrainedSince.reach (h : DrainedSince s₁ id g s₁) (hok : Ok s₁)
    (ht : Machine.Reach (Sys.step okAddress) s₁ t) : DrainedSince s₁ id g t := by
  have hboth : Ok t ∧ DrainedSince s₁ id g t := by
    refine ht.invariant (P := fun t => Ok t ∧ DrainedSince s₁ id g t) ⟨hok, h⟩ ?_
    intro t t' c ⟨hok, h⟩ hstep
    refine ⟨hok.step hstep, ?_⟩
    obtain ⟨-, rfl⟩ := step_eq_some.mp hstep
    exact h.effect (hok.call_effect _ c)
  exact hboth.2

/-- An entry that has not drained is one registered since. -/
theorem DrainedSince.renewed {e : Entry} (h : DrainedSince s₁ id g t) (hok : Ok t)
    (hg : (id, g) ∈ s₁.log) (he : t.reg.workers.lookup id = some e) (hd : e.drained ≠ true) :
    Renewed s₁ id g t := by
  obtain ⟨new, hlog, hentry⟩ := h
  rcases hentry e he with ⟨-, hd'⟩ | hnew
  · exact absurd hd' hd
  · refine ⟨e, new, he, hlog, hnew, ?_⟩
    -- no ID is issued twice
    intro hreg
    have hissued := hok.issued
    rw [hlog, map_append, nodup_append] at hissued
    exact hissued.2.2 g (mem_map_of_mem (f := Prod.snd) hg) e.regID
      (mem_map_of_mem (f := Prod.snd) hnew) hreg.symm

/-! ### What is shown -/

/-- What is shown of a drained entry is neither ready nor eligible, whatever its age. -/
theorem Ok.drained_shown {e : Entry} (h : Ok t) (he : t.reg.workers.lookup id = some e)
    (hd : e.drained = true) (now : Time) :
    (t.reg.snapshot e now).state ≠ .ready ∧ (t.reg.snapshot e now).eligible = false := by
  have hstate : t.reg.effective e now ≠ .ready := by
    unfold Registry.effective
    have hne : e.state ≠ .ready := by
      rcases h.drained id e he hd with hs | hs <;> rw [hs] <;> decide
    split
    · decide
    · decide
    · exact hne
  refine ⟨hstate, ?_⟩
  simp only [Registry.snapshot, decide_eq_false hstate, Bool.false_and]

variable {w : WorkerSnapshot}

theorem DrainedSince.listed {f : Registry.ListFilter} {now : Time} (h : DrainedSince s₁ id g t)
    (hok : Ok t) (hg : (id, g) ∈ s₁.log) (hw : w ∈ t.reg.list f now) (hid : w.workerID = id)
    (hshown : w.state = .ready ∨ w.eligible = true) : Renewed s₁ id g t := by
  obtain ⟨e, he, rfl⟩ := hok.mem_list hw
  rw [hid] at he
  refine h.renewed hok hg he fun hd => ?_
  obtain ⟨hstate, helig⟩ := hok.drained_shown he hd now
  rcases hshown with hs | hs
  · exact hstate hs
  · rw [helig] at hs
    cases hs

/-! ### What the gateway offers -/

/-- An eligible worker of a snapshot, however old, is one that the registry listed as eligible. -/
theorem listed_of_offered {started : Time} {ws : List WorkerSnapshot}
    {model : String} {age : Duration} (c : SnapshotCache)
    (hw : w ∈ c.aged ((Gateway.takeSnapshot okGateway started ws).workers model) age)
    (helig : w.eligible = true) :
    ∃ w₀ ∈ ws, w₀.workerID = w.workerID ∧ w₀.model = model ∧ w₀.eligible = true := by
  obtain ⟨w₁, hw₁, rfl⟩ := mem_map.mp hw
  obtain ⟨w₀, hw₀, hmodel, rfl⟩ := Gateway.mem_takeSnapshot.mp hw₁
  rw [SnapshotCache.ageWorker_eligible, Bool.and_eq_true] at helig
  have hsame := SnapshotCache.judged_eligible helig.1
  rw [hsame] at helig
  exact ⟨w₀, hw₀, by rw [SnapshotCache.ageWorker_workerID, hsame], hmodel, helig.1⟩

/-- What a gateway that refreshed from `served` offers of a worker: a view, the lookup of the
worker, or a model that has nobody else to serve it. -/
inductive Offers (cache : SnapshotCache) (served : List WorkerSnapshot) (id : String) : Prop
  | view (order : List String) (model : String) (now at_ : Time) (view : List WorkerSnapshot)
      (hview : (cache.viewAt order model now).2.2 = some (view, at_)) (w : WorkerSnapshot)
      (hw : w ∈ view) (hid : w.workerID = id) (hsched : schedulable w.toWorkerSnapshot = true)
  | worker (model : String) (now : Time) (w : WorkerSnapshot)
      (hw : cache.worker model id now = some w) (hsched : schedulable w.toWorkerSnapshot = true)
  | model (order : List String) (now : Time) (models : List String) (m : String)
      (hmodels : cache.models order now = some models) (hm : m ∈ models)
      (halone : ∀ w ∈ served, w.workerID ≠ id → w.model = m → w.eligible = false)

theorem DrainedSince.offered {cache : SnapshotCache}
    {order : List String} {started refreshed served : Time} (h : DrainedSince s₁ id g t)
    (hok : Ok t) (hg : (id, g) ∈ s₁.log)
    (hoffers : Offers (cache.refresh okGateway order started refreshed (t.reg.list .all served)).1
      (t.reg.list .all served) id) : Renewed s₁ id g t := by
  cases hoffers with
  | view order' model now at_ view hview w hw hid hsched =>
    obtain ⟨s, age, hfresh, rfl, -⟩ := SnapshotCache.viewAt_eq_some hview
    rw [(SnapshotCache.fresh_refresh hfresh).1] at hw
    obtain ⟨w₀, hw₀, hid₀, -, helig⟩ :=
      listed_of_offered _ hw (SnapshotCache.eligible_of_schedulable hsched).2
    exact h.listed hok hg hw₀ (hid₀.trans hid) (.inr helig)
  | worker model now w hworker hsched =>
    obtain ⟨s, age, hfresh, hw, hid⟩ := SnapshotCache.worker_eq_some hworker
    rw [(SnapshotCache.fresh_refresh hfresh).1] at hw
    obtain ⟨w₀, hw₀, hid₀, -, helig⟩ :=
      listed_of_offered _ hw (SnapshotCache.eligible_of_schedulable hsched).2
    exact h.listed hok hg hw₀ (hid₀.trans hid) (.inr helig)
  | model order' now models m hmodels hm halone =>
    obtain ⟨s, age, hfresh, w, hw, helig⟩ := SnapshotCache.models_eq_some hmodels hm
    rw [(SnapshotCache.fresh_refresh hfresh).1] at hw
    obtain ⟨w₀, hw₀, -, hmodel, helig₀⟩ := listed_of_offered _ hw helig
    by_cases hid : w₀.workerID = id
    · exact h.listed hok hg hw₀ hid (.inr helig₀)
    · rw [halone w₀ hw₀ hid hmodel] at helig₀
      cases helig₀

/-! ### Finality -/

/-- **A drain is final.** Once the registry has accepted a report of `DRAINING` for a registration,
in every continuation: where a listing or a lookup shows the worker ready or eligible, or a gateway
that refreshes from then on offers it, at whatever age of its snapshot, the worker has registered
again. -/
theorem drain_is_final {okAddress : String → Bool} {cfg : Config} {s t : Sys}
    {id g : String} {hb : Heartbeat} {now : Time} (hcfg : cfg.validate = none)
    (hs : Machine.Reach (Sys.step okAddress) (Sys.init cfg) s) (hdrain : hb.state = .draining)
    (hacc : (s.call okAddress ⟨.heartbeat id g hb, now⟩).2 = .accepted)
    (ht : Machine.Reach (Sys.step okAddress) (s.call okAddress ⟨.heartbeat id g hb, now⟩).1 t) :
    (∀ f at_, ∀ w ∈ t.reg.list f at_, w.workerID = id → w.state = .ready ∨ w.eligible = true →
      Renewed (s.call okAddress ⟨.heartbeat id g hb, now⟩).1 id g t) ∧
    (∀ at_ w, t.reg.get id at_ = some w → w.state = .ready ∨ w.eligible = true →
      Renewed (s.call okAddress ⟨.heartbeat id g hb, now⟩).1 id g t) ∧
    ∀ (okGateway : String → Bool) (cache : SnapshotCache) order started refreshed served,
      Offers (cache.refresh okGateway order started refreshed (t.reg.list .all served)).1
        (t.reg.list .all served) id →
      Renewed (s.call okAddress ⟨.heartbeat id g hb, now⟩).1 id g t := by
  have hok : Ok s := (Ok.init hcfg).reach hs
  obtain ⟨hsince, hg⟩ := hok.drainedSince hdrain hacc
  have hok₁ : Ok (s.call okAddress ⟨.heartbeat id g hb, now⟩).1 :=
    hok.effect (c := ⟨.heartbeat id g hb, now⟩) trivial (hok.call_effect okAddress _)
  have hokt := hok₁.reach ht
  have hsincet := hsince.reach hok₁ ht
  refine ⟨?_, ?_, ?_⟩
  · intro f at_ w hw hid hshown
    exact hsincet.listed hokt hg hw hid hshown
  · intro at_ w hget hshown
    obtain ⟨e, he, rfl⟩ := Option.map_eq_some_iff.mp hget
    refine hsincet.renewed hokt hg he fun hd => ?_
    obtain ⟨hstate, helig⟩ := hokt.drained_shown he hd at_
    rcases hshown with hs | hs
    · exact hstate hs
    · rw [helig] at hs
      cases hs
  · intro okGateway cache order started refreshed served hoffers
    exact hsincet.offered hokt hg hoffers

/-- A worker registers and is ready. -/
def beforeDrain : List Call :=
  [⟨.register (worker "a") "g1", 0⟩, ⟨.heartbeat "a" "g1" (report "g1" .ready), 1⟩]

/-- After the drain, the failure, the report that is refused, a new registration and its first
report, the worker is eligible again, as a new registration. -/
def afterDrain : List Call :=
  [⟨.heartbeat "a" "g1" (report "g1" .failed), 3⟩, ⟨.heartbeat "a" "g1" (report "g1" .ready), 4⟩,
    ⟨.register (worker "a") "g2", 5⟩, ⟨.heartbeat "a" "g2" (report "g2" .ready), 6⟩]

theorem drain_is_final_registered_again : ∃ s t,
    Machine.Reach (Sys.step fun _ => true) (Sys.init smallConfig) s ∧
    Machine.Reach (Sys.step fun _ => true)
      (s.call (fun _ => true) ⟨.heartbeat "a" "g1" (report "g1" .draining), 2⟩).1 t ∧
    ((t.reg.get "a" 7).any fun w => w.eligible) = true ∧
    Renewed (s.call (fun _ => true) ⟨.heartbeat "a" "g1" (report "g1" .draining), 2⟩).1 "a" "g1"
      t := by
  obtain ⟨s, hs, hacc, t, ht, w, hw, helig⟩ :
      ∃ s ∈ Machine.runActs (Sys.step fun _ => true) (Sys.init smallConfig) beforeDrain,
        (s.call (fun _ => true) ⟨.heartbeat "a" "g1" (report "g1" .draining), 2⟩).2 = .accepted ∧
        ∃ t ∈ Machine.runActs (Sys.step fun _ => true)
          (s.call (fun _ => true) ⟨.heartbeat "a" "g1" (report "g1" .draining), 2⟩).1 afterDrain,
          ∃ w ∈ t.reg.get "a" 7, w.eligible = true := by
    decide +kernel
  have hreach := Machine.reach_of_runActs .refl beforeDrain hs
  have hreach' := Machine.reach_of_runActs .refl afterDrain ht
  exact ⟨s, t, hreach, hreach', (Option.any_eq_true _ _).mpr ⟨w, hw, helig⟩,
    (drain_is_final (by decide) hreach rfl hacc hreach').2.1 7 w hw (.inr helig)⟩

end Sys

end ServerFlow.ControlPlane
