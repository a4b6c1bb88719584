import ServerFlow.ControlPlane.Registry

/-!
# ControlPlane.Incarnations

Runs of the registry. A worker that restarts registers again and gets a new registration ID; calls
of its previous incarnation may still be on their way, late, twice or out of order. Each call holds
the lock, so a run is any sequence of calls. The registrations that were accepted are logged, and a
new one gets an ID that was never issued before.
-/

namespace ServerFlow.ControlPlane

open List Option AList
open Resilience (Time Duration)
open Gateway (WorkerState)
open Protocol (WorkerInfo Metrics Heartbeat)

/-! ### The system -/

inductive Op
  | register (info : WorkerInfo) (regID : String)
  | heartbeat (id regID : String) (hb : Heartbeat)
  | deregister (id regID : String)
  | sweep

/-- A call, with what the clock reads when it has the lock. -/
structure Call where
  op : Op
  now : Time

inductive Answer
  | registered (regID : String)
  | accepted
  | swept (evicted : Nat)
  | rejected (err : RegistryError)
  deriving Repr, DecidableEq

/-- The registry, with the registrations that were accepted: workers and their registration IDs. -/
structure Sys where
  reg : Registry
  log : List (String × String)

def Sys.init (cfg : Config) : Sys := ⟨newRegistry cfg, []⟩

namespace Sys

variable (okAddress : String → Bool) (s : Sys)

def call (c : Call) : Sys × Answer :=
  match c.op with
  | .register info regID =>
    match s.reg.registerCall okAddress info regID c.now with
    | (reg, .ok g) => (⟨reg, s.log ++ [(info.workerID, g)]⟩, .registered g)
    | (reg, .error err) => (⟨reg, s.log⟩, .rejected err)
  | .heartbeat id regID hb =>
    match s.reg.heartbeatCall id regID hb c.now with
    | (reg, .ok ()) => (⟨reg, s.log⟩, .accepted)
    | (reg, .error err) => (⟨reg, s.log⟩, .rejected err)
  | .deregister id regID =>
    match s.reg.deregister id regID with
    | (reg, .ok ()) => (⟨reg, s.log⟩, .accepted)
    | (reg, .error err) => (⟨reg, s.log⟩, .rejected err)
  | .sweep => (⟨(s.reg.sweep c.now).1, s.log⟩, .swept (s.reg.sweep c.now).2)

/-- The registration ID that a call draws was never issued before. -/
def Fresh (c : Call) : Prop :=
  match c.op with
  | .register _ regID => regID ∉ s.log.map Prod.snd
  | _ => True

instance (c : Call) : Decidable (s.Fresh c) :=
  match c with
  | ⟨.register _ _, _⟩ => inferInstanceAs (Decidable (_ ∉ _))
  | ⟨.heartbeat _ _ _, _⟩ => isTrue trivial
  | ⟨.deregister _ _, _⟩ => isTrue trivial
  | ⟨.sweep, _⟩ => isTrue trivial

def step (c : Call) : Option Sys := if s.Fresh c then some (s.call okAddress c).1 else none

/-- The registration ID of the most recent registration of a worker. -/
def latest (id : String) : Option String :=
  ((s.log.filter fun p => p.1 = id).getLast?).map Prod.snd

/-- What the registry has stored about a worker. -/
def stored (id : String) : Option (WorkerState × Metrics × String × Bool × Time) :=
  (s.reg.workers.lookup id).map fun e => (e.state, e.metrics, e.reason, e.drained, e.lastBeat)

/-! ### What a call does -/

/-- What holds of the system in every run. -/
structure Ok (s : Sys) : Prop where
  /-- An entry has the ID of the most recent registration. -/
  current : ∀ id e, s.reg.workers.lookup id = some e → s.latest id = some e.regID
  key : ∀ id e, s.reg.workers.lookup id = some e → e.info.workerID = id
  drained : ∀ id e, s.reg.workers.lookup id = some e → e.drained = true →
    e.state = .draining ∨ e.state = .failed
  issued : (s.log.map Prod.snd).Nodup
  room : (s.reg.workers.len : Int) ≤ s.reg.cfg.maxWorkers

/-- What a call may do, and what it answers. -/
inductive Effect (s : Sys) (c : Call) : Sys → Answer → Prop
  | rejected (err : RegistryError) : Effect s c s (.rejected err)
  | registered {info : WorkerInfo} {g : String} {kept : GoMap String Entry}
      (hop : c.op = .register info g)
      (hkept : kept = s.reg.workers ∨ kept = (s.reg.evict c.now).workers)
      (hroom : ((kept.insert info.workerID (.new info g c.now)).len : Int) ≤ s.reg.cfg.maxWorkers) :
      Effect s c
        ⟨{ s.reg with workers := kept.insert info.workerID (.new info g c.now) },
          s.log ++ [(info.workerID, g)]⟩ (.registered g)
  | beat {id g : String} {hb : Heartbeat} {e : Entry} (hop : c.op = .heartbeat id g hb)
      (he : s.reg.workers.lookup id = some e) (hg : e.regID = g)
      (hallowed : Registry.allowed e hb.state = true) :
      Effect s c ⟨{ s.reg with workers := s.reg.workers.insert id (s.reg.beat e hb c.now) }, s.log⟩
        .accepted
  | deregistered {id g : String} {e : Entry} (hop : c.op = .deregister id g)
      (he : s.reg.workers.lookup id = some e) (hg : e.regID = g) :
      Effect s c ⟨{ s.reg with workers := s.reg.workers.erase id }, s.log⟩ .accepted
  | swept (hop : c.op = .sweep) :
      Effect s c ⟨(s.reg.sweep c.now).1, s.log⟩ (.swept (s.reg.sweep c.now).2)

variable {okAddress} {s : Sys} {c : Call}

/-- `register` stores a new entry, in place of an old one or where there is room, or it is
refused. -/
theorem register_cases (r : Registry) (info : WorkerInfo) (g : String) (now : Time) :
    (∃ kept : GoMap String Entry,
      (kept = r.workers ∧ ((r.workers.lookup info.workerID).isSome ∨
        (r.workers.len : Int) < r.cfg.maxWorkers) ∨
        kept = (r.evict now).workers ∧ (kept.len : Int) < r.cfg.maxWorkers) ∧
      r.register info g now =
        ({ r with workers := kept.insert info.workerID (.new info g now) }, .ok g)) ∨
    (r.cfg.maxWorkers ≤ ((r.evict now).workers.len : Int) ∧
      r.register info g now = (r.evict now, .error .full)) := by
  unfold Registry.register
  by_cases hknown : (r.workers.lookup info.workerID).isSome = true
  · refine .inl ⟨r.workers, .inl ⟨rfl, .inl hknown⟩, ?_⟩
    simp only [hknown, Bool.not_true, Bool.false_and, Bool.false_eq_true, if_false]
  · have hunknown : (!(r.workers.lookup info.workerID).isSome) = true := by simpa using hknown
    by_cases hroom : (r.workers.len : Int) < r.cfg.maxWorkers
    · refine .inl ⟨r.workers, .inl ⟨rfl, .inr hroom⟩, ?_⟩
      simp only [hunknown, ge_iff_le, not_le.mpr hroom, decide_false, Bool.and_false,
        Bool.false_eq_true, if_false]
    · by_cases hmade : ((r.evict now).workers.len : Int) < r.cfg.maxWorkers
      · refine .inl ⟨(r.evict now).workers, .inr ⟨rfl, hmade⟩, ?_⟩
        simp only [hunknown, ge_iff_le, not_lt.mp hroom, not_le.mpr hmade, decide_true,
          decide_false, Bool.and_self, Bool.and_false, if_true, Bool.false_eq_true, if_false]
        rfl
      · refine .inr ⟨not_lt.mp hmade, ?_⟩
        simp only [hunknown, ge_iff_le, not_lt.mp hroom, not_lt.mp hmade, decide_true,
          Bool.and_self, if_true]

/-- A registry that is not overfull and has no room after an eviction has evicted nobody. -/
theorem evict_eq_self {r : Registry} {now : Time} (hroom : (r.workers.len : Int) ≤ r.cfg.maxWorkers)
    (hfull : r.cfg.maxWorkers ≤ ((r.evict now).workers.len : Int)) : r.evict now = r := by
  have hkeep : r.workers.keep (fun _ e => !r.expired e now) = r.workers :=
    keep_eq_self_of_len (by exact_mod_cast hroom.trans hfull)
  simp only [Registry.evict, hkeep]

variable {g id : String}

theorem Ok.register_effect (h : Ok s) {info : WorkerInfo} (hop : c.op = .register info g) :
    Effect s c (s.call okAddress c).1 (s.call okAddress c).2 := by
  simp only [call, hop, Registry.registerCall]
  by_cases hvalid : info.validate okAddress = true
  · simp only [hvalid, Bool.not_true, Bool.false_eq_true, if_false]
    rcases register_cases s.reg info g c.now with ⟨kept, hkept, heq⟩ | ⟨hfull, heq⟩
    · rw [heq]
      refine .registered hop (hkept.imp And.left And.left) ?_
      have hle := len_insert_le info.workerID (Entry.new info g c.now) kept
      rcases hkept with ⟨rfl, hknown | hlt⟩ | ⟨-, hlt⟩
      · obtain ⟨e, he⟩ := isSome_iff_exists.mp hknown
        rw [len_insert_of_lookup he]
        exact h.room
      · omega
      · omega
    · rw [heq, evict_eq_self h.room hfull]
      exact .rejected _
  · simp only [hvalid, Bool.not_false, if_true]
    exact .rejected _

theorem heartbeat_effect {hb : Heartbeat} (hop : c.op = .heartbeat id g hb) :
    Effect s c (s.call okAddress c).1 (s.call okAddress c).2 := by
  simp only [call, hop, Registry.heartbeatCall]
  by_cases hvalid : hb.validate = true
  · simp only [hvalid, Bool.not_true, Bool.false_eq_true, if_false, Registry.heartbeat]
    cases he : s.reg.workers.lookup id with
    | none => exact .rejected _
    | some e =>
      by_cases hg : e.regID = g
      · by_cases hallowed : Registry.allowed e hb.state = true
        · simp only [hg, ne_eq, not_true_eq_false, if_false, hallowed, Bool.not_true,
            Bool.false_eq_true]
          exact .beat hop he hg hallowed
        · simp only [hg, ne_eq, not_true_eq_false, if_false, hallowed, Bool.not_false, if_true]
          exact .rejected _
      · simp only [ne_eq, hg, not_false_eq_true, if_true]
        exact .rejected _
  · simp only [hvalid, Bool.not_false, if_true]
    exact .rejected _

theorem deregister_effect (hop : c.op = .deregister id g) :
    Effect s c (s.call okAddress c).1 (s.call okAddress c).2 := by
  simp only [call, hop, Registry.deregister]
  cases he : s.reg.workers.lookup id with
  | none => exact .rejected _
  | some e =>
    by_cases hg : e.regID = g
    · simp only [hg, ne_eq, not_true_eq_false, if_false]
      exact .deregistered hop he hg
    · simp only [ne_eq, hg, not_false_eq_true, if_true]
      exact .rejected _

/-- Every call has one of the effects. -/
theorem Ok.call_effect (h : Ok s) (okAddress : String → Bool) (c : Call) :
    Effect s c (s.call okAddress c).1 (s.call okAddress c).2 := by
  cases hop : c.op with
  | register info g => exact h.register_effect hop
  | heartbeat id g hb => exact heartbeat_effect hop
  | deregister id g => exact deregister_effect hop
  | sweep =>
    simp only [call, hop]
    exact .swept hop

/-! ### Where an entry comes from -/

theorem latest_append (reg reg' : Registry) (log : List (String × String)) (id id' g : String) :
    latest ⟨reg', log ++ [(id', g)]⟩ id = if id' = id then some g else latest ⟨reg, log⟩ id := by
  by_cases hid : id' = id
  · simp [latest, filter_append, hid]
  · simp [latest, filter_append, hid]

theorem mem_log_of_latest {s : Sys} (h : s.latest id = some g) : (id, g) ∈ s.log := by
  obtain ⟨⟨id', g'⟩, hlast, rfl⟩ := map_eq_some_iff.mp h
  obtain ⟨hmem, hid⟩ := mem_filter.mp (mem_of_getLast? hlast)
  rw [← of_decide_eq_true hid]
  exact hmem

/-- Where the entry that a worker has after a call comes from. -/
inductive Origin (s : Sys) (c : Call) (s' : Sys) (id : String) (e' : Entry) : Prop
  | kept {e : Entry} (he : s.reg.workers.lookup id = some e)
      (hsame : e' = { e with observed := e'.observed }) (hlatest : s'.latest id = s.latest id)
  | registered {info : WorkerInfo} {g : String} (hop : c.op = .register info g)
      (hid : info.workerID = id) (hnew : e' = .new info g c.now) (hlatest : s'.latest id = some g)
      (hlog : s'.log = s.log ++ [(id, g)])
  | beat {e : Entry} {g : String} {hb : Heartbeat} (hop : c.op = .heartbeat id g hb)
      (he : s.reg.workers.lookup id = some e) (hallowed : Registry.allowed e hb.state = true)
      (hbeat : e' = s.reg.beat e hb c.now) (hlatest : s'.latest id = s.latest id)

theorem lookup_evict (r : Registry) (now : Time) (id : String) :
    (r.evict now).workers.lookup id = (r.workers.lookup id).filter fun e => !r.expired e now :=
  lookup_keep _ id r.workers

theorem lookup_sweep (r : Registry) (now : Time) (id : String) :
    (r.sweep now).1.workers.lookup id =
      ((r.workers.lookup id).map fun e => r.observe e now).filter fun e => !r.expired e now := by
  show ((Registry.evict _ now).workers.lookup id) = _
  rw [lookup_evict, lookup_mapVals]
  rfl

variable {s' : Sys} {ans : Answer} {id : String} {e' : Entry}

theorem Effect.origin (heff : Effect s c s' ans) (he' : s'.reg.workers.lookup id = some e') :
    Origin s c s' id e' := by
  cases heff with
  | rejected err => exact .kept he' rfl rfl
  | @registered info g kept hop hkept _ =>
    have hlatest := latest_append s.reg
      { s.reg with workers := kept.insert info.workerID (.new info g c.now) } s.log id
      info.workerID g
    rcases of_lookup_insert he' with ⟨rfl, rfl⟩ | ⟨hid, he'⟩
    · rw [if_pos rfl] at hlatest
      exact .registered hop rfl rfl hlatest rfl
    · rw [if_neg (Ne.symm hid)] at hlatest
      refine .kept ?_ rfl hlatest
      rcases hkept with rfl | rfl
      · exact he'
      · rw [lookup_evict] at he'
        exact (filter_eq_some_iff.mp he').1
  | @beat id' g hb e hop he hg hallowed =>
    rcases of_lookup_insert he' with ⟨rfl, rfl⟩ | ⟨-, he'⟩
    · exact .beat hop he hallowed rfl rfl
    · exact .kept he' rfl rfl
  | @deregistered id' g e hop he hg =>
    exact .kept (of_lookup_erase he').2 rfl rfl
  | swept hop =>
    rw [lookup_sweep, filter_eq_some_iff, map_eq_some_iff] at he'
    obtain ⟨⟨e, he, rfl⟩, -⟩ := he'
    exact .kept he rfl rfl

/-- The log grows by what is registered. -/
theorem Effect.log_extends (heff : Effect s c s' ans) : ∃ more, s'.log = s.log ++ more := by
  cases heff with
  | @registered info g kept hop _ _ => exact ⟨[(info.workerID, g)], rfl⟩
  | rejected err => exact ⟨[], (append_nil _).symm⟩
  | beat hop he hg hallowed => exact ⟨[], (append_nil _).symm⟩
  | deregistered hop he hg => exact ⟨[], (append_nil _).symm⟩
  | swept hop => exact ⟨[], (append_nil _).symm⟩

/-! ### The invariant -/

theorem Ok.init {cfg : Config} (hcfg : cfg.validate = none) : Ok (Sys.init cfg) where
  current := by
    intro id e he
    cases he
  key := by
    intro id e he
    cases he
  drained := by
    intro id e he
    cases he
  issued := nodup_nil
  room := by
    have hmax : ¬ cfg.maxWorkers < 1 := by
      intro hlt
      unfold Config.validate at hcfg
      split_ifs at hcfg
    show (0 : Int) ≤ cfg.maxWorkers
    omega

/-- A drained worker is allowed to report two states only. -/
theorem allowed_of_drained {e : Entry} {next : WorkerState} (hd : e.drained = true)
    (h : Registry.allowed e next = true) : next = .draining ∨ next = .failed := by
  simp only [Registry.allowed, hd, Bool.true_and, Bool.and_eq_true, Bool.not_eq_true',
    Bool.and_eq_false_iff, decide_eq_false_iff_not, not_not] at h
  exact h.2

theorem Ok.effect (h : Ok s) (hfresh : s.Fresh c) (heff : Effect s c s' ans) : Ok s' where
  current := by
    intro id e' he'
    cases heff.origin he' with
    | @kept e he hsame hlatest =>
      rw [hlatest, hsame]
      exact h.current id e he
    | registered hop hid hnew hlatest _ =>
      rw [hlatest, hnew]
      rfl
    | @beat e g hb hop he hallowed hbeat hlatest =>
      rw [hlatest, hbeat]
      exact h.current id e he
  key := by
    intro id e' he'
    cases heff.origin he' with
    | @kept e he hsame hlatest =>
      rw [hsame]
      exact h.key id e he
    | registered hop hid hnew hlatest _ =>
      rw [hnew]
      exact hid
    | @beat e g hb hop he hallowed hbeat hlatest =>
      rw [hbeat]
      exact h.key id e he
  drained := by
    intro id e' he' hd
    cases heff.origin he' with
    | @kept e he hsame hlatest =>
      rw [hsame] at hd ⊢
      exact h.drained id e he hd
    | registered hop hid hnew hlatest _ =>
      rw [hnew] at hd
      cases hd
    | @beat e g hb hop he hallowed hbeat hlatest =>
      -- the flag was set before, or is set by this report
      rw [hbeat] at hd ⊢
      rcases Bool.or_eq_true_iff.mp hd with hd | hd
      · exact allowed_of_drained hd hallowed
      · exact .inl (of_decide_eq_true hd)
  issued := by
    cases heff with
    | @registered info g kept hop _ _ =>
      have hg : g ∉ s.log.map Prod.snd := by
        simpa only [Fresh, hop] using hfresh
      rw [map_append, nodup_append]
      refine ⟨h.issued, nodup_singleton g, ?_⟩
      intro a ha b hb hab
      have hag : a = g := hab.trans (mem_singleton.mp hb)
      exact hg (hag ▸ ha)
    | rejected err => exact h.issued
    | beat hop he hg hallowed => exact h.issued
    | deregistered hop he hg => exact h.issued
    | swept hop => exact h.issued
  room := by
    have hroom := h.room
    cases heff with
    | rejected err => exact hroom
    | registered hop hkept hroom' => exact hroom'
    | beat hop he hg hallowed =>
      rw [len_insert_of_lookup he]
      exact hroom
    | @deregistered id g e hop he hg =>
      have hle := len_erase_le id s.reg.workers
      exact le_trans (by exact_mod_cast hle) hroom
    | swept hop =>
      have hle := len_keep_le (fun _ e => !s.reg.expired e c.now)
        (s.reg.workers.mapVals fun e => s.reg.observe e c.now)
      rw [len_mapVals] at hle
      exact le_trans (by exact_mod_cast hle) hroom

theorem step_eq_some : s.step okAddress c = some s' ↔ s.Fresh c ∧ (s.call okAddress c).1 = s' := by
  unfold Sys.step
  by_cases hfresh : s.Fresh c
  · simp [hfresh]
  · simp [hfresh]

theorem Ok.step (h : Ok s) (hstep : s.step okAddress c = some s') : Ok s' := by
  obtain ⟨hfresh, rfl⟩ := step_eq_some.mp hstep
  exact h.effect hfresh (h.call_effect _ c)

theorem Effect.cfg_eq (heff : Effect s c s' ans) : s'.reg.cfg = s.reg.cfg := by
  cases heff <;> rfl

theorem Effect.eq_of_rejected {err : RegistryError} (heff : Effect s c s' ans)
    (hans : ans = .rejected err) : s' = s := by
  cases heff with
  | rejected _ => rfl
  | registered _ _ _ => cases hans
  | beat _ _ _ _ => cases hans
  | deregistered _ _ _ => cases hans
  | swept _ => cases hans

variable {t : Sys} {g : String}

theorem Ok.reach (h : Ok s) (ht : Machine.Reach (Sys.step okAddress) s t) : Ok t :=
  ht.invariant (P := Ok) h fun _ _ _ hs hstep => hs.step hstep

theorem cfg_of_reach (h : Ok s) (ht : Machine.Reach (Sys.step okAddress) s t) :
    t.reg.cfg = s.reg.cfg := by
  have hboth : Ok t ∧ t.reg.cfg = s.reg.cfg := by
    refine ht.invariant (P := fun t => Ok t ∧ t.reg.cfg = s.reg.cfg) ⟨h, rfl⟩ ?_
    intro t t' c ⟨hok, hcfg⟩ hstep
    refine ⟨hok.step hstep, ?_⟩
    obtain ⟨-, rfl⟩ := step_eq_some.mp hstep
    exact (hok.call_effect _ c).cfg_eq.trans hcfg
  exact hboth.2

/-! ### What is listed -/

/-- What the registry lists is what it has stored about the worker. -/
theorem Ok.mem_list {f : Registry.ListFilter} {now : Time} {w : Protocol.WorkerSnapshot} (h : Ok s)
    (hw : w ∈ s.reg.list f now) :
    ∃ e, s.reg.workers.lookup w.workerID = some e ∧ w = s.reg.snapshot e now := by
  rw [Registry.list, mem_insertionSort, mem_filter, List.mem_map] at hw
  obtain ⟨⟨e, he, rfl⟩, -⟩ := hw
  obtain ⟨⟨id, e'⟩, hmem, rfl⟩ := List.mem_map.mp he
  have hlookup := AList.lookup_eq_some_iff.mpr hmem
  refine ⟨e', ?_, rfl⟩
  rw [show (s.reg.snapshot e' now).workerID = id from h.key id e' hlookup]
  exact hlookup

/-! ### Superseded incarnations -/

/-- A registration that a later one of the same worker has superseded. -/
def Superseded (s : Sys) (id g : String) : Prop := (id, g) ∈ s.log ∧ s.latest id ≠ some g

instance (s : Sys) (id g : String) : Decidable (s.Superseded id g) :=
  inferInstanceAs (Decidable (_ ∧ _))

theorem Superseded.effect (h : s.Superseded id g) (hfresh : s.Fresh c)
    (heff : Effect s c s' ans) : s'.Superseded id g := by
  obtain ⟨hmem, hlatest⟩ := h
  cases heff with
  | @registered info g' kept hop _ _ =>
    refine ⟨mem_append_left _ hmem, ?_⟩
    rw [latest_append s.reg]
    split
    next =>
      -- the new ID was never issued, and this one was
      intro hg
      have hnew : g' ∉ s.log.map Prod.snd := by
        simpa only [Fresh, hop] using hfresh
      rw [some.inj hg] at hnew
      exact hnew (List.mem_map_of_mem hmem)
    next => exact hlatest
  | rejected err => exact ⟨hmem, hlatest⟩
  | beat hop he hg hallowed => exact ⟨hmem, hlatest⟩
  | deregistered hop he hg => exact ⟨hmem, hlatest⟩
  | swept hop => exact ⟨hmem, hlatest⟩

theorem Superseded.reach (hok : Ok s) (h : s.Superseded id g)
    (ht : Machine.Reach (Sys.step okAddress) s t) : t.Superseded id g := by
  have hboth : Ok t ∧ t.Superseded id g := by
    refine ht.invariant (P := fun t => Ok t ∧ t.Superseded id g) ⟨hok, h⟩ ?_
    intro t t' c ⟨hok, h⟩ hstep
    refine ⟨hok.step hstep, ?_⟩
    obtain ⟨hfresh, rfl⟩ := step_eq_some.mp hstep
    exact h.effect hfresh (hok.call_effect _ c)
  exact hboth.2

/-- A registration ID that is not the most recent one of its worker gets nothing accepted. -/
theorem Ok.stale_rejected (h : Ok s) (hg : s.latest id ≠ some g)
    (hop : (∃ hb, c.op = .heartbeat id g hb) ∨ c.op = .deregister id g) :
    ∃ err, s.call okAddress c = (s, .rejected err) := by
  have heff := h.call_effect okAddress c
  obtain ⟨s', ans, hcall⟩ : ∃ s' ans, s.call okAddress c = (s', ans) := ⟨_, _, rfl⟩
  rw [hcall] at heff ⊢
  cases heff with
  | rejected err => exact ⟨err, rfl⟩
  | registered hop' _ _ =>
    rw [hop'] at hop
    rcases hop with ⟨_, hop⟩ | hop <;> cases hop
  | beat hop' he hg' _ =>
    rw [hop'] at hop
    rcases hop with ⟨_, hop⟩ | hop
    · cases hop
      rw [h.current id _ he, hg'] at hg
      exact absurd rfl hg
    · cases hop
  | deregistered hop' he hg' =>
    rw [hop'] at hop
    rcases hop with ⟨_, hop⟩ | hop
    · cases hop
    · cases hop
      rw [h.current id _ he, hg'] at hg
      exact absurd rfl hg
  | swept hop' =>
    rw [hop'] at hop
    rcases hop with ⟨_, hop⟩ | hop <;> cases hop

/-! ### Isolation -/

/-- Why a call may change what is stored about a worker. -/
inductive Cause (s : Sys) (c : Call) (s' : Sys) (ans : Answer) (id : String) : Prop
  /-- It registers the worker. -/
  | registered (info : WorkerInfo) (g : String) (hop : c.op = .register info g)
      (hid : info.workerID = id) (hans : ans = .registered g)
  /-- It evicts the worker, which has been silent for too long. -/
  | evicted (e : Entry) (he : s.reg.workers.lookup id = some e)
      (hsilent : e.age c.now > s.reg.cfg.lost + s.reg.cfg.retention)
      (hgone : s'.reg.workers.lookup id = none)
  /-- It is an accepted report of the worker's most recent registration. -/
  | beat (g : String) (hb : Heartbeat) (hop : c.op = .heartbeat id g hb) (hans : ans = .accepted)
      (hlatest : s.latest id = some g)
  /-- It is the accepted farewell of the worker's most recent registration. -/
  | deregistered (g : String) (hop : c.op = .deregister id g) (hans : ans = .accepted)
      (hlatest : s.latest id = some g)

/-- Of a worker that is not evicted, an eviction keeps what is stored; one that is has been silent.
A sweep notes the state it saw first (`f`). -/
theorem cause_of_evict {f : Entry → Entry} (hf : ∀ e, f e = { e with observed := (f e).observed })
    (hlookup : s'.reg.workers.lookup id =
      ((s.reg.workers.lookup id).map f).filter fun e => !s.reg.expired e c.now)
    (hne : s'.stored id ≠ s.stored id) : Cause s c s' ans id := by
  cases he : s.reg.workers.lookup id with
  | none =>
    refine absurd ?_ hne
    simp only [stored, hlookup, he, map_none, filter_none]
  | some e =>
    have hexpf : s.reg.expired (f e) c.now = s.reg.expired e c.now := by
      rw [hf e]
      rfl
    cases hexp : s.reg.expired e c.now with
    | true =>
      refine .evicted e he (of_decide_eq_true hexp) ?_
      simp [hlookup, he, hexpf, hexp]
    | false =>
      have hsame : s'.reg.workers.lookup id = some (f e) := by simp [hlookup, he, hexpf, hexp]
      refine absurd ?_ hne
      simp only [stored, hsame, he, map_some]
      rw [hf e]

theorem Ok.cause (h : Ok s) (heff : Effect s c s' ans) (hne : s'.stored id ≠ s.stored id) :
    Cause s c s' ans id := by
  cases heff with
  | rejected err => exact absurd rfl hne
  | @registered info g kept hop hkept _ =>
    by_cases hid : id = info.workerID
    · exact .registered info g hop hid.symm rfl
    · rcases hkept with rfl | rfl
      · refine absurd ?_ hne
        simp only [stored, lookup_insert_ite, if_neg hid]
      · refine cause_of_evict (f := fun e => e) (fun _ => rfl) ?_ hne
        rw [lookup_insert_ite, if_neg hid, lookup_evict, Option.map_id_fun']
        rfl
  | @beat id' g hb e hop he hg _ =>
    by_cases hid : id = id'
    · subst hid
      exact .beat g hb hop rfl (hg ▸ h.current id e he)
    · refine absurd ?_ hne
      simp only [stored, lookup_insert_ite, if_neg hid]
  | @deregistered id' g e hop he hg =>
    by_cases hid : id = id'
    · subst hid
      exact .deregistered g hop rfl (hg ▸ h.current id e he)
    · refine absurd ?_ hne
      simp only [stored, lookup_erase_ite, if_neg hid]
  | swept hop => exact cause_of_evict (fun _ => rfl) (lookup_sweep s.reg c.now id) hne

/-- **Incarnation isolation.** In every run, whatever is delayed, reordered or sent twice: the
registry is never overfull; a rejected call changes nothing; what is stored about a worker changes
only when it registers, is evicted after a long silence, or has a call accepted that carries the ID
of its most recent registration; and a superseded incarnation never has a call accepted again. -/
theorem incarnation_isolation {okAddress : String → Bool} {cfg : Config} {s : Sys}
    (hcfg : cfg.validate = none) (hs : Machine.Reach (Sys.step okAddress) (Sys.init cfg) s) :
    (s.reg.workers.len : Int) ≤ cfg.maxWorkers ∧
    (∀ c : Call, (∀ err, (s.call okAddress c).2 = .rejected err → (s.call okAddress c).1 = s) ∧
      ∀ id, (s.call okAddress c).1.stored id ≠ s.stored id →
        Cause s c (s.call okAddress c).1 (s.call okAddress c).2 id) ∧
    ∀ id g, s.Superseded id g → ∀ t, Machine.Reach (Sys.step okAddress) s t → ∀ now,
      (∀ hb, ∃ err, t.call okAddress ⟨.heartbeat id g hb, now⟩ = (t, .rejected err)) ∧
      ∃ err, t.call okAddress ⟨.deregister id g, now⟩ = (t, .rejected err) := by
  have hok : Ok s := (Ok.init hcfg).reach hs
  refine ⟨?_, fun c => ⟨?_, ?_⟩, ?_⟩
  · have hcfg' : s.reg.cfg = cfg := cfg_of_reach (Ok.init hcfg) hs
    rw [← hcfg']
    exact hok.room
  · intro err hans
    exact (hok.call_effect _ c).eq_of_rejected hans
  · intro id hne
    exact hok.cause (hok.call_effect _ c) hne
  · intro id g hsup t ht now
    have hokt := hok.reach ht
    have hlatest := (hsup.reach hok ht).2
    exact ⟨fun hb => hokt.stale_rejected hlatest (.inl ⟨hb, rfl⟩),
      hokt.stale_rejected hlatest (.inr rfl)⟩

/-- Limits of a small registry: at most two workers. -/
def smallConfig : Config :=
  { suspect := 3, unhealthy := 5, lost := 10, retention := 20, maxWorkers := 2,
    heartbeatInterval := 1, suspectEligible := true }

def worker (id : String) : WorkerInfo := ⟨id, "m", "http://w", 4, 0⟩

def report (g : String) (state : WorkerState) : Heartbeat := ⟨g, state, .zero, ""⟩

/-- A worker restarts, and its first incarnation is heard of once more. -/
def restarts : List Call :=
  [⟨.register (worker "a") "g1", 0⟩, ⟨.heartbeat "a" "g1" (report "g1" .ready), 1⟩,
    ⟨.register (worker "a") "g2", 2⟩, ⟨.heartbeat "a" "g2" (report "g2" .ready), 3⟩,
    ⟨.heartbeat "a" "g1" (report "g1" .failed), 4⟩, ⟨.register (worker "b") "g3", 5⟩]

/-- After the restart the registry has two workers, and every late call of the first incarnation
is rejected. -/
theorem incarnation_isolation_restarts : ∃ s,
    Machine.Reach (Sys.step fun _ => true) (Sys.init smallConfig) s ∧ s.reg.workers.len = 2 ∧
      s.Superseded "a" "g1" ∧ s.latest "a" = some "g2" ∧
      ∃ err, s.call (fun _ => true) ⟨.heartbeat "a" "g1" (report "g1" .ready), 6⟩ =
        (s, .rejected err) := by
  obtain ⟨s, hs, hlen, hsup, hlatest⟩ :
      ∃ s ∈ Machine.runActs (Sys.step fun _ => true) (Sys.init smallConfig) restarts,
        s.reg.workers.len = 2 ∧ s.Superseded "a" "g1" ∧ s.latest "a" = some "g2" := by
    decide +kernel
  have hreach := Machine.reach_of_runActs .refl restarts hs
  have hisolated := incarnation_isolation (by decide) hreach
  exact ⟨s, hreach, hlen, hsup, hlatest, (hisolated.2.2 "a" "g1" hsup s .refl 6).1 _⟩

end Sys

end ServerFlow.ControlPlane
