import ServerFlow.Gateway.Snapshot

/-!
# Gateway.SnapshotSync

What the breakers are told is what the router sees. A view is reported again only when the age of
the snapshot reaches `nextAge`, the least age at which a worker that was eligible turns suspect;
until then every worker is judged as it was reported (`runSync_nextAge`), and from then on the view
is reported anew.
-/

namespace ServerFlow.Gateway

open List AList
open Resilience (Time Duration Member)

variable {now : Time} {w : Protocol.WorkerSnapshot} {okAddress : String → Bool}

/-! ### What a report lists -/

/-- The workers of a snapshot with their models, the models in the order `ms`. -/
def listing (workers : String → List Protocol.WorkerSnapshot) (ms : List String) :
    List (String × Protocol.WorkerSnapshot) :=
  ms.flatMap fun m => (workers m).map fun w => (m, w)

theorem mem_listing {workers : String → List Protocol.WorkerSnapshot} {ms : List String}
    {p : String × Protocol.WorkerSnapshot} :
    p ∈ listing workers ms ↔ p.1 ∈ ms ∧ p.2 ∈ workers p.1 := by
  obtain ⟨m, w⟩ := p
  simp only [listing, mem_flatMap, mem_map, Prod.mk.injEq]
  constructor
  · rintro ⟨m', hm', w', hw', rfl, rfl⟩
    exact ⟨hm', hw'⟩
  · rintro ⟨hm, hw⟩
    exact ⟨m, hm, w, hw, rfl, rfl⟩

namespace SnapshotCache

variable {c : SnapshotCache} {s : Snapshot} {age : Duration}

/-- The loops of `runSync` are one loop over the workers listed. -/
theorem foldl_syncModel (ms : List String) (a : Syncing) : ms.foldl (c.syncModel s age) a =
    (listing s.workers ms).foldl (fun a p => c.syncWorker age p.1 a p.2) a := by
  simp only [listing, foldl_flatMap, foldl_map]
  rfl

theorem members_foldl (l : List (String × Protocol.WorkerSnapshot)) (a : Syncing) :
    (l.foldl (fun a p => c.syncWorker age p.1 a p.2) a).members =
      a.members ++ l.map fun p => ⟨keyOf p.2.toWorkerSnapshot, p.1, c.syncEligible age p.2⟩ := by
  induction l generalizing a with
  | nil => simp
  | cons p l ih =>
    rw [foldl_cons, ih]
    simp [syncWorker]

theorem models_foldl (l : List (String × Protocol.WorkerSnapshot)) (a : Syncing) (id : String) :
    ((l.foldl (fun a p => c.syncWorker age p.1 a p.2) a).models.lookup id).isSome =
      ((a.models.lookup id).isSome || l.any fun p => decide (p.2.workerID = id)) := by
  induction l generalizing a with
  | nil => simp
  | cons p l ih =>
    rw [foldl_cons, ih, any_cons]
    simp only [syncWorker, lookup_insert_ite]
    by_cases hid : id = p.2.workerID
    · simp [hid]
    · simp [hid, Ne.symm hid]

/-! ### The threshold -/

/-- The loop only lowers the threshold, and below the turn of every worker that is eligible. -/
theorem next_foldl (c : SnapshotCache) (age : Duration)
    (l : List (String × Protocol.WorkerSnapshot)) (a : Syncing) :
    (l.foldl (fun a p => c.syncWorker age p.1 a p.2) a).next ≤ a.next ∧
    ∀ p ∈ l, c.syncEligible age p.2 = true → ∀ n, c.turnsAt p.2 = some n →
      (l.foldl (fun a p => c.syncWorker age p.1 a p.2) a).next ≤ n := by
  induction l generalizing a with
  | nil => exact ⟨le_rfl, fun p hp => absurd hp not_mem_nil⟩
  | cons p l ih =>
    obtain ⟨hle, hall⟩ := ih (c.syncWorker age p.1 a p.2)
    have hfirst : (c.syncWorker age p.1 a p.2).next ≤ a.next := by
      simp only [syncWorker]
      split
      · cases c.turnsAt p.2 with
        | none => exact le_rfl
        | some n => exact min_le_left _ _
      · exact le_rfl
    refine ⟨hle.trans hfirst, ?_⟩
    intro q hq helig n hn
    rcases mem_cons.mp hq with rfl | hq
    · have hown : (c.syncWorker age q.1 a q.2).next ≤ n := by
        simp only [syncWorker, helig, if_true, hn, Option.elim_some]
        exact min_le_right _ _
      exact hle.trans hown
    · exact hall q hq helig n hn

theorem syncEligible_eq (w : Protocol.WorkerSnapshot) : c.syncEligible age w =
    (schedulable w.toWorkerSnapshot &&
      decide (w.heartbeatAgeSeconds + seconds age < seconds c.suspectAfter)) := by
  unfold syncEligible
  cases schedulable w.toWorkerSnapshot with
  | false => simp
  | true =>
    by_cases hlt : w.heartbeatAgeSeconds + seconds age < seconds c.suspectAfter
    · simp [hlt, not_le.mpr hlt]
    · simp [hlt, not_lt.mp hlt]

/-- What is reported of a worker is whether the aged view has it as schedulable. -/
theorem schedulable_ageWorker (w : Protocol.WorkerSnapshot) :
    schedulable (c.ageWorker age w).toWorkerSnapshot = c.syncEligible age w := by
  rw [syncEligible_eq]
  unfold ageWorker
  dsimp only
  cases hw : w.eligible with
  | false => simp [schedulable, hw]
  | true =>
    by_cases hlt : w.heartbeatAgeSeconds + seconds age < seconds c.suspectAfter
    · simp [schedulable, hw, hlt, not_le.mpr hlt]
    · simp [schedulable, hlt, not_lt.mp hlt]

/-- A worker has not turned at an age below its turn. -/
theorem not_turned {b : Duration} (hb : b ≤ maxInt64) (hturn : ∀ n, c.turnsAt w = some n → b < n) :
    w.heartbeatAgeSeconds + seconds b < seconds c.suspectAfter := by
  unfold turnsAt at hturn
  dsimp only at hturn
  have hlt : (b : ℚ) < (seconds c.suspectAfter - w.heartbeatAgeSeconds) * 10 ^ 9 := by
    split at hturn
    next => exact Int.lt_ceil.mp (hturn _ rfl)
    next hbig =>
      -- the turn is beyond every duration
      have hb' : (b : ℚ) ≤ 2 ^ 63 - 1 := by
        have : b ≤ 2 ^ 63 - 1 := hb
        exact_mod_cast this
      have hbig' : (2 : ℚ) ^ 63 / 10 ^ 9 ≤ seconds c.suspectAfter - w.heartbeatAgeSeconds :=
        not_lt.mp hbig
      rw [div_le_iff₀ (by norm_num)] at hbig'
      linarith
  have hsecs : seconds b < seconds c.suspectAfter - w.heartbeatAgeSeconds := by
    unfold seconds
    rw [div_lt_iff₀ (by norm_num)]
    exact hlt
  linarith

theorem seconds_mono {a b : Duration} (h : a ≤ b) : seconds a ≤ seconds b := by
  unfold seconds
  gcongr

/-- **No turn is skipped.** Until the age of the snapshot reaches the threshold, every worker is
judged as it was when the threshold was set. -/
theorem runSync_nextAge (order : List String) {b : Duration} (hle : age ≤ b) (hb : b ≤ maxInt64)
    (hnext : b < (c.runSync order s age).1.nextAge) {model : String}
    (hw : w ∈ s.workers model) : c.syncEligible b w = c.syncEligible age w := by
  have hmono := seconds_mono hle
  cases helig : c.syncEligible age w with
  | false =>
    rw [syncEligible_eq] at helig ⊢
    rcases Bool.and_eq_false_iff.mp helig with hs | hs
    · rw [hs, Bool.false_and]
    · have hnot := of_decide_eq_false hs
      rw [decide_eq_false (by linarith [not_lt.mp hnot]), Bool.and_false]
  | true =>
    have hmem : (model, w) ∈ listing s.workers (s.byModel.rangeKeys order) := by
      refine mem_listing.mpr ⟨AList.mem_rangeKeys.mpr ?_, hw⟩
      rw [← lookup_isSome]
      by_contra hnone
      rw [Option.not_isSome_iff_eq_none] at hnone
      simp [Snapshot.workers, hnone] at hw
    have hturn : ∀ n, c.turnsAt w = some n → b < n := by
      intro n hn
      have hfold := (next_foldl c age
        (listing s.workers (s.byModel.rangeKeys order)) ⟨[], ∅, maxInt64⟩).2
          (model, w) hmem helig n hn
      rw [← foldl_syncModel] at hfold
      exact lt_of_lt_of_le hnext hfold
    have hlt := not_turned hb hturn
    rw [syncEligible_eq, Bool.and_eq_true] at helig
    rw [syncEligible_eq, helig.1, decide_eq_true hlt, Bool.and_self]

/-- What a report lists of a worker at the given age. -/
def memberAt (c : SnapshotCache) (age : Duration) (p : String × Protocol.WorkerSnapshot) : Member :=
  ⟨keyOf p.2.toWorkerSnapshot, p.1, c.syncEligible age p.2⟩

theorem runSync_members (order : List String) : (c.runSync order s age).2.members =
    (listing s.workers (s.byModel.rangeKeys order)).map (c.memberAt age) := by
  simp only [runSync, foldl_syncModel, members_foldl, nil_append]
  rfl

theorem runSync_models (order : List String) (id : String) :
    ((c.runSync order s age).2.models.lookup id).isSome = true ↔
      ∃ p ∈ listing s.workers (s.byModel.rangeKeys order), p.2.workerID = id := by
  simp only [runSync, foldl_syncModel, models_foldl]
  simp

/-- The members of a report at the age of a view, from the view. -/
theorem map_memberAt (workers : String → List Protocol.WorkerSnapshot) (ms : List String) :
    (listing workers ms).map (c.memberAt age) = ms.flatMap fun m =>
      (c.aged (workers m) age).map fun w =>
        ⟨keyOf w.toWorkerSnapshot, m, schedulable w.toWorkerSnapshot⟩ := by
  simp only [listing, map_flatMap, map_map, aged]
  congr 1
  funext m
  refine map_congr_left fun w _ => ?_
  have hkey : keyOf (c.ageWorker age w).toWorkerSnapshot = keyOf w.toWorkerSnapshot := by
    unfold ageWorker
    dsimp only
    split <;> rfl
  simp only [Function.comp, memberAt, schedulable_ageWorker, hkey]

end SnapshotCache

/-! ### Runs -/

/-- The cache, the time of the last call, and the reports so far, each with the workers it is
about. -/
structure SyncSys where
  cache : SnapshotCache
  clock : Time
  reports : List (GoMap String (List Protocol.WorkerSnapshot) × Report)

def SyncSys.start (maxStale suspectAfter : Duration) (now : Time) : SyncSys :=
  ⟨newSnapshotCache maxStale suspectAfter true, now, []⟩

inductive SyncAct
  | refresh (started now : Time) (order : List String) (ws : List Protocol.WorkerSnapshot)
  | view (now : Time) (order : List String) (model : String)

/-- The cache after a call at `now` that made the given reports. -/
def SyncSys.after (s : SyncSys) (cache : SnapshotCache) (now : Time) (reps : List Report) :
    SyncSys :=
  ⟨cache, now, s.reports ++ reps.map fun rep => ((cache.cur.map Snapshot.byModel).getD ∅, rep)⟩

def SyncSys.step (okAddress : String → Bool) (s : SyncSys) : SyncAct → Option SyncSys
  | .refresh started now order ws =>
    if s.clock ≤ started ∧ started ≤ now then
      let r := s.cache.refresh okAddress order started now ws
      some (s.after r.1 now r.2)
    else none
  | .view now order model =>
    if s.clock ≤ now then
      let r := s.cache.viewAt order model now
      some (s.after r.1 now r.2.1)
    else none

/-- A report lists exactly the workers of a snapshot. -/
def Report.Lists (rep : Report) (byModel : GoMap String (List Protocol.WorkerSnapshot)) : Prop :=
  ∃ ms, ms.Perm byModel.keys ∧
    rep.members.map (fun m => (m.model, m.key)) =
      (listing (fun m => (byModel.lookup m).getD []) ms).map
        (fun p => (p.1, keyOf p.2.toWorkerSnapshot)) ∧
    ∀ id, (rep.models.lookup id).isSome = true ↔
      ∃ p ∈ listing (fun m => (byModel.lookup m).getD []) ms, p.2.workerID = id

/-- The last report is about the current snapshot, at an age of the past, and no worker turns before
the threshold. -/
structure Reported (s : SyncSys) (snap : Snapshot) (rep : Report) (ms : List String)
    (age : Duration) : Prop where
  last : s.reports.getLast? = some (snap.byModel, rep)
  past : age ≤ s.clock - snap.fetched
  models : ms.Perm snap.byModel.keys
  members : rep.members = (listing snap.workers ms).map (s.cache.memberAt age)
  next : ∀ b, age ≤ b → b ≤ maxInt64 → b < snap.nextAge → ∀ model, ∀ w ∈ snap.workers model,
    s.cache.syncEligible b w = s.cache.syncEligible age w

structure Synced (s : SyncSys) : Prop where
  onSync : s.cache.onSync = true
  range : s.cache.maxStale ≤ maxInt64
  listed : ∀ x ∈ s.reports, x.2.Lists x.1
  current : ∀ snap, s.cache.cur = some snap → ∃ rep ms age, Reported s snap rep ms age

namespace Synced

variable {s : SyncSys}

theorem runSync_lists (c : SnapshotCache) (order : List String) (snap : Snapshot) (age : Duration) :
    (c.runSync order snap age).2.Lists snap.byModel := by
  refine ⟨snap.byModel.rangeKeys order, rangeKeys_perm order snap.byModel, ?_, ?_⟩
  · rw [SnapshotCache.runSync_members, map_map]
    rfl
  · intro id
    exact SnapshotCache.runSync_models order id

section

variable (h : Synced s)
include h

/-- A call that reports. -/
theorem reports {cache : SnapshotCache} (order : List String) (snap : Snapshot) {age : Duration}
    (hage : age ≤ now - snap.fetched)
    (hcache : cache = { s.cache with cur := some (s.cache.runSync order snap age).1 }) :
    Synced (s.after cache now [(s.cache.runSync order snap age).2]) ∧
      Reported (s.after cache now [(s.cache.runSync order snap age).2])
        (s.cache.runSync order snap age).1 (s.cache.runSync order snap age).2
        (snap.byModel.rangeKeys order) age := by
  subst hcache
  have hrep : Reported (s.after { s.cache with cur := some (s.cache.runSync order snap age).1 } now
      [(s.cache.runSync order snap age).2]) (s.cache.runSync order snap age).1
      (s.cache.runSync order snap age).2 (snap.byModel.rangeKeys order) age := by
    refine ⟨?_, hage, rangeKeys_perm order snap.byModel, SnapshotCache.runSync_members order, ?_⟩
    · simp [SyncSys.after]
    · intro b hle hb hnext model w hw
      exact SnapshotCache.runSync_nextAge order hle hb hnext hw
  refine ⟨⟨h.onSync, h.range, ?_, ?_⟩, hrep⟩
  · intro x hx
    rcases mem_append.mp hx with hx | hx
    · exact h.listed x hx
    · obtain rfl := mem_singleton.mp hx
      exact runSync_lists s.cache order snap age
  · intro snap' hsnap'
    obtain rfl := Option.some.inj hsnap'
    exact ⟨_, _, _, hrep⟩

/-- A call that reports nothing. -/
theorem quiet (hnow : s.clock ≤ now) : Synced (s.after s.cache now []) := by
  have hsame : (s.after s.cache now []).reports = s.reports := append_nil _
  refine ⟨h.onSync, h.range, ?_, ?_⟩
  · rw [hsame]
    exact h.listed
  · intro snap hsnap
    obtain ⟨rep, ms, age, hrep⟩ := h.current snap hsnap
    refine ⟨rep, ms, age, ?_, ?_, hrep.models, hrep.members, hrep.next⟩
    · rw [hsame]
      exact hrep.last
    · have hpast := hrep.past
      show age ≤ now - snap.fetched
      linarith

/-- After a view that may be used, the last report is what the view has. -/
theorem view (hnow : s.clock ≤ now) (order : List String) (model : String) :
    Synced (s.after (s.cache.viewAt order model now).1 now (s.cache.viewAt order model now).2.1) ∧
    ∀ snap age, s.cache.fresh now = some (snap, age) → ∃ rep ms,
      (s.after (s.cache.viewAt order model now).1 now
        (s.cache.viewAt order model now).2.1).reports.getLast? = some (snap.byModel, rep) ∧
      ms.Perm snap.byModel.keys ∧
      rep.members = (listing snap.workers ms).map (s.cache.memberAt age) := by
  unfold SnapshotCache.viewAt
  cases hfresh : s.cache.fresh now with
  | none =>
    exact ⟨h.quiet hnow, nofun⟩
  | some r =>
    obtain ⟨snap, age⟩ := r
    obtain ⟨hcur, hage, hstale⟩ := SnapshotCache.fresh_eq_some.mp hfresh
    dsimp only
    by_cases hlt : age < snap.nextAge
    · rw [SnapshotCache.syncAged_of_lt hlt]
      refine ⟨h.quiet hnow, ?_⟩
      intro snap' age' heq
      cases heq
      obtain ⟨rep, ms, age₀, hrep⟩ := h.current snap hcur
      have hpast := hrep.past
      refine ⟨rep, ms, ?_, hrep.models, ?_⟩
      · simpa [SyncSys.after] using hrep.last
      · -- nobody has turned since the last report
        rw [hrep.members]
        refine map_congr_left fun p hp => ?_
        have hsame := hrep.next age (by linarith) (by linarith [h.range]) hlt p.1 p.2
          (mem_listing.mp hp).2
        simp only [SnapshotCache.memberAt, hsame]
    · rw [SnapshotCache.syncAged_of_le h.onSync (not_lt.mp hlt)]
      obtain ⟨hsynced, hrep⟩ := h.reports order snap (le_of_eq hage) rfl
      refine ⟨hsynced, ?_⟩
      intro snap' age' heq
      cases heq
      exact ⟨_, _, hrep.last, hrep.models, hrep.members⟩

theorem refresh {started : Time} (order : List String) (ws : List Protocol.WorkerSnapshot) :
    Synced (s.after (s.cache.refresh okAddress order started now ws).1 now
      (s.cache.refresh okAddress order started now ws).2) := by
  rw [SnapshotCache.refresh_of_onSync h.onSync]
  exact (h.reports order (takeSnapshot okAddress started ws) le_rfl rfl).1

theorem step {t : SyncSys} {a : SyncAct} (ha : s.step okAddress a = some t) : Synced t := by
  cases a with
  | refresh started now order ws =>
    simp only [SyncSys.step] at ha
    split at ha
    next =>
      cases ha
      exact h.refresh order ws
    next => cases ha
  | view now order model =>
    simp only [SyncSys.step] at ha
    split at ha
    next hnow =>
      cases ha
      exact (h.view hnow order model).1
    next => cases ha

end

theorem start {maxStale suspectAfter : Duration} (hrange : maxStale ≤ maxInt64) (now : Time) :
    Synced (SyncSys.start maxStale suspectAfter now) := by
  refine ⟨rfl, hrange, ?_, ?_⟩
  · intro x hx
    cases hx
  · intro snap hsnap
    cases hsnap

end Synced

/-- **The breakers are told what the router sees.** In every run of refreshes and views, whatever
the registry serves: every report lists exactly the workers of its snapshot; until the age of the
current snapshot reaches its threshold nobody's schedulability changes; and after a view of a usable
snapshot the last report has of every worker whether the view aged to that instant has it as
schedulable. A duration is at most `maxInt64`. -/
theorem breakers_see_the_view {okAddress : String → Bool} {maxStale suspectAfter : Duration}
    {begin_ : Time} {s : SyncSys} (hrange : maxStale ≤ maxInt64)
    (hs : Machine.Reach (SyncSys.step okAddress) (SyncSys.start maxStale suspectAfter begin_) s) :
    (∀ x ∈ s.reports, x.2.Lists x.1) ∧
    (∀ snap, s.cache.cur = some snap → ∀ b, s.clock - snap.fetched ≤ b → b ≤ maxInt64 →
      b < snap.nextAge → ∀ model, ∀ w ∈ snap.workers model,
        schedulable (s.cache.ageWorker b w).toWorkerSnapshot =
          schedulable (s.cache.ageWorker (s.clock - snap.fetched) w).toWorkerSnapshot) ∧
    ∀ now order model t snap age, s.step okAddress (.view now order model) = some t →
      s.cache.fresh now = some (snap, age) → ∃ (rep : Report) (ms : List String),
        t.reports.getLast? = some (snap.byModel, rep) ∧ ms.Perm snap.byModel.keys ∧
        rep.members = ms.flatMap fun m => (s.cache.aged (snap.workers m) age).map fun w =>
          ⟨keyOf w.toWorkerSnapshot, m, schedulable w.toWorkerSnapshot⟩ := by
  have hsynced : Synced s :=
    hs.invariant (P := Synced) (Synced.start hrange begin_) fun _ _ _ h ha => h.step ha
  refine ⟨hsynced.listed, ?_, ?_⟩
  · intro snap hcur b hle hb hnext model w hw
    obtain ⟨rep, ms, age, hrep⟩ := hsynced.current snap hcur
    have hpast := hrep.past
    rw [SnapshotCache.schedulable_ageWorker, SnapshotCache.schedulable_ageWorker,
      hrep.next b (by linarith) hb hnext model w hw,
      hrep.next _ hpast (by linarith) (by linarith) model w hw]
  · intro now order model t snap age hstep hfresh
    simp only [SyncSys.step] at hstep
    split at hstep
    next hnow =>
      cases hstep
      obtain ⟨rep, ms, hlast, hperm, hmembers⟩ := (hsynced.view hnow order model).2 snap age hfresh
      exact ⟨rep, ms, hlast, hperm, hmembers.trans (SnapshotCache.map_memberAt snap.workers ms)⟩
    next => cases hstep

/-- A worker that the registry has heard of when it answers. -/
def heardNow (id : String) : Protocol.WorkerSnapshot :=
  { workerID := id, model := "m", maxConcurrency := 1, state := .ready, health := .healthy,
    eligible := true, activeRequests := 0, registeredAt := 0, heartbeatAgeSeconds := 0,
    address := "http://w", queueSize := 0, metrics := .zero, reason := "", lastHeartbeat := 0 }

/-- Two workers are served; the first view is before they turn. -/
def agingRun : List SyncAct := [.refresh 0 1 [] [heardNow "b", heardNow "a"], .view 2 [] "m"]

/-- A view after the turn reports both workers as no longer eligible. -/
theorem breakers_see_the_view_turned : ∃ s t snap,
    Machine.Reach (SyncSys.step fun _ => true) (SyncSys.start 10 5 0) s ∧ s.reports.length = 1 ∧
    s.step (fun _ => true) (.view 5 [] "m") = some t ∧ s.cache.fresh 5 = some (snap, 5) ∧
    (snap.workers "m").length = 2 ∧ t.reports.length = 2 ∧
    ∃ (rep : Report) (ms : List String),
      t.reports.getLast? = some (snap.byModel, rep) ∧ ms.Perm snap.byModel.keys ∧
      rep.members = ms.flatMap fun m => (s.cache.aged (snap.workers m) 5).map fun w =>
        ⟨keyOf w.toWorkerSnapshot, m, schedulable w.toWorkerSnapshot⟩ := by
  obtain ⟨s, hs, hone, ⟨⟨snap, age⟩, hfresh, rfl, htwo⟩, t, ht, hreports⟩ :
      ∃ s ∈ Machine.runActs (SyncSys.step fun _ => true) (SyncSys.start 10 5 0) agingRun,
        s.reports.length = 1 ∧ (∃ x ∈ s.cache.fresh 5, x.2 = 5 ∧ (x.1.workers "m").length = 2) ∧
        ∃ t ∈ s.step (fun _ => true) (.view 5 [] "m"), t.reports.length = 2 := by
    decide +kernel
  have hreach := Machine.reach_of_runActs .refl agingRun hs
  exact ⟨s, t, snap, hreach, hone, ht, hfresh, htwo, hreports,
    (breakers_see_the_view (by decide) hreach).2.2 5 [] "m" t snap 5 ht hfresh⟩

end ServerFlow.Gateway
