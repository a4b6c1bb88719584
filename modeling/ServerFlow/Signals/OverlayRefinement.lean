import ServerFlow.Signals.OverlayReference
import ServerFlow.Signals.RawHistory

/-!
# Signals.OverlayRefinement

The tracker refines the naive reference: along every run with a clock that does not go back, it
gives the same answers. The bounded history of an entry is the one that its list of events builds;
the arithmetic of the window, if its length in buckets is in range, says that what was trimmed from
it is behind every report that is young enough to be corrected.
-/

namespace ServerFlow.Signals

open List Machine Option
open Resilience (Time Duration)
open Word (wrap wrap_eq)

variable {last : Option Time} {r : Reference} {t : Tracker}

/-! ### Buckets -/

theorem timeSub_mono {x y e : Int} (h : x ≤ y) : timeSub x e ≤ timeSub y e := by
  unfold timeSub
  omega

theorem timeSub_le (x e : Int) : timeSub x e ≤ 2 ^ 63 - 1 := by
  unfold timeSub
  omega

/-- What has passed since `e` is what had passed by `x`, and at most what has passed since. -/
theorem timeSub_le_add {x now e w : Int} (hx : x ≤ now) (he : 0 ≤ timeSub x e)
    (hw : timeSub now x ≤ w) : timeSub now e ≤ timeSub x e + w := by
  unfold timeSub at *
  omega

section Buckets

variable {t : Tracker}

variable (hpos : 0 < t.cfg.bucket)
include hpos

/-- `bucket` rounds down. -/
theorem Tracker.bucket_eq (x : Time) : t.bucket x = timeSub x (t.epoch.getD 0) / t.cfg.bucket := by
  simp only [Tracker.bucket]
  generalize timeSub x (t.epoch.getD 0) = d
  rw [Int.tdiv_eq_ediv, Int.sign_eq_one_of_pos hpos]
  by_cases hneg : d < 0 ∧ d.tmod t.cfg.bucket ≠ 0
  · have hdvd : ¬ (0 ≤ d ∨ t.cfg.bucket ∣ d) := fun hor =>
      hor.elim (not_le.mpr hneg.1) fun hdvd => hneg.2 (Int.tmod_eq_zero_of_dvd hdvd)
    rw [if_pos hneg, if_neg hdvd]
    omega
  · have hdvd : 0 ≤ d ∨ t.cfg.bucket ∣ d := by
      by_contra hno
      obtain ⟨hlt, hno⟩ := not_or.mp hno
      exact hneg ⟨not_le.mp hlt, fun hmod => hno (Int.dvd_of_tmod_eq_zero hmod)⟩
    rw [if_neg hneg, if_pos hdvd, add_zero]

theorem Tracker.bucket_mono {x y : Time} (h : x ≤ y) : t.bucket x ≤ t.bucket y := by
  rw [bucket_eq hpos, bucket_eq hpos]
  exact Int.ediv_le_ediv hpos (timeSub_mono h)

theorem Tracker.bucket_lt (x : Time) : t.bucket x < 2 ^ 63 := by
  rw [bucket_eq hpos]
  refine (Int.ediv_le_ediv hpos (timeSub_le x _)).trans_lt ?_
  exact (Int.ediv_le_self _ (by decide)).trans_lt (by decide)

/-- The bucket of a report within the window is less than `window` behind the present one. -/
theorem Tracker.bucket_within (hkeep : t.window = t.cfg.window / t.cfg.bucket + 2) {x now : Time}
    (hx : x ≤ now) (hstart : 0 ≤ t.bucket x) (hwin : timeSub now x ≤ t.cfg.window) :
    t.bucket now - t.window < t.bucket x := by
  rw [bucket_eq hpos] at hstart
  have hspan := timeSub_le_add hx ((Int.ediv_nonneg_iff_of_pos hpos).mp hstart) hwin
  rw [bucket_eq hpos, bucket_eq hpos, hkeep]
  generalize timeSub now (t.epoch.getD 0) = d at hspan ⊢
  generalize timeSub x (t.epoch.getD 0) = d' at hspan ⊢
  have hnow := Int.mul_ediv_self_le (x := d) hpos.ne'
  have hx' := Int.lt_mul_ediv_self_add (x := d') hpos
  have hw := Int.lt_mul_ediv_self_add (x := t.cfg.window) hpos
  have hlt : t.cfg.bucket * (d / t.cfg.bucket) <
      t.cfg.bucket * (d' / t.cfg.bucket + t.cfg.window / t.cfg.bucket + 2) := by
    calc t.cfg.bucket * (d / t.cfg.bucket) ≤ d' + t.cfg.window := by linarith
      _ < (t.cfg.bucket * (d' / t.cfg.bucket) + t.cfg.bucket) +
          (t.cfg.bucket * (t.cfg.window / t.cfg.bucket) + t.cfg.bucket) := by linarith
      _ = _ := by ring
  have := lt_of_mul_lt_mul_left hlt hpos.le
  linarith

end Buckets

/-- Two buckets, and the window in buckets and two more, are in range. -/
structure Config.Fits (cfg : Config) : Prop where
  bucket : 2 * cfg.normalize.bucket < 2 ^ 63
  window : cfg.normalize.window / cfg.normalize.bucket + 2 < 2 ^ 63

/-- What `New` makes of a bucket width and window. -/
theorem Config.Fits.bounds {cfg : Config} (h : cfg.Fits) :
    0 < cfg.normalize.bucket ∧ 0 ≤ cfg.normalize.window := by
  have hpos : 0 < cfg.normalize.bucket := by
    simp only [Config.normalize]
    split
    · decide
    next hpos => exact not_le.mp hpos
  have htwo := wrap_eq (by linarith) h.bucket
  refine ⟨hpos, ?_⟩
  simp only [Config.normalize] at hpos htwo ⊢
  rw [htwo]
  generalize (if cfg.bucket ≤ 0 then Resilience.second.tdiv 10 else cfg.bucket) = b at hpos ⊢
  split <;> linarith

/-! ### The simulation relation -/

/-- The calls of `record` that a list of events stands for. -/
def marks (bucket : Time → Int) (events : List Event) : List Mark :=
  events.map fun v => ⟨bucket v.time, v.start⟩

/-- An entry and its reference: the history is the one that the events build. -/
structure EntrySim (bucket : Time → Int) (keep : Int) (last : Time) (e : Entry) (re : RefEntry) :
    Prop where
  gen : e.gen = re.gen
  validFrom : e.validFrom = re.validFrom
  lastHB : e.lastHB = re.lastHB
  hist : e.hist = History.ofMarks keep (marks bucket re.events)
  ordered : re.events.Pairwise fun v v' => v.time ≤ v'.time
  past : ∀ v ∈ re.events, 0 ≤ bucket v.time ∧ v.time ≤ last
  opened : 0 ≤ bucket re.validFrom

namespace EntrySim

variable {bucket : Time → Int} {keep : Int} {last now : Time} {e : Entry} {re : RefEntry}

theorem at_time (h : EntrySim bucket keep last e re) (hle : last ≤ now) :
    EntrySim bucket keep now e re :=
  ⟨h.gen, h.validFrom, h.lastHB, h.hist, h.ordered,
    fun v hv => ⟨(h.past v hv).1, (h.past v hv).2.trans hle⟩, h.opened⟩

/-- A start or a finish now. -/
theorem record (h : EntrySim bucket keep now e re) (hnow : 0 ≤ bucket now) (start : Bool)
    (inflight work : Int) :
    EntrySim bucket keep now
      { e with inflight := inflight, work := work, hist := e.hist.record (bucket now) start keep }
      { re with events := re.events ++ [⟨now, start⟩] } := by
  refine ⟨h.gen, h.validFrom, h.lastHB, ?_, ?_, fun v hv => ?_, h.opened⟩
  · show e.hist.record (bucket now) start keep = _
    rw [h.hist]
    simp only [History.ofMarks, marks, map_append, map_singleton, foldl_append]
    rfl
  · refine pairwise_append.mpr ⟨h.ordered, pairwise_singleton _ _, fun v hv v' hv' => ?_⟩
    rw [mem_singleton.mp hv']
    exact (h.past v hv).2
  · rcases mem_append.mp hv with hv | hv
    · exact h.past v hv
    · rw [mem_singleton.mp hv]
      exact ⟨hnow, le_rfl⟩

/-- The history of an entry holds its events. -/
theorem holds (h : EntrySim bucket keep last e re) (hkeep : 0 ≤ keep)
    (hmono : ∀ x y, x ≤ y → bucket x ≤ bucket y) : e.hist.Holds keep (marks bucket re.events) := by
  rw [h.hist]
  refine History.Holds.ofMarks hkeep ?_
  rw [marks, pairwise_map]
  exact h.ordered.imp fun {v v'} hle => hmono v.time v'.time hle

end EntrySim

/-- The parts of the tracker and the reference that are not about single entries. -/
structure Aligned (t : Tracker) (r : Reference) : Prop where
  cfg : r.cfg = t.cfg
  bucket_pos : 0 < t.cfg.bucket
  window : 0 ≤ t.cfg.window ∧ t.cfg.window / t.cfg.bucket + 2 < 2 ^ 63
  epoch : r.epoch = t.epoch
  nextGen : r.nextGen = t.nextGen

/-- The tracker and the reference at a clock reading. -/
structure SimAt (now : Time) (t : Tracker) (r : Reference) : Prop extends Aligned t r where
  started : t.epoch.isSome = true ∧ 0 ≤ t.bucket now
  entries : AList.Alike (EntrySim t.bucket t.window now) t.entries r.entries

/-- The tracker and the reference after the same calls, the last of them at `last`. -/
inductive OverlaySim (last : Option Time) (t : Tracker) (r : Reference) : Prop
  /-- No call has set the epoch yet. -/
  | unstarted (h : Aligned t r) (hep : t.epoch = none) (ht : t.entries = ∅) (hr : r.entries = ∅)
  | running (now : Time) (hlast : last = some now) (h : SimAt now t r)

theorem overlaySim_new {cfg : Config} (h : cfg.Fits) :
    OverlaySim none (newTracker cfg) (newReference cfg) :=
  .unstarted ⟨rfl, h.bounds.1, ⟨h.bounds.2, h.window⟩, rfl, rfl⟩ rfl rfl rfl

theorem OverlaySim.at_time {now : Time}
    (h : OverlaySim last t r) (hle : ∀ l ∈ last, l ≤ now) : OverlaySim (some now) t r := by
  cases h with
  | unstarted h hep ht hr => exact .unstarted h hep ht hr
  | running l hlast h =>
    have hnow := h.started.2.trans (Tracker.bucket_mono h.bucket_pos (hle l hlast))
    exact .running now rfl ⟨h.toAligned, ⟨h.started.1, hnow⟩,
      h.entries.imp fun _ _ he => he.at_time (hle l hlast)⟩

/-- The first call sets the epoch. -/
theorem OverlaySim.setEpoch {now : Time} (h : OverlaySim last t r) (hle : ∀ l ∈ last, l ≤ now) :
    SimAt now (t.setEpoch now) (r.setEpoch now) := by
  have haligned : Aligned t r → Aligned (t.setEpoch now) (r.setEpoch now) := fun h =>
    ⟨h.cfg, h.bucket_pos, h.window, by
      simp only [Tracker.setEpoch, Reference.setEpoch, h.epoch], h.nextGen⟩
  cases h with
  | unstarted h hep ht hr =>
    refine ⟨haligned h, ⟨rfl, ?_⟩, ?_⟩
    · simp [Tracker.bucket, Tracker.setEpoch, timeSub, hep]
    simp only [Tracker.setEpoch, Reference.setEpoch, ht, hr]
    exact .empty
  | running l hlast h =>
    have ht : t.setEpoch now = t := by
      obtain ⟨ep, hep⟩ := Option.isSome_iff_exists.mp h.started.1
      simp only [Tracker.setEpoch, hep, getD_some]
      rw [← hep]
    refine ⟨haligned h.toAligned, ⟨rfl, ?_⟩, ?_⟩ <;> rw [ht]
    · exact h.started.2.trans (Tracker.bucket_mono h.bucket_pos (hle l hlast))
    · exact h.entries.imp fun _ _ he => he.at_time (hle l hlast)

namespace SimAt

variable {now : Time} {t : Tracker} {r : Reference} {last : Option Time} {e : Entry} {re : RefEntry}
  {x : Time}

/-- An entry is written. -/
theorem insert (h : SimAt now t r) (he : EntrySim t.bucket t.window now e re)
    (k : Key) : SimAt now { t with entries := t.entries.insert k e }
      { r with entries := r.entries.insert k re } :=
  ⟨⟨h.cfg, h.bucket_pos, h.window, h.epoch, h.nextGen⟩, h.started, h.entries.insert he k⟩

/-- Both find the entry of a worker, both create one, or both are full. -/
theorem entry (h : SimAt now t r) (k : Key) :
    (t.entry k now = (t, none) ∧ r.entry k now = (r, none)) ∨
    ∃ t' r' e re, t.entry k now = (t', some e) ∧ r.entry k now = (r', some re) ∧ SimAt now t' r' ∧
      EntrySim t'.bucket t'.window now e re := by
  simp only [Tracker.entry, Reference.entry]
  rcases h.entries.lookup k with ⟨ht, hr⟩ | ⟨e, re, ht, hr, he⟩
  · rw [ht, hr]
    simp only [Tracker.create]
    by_cases hfull : (t.entries.len : Int) ≥ t.cfg.maxWorkers
    · have hfull' : (r.entries.len : Int) ≥ r.cfg.maxWorkers := by rwa [h.cfg, ← h.entries.len_eq]
      rw [if_pos hfull, if_pos hfull']
      exact .inl ⟨rfl, rfl⟩
    · have hfull' : ¬ (r.entries.len : Int) ≥ r.cfg.maxWorkers := by
        rwa [h.cfg, ← h.entries.len_eq]
      rw [if_neg hfull, if_neg hfull']
      have he : EntrySim t.bucket t.window now ⟨t.nextGen + 1, 0, 0, now, none, .empty⟩
          ⟨r.nextGen + 1, now, none, []⟩ :=
        ⟨by rw [h.nextGen], rfl, rfl, rfl, .nil, nofun, h.started.2⟩
      refine .inr ⟨_, _, _, _, rfl, rfl, ⟨⟨h.cfg, h.bucket_pos, h.window, h.epoch, ?_⟩,
        h.started, h.entries.insert he k⟩, he⟩
      simp only [h.nextGen]
  · rw [ht, hr]
    exact .inr ⟨t, r, e, re, rfl, rfl, h, he⟩

theorem begin (h : SimAt now (t.setEpoch now) (r.setEpoch now)) (k : Key) :
    (t.begin now k).2 = (r.begin now k).2 ∧ SimAt now (t.begin now k).1 (r.begin now k).1 := by
  simp only [Tracker.begin, Reference.begin]
  rcases h.entry k with ⟨ht, hr⟩ | ⟨t', r', e, re, ht, hr, h', he⟩
  · rw [ht, hr]
    exact ⟨rfl, h⟩
  · rw [ht, hr]
    dsimp only
    exact ⟨by rw [he.gen], h'.insert (he.record h'.started.2 true _ _) k⟩

/-- The entry that a token is for. -/
theorem holder (h : SimAt now t r) {tok : Token} (hvalid : tok.valid = true) :
    (r.holder tok = none ∧ ∀ e, t.entries.lookup tok.key = some e → e.gen ≠ tok.gen) ∨
    ∃ e re, t.entries.lookup tok.key = some e ∧ e.gen = tok.gen ∧ r.holder tok = some re ∧
      r.entries.lookup tok.key = some re ∧ EntrySim t.bucket t.window now e re := by
  simp only [Reference.holder, hvalid, if_true]
  rcases h.entries.lookup tok.key with ⟨ht, hr⟩ | ⟨e, re, ht, hr, he⟩
  · rw [ht, hr]
    exact .inl ⟨rfl, nofun⟩
  · rw [ht, hr]
    by_cases hgen : e.gen = tok.gen
    · refine .inr ⟨e, re, rfl, hgen, ?_, rfl, he⟩
      simp [← he.gen, hgen]
    · refine .inl ⟨?_, fun e' he' => ?_⟩
      · simp [← he.gen, hgen]
      · obtain rfl := some.inj he'
        exact hgen

/-- A valid token is ended. -/
theorem finish (h : SimAt now (t.setEpoch now) (r.setEpoch now)) {tok : Token}
    (hvalid : tok.valid = true) (cost : Int) :
    SimAt now (t.finish now tok cost) (r.finish now tok) := by
  have hhold : (r.setEpoch now).holder tok = r.holder tok := rfl
  simp only [Tracker.finish, Reference.finish, hvalid, Bool.not_true, Bool.false_eq_true, if_false,
    if_true]
  rcases h.holder hvalid with ⟨hr, ht⟩ | ⟨e, re, ht, hgen, hr, -, he⟩
  · rw [← hhold, hr]
    cases hl : (t.setEpoch now).entries.lookup tok.key with
    | none => exact h
    | some e =>
      dsimp only
      rw [if_pos (ht e hl)]
      exact h
  · rw [← hhold, hr, ht]
    dsimp only
    rw [if_neg (not_not.mpr hgen)]
    exact h.insert (he.record h.started.2 false _ _) tok.key

/-- Costs are not in the reference. -/
theorem addCost (h : SimAt now t r) (tok : Token) (cost : Int) :
    (t.addCost tok cost).2 = (decide (0 < cost) && (r.holder tok).isSome) ∧
      SimAt now (t.addCost tok cost).1 r := by
  simp only [Tracker.addCost]
  cases hvalid : tok.valid with
  | false => exact ⟨by simp [Reference.holder, hvalid], h⟩
  | true =>
    by_cases hcost : cost ≤ 0
    · have : ¬ 0 < cost := not_lt.mpr hcost
      simp only [Bool.not_true, hcost, decide_true, Bool.false_or, if_true, this, decide_false,
        Bool.false_and]
      exact ⟨trivial, h⟩
    · simp only [Bool.not_true, hcost, decide_false, Bool.false_or, Bool.false_eq_true, if_false,
        not_le.mp hcost, decide_true, Bool.true_and]
      rcases h.holder hvalid with ⟨hr, ht⟩ | ⟨e, re, ht, hgen, hr, hre, he⟩
      · rw [hr]
        cases hl : t.entries.lookup tok.key with
        | none => exact ⟨rfl, h⟩
        | some e =>
          dsimp only
          rw [if_pos (ht e hl)]
          exact ⟨rfl, h⟩
      · rw [hr, ht]
        dsimp only
        rw [if_neg (not_not.mpr hgen)]
        refine ⟨rfl, ⟨h.cfg, h.bucket_pos, h.window, h.epoch, h.nextGen⟩, h.started, ?_⟩
        exact h.entries.insert_left
          ⟨he.gen, he.validFrom, he.lastHB, he.hist, he.ordered, he.past, he.opened⟩ hre

/-- One worker of a registry snapshot. -/
theorem observe (h : SimAt now t r) (o : Observation) :
    SimAt now (t.observe now o) (r.observe now o) := by
  simp only [Tracker.observe, Reference.observe]
  rcases h.entry o.key with ⟨ht, hr⟩ | ⟨t', r', e, re, ht, hr, h', he⟩
  · rw [ht, hr]
    exact h
  · rw [ht, hr]
    have hback : e.wentBack o = re.wentBack o := by
      cases ho : o.lastHeartbeat <;> cases hre : re.lastHB <;>
        simp only [Entry.wentBack, RefEntry.wentBack, he.lastHB, ho, hre]
    dsimp only
    rw [hback]
    refine h'.insert ?_ o.key
    split
    · exact ⟨he.gen, rfl, rfl, rfl, .nil, nofun, h'.started.2⟩
    · exact ⟨he.gen, he.validFrom, rfl, he.hist, he.ordered, he.past, he.opened⟩

theorem sync (h : SimAt now (t.setEpoch now) (r.setEpoch now)) (members : List Observation) :
    SimAt now (t.sync now members) (r.sync now members) := by
  have hfold : ∀ (ms : List Observation) {t : Tracker} {r : Reference}, SimAt now t r →
      SimAt now (ms.foldl (Tracker.observe now) t) (ms.foldl (Reference.observe now) r) := by
    intro ms
    induction ms with
    | nil => exact fun h => h
    | cons o ms ih => exact fun h => ih (h.observe o)
  have h' := hfold members h
  exact ⟨⟨h'.cfg, h'.bucket_pos, h'.window, h'.epoch, h'.nextGen⟩, h'.started,
    h'.entries.keep fun _ _ _ _ => rfl⟩

/-! ### The overlay -/

section

variable (h : SimAt now t r)
include h

theorem window_eq :
    t.window = t.cfg.window / t.cfg.bucket + 2 ∧ 0 ≤ t.window ∧ t.window < 2 ^ 63 := by
  obtain ⟨hnonneg, hlt⟩ := h.window
  have hdiv := Int.ediv_nonneg hnonneg h.bucket_pos.le
  have heq : t.window = t.cfg.window / t.cfg.bucket + 2 := by
    rw [Tracker.window, Int.tdiv_eq_ediv_of_nonneg hnonneg]
    exact wrap_eq (by linarith) hlt
  exact ⟨heq, heq ▸ by linarith, heq ▸ hlt⟩

theorem holds (he : EntrySim t.bucket t.window now e re) :
    e.hist.Holds t.window (marks t.bucket re.events) :=
  he.holds h.window_eq.2.1 fun _ _ hle => Tracker.bucket_mono h.bucket_pos hle

theorem bucket_eq : r.bucket = t.bucket := by
  funext x
  rw [Tracker.bucket_eq h.bucket_pos, Reference.bucket, h.cfg, h.epoch]

/-- The history answers for every report within the window, and counts exactly. -/
theorem since (he : EntrySim t.bucket t.window now e re) (hx : x ≤ now) (hfrom : re.validFrom ≤ x)
    (hwin : timeSub now x ≤ t.cfg.window) (b : Bool) :
    e.hist.since (t.bucket x) b = some (r.countSince re x b) := by
  have hh := h.holds he
  have hcount : r.countSince re x b = countFrom (marks t.bucket re.events) b (t.bucket x) := by
    simp only [Reference.countSince, countFrom, marks, countP_map, h.bucket_eq]
    rfl
  rw [hcount]
  refine hh.since (fun d hd => ?_) b
  -- what was trimmed is behind a recorded bucket by more than the window
  obtain ⟨m, hm, hlt⟩ := hh.expired d hd
  obtain ⟨v, hv, rfl⟩ := mem_map.mp hm
  have hv' := Tracker.bucket_mono h.bucket_pos (he.past v hv).2
  have hstart := he.opened.trans (Tracker.bucket_mono h.bucket_pos hfrom)
  have := Tracker.bucket_within h.bucket_pos h.window_eq.1 hx hstart hwin
  dsimp only at hlt
  omega

end

theorem overlay (h : SimAt now (t.setEpoch now) (r.setEpoch now)) (inp : Input) :
    (t.overlay now inp).1 = t.setEpoch now ∧
    ((t.overlay now inp).2.active, (t.overlay now inp).2.fallback) =
      (r.setEpoch now).load now inp := by
  simp only [Tracker.overlay, Reference.load, h.cfg]
  rcases h.entries.lookup inp.key with ⟨ht, hr⟩ | ⟨e, re, ht, hr, he⟩
  · rw [ht, hr]
    exact ⟨rfl, rfl⟩
  · rw [ht, hr]
    dsimp only
    rw [he.validFrom]
    split
    · exact ⟨rfl, rfl⟩
    next hnew =>
      obtain ⟨hfrom, hwin⟩ := not_or.mp hnew
      have hsince := h.since he (min_le_right inp.reportedAt now) (not_lt.mp hfrom)
        (not_lt.mp hwin)
      rw [hsince true, finishLag, add_zero, hsince false]
      refine ⟨rfl, Prod.ext ?_ rfl⟩
      simp only [getD_some, clampCount]
      rw [max_comm, max_eq_left (a := max (min (max inp.localCount 0) maxCount) _)]
      exact (clampCount_nonneg inp.localCount).trans (le_max_left _ _)

end SimAt

/-! ### Whole runs -/

theorem OverlaySim.step (h : OverlaySim last t r) {c : Call} (hc : c.InOrder last) :
    (t.step c).2 = (r.step c).2 ∧
      OverlaySim (lastReading last c (t.step c).2) (t.step c).1 (r.step c).1 := by
  cases c with
  | sync now members =>
    have hle : ∀ l ∈ last, l ≤ now := fun l hl => hc l hl now rfl
    exact ⟨rfl, .running now rfl ((h.setEpoch hle).sync members)⟩
  | begin now k =>
    have hle : ∀ l ∈ last, l ≤ now := fun l hl => hc l hl now rfl
    obtain ⟨htok, hsim⟩ := (h.setEpoch hle).begin k
    exact ⟨congrArg Answer.token htok, .running now rfl hsim⟩
  | addCost tok cost =>
    cases h with
    | unstarted h hep ht hr =>
      have hno : t.addCost tok cost = (t, false) := by
        simp only [Tracker.addCost, ht]
        split <;> rfl
      have hholder : r.holder tok = none := by
        simp only [Reference.holder, hr]
        split <;> rfl
      simp only [Tracker.step, Reference.step, hno, hholder, isSome_none, Bool.and_false]
      exact ⟨trivial, .unstarted h hep ht hr⟩
    | running now hlast h =>
      obtain ⟨hadded, hsim⟩ := h.addCost tok cost
      exact ⟨congrArg Answer.added hadded, .running now hlast hsim⟩
  | finish now tok cost =>
    have hle : ∀ l ∈ last, l ≤ now := fun l hl => hc l hl now rfl
    cases hvalid : tok.valid with
    | false =>
      -- a zero token: nothing happens, not even to the epoch
      refine ⟨rfl, ?_⟩
      simp only [Tracker.step, Reference.step, Tracker.finish, Reference.finish, hvalid,
        Bool.not_false, if_true, Bool.false_eq_true, if_false]
      exact h.at_time hle
    | true => exact ⟨rfl, .running now rfl ((h.setEpoch hle).finish hvalid cost)⟩
  | overlay now inp =>
    have hle : ∀ l ∈ last, l ≤ now := fun l hl => hc l hl now rfl
    obtain ⟨ht, hload⟩ := (h.setEpoch hle).overlay inp
    refine ⟨?_, .running now rfl ?_⟩
    · simp only [Tracker.step, Reference.step, ← hload]
    · show SimAt now (t.overlay now inp).1 (r.setEpoch now)
      rw [ht]
      exact h.setEpoch hle

/-- What an entry's history stands for: a series of `record` calls, whose array gives the same
answers, and no subtraction of which wraps. -/
def Entry.Faithful (keep : Int) (e : Entry) : Prop :=
  ∃ ms : List Mark, e.hist = History.ofMarks keep ms ∧
    (∀ pivot b, (RawHistory.ofMarks keep ms).since pivot b = (e.hist.since pivot b).map .ofNat) ∧
    (ms.length < 2 ^ 64 → (RawHistory.ofMarks keep ms).NoWrap)

theorem OverlaySim.faithful (h : OverlaySim last t r)
    {k : Key} {e : Entry} (hk : t.entries.lookup k = some e) : e.Faithful t.window := by
  cases h with
  | unstarted _ _ ht _ =>
    rw [ht] at hk
    cases hk
  | running now _ h =>
    rcases h.entries.lookup k with ⟨ht, -⟩ | ⟨e', re, ht, -, he⟩
    · rw [hk] at ht
      cases ht
    · obtain rfl := some.inj (hk.symm.trans ht)
      have hms : ∀ m ∈ marks t.bucket re.events, 0 ≤ m.idx ∧ m.idx < 2 ^ 63 := by
        intro m hm
        obtain ⟨v, hv, rfl⟩ := mem_map.mp hm
        exact ⟨(he.past v hv).1, Tracker.bucket_lt h.bucket_pos v.time⟩
      have hag := RawHistory.Agrees.ofMarks h.window_eq.2 hms
      rw [← he.hist] at hag
      exact ⟨marks t.bucket re.events, he.hist, hag.since (h.holds he), hag.noWrap (h.holds he)⟩

/-- **The load overlay refines its naive reference.** For every bucket width and window in range,
along every run with a clock that does not go back, the tracker and the reference give the same
answers: the same tokens, the same active counts, and the same reasons to fall back, so the history
never fails to answer for a report that the reference corrects. The history that the source stores
(an array that is trimmed and compacted, machine integers, a binary search) gives the answers of the
model's, and the active count is never below the gateway's own. -/
theorem overlay_refines_reference (cfg : Config) (hcfg : cfg.Fits) (calls : List Call)
    (hclock : Machine.Admitted Tracker.step Call.InOrder lastReading none (newTracker cfg) calls) :
    outputs Tracker.step (newTracker cfg) calls =
      outputs Reference.step (newReference cfg) calls ∧
    (∀ k e, (final Tracker.step (newTracker cfg) calls).entries.lookup k = some e →
      e.Faithful (final Tracker.step (newTracker cfg) calls).window) ∧
    ∀ now inp, clampCount inp.localCount ≤
      ((final Tracker.step (newTracker cfg) calls).overlay now inp).2.active := by
  have hstart := overlaySim_new hcfg
  refine ⟨?_, fun k e hk => ?_, fun now inp => Tracker.overlay_active _ now inp⟩
  · rw [outputs_eq_outputsOf, outputs_eq_outputsOf]
    exact outputsOf_eq_of_sim
      (fun last t r c h hc => ⟨fun _ => (h.step hc).1, (h.step hc).2⟩) hstart hclock
  · obtain ⟨last, hend⟩ := final_of_sim (fun last t r c h hc => (h.step hc).2) hstart hclock
    exact hend.faithful hk

/-- A worker reports four requests at second 60. In that second the gateway sends it two and sees
one finish; what it sent at second 0 is trimmed by then. -/
def sampleCalls : List Call :=
  [.begin 0 ⟨"w1", 7⟩, .begin 60000 ⟨"w1", 7⟩, .finish 60500 ⟨⟨"w1", 7⟩, 1⟩ 0,
    .begin 60600 ⟨"w1", 7⟩, .overlay 61000 ⟨⟨"w1", 7⟩, 2, 4, 60000⟩]

theorem overlay_refines_reference_sample :
    (outputs Reference.step (newReference ⟨1000, 2000, 8⟩) sampleCalls).getLast? =
      some (.load 5 .none) ∧
    outputs Tracker.step (newTracker ⟨1000, 2000, 8⟩) sampleCalls =
      outputs Reference.step (newReference ⟨1000, 2000, 8⟩) sampleCalls :=
  ⟨by decide +kernel,
    (overlay_refines_reference _ ⟨by decide, by decide⟩ _ (by decide +kernel)).1⟩

/-- With buckets of a nanosecond the longest window, in buckets and two more, is out of range: a
record is trimmed as soon as it is made. -/
theorem longest_window_trims_at_once : ∃ (cfg : Config) (calls : List Call),
    Machine.Admitted Tracker.step Call.InOrder lastReading none (newTracker cfg) calls ∧
      outputs Tracker.step (newTracker cfg) calls ≠
        outputs Reference.step (newReference cfg) calls :=
  ⟨⟨1, 2 ^ 63 - 1, 8⟩, [.begin 0 ⟨"w1", 7⟩, .overlay 0 ⟨⟨"w1", 7⟩, 0, 0, 0⟩],
    by decide +kernel, by decide +kernel⟩

end ServerFlow.Signals
