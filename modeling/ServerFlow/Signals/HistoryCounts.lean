import ServerFlow.Lib.Search
import ServerFlow.Signals.Tracker

/-!
# Signals.HistoryCounts

What the bounded history of an entry knows. It is built by calls of `record`, one for each start or
finish (`Mark`); `History.Holds` relates it to the whole list of them. The cumulative counters of a
record are the counts up to its bucket, the bases are the counts up to the last bucket that was
trimmed away, and that bucket is more than `keep` behind a recorded one. From this, `since` counts
exactly, for every bucket that is not behind the trimmed ones.
-/

namespace ServerFlow.Signals

open List Option

variable {pivot : Int}

/-- A start or a finish, with its bucket. -/
structure Mark where
  idx : Int
  start : Bool

/-- The history after a series of calls of `record`. -/
def History.ofMarks (keep : Int) (ms : List Mark) : History :=
  ms.foldl (fun h m => h.record m.idx m.start keep) .empty

/-- The starts, or the finishes, in buckets up to `i`. -/
def countUpTo (ms : List Mark) (start : Bool) (i : Int) : Nat :=
  ms.countP fun m => m.start == start && decide (m.idx ≤ i)

/-- The starts, or the finishes, in buckets from `i` on. -/
def countFrom (ms : List Mark) (start : Bool) (i : Int) : Nat :=
  ms.countP fun m => m.start == start && decide (i ≤ m.idx)

/-! ### Starts and finishes alike -/

def Rec.cum (r : Rec) (start : Bool) : Nat := if start then r.cumS else r.cumF

def History.tot (h : History) (start : Bool) : Nat := if start then h.totS else h.totF

def History.base (h : History) (start : Bool) : Nat := if start then h.baseS else h.baseF

/-- The history with one more start or finish in its totals. -/
def History.bump (h : History) (start : Bool) : History :=
  { h with
    totS := if start then h.totS + 1 else h.totS
    totF := if start then h.totF else h.totF + 1 }

/-- A record of the present totals. -/
def History.recAt (h : History) (idx : Int) : Rec := ⟨idx, h.totS, h.totF⟩

theorem History.tot_bump (h : History) (start b : Bool) :
    (h.bump start).tot b = h.tot b + if start == b then 1 else 0 := by
  cases start <;> cases b <;> rfl

theorem History.cum_recAt (h : History) (idx : Int) (b : Bool) : (h.recAt idx).cum b = h.tot b :=
  rfl

/-- `record`, with the two ways it can go: the last record takes the mark, or a new one does. -/
theorem History.record_cases (h : History) (idx : Int) (start : Bool) (keep : Int) :
    (∃ last, h.recs.getLast? = some last ∧ idx ≤ last.idx ∧ h.record idx start keep =
      { h.bump start with recs := h.recs.dropLast ++ [(h.bump start).recAt last.idx] }) ∨
    ((∀ last, h.recs.getLast? = some last → last.idx < idx) ∧ h.record idx start keep =
      History.trim (idx - keep) (h.recs ++ [(h.bump start).recAt idx]) (h.bump start)) := by
  cases hlast : h.recs.getLast? with
  | none =>
    refine .inr ⟨nofun, ?_⟩
    simp only [History.record, hlast]
    rfl
  | some last =>
    by_cases hle : idx ≤ last.idx
    · refine .inl ⟨last, rfl, hle, ?_⟩
      simp only [History.record, hlast, if_pos hle]
      rfl
    · refine .inr ⟨fun l hl => ?_, ?_⟩
      · obtain rfl := some.inj hl
        omega
      · simp only [History.record, hlast, if_neg hle]
        rfl

/-- `since`, with the counter it subtracts. -/
theorem History.since_eq (h : History) (pivot : Int) (b : Bool) : h.since pivot b =
    match (h.recs.takeWhile fun r => r.idx < pivot).getLast? with
    | some r => some (h.tot b - r.cum b)
    | none => if h.dropped.any (pivot ≤ ·) then none else some (h.tot b - h.base b) := by
  cases b <;> rfl

/-! ### Counting marks -/

section Counting

variable {ms : List Mark} {b : Bool} {i : Int}

theorem countUpTo_concat (ms : List Mark) (m : Mark) (b : Bool) (i : Int) :
    countUpTo (ms ++ [m]) b i = countUpTo ms b i + if m.start == b && decide
      (m.idx ≤ i) then 1 else 0 := by
  simp only [countUpTo, countP_append, countP_singleton]

/-- A mark in a later bucket does not count. -/
theorem countUpTo_concat_of_lt {m : Mark} (h : i < m.idx) :
    countUpTo (ms ++ [m]) b i = countUpTo ms b i := by
  rw [countUpTo_concat, decide_eq_false (not_le.mpr h), Bool.and_false]
  rfl

/-- Once every mark is in a bucket up to `i`, all of them count. -/
theorem countUpTo_of_le (h : ∀ m ∈ ms, m.idx ≤ i) :
    countUpTo ms b i = ms.countP (·.start == b) := by
  refine countP_congr fun m hm => ?_
  rw [decide_eq_true (h m hm), Bool.and_true]

/-- Two buckets with no mark between them have the same counts. -/
theorem countUpTo_add_countFrom (h : ∀ m ∈ ms, m.idx ≤ i ↔ m.idx < pivot) :
    countUpTo ms b i + countFrom ms b pivot = ms.countP (·.start == b) := by
  induction ms with
  | nil => rfl
  | cons m ms ih =>
    have hm := h m (by simp)
    have ih := ih fun m' hm' => h m' (by simp [hm'])
    simp only [countUpTo, countFrom, countP_cons] at ih ⊢
    by_cases hi : m.idx ≤ i
    · have hp : ¬ pivot ≤ m.idx := not_le.mpr (hm.mp hi)
      simp only [hi, hp, decide_true, decide_false, Bool.and_true, Bool.and_false]
      simp only [Bool.false_eq_true, if_false]
      omega
    · have hp : pivot ≤ m.idx := not_lt.mp fun hlt => hi (hm.mpr hlt)
      simp only [hi, hp, decide_true, decide_false, Bool.and_true, Bool.and_false]
      simp only [Bool.false_eq_true, if_false]
      omega

theorem countFrom_of_le (h : ∀ m ∈ ms, i ≤ m.idx) :
    countFrom ms b i = ms.countP (·.start == b) := by
  refine countP_congr fun m hm => ?_
  rw [decide_eq_true (h m hm), Bool.and_true]

end Counting

/-! ### The representation invariant -/

/-- What a history says of the marks it was built from. -/
structure History.Holds (h : History) (keep : Int) (ms : List Mark) : Prop where
  tot : ∀ b, h.tot b = ms.countP (·.start == b)
  ordered : h.recs.Pairwise fun r r' => r.idx < r'.idx
  cum : ∀ r ∈ h.recs, ∀ b, r.cum b = countUpTo ms b r.idx
  /-- The bases are the counts up to the last bucket that was trimmed. -/
  base : ∀ b, h.base b = (h.dropped.map (countUpTo ms b)).getD 0
  marked : ∀ r ∈ h.recs, ∃ m ∈ ms, m.idx = r.idx
  covered : ∀ m ∈ ms, (∃ r ∈ h.recs, r.idx = m.idx) ∨ ∃ d ∈ h.dropped, m.idx ≤ d
  after : ∀ d ∈ h.dropped, ∀ r ∈ h.recs, d < r.idx
  /-- What was trimmed is more than `keep` behind a bucket that was recorded. -/
  expired : ∀ d ∈ h.dropped, ∃ m ∈ ms, d < m.idx - keep

namespace History.Holds

variable {h : History} {keep : Int} {ms : List Mark}

theorem empty (keep : Int) : History.Holds .empty keep [] := by
  refine ⟨fun b => ?_, .nil, ?_, fun b => ?_, ?_, ?_, ?_, ?_⟩
  · cases b <;> rfl
  · intro r hr
    cases hr
  · cases b <;> rfl
  all_goals
    intro x hx
    cases hx

/-- The loop of `record` trims records behind `bound`. -/
theorem trim {bound : Int} (hbound : ∃ m ∈ ms, bound = m.idx - keep) {recs : List Rec}
    (hh : History.Holds { h with recs := recs } keep ms) :
    (History.trim bound recs h).Holds keep ms := by
  induction recs generalizing h with
  | nil => exact hh
  | cons r recs ih =>
    simp only [History.trim]
    split
    next hlt =>
      obtain ⟨hfirst, hrest⟩ := pairwise_cons.mp hh.ordered
      have hmem : ∀ r' ∈ recs, r' ∈ r :: recs := fun r' hr' => mem_cons_of_mem r hr'
      refine ih ⟨hh.tot, hrest, fun r' hr' => hh.cum r' (hmem r' hr'), fun b => ?_,
        fun r' hr' => hh.marked r' (hmem r' hr'), fun m hm => ?_, ?_, ?_⟩
      · exact hh.cum r (by simp) b
      · -- the marks of the record, and those that were trimmed before it, are now behind it
        rcases hh.covered m hm with ⟨r', hr', hidx⟩ | ⟨d, hd, hle⟩
        · rcases mem_cons.mp hr' with rfl | hr'
          · exact .inr ⟨r'.idx, rfl, hidx.ge⟩
          · exact .inl ⟨r', hr', hidx⟩
        · exact .inr ⟨r.idx, rfl, hle.trans (hh.after d hd r (by simp)).le⟩
      · rintro d ⟨⟩ r' hr'
        exact hfirst r' hr'
      · rintro d ⟨⟩
        obtain ⟨m, hm, rfl⟩ := hbound
        exact ⟨m, hm, hlt⟩
    next => exact hh

variable {m : Mark}

section

variable (hh : h.Holds keep ms)
include hh

/-- The counts up to a bucket before `idx` do not see a mark in `idx`. -/
theorem counts_concat (hkeep : 0 ≤ keep) (hlast : ∀ m' ∈ ms, m'.idx ≤ m.idx) :
    (∀ b, h.base b = (h.dropped.map (countUpTo (ms ++ [m]) b)).getD 0) ∧
    (∀ d ∈ h.dropped, ∃ m' ∈ ms ++ [m], d < m'.idx - keep) ∧
    ∀ r ∈ h.recs, r.idx < m.idx → ∀ b, r.cum b = countUpTo (ms ++ [m]) b r.idx := by
  have hdrop : ∀ d ∈ h.dropped, d < m.idx := by
    intro d hd
    obtain ⟨m', hm', hlt⟩ := hh.expired d hd
    have := hlast m' hm'
    omega
  refine ⟨fun b => ?_, fun d hd => ?_, fun r hr hlt b => ?_⟩
  · rw [hh.base b]
    cases hd : h.dropped with
    | none => rfl
    | some d => exact (countUpTo_concat_of_lt (hdrop d hd)).symm
  · obtain ⟨m', hm', hlt⟩ := hh.expired d hd
    exact ⟨m', mem_append_left _ hm', hlt⟩
  · rw [countUpTo_concat_of_lt hlt]
    exact hh.cum r hr b

theorem tot_concat (m : Mark) (b : Bool) :
    (h.bump m.start).tot b = (ms ++ [m]).countP (·.start == b) := by
  rw [History.tot_bump, hh.tot b, countP_append, countP_singleton]

/-- A record of the totals, at the bucket of the last mark, counts all marks. -/
theorem recAt_concat (hlast : ∀ m' ∈ ms, m'.idx ≤ m.idx) (b : Bool) :
    ((h.bump m.start).recAt m.idx).cum b = countUpTo (ms ++ [m]) b m.idx := by
  rw [History.cum_recAt, hh.tot_concat, countUpTo_of_le]
  intro m' hm'
  rcases mem_append.mp hm' with hm' | hm'
  · exact hlast m' hm'
  · rw [mem_singleton.mp hm']

/-- The mark is in the bucket of the last record, which takes it. -/
theorem record_last (hkeep : 0 ≤ keep) (hlast : ∀ m' ∈ ms, m'.idx ≤ m.idx) {recs : List Rec}
    {last : Rec} (hrecs : h.recs = recs ++ [last]) (hidx : last.idx = m.idx) :
    History.Holds { h.bump m.start with recs := recs ++ [(h.bump m.start).recAt m.idx] } keep
      (ms ++ [m]) := by
  obtain ⟨hbase, hexpired, hcum⟩ := hh.counts_concat hkeep hlast
  obtain ⟨hrest, -, hbefore⟩ := pairwise_append.mp (hrecs ▸ hh.ordered)
  have hbefore : ∀ r ∈ recs, r.idx < m.idx := fun r hr => by
    rw [← hidx]
    exact hbefore r hr last (by simp)
  have hold : ∀ r ∈ recs, r ∈ h.recs := fun r hr => by
    rw [hrecs]
    exact mem_append_left _ hr
  have hlastMem : last ∈ h.recs := by rw [hrecs]; simp
  refine ⟨hh.tot_concat m, ?_, ?_, hbase, ?_, ?_, ?_, hexpired⟩
  · refine pairwise_append.mpr ⟨hrest, pairwise_singleton _ _, fun r hr r' hr' => ?_⟩
    rw [mem_singleton.mp hr']
    exact hbefore r hr
  · intro r hr b
    rcases mem_append.mp hr with hr | hr
    · exact hcum r (hold r hr) (hbefore r hr) b
    · rw [mem_singleton.mp hr]
      exact hh.recAt_concat hlast b
  · intro r hr
    rcases mem_append.mp hr with hr | hr
    · obtain ⟨m', hm', heq⟩ := hh.marked r (hold r hr)
      exact ⟨m', mem_append_left _ hm', heq⟩
    · rw [mem_singleton.mp hr]
      exact ⟨m, by simp, rfl⟩
  · intro m' hm'
    have hnew : ∃ r ∈ recs ++ [(h.bump m.start).recAt m.idx], r.idx = m.idx :=
      ⟨(h.bump m.start).recAt m.idx, by simp, rfl⟩
    rcases mem_append.mp hm' with hm' | hm'
    · rcases hh.covered m' hm' with ⟨r, hr, heq⟩ | hd
      · rw [hrecs] at hr
        rcases mem_append.mp hr with hr | hr
        · exact .inl ⟨r, mem_append_left _ hr, heq⟩
        · rw [mem_singleton.mp hr, hidx] at heq
          rw [← heq]
          exact .inl hnew
      · exact .inr hd
    · rw [mem_singleton.mp hm']
      exact .inl hnew
  · intro d hd r hr
    rcases mem_append.mp hr with hr | hr
    · exact hh.after d hd r (hold r hr)
    · rw [mem_singleton.mp hr]
      exact hidx ▸ hh.after d hd last hlastMem

/-- The mark opens a bucket. -/
theorem record_new (hkeep : 0 ≤ keep)
    (hlast : ∀ m' ∈ ms, m'.idx ≤ m.idx) (hbefore : ∀ r ∈ h.recs, r.idx < m.idx) :
    History.Holds { h.bump m.start with recs := h.recs ++ [(h.bump m.start).recAt m.idx] } keep
      (ms ++ [m]) := by
  obtain ⟨hbase, hexpired, hcum⟩ := hh.counts_concat hkeep hlast
  refine ⟨hh.tot_concat m, ?_, ?_, hbase, ?_, ?_, ?_, hexpired⟩
  · refine pairwise_append.mpr ⟨hh.ordered, pairwise_singleton _ _, fun r hr r' hr' => ?_⟩
    rw [mem_singleton.mp hr']
    exact hbefore r hr
  · intro r hr b
    rcases mem_append.mp hr with hr | hr
    · exact hcum r hr (hbefore r hr) b
    · rw [mem_singleton.mp hr]
      exact hh.recAt_concat hlast b
  · intro r hr
    rcases mem_append.mp hr with hr | hr
    · obtain ⟨m', hm', heq⟩ := hh.marked r hr
      exact ⟨m', mem_append_left _ hm', heq⟩
    · rw [mem_singleton.mp hr]
      exact ⟨m, by simp, rfl⟩
  · intro m' hm'
    rcases mem_append.mp hm' with hm' | hm'
    · exact (hh.covered m' hm').imp_left fun ⟨r, hr, heq⟩ => ⟨r, mem_append_left _ hr, heq⟩
    · rw [mem_singleton.mp hm']
      exact .inl ⟨(h.bump m.start).recAt m.idx, by simp, rfl⟩
  · intro d hd r hr
    rcases mem_append.mp hr with hr | hr
    · exact hh.after d hd r hr
    · rw [mem_singleton.mp hr]
      obtain ⟨m', hm', hlt⟩ := hh.expired d hd
      have := hlast m' hm'
      show d < m.idx
      omega

/-- **One mark**, in no earlier bucket than the ones before it. -/
theorem record (hkeep : 0 ≤ keep)
    (hlast : ∀ m' ∈ ms, m'.idx ≤ m.idx) : (h.record m.idx m.start keep).Holds keep (ms ++ [m]) := by
  rcases h.record_cases m.idx m.start keep with ⟨last, hl, hle, heq⟩ | ⟨hbefore, heq⟩
  · obtain ⟨recs, hrecs⟩ := List.getLast?_eq_some_iff.mp hl
    have hidx : last.idx = m.idx := by
      obtain ⟨m', hm', hm'idx⟩ := hh.marked last (by rw [hrecs]; simp)
      have := hlast m' hm'
      omega
    rw [heq, hrecs, dropLast_concat, hidx]
    exact hh.record_last hkeep hlast hrecs hidx
  · rw [heq]
    refine trim ⟨m, by simp, rfl⟩ (hh.record_new hkeep hlast fun r hr => ?_)
    -- every record is at or before the last one
    cases hl : h.recs.getLast? with
    | none =>
      rw [List.getLast?_eq_none_iff.mp hl] at hr
      cases hr
    | some last =>
      have := hbefore last hl
      rcases Search.eq_or_of_getLast? hh.ordered hl hr with rfl | hlt <;> omega

end

/-- The history of any series of marks in order. -/
theorem ofMarks (hkeep : 0 ≤ keep) (hms : ms.Pairwise fun m m' => m.idx ≤ m'.idx) :
    (History.ofMarks keep ms).Holds keep ms := by
  induction ms using List.reverseRecOn with
  | nil => exact empty keep
  | append_singleton ms m ih =>
    obtain ⟨hrest, -, hlast⟩ := pairwise_append.mp hms
    rw [History.ofMarks, foldl_append]
    exact (ih hrest).record hkeep fun m' hm' => hlast m' hm' m (by simp)

/-- A bucket before `pivot` with a live record is among those that `since` looks at. -/
theorem mem_takeWhile (hh : h.Holds keep ms) {r : Rec} (hr : r ∈ h.recs)
    (hlt : r.idx < pivot) : r ∈ h.recs.takeWhile fun r => r.idx < pivot := by
  refine Search.mem_takeWhile_of_pairwise (hh.ordered.imp fun {r r'} hrr' hr' => ?_) hr
    (decide_eq_true hlt)
  exact decide_eq_true (hrr'.trans (of_decide_eq_true hr'))

/-- **`since` counts exactly**, for a bucket after those that were trimmed. -/
theorem since (hh : h.Holds keep ms) (hpivot : ∀ d ∈ h.dropped, d < pivot) (b : Bool) :
    h.since pivot b = some (countFrom ms b pivot) := by
  rw [History.since_eq]
  cases hlast : (h.recs.takeWhile fun r => r.idx < pivot).getLast? with
  | some r =>
    have hmem := mem_of_getLast? hlast
    have hrpivot : r.idx < pivot := by simpa using mem_takeWhile_imp hmem
    have hr : r ∈ h.recs := (takeWhile_sublist _).subset hmem
    have hsplit : ∀ m ∈ ms, m.idx ≤ r.idx ↔ m.idx < pivot := by
      intro m hm
      refine ⟨fun hle => hle.trans_lt hrpivot, fun hlt => ?_⟩
      rcases hh.covered m hm with ⟨r', hr', heq⟩ | ⟨d, hd, hle⟩
      · have hbefore := hh.ordered.sublist (takeWhile_sublist fun r => decide (r.idx < pivot))
        have := hh.mem_takeWhile hr' (heq ▸ hlt)
        rcases Search.eq_or_of_getLast? hbefore hlast this with rfl | hlt' <;> omega
      · exact hle.trans (hh.after d hd r hr).le
    have := countUpTo_add_countFrom (b := b) hsplit
    dsimp only
    rw [hh.tot b, hh.cum r hr b, ← this, Nat.add_sub_cancel_left]
  | none =>
    have hnone : ∀ r ∈ h.recs, ¬ r.idx < pivot := by
      intro r hr hlt
      have := hh.mem_takeWhile hr hlt
      rw [List.getLast?_eq_none_iff.mp hlast] at this
      cases this
    have hbase := hh.base b
    have hcovered := hh.covered
    cases hd : h.dropped with
    | none =>
      rw [hd] at hbase hcovered
      have hall : ∀ m ∈ ms, pivot ≤ m.idx := by
        intro m hm
        rcases hcovered m hm with ⟨r, hr, heq⟩ | ⟨d, hd, -⟩
        · exact heq ▸ not_lt.mp (hnone r hr)
        · cases hd
      simp only [any_none, Bool.false_eq_true, if_false, hbase, hh.tot b,
        countFrom_of_le hall]
      rfl
    | some d =>
      have hdp := hpivot d hd
      rw [hd] at hbase hcovered
      have hsplit : ∀ m ∈ ms, m.idx ≤ d ↔ m.idx < pivot := by
        intro m hm
        refine ⟨fun hle => hle.trans_lt hdp, fun hlt => ?_⟩
        rcases hcovered m hm with ⟨r, hr, heq⟩ | ⟨d', ⟨⟩, hle⟩
        · exact absurd (heq ▸ hlt) (hnone r hr)
        · exact hle
      have := countUpTo_add_countFrom (b := b) hsplit
      have hno : ¬ pivot ≤ d := not_le.mpr hdp
      simp only [any_some, decide_eq_true_eq, if_neg hno, hbase, hh.tot b, map_some,
        getD_some]
      rw [← this, Nat.add_sub_cancel_left]

end History.Holds

end ServerFlow.Signals
