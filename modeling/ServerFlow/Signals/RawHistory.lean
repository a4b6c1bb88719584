import ServerFlow.Signals.HistoryCounts

/-!
# Signals.RawHistory

The history as the source stores it: an array of which a front part is dead, compacted now and then,
with `uint64` counters and an `int64` bound for trimming, and searched by bisection. It agrees with
`History` (which has only the live records, and numbers that do not wrap) through every call of
`record` whose bound is in range, and `since` gives the same answers. While there are fewer than
`2 ^ 64` marks no subtraction wraps.
-/

namespace ServerFlow.Signals

open List Option
open Word (wrap wrap_eq)

variable {recs : List Rec}

structure RawRec where
  idx : Int
  cumS : UInt64
  cumF : UInt64

/-- `history`. The live records are those from `fromIdx` on. -/
structure RawHistory where
  recs : List RawRec
  fromIdx : Nat
  totS : UInt64
  totF : UInt64
  baseS : UInt64
  baseF : UInt64
  droppedIdx : Int
  hasDropped : Bool

/-- The zero `history`. -/
def RawHistory.zero : RawHistory := ⟨[], 0, 0, 0, 0, 0, 0, false⟩

def RawHistory.live (h : RawHistory) : List RawRec := h.recs.drop h.fromIdx

/-- The loop of `record` that steps over records behind `bound`. -/
def RawHistory.trim (bound : Int) (h : RawHistory) : RawHistory :=
  if hlt : h.fromIdx < h.recs.length then
    let r := h.recs[h.fromIdx]
    if r.idx < bound then
      trim bound { h with
        baseS := r.cumS
        baseF := r.cumF
        droppedIdx := r.idx
        hasDropped := true
        fromIdx := h.fromIdx + 1 }
    else h
  else h
termination_by h.recs.length - h.fromIdx

/-- The end of `record`: drop the dead part once it is long and more than half of the array. -/
def RawHistory.compact (h : RawHistory) : RawHistory :=
  if h.fromIdx > 32 ∧ h.fromIdx * 2 > h.recs.length then
    { h with recs := h.recs.drop h.fromIdx, fromIdx := 0 }
  else h

/-- `record`. -/
def RawHistory.record (h : RawHistory) (idx : Int) (start : Bool) (keep : Int) : RawHistory :=
  let h := if start then { h with totS := h.totS + 1 } else { h with totF := h.totF + 1 }
  let appended :=
    (RawHistory.trim (wrap (idx - keep))
      { h with recs := h.recs ++ [⟨idx, h.totS, h.totF⟩] }).compact
  match if h.recs.length > h.fromIdx then h.recs.getLast? else none with
  | some last =>
    if idx ≤ last.idx then
      { h with recs := h.recs.dropLast ++ [{ last with cumS := h.totS, cumF := h.totF }] }
    else appended
  | none => appended

/-- `since`; `none` for `ok` false. -/
def RawHistory.since (h : RawHistory) (pivot : Int) (start : Bool) : Option UInt64 :=
  let live := h.live
  let i := Search.search live.length fun i => (live[i]?).all fun r => decide (r.idx ≥ pivot)
  let count (cumS cumF : UInt64) : UInt64 := if start then h.totS - cumS else h.totF - cumF
  match if i > 0 then live[i - 1]? else none with
  | some r => some (count r.cumS r.cumF)
  | none =>
    if h.hasDropped && decide (pivot ≤ h.droppedIdx) then none else some (count h.baseS h.baseF)

/-- The array after a series of calls of `record`. -/
def RawHistory.ofMarks (keep : Int) (ms : List Mark) : RawHistory :=
  ms.foldl (fun h m => h.record m.idx m.start keep) .zero

/-- No subtraction of `since` wraps. -/
def RawHistory.NoWrap (h : RawHistory) : Prop :=
  h.baseS ≤ h.totS ∧ h.baseF ≤ h.totF ∧ ∀ r ∈ h.live, r.cumS ≤ h.totS ∧ r.cumF ≤ h.totF

/-! ### Agreement with the history of live records -/

/-- A record with its counters as `uint64`. -/
def Rec.toRaw (r : Rec) : RawRec := ⟨r.idx, .ofNat r.cumS, .ofNat r.cumF⟩

/-- The array has the live records, counters and last trimmed bucket of `h`. -/
structure RawHistory.Agrees (raw : RawHistory) (h : History) : Prop where
  bound : raw.fromIdx ≤ raw.recs.length
  live : raw.live = h.recs.map Rec.toRaw
  totS : raw.totS = .ofNat h.totS
  totF : raw.totF = .ofNat h.totF
  baseS : raw.baseS = .ofNat h.baseS
  baseF : raw.baseF = .ofNat h.baseF
  dropped : h.dropped = if raw.hasDropped then some raw.droppedIdx else none

namespace RawHistory.Agrees

variable {raw : RawHistory} {h : History}

theorem zero : RawHistory.Agrees .zero .empty := ⟨le_rfl, rfl, rfl, rfl, rfl, rfl, rfl⟩

theorem trim (bound : Int) (hag : raw.Agrees { h with recs := recs }) :
    (raw.trim bound).Agrees (History.trim bound recs h) := by
  induction recs generalizing raw h with
  | nil =>
    have hlen : ¬ raw.fromIdx < raw.recs.length := by
      have := hag.live
      rw [RawHistory.live, map_nil, drop_eq_nil_iff] at this
      omega
    rw [RawHistory.trim, dif_neg hlen]
    exact hag
  | cons r recs ih =>
    have hlive := hag.live
    have hlen : raw.fromIdx < raw.recs.length := by
      by_contra hge
      rw [RawHistory.live, drop_eq_nil_of_le (not_lt.mp hge)] at hlive
      cases hlive
    rw [RawHistory.live, drop_eq_getElem_cons hlen, map_cons] at hlive
    obtain ⟨hhead, htail⟩ := List.cons.inj hlive
    rw [RawHistory.trim, dif_pos hlen, hhead]
    simp only [History.trim]
    by_cases hlt : r.idx < bound
    · rw [if_pos hlt, if_pos (show r.toRaw.idx < bound from hlt)]
      exact ih ⟨hlen, htail, hag.totS, hag.totF, rfl, rfl, rfl⟩
    · rw [if_neg hlt, if_neg (show ¬ r.toRaw.idx < bound from hlt)]
      exact hag

section

variable (hag : raw.Agrees h)
include hag

theorem compact : raw.compact.Agrees h := by
  simp only [RawHistory.compact]
  split
  · exact ⟨Nat.zero_le _, hag.live, hag.totS, hag.totF, hag.baseS, hag.baseF, hag.dropped⟩
  · exact hag

/-- The totals go up together. -/
theorem bump (start : Bool) :
    RawHistory.Agrees
      (if start then { raw with totS := raw.totS + 1 } else { raw with totF := raw.totF + 1 })
      (h.bump start) := by
  cases start with
  | true =>
    refine ⟨hag.bound, hag.live, ?_, hag.totF, hag.baseS, hag.baseF, hag.dropped⟩
    simp [History.bump, hag.totS]
  | false =>
    refine ⟨hag.bound, hag.live, hag.totS, ?_, hag.baseS, hag.baseF, hag.dropped⟩
    simp [History.bump, hag.totF]

/-- A record is added at the end. -/
theorem concat (idx : Int) :
    RawHistory.Agrees { raw with recs := raw.recs ++ [⟨idx, raw.totS, raw.totF⟩] }
      { h with recs := h.recs ++ [h.recAt idx] } := by
  refine ⟨?_, ?_, hag.totS, hag.totF, hag.baseS, hag.baseF, hag.dropped⟩
  · simp only [length_append, length_singleton]
    exact hag.bound.trans (Nat.le_succ _)
  · have := hag.live
    simp only [RawHistory.live] at this ⊢
    rw [drop_append_of_le_length hag.bound, this, hag.totS, hag.totF, map_append]
    rfl

/-- The last live record is replaced. -/
theorem replaceLast {last : Rec}
    (hrecs : h.recs = recs ++ [last]) :
    RawHistory.Agrees { raw with recs := raw.recs.dropLast ++ [⟨last.idx, raw.totS, raw.totF⟩] }
      { h with recs := recs ++ [h.recAt last.idx] } := by
  have hlive := hag.live
  rw [RawHistory.live, hrecs, map_append] at hlive
  obtain ⟨front, hfront⟩ : ∃ front, raw.recs = front ++ [last.toRaw] := by
    refine ⟨raw.recs.take raw.fromIdx ++ recs.map Rec.toRaw, ?_⟩
    rw [append_assoc]
    conv_lhs => rw [← take_append_drop raw.fromIdx raw.recs, hlive]
    rfl
  have hbound : raw.fromIdx ≤ front.length := by
    have := congrArg List.length hlive
    rw [hfront] at this
    simp only [length_drop, length_append, length_map, length_cons,
      length_nil] at this
    omega
  have hdrop : front.drop raw.fromIdx = recs.map Rec.toRaw := by
    rw [hfront, drop_append_of_le_length hbound] at hlive
    exact (append_inj' hlive rfl).1
  rw [hfront, dropLast_concat]
  refine ⟨?_, ?_, hag.totS, hag.totF, hag.baseS, hag.baseF, hag.dropped⟩
  · simp only [length_append, length_singleton]
    exact hbound.trans (Nat.le_succ _)
  · simp only [RawHistory.live]
    rw [drop_append_of_le_length hbound, hdrop, hag.totS, hag.totF, map_append]
    rfl

/-- The last record of the array is live if there is a live one. -/
theorem getLast? :
    (if raw.recs.length > raw.fromIdx then raw.recs.getLast? else none) =
      h.recs.getLast?.map Rec.toRaw := by
  have hlive := hag.live
  rw [RawHistory.live] at hlive
  rw [← List.getLast?_map, ← hlive, List.getLast?_drop]
  split
  · rw [if_neg (by omega)]
  · rw [if_pos (by omega)]

/-- **One call of `record`** on both. -/
theorem record {idx keep : Int} (hidx : 0 ≤ idx ∧ idx < 2 ^ 63) (hkeep : 0 ≤ keep ∧ keep < 2 ^ 63)
    (start : Bool) : (raw.record idx start keep).Agrees (h.record idx start keep) := by
  have hb := hag.bump start
  have hlast := hb.getLast?
  simp only [RawHistory.record]
  rw [hlast, wrap_eq (x := idx - keep) (by omega) (by omega)]
  rcases h.record_cases idx start keep with ⟨last, hl, hle, heq⟩ | ⟨hbefore, heq⟩
  · obtain ⟨recs, hrecs⟩ := List.getLast?_eq_some_iff.mp hl
    have hbump : (h.bump start).recs.getLast? = some last := hl
    rw [heq, hbump, map_some]
    dsimp only
    rw [if_pos (show idx ≤ last.toRaw.idx from hle), hrecs, dropLast_concat]
    exact hb.replaceLast (h := h.bump start) hrecs
  · have hnew := ((hb.concat idx).trim (idx - keep)).compact
    rw [heq]
    cases hl : (h.bump start).recs.getLast? with
    | none => exact hnew
    | some last =>
      rw [map_some]
      dsimp only
      rw [if_neg (show ¬ idx ≤ last.toRaw.idx from not_le.mpr (hbefore last hl))]
      exact hnew

end

/-- The two histories of any series of marks. -/
theorem ofMarks {keep : Int} (hkeep : 0 ≤ keep ∧ keep < 2 ^ 63) {ms : List Mark}
    (hms : ∀ m ∈ ms, 0 ≤ m.idx ∧ m.idx < 2 ^ 63) :
    (RawHistory.ofMarks keep ms).Agrees (History.ofMarks keep ms) := by
  induction ms using List.reverseRecOn with
  | nil => exact zero
  | append_singleton ms m ih =>
    rw [RawHistory.ofMarks, History.ofMarks, foldl_append, foldl_append]
    exact (ih fun m hm => hms m (by simp [hm])).record (hms m (by simp)) hkeep m.start

end RawHistory.Agrees

/-! ### Bisection and subtraction -/

/-- The record that bisection leads to is the last one before `pivot`. -/
theorem search_live (hord : recs.Pairwise fun r r' => r.idx < r'.idx) (pivot : Int) :
    (let live := recs.map Rec.toRaw
     let i := Search.search live.length fun i => (live[i]?).all fun r => decide (r.idx ≥ pivot)
     if i > 0 then live[i - 1]? else none) =
      (recs.takeWhile fun r => r.idx < pivot).getLast?.map Rec.toRaw := by
  have htest : (fun r : RawRec => decide (r.idx ≥ pivot)) = fun r => !decide (r.idx < pivot) := by
    funext r
    rw [← decide_not, decide_eq_decide, not_lt]
  have hlive : (recs.map Rec.toRaw).Pairwise fun r r' =>
      decide (r'.idx < pivot) = true → decide (r.idx < pivot) = true := by
    rw [pairwise_map]
    exact hord.imp fun {r r'} hlt hr' => decide_eq_true (hlt.trans (of_decide_eq_true hr'))
  have hrun : (recs.map Rec.toRaw).takeWhile (fun r => decide (r.idx < pivot)) =
      (recs.takeWhile fun r => r.idx < pivot).map Rec.toRaw := takeWhile_map
  have hsearch := Search.search_eq_length_takeWhile hlive
  dsimp only
  rw [htest, hsearch, ← List.getLast?_map, ← hrun, Search.getLast?_takeWhile]

namespace History.Holds

variable {h : History} {keep : Int} {ms : List Mark}

/-- No counter of the history is above its total. -/
theorem base_le_tot (hh : h.Holds keep ms) (b : Bool) : h.base b ≤ h.tot b := by
  rw [hh.base b, hh.tot b]
  cases h.dropped with
  | none => exact Nat.zero_le _
  | some d => exact countP_mono_left fun m _ hm => (Bool.and_eq_true_iff.mp hm).1

theorem cum_le_tot (hh : h.Holds keep ms) {r : Rec} (hr : r ∈ h.recs) (b : Bool) :
    r.cum b ≤ h.tot b := by
  rw [hh.cum r hr b, hh.tot b]
  exact countP_mono_left fun m _ hm => (Bool.and_eq_true_iff.mp hm).1

theorem tot_le_length (hh : h.Holds keep ms) (b : Bool) : h.tot b ≤ ms.length := by
  rw [hh.tot b]
  exact countP_le_length

end History.Holds

namespace RawHistory.Agrees

variable {raw : RawHistory} {h : History} {keep : Int} {ms : List Mark}

/-- **`since` on the array** gives the answer of the live records, as a `uint64`. -/
theorem since (hag : raw.Agrees h) (hh : h.Holds keep ms) (pivot : Int) (b : Bool) :
    raw.since pivot b = (h.since pivot b).map UInt64.ofNat := by
  have hcount : ∀ cumS cumF : Nat, (if b then cumS else cumF) ≤ h.tot b →
      (if b then raw.totS - .ofNat cumS else raw.totF - .ofNat cumF) =
        UInt64.ofNat (h.tot b - if b then cumS else cumF) := by
    intro cumS cumF hle
    rw [UInt64.ofNat_sub hle]
    cases b with
    | true => exact congrArg (· - _) hag.totS
    | false => exact congrArg (· - _) hag.totF
  simp only [RawHistory.since, hag.live]
  rw [search_live hh.ordered pivot, History.since_eq]
  cases hlast : (h.recs.takeWhile fun r => r.idx < pivot).getLast? with
  | some r =>
    have hr : r ∈ h.recs := (takeWhile_sublist _).subset (mem_of_getLast? hlast)
    exact congrArg some (hcount r.cumS r.cumF (hh.cum_le_tot hr b))
  | none =>
    have hbase := hcount h.baseS h.baseF (hh.base_le_tot b)
    rw [← hag.baseS, ← hag.baseF] at hbase
    rw [hag.dropped]
    cases raw.hasDropped with
    | false => exact congrArg some hbase
    | true =>
      simp only [map_none, Bool.true_and, if_true, any_some]
      split
      · rfl
      · exact congrArg some hbase

/-- Fewer than `2 ^ 64` marks: the counters did not wrap, so no subtraction does. -/
theorem noWrap (hag : raw.Agrees h) (hh : h.Holds keep ms) (hlen : ms.length < 2 ^ 64) :
    raw.NoWrap := by
  have hle : ∀ {b : Bool} {c : Nat}, c ≤ h.tot b → UInt64.ofNat c ≤ UInt64.ofNat (h.tot b) := by
    intro b c hc
    have htot := (hh.tot_le_length b).trans_lt hlen
    rw [UInt64.le_iff_toNat_le, UInt64.toNat_ofNat_of_lt' (hc.trans_lt htot),
      UInt64.toNat_ofNat_of_lt' htot]
    exact hc
  refine ⟨?_, ?_, fun r hr => ?_⟩
  · rw [hag.baseS, hag.totS]
    exact hle (b := true) (hh.base_le_tot true)
  · rw [hag.baseF, hag.totF]
    exact hle (b := false) (hh.base_le_tot false)
  · rw [hag.live] at hr
    obtain ⟨r', hr', rfl⟩ := mem_map.mp hr
    rw [hag.totS, hag.totF]
    exact ⟨hle (b := true) (hh.cum_le_tot hr' true), hle (b := false) (hh.cum_le_tot hr' false)⟩

end RawHistory.Agrees

end ServerFlow.Signals
