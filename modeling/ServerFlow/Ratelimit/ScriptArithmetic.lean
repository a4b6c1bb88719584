import ServerFlow.Ratelimit.RateBound
import ServerFlow.Ratelimit.Script

/-!
# Ratelimit.ScriptArithmetic

The arithmetic of the Lua scripts. Within the limiter's bounds (quotas up to `maxQuota`, a
burst of at most an hour, costs up to `maxCost`) every number the scripts compute stays where
doubles are exact, so a check of the script finds what the model's finds (`scriptCheck_eq`).
A bucket that has been idle for two windows is full under any quota, which is what a script
assumes of one that is missing (`checkedOf_expired`).
-/

namespace ServerFlow.Ratelimit

/-- The rounding leaves integers up to `2^53` alone, as that to doubles does. -/
def ExactBelow (rnd : Int → Int) : Prop := ∀ x : Int, -2 ^ 53 ≤ x → x ≤ 2 ^ 53 → rnd x = x

/-- What `NewRedis` accepts: a burst of at most an hour and a TTL of at least three
milliseconds (a Go duration has fewer than `2^63` nanoseconds). -/
structure Params.InRange (p : Params) : Prop where
  burst_pos : 1 ≤ p.burstSeconds
  burst_le : p.burstSeconds ≤ maxBurstSeconds
  ttl_ge : 3 ≤ p.leaseTTLMs
  ttl_le : p.leaseTTLMs ≤ 9223372036854

/-- The two ways the scripts clamp a number. -/
theorem clamp_above {α : Type} [LinearOrder α] (x c : α) [Decidable (c < x)] :
    (if x > c then c else x) = min x c := by
  split
  next h => exact (min_eq_right h.le).symm
  next h => exact (min_eq_left (not_lt.mp h)).symm

theorem clamp_below {α : Type} [LinearOrder α] (x c : α) [Decidable (x < c)] :
    (if x < c then c else x) = max x c := by
  split
  next h => exact (max_eq_right h.le).symm
  next h => exact (max_eq_left (not_lt.mp h)).symm

section Arithmetic

variable {rnd : Int → Int} (hrnd : ExactBelow rnd) {p : Params} (hp : p.InRange)

include hp in
theorem Params.InRange.window_bounds : 1000 ≤ p.window ∧ p.window ≤ 3600000 := by
  have h₁ := hp.burst_pos
  have h₂ := hp.burst_le
  unfold maxBurstSeconds at h₂
  unfold Params.window
  omega

include hp in
theorem Params.InRange.capacity_bounds {Q : Int} (hQ : 0 < Q) (hQ' : Q ≤ maxQuota) :
    0 < capacity p Q ∧ capacity p Q ≤ maxLevel := by
  obtain ⟨h₁, h₂⟩ := hp.window_bounds
  rw [capacity_eq]
  refine ⟨by positivity, ?_⟩
  calc p.window * Q ≤ 3600000 * maxQuota := by gcongr
    _ = maxLevel := by decide

include hrnd

theorem scriptNow_eq {t : RedisTime} (ht : t.ms ≤ maxTime) : scriptNow rnd 0 t = t.ms := by
  unfold RedisTime.ms maxTime at ht
  unfold scriptNow RedisTime.ms
  rw [if_neg (by decide), hrnd (t.sec * 1000) (by omega) (by omega), hrnd _ (by omega) (by omega)]

theorem scriptCeilDiv_eq {a b : Int} (ha : 0 < a) (hb : 0 < b) (hab : a + b ≤ 2 ^ 53) :
    scriptCeilDiv rnd a b = ceilDiv a b := by
  have hx : 0 ≤ a + b - 1 := by omega
  have hmod := Int.emod_nonneg (a + b - 1) hb.ne'
  have hmod' := Int.emod_lt_of_pos (a + b - 1) hb
  have hdiv : (a + b - 1) - (a + b - 1) % b = b * ((a + b - 1) / b) := by
    have := Int.mul_ediv_add_emod (a + b - 1) b
    omega
  have hle : (a + b - 1) / b ≤ a + b - 1 := Int.ediv_le_self b hx
  have hnn : 0 ≤ (a + b - 1) / b := Int.ediv_nonneg hx hb.le
  unfold scriptCeilDiv ceilDiv
  rw [hrnd (a + b) (by omega) (by omega), hrnd (a + b - 1) (by omega) (by omega)]
  dsimp only
  rw [hrnd ((a + b - 1) % b) (by omega) (by omega), hrnd (_ - _) (by omega) (by omega), hdiv,
    Int.mul_ediv_cancel_left _ hb.ne', hrnd _ (by omega) (by omega),
    Int.tdiv_eq_ediv_of_nonneg hx]

include hp

/-- The script refills a bucket to the model's level, and keeps the model's stamp. -/
theorem scriptRefill_eq {now Q l ts : Int} (hnow : 0 ≤ now) (hnow' : now ≤ maxTime) (hts : 0 ≤ ts)
    (hts' : ts ≤ maxTime) (hQ : 0 < Q) (hQ' : Q ≤ maxQuota) (hl : 0 ≤ l) (hl' : l ≤ maxLevel) :
    scriptRefill rnd now p.window Q (capacity p Q) l ts =
      (level p (some ⟨l, ts⟩) now Q, nextStamp (some ⟨l, ts⟩) now) := by
  obtain ⟨hw, hw'⟩ := hp.window_bounds
  have helapsed : (if (if now - ts < 0 then 0 else now - ts) > p.window then p.window
      else (if now - ts < 0 then 0 else now - ts)) = Bucket.elapsed p ⟨l, ts⟩ now := by
    unfold Bucket.elapsed
    dsimp only
    omega
  have he : 0 ≤ Bucket.elapsed p ⟨l, ts⟩ now ∧ Bucket.elapsed p ⟨l, ts⟩ now ≤ 3600000 := by
    unfold Bucket.elapsed
    dsimp only
    omega
  have hadd : Bucket.elapsed p ⟨l, ts⟩ now * Q ≤ maxLevel :=
    calc _ ≤ 3600000 * maxQuota := mul_le_mul he.2 hQ' hQ.le (by decide)
      _ = maxLevel := by decide
  have hadd' : 0 ≤ Bucket.elapsed p ⟨l, ts⟩ now * Q := mul_nonneg he.1 hQ.le
  have hmax : maxLevel = 3600000000000000 := by decide
  have htime : maxTime = 2 ^ 52 := rfl
  unfold scriptRefill
  rw [hrnd (now - ts) (by omega) (by omega)]
  dsimp only
  rw [helapsed, hrnd (_ * Q) (by omega) (by omega), hrnd (l + _) (by omega) (by omega)]
  exact Prod.ext (clamp_above _ _) rfl

/-- What a check finds in the model, in the script's terms. -/
def checkedOf (p : Params) (b : Option Bucket) (now Q tokens : Int) : Checked Int where
  level := level p b now Q
  need := need tokens (capacity p Q)
  wait :=
    if level p b now Q < need tokens (capacity p Q) then
      ceilDiv (need tokens (capacity p Q) - level p b now Q) Q
    else 0
  stamp := nextStamp b now

/-- The script's check finds what the model's does, given the same bucket. -/
theorem scriptCheck_eq {now Q tokens : Int} {b : Option Bucket} (hnow : 0 ≤ now)
    (hnow' : now ≤ maxTime) (hQ : 0 < Q) (hQ' : Q ≤ maxQuota) (hc : 0 ≤ tokens)
    (hc' : tokens ≤ maxCost)
    (hb : ∀ c, b = some c → 0 ≤ c.level ∧ c.level ≤ maxLevel ∧ 0 ≤ c.stamp ∧ c.stamp ≤ maxTime) :
    scriptCheck rnd now p.window Q tokens [b.map Bucket.level, b.map Bucket.stamp] =
      checkedOf p b now Q tokens := by
  obtain ⟨hcap, hcap'⟩ := hp.capacity_bounds hQ hQ'
  have hmax : maxLevel = 3600000000000000 := by decide
  have hquota : maxQuota = 1000000000 := rfl
  have hcost : maxCost = 4294967296 := by decide
  have hlevel : 0 ≤ level p b now Q := by
    cases b with
    | none => exact hcap.le
    | some c =>
      obtain ⟨hl, -⟩ := hb c rfl
      refine le_min ?_ hcap.le
      have : 0 ≤ c.elapsed p now :=
        le_min (le_max_right _ _) (by have := hp.window_bounds.1; omega)
      positivity
  have hlevel' : level p b now Q ≤ capacity p Q := level_le_capacity p b now Q
  have hpeek : scriptPeek rnd now p.window Q (capacity p Q)
      [b.map Bucket.level, b.map Bucket.stamp] = (level p b now Q, nextStamp b now) := by
    cases b with
    | none => rfl
    | some c =>
      obtain ⟨h₁, h₂, h₃, h₄⟩ := hb c rfl
      exact scriptRefill_eq hrnd hp hnow hnow' h₃ h₄ hQ hQ' h₁ h₂
  have hneed : (if tokens * 60000 > capacity p Q then capacity p Q else tokens * 60000) =
      need tokens (capacity p Q) := by
    unfold need scale
    omega
  have hneed' : need tokens (capacity p Q) ≤ capacity p Q := min_le_right _ _
  unfold scriptCheck checkedOf
  rw [mul_comm Q, ← capacity_eq, hrnd (capacity p Q) (by omega) (by omega),
    hrnd (tokens * 60000) (by omega) (by omega)]
  dsimp only
  rw [hpeek, hneed]
  dsimp only
  split
  · rw [hrnd _ (by omega) (by omega), scriptCeilDiv_eq hrnd (by omega) hQ (by omega)]
  · rfl

omit hrnd in
/-- A bucket idle for two windows is full, whatever its quota is now: losing it changes no
check. -/
theorem checkedOf_expired {c : Bucket} {now Q tokens : Int} (hl : 0 ≤ c.level)
    (h : c.stamp + 2 * p.window < now) :
    checkedOf p (some c) now Q tokens = checkedOf p none now Q tokens := by
  obtain ⟨hw, -⟩ := hp.window_bounds
  have hfull : level p (some c) now Q = level p none now Q := by
    show min (c.level + min (max (now - c.stamp) 0) p.window * Q) (capacity p Q) = capacity p Q
    rw [min_eq_right (by omega : p.window ≤ max (now - c.stamp) 0), capacity_eq]
    exact min_eq_right (by omega)
  have hstamp : nextStamp (some c) now = nextStamp none now := if_neg (by omega)
  unfold checkedOf
  rw [hfull, hstamp]

end Arithmetic

/-- The check of one quota of the model, in the script's terms. -/
def quotaChecked (m : Model) (now : Int) (key : Bytes) (Q cost : Int) : Option (Checked Int) :=
  if Q > 0 then some (checkedOf m.p (m.buckets.lookup key) now Q cost) else none

/-- The checks of a request, in the script's terms. -/
def quotaChecks (m : Model) (now : Int) (r : ModelRequest) (best : Best Int) : Checks Int where
  req := quotaChecked m now (keyRequests r.tenantID) r.limits.requestsPerMinute 1
  tok := quotaChecked m now (keyTokens r.tenantID) r.limits.tokensPerMinute r.cost
  mod := quotaChecked m now (keyModel r.model) r.modelRequestsPerMinute 1
  best := best

/-! ### The longest wait -/

/-- There is a code exactly if there is a wait. -/
def Best.Ok {ν : Type} [LT ν] [OfNat ν 0] (b : Best ν) : Prop :=
  (b.code = 0 ∧ b.wait = 0) ∨ (0 < b.code ∧ 0 < b.wait)

theorem Best.Ok.consider {ν : Type} [LT ν] [DecidableLT ν] [OfNat ν 0] {b : Best ν} (h : b.Ok)
    {code : Int} {wait : ν} (hcode : 0 < code) (hwait : 0 < wait) :
    (b.consider code wait).Ok ∧ 0 < (b.consider code wait).code := by
  unfold Best.consider
  split
  · exact ⟨.inr ⟨hcode, hwait⟩, hcode⟩
  next hle =>
    rcases h with ⟨-, hzero⟩ | hpos
    · rw [hzero] at hle
      exact absurd hwait hle
    · exact ⟨.inr hpos, hpos.1⟩

end ServerFlow.Ratelimit
