import ServerFlow.Lib.Double
import ServerFlow.Ratelimit.ScriptArithmetic

/-!
# Ratelimit.ScriptDoubles

The acquire script (`internal/ratelimit/script.go`) on the numbers that Lua 5.1 has: every number is
a double, every operation is rounded, and `a % b` is `a - floor(a / b) * b` with each of its three
operations rounded. The store keeps integers, written with `%.0f`.

The stored levels carry the argument: whatever the quotas of earlier calls were, a level is at most
the largest capacity there is (`StoreOk`). A refill adds at most as much again, so everything stays
below `2^53` and is exact, the waits included; and because the waits are exact, a bucket is charged
only what it holds.
-/

namespace ServerFlow.Ratelimit.Lua

open Option List AList

open Redis (Store Error)
open Double (Nearest roundInt)

variable {k : Bytes}

/-! ### The script -/

section Script

variable (rnd : ℚ → ℚ)

/-- The script's `now`: the test clock if there is one, else `TIME`. -/
def now (override : Int) (t : RedisTime) : ℚ :=
  if override > 0 then override else rnd (rnd (t.sec * 1000) + ⌊rnd ((t.usec : ℚ) / 1000)⌋)

/-- `a % b`. -/
def mod (a b : ℚ) : ℚ := rnd (a - rnd (⌊rnd (a / b)⌋ * b))

/-- `ceil_div`. -/
def ceilDiv (a b : ℚ) : ℚ :=
  let x := rnd (rnd (a + b) - 1)
  rnd (rnd (x - mod rnd x b) / b)

/-- How much of the time since the stamp counts. -/
def elapsed (now window ts : ℚ) : ℚ :=
  let e := rnd (now - ts)
  let e := if e < 0 then 0 else e
  if e > window then window else e

/-- The level and the stamp that `check` finds: a bucket that is missing is full. -/
def peek (now window quota cap : ℚ) (h : List (Option Int)) : ℚ × ℚ :=
  match h with
  | [some l, some ts] =>
    let level := rnd (l + rnd (elapsed rnd now window ts * quota))
    (if level > cap then cap else level, if (ts : ℚ) > now then ts else now)
  | _ => (cap, now)

/-- What `check` computes from the reply of `HMGET`. -/
def check (now window quota tokens : ℚ) (h : List (Option Int)) : Checked ℚ :=
  let cap := rnd (quota * window)
  let level := (peek rnd now window quota cap h).1
  let stamp := (peek rnd now window quota cap h).2
  let need := rnd (tokens * 60000)
  let need := if need > cap then cap else need
  let wait := if level < need then ceilDiv rnd (rnd (need - level)) quota else 0
  ⟨level, need, wait, stamp⟩

/-- The arithmetic of the script, with what it sends to Redis written as integers. -/
def arith (now window ttl : ℚ) : Arith ℚ where
  check quota tokens := check rnd now window quota tokens
  now := roundInt now
  stored c := (roundInt (rnd (c.level - c.need)), roundInt c.stamp)
  bucketTTL := roundInt (rnd (window * 2))
  leaseScore := roundInt (rnd (now + ttl))
  leaseTTL := roundInt (rnd (ttl * 2))
  retryMs wait := ⌊wait⌋

/-- `acquireScript`. The reply is in integers. -/
def acquireScript (db : Store) (t : RedisTime) (keys : AcquireKeys) (argv : AcquireArgs) :
    Except Error (Store × AcquireReply) :=
  (arith rnd (now rnd argv.override t) (rnd (argv.burstSeconds * 1000))
    argv.leaseTTLMs).acquireScript db t.ms keys argv

end Script

/-! ### Calls -/

/-- A call of the script, with the server's time it runs at. -/
structure AcquireCall where
  time : RedisTime
  keys : AcquireKeys
  argv : AcquireArgs

/-- The key of a set of leases. -/
def IsLeases (k : Bytes) : Prop := ∃ tenant, k = keyConcurrency tenant

/-- The millisecond of a call. -/
def AcquireCall.ms (c : AcquireCall) : Int :=
  if c.argv.override > 0 then c.argv.override else c.time.ms

/-- The buckets that a call checks: the key, the quota and the number of tokens. -/
def AcquireCall.checks (c : AcquireCall) : List (Bytes × Int × Int) :=
  [(c.keys.requests, c.argv.requests, 1), (c.keys.tokens, c.argv.tokens, c.argv.cost),
    (c.keys.model, c.argv.modelRequests, 1)]

/-- The latest time, exclusive. -/
def timeLimit : Int := 2 ^ 43

/-- A call within the limiter's bounds. -/
structure AcquireCall.InBounds (burst : Int) (c : AcquireCall) : Prop where
  leases : IsLeases c.keys.concurrency
  buckets : ∀ k q n, (k, q, n) ∈ c.checks → ¬ IsLeases k
  quota : ∀ k q n, (k, q, n) ∈ c.checks → 0 ≤ q ∧ q ≤ maxQuota
  cost : 0 ≤ c.argv.cost ∧ c.argv.cost ≤ maxCost
  burst : c.argv.burstSeconds = burst
  override : c.argv.override < timeLimit
  time : c.time.ms < timeLimit
  usec : c.time.usec < 1000000

theorem not_isLeases {k : KeyKind} (hk : k ≠ .concurrency) (s : Bytes) : ¬ IsLeases (k.key s) := by
  rintro ⟨tenant, heq⟩
  exact hk (KeyKind.key_injective k .concurrency heq).1

/-- The limiter's calls are within the bounds, whatever the request asks for. -/
theorem inBounds_of_request {p : Params} {t : RedisTime} {r : ModelRequest}
    (hcap : 0 ≤ r.modelRequestsPerMinute ∧ r.modelRequestsPerMinute ≤ maxQuota)
    (htime : t.ms < timeLimit) (husec : t.usec < 1000000) :
    (⟨t, acquireKeys r, acquireArgs p r⟩ : AcquireCall).InBounds p.burstSeconds := by
  have hclamp : ∀ n, 0 ≤ clampQuota n ∧ clampQuota n ≤ maxQuota := by
    intro n
    have hmax : maxQuota = 1000000000 := rfl
    unfold clampQuota
    split
    · omega
    · split <;> omega
  have hmodel : ¬ IsLeases (acquireKeys r).model := by
    unfold acquireKeys
    dsimp only
    split
    · exact not_isLeases (k := .model) (by decide) r.model
    · exact not_isLeases (k := .model) (by decide) []
  refine ⟨⟨r.tenantID, rfl⟩, ?_, ?_, ?_, rfl, (by decide : (0 : Int) < timeLimit), htime, husec⟩
  · intro k q n hmem
    simp only [AcquireCall.checks, mem_cons, not_mem_nil, or_false, Prod.mk.injEq] at hmem
    rcases hmem with ⟨rfl, -, -⟩ | ⟨rfl, -, -⟩ | ⟨rfl, -, -⟩
    · exact not_isLeases (k := .requests) (by decide) r.tenantID
    · exact not_isLeases (k := .tokens) (by decide) r.tenantID
    · exact hmodel
  · intro k q n hmem
    simp only [AcquireCall.checks, mem_cons, not_mem_nil, or_false, Prod.mk.injEq] at hmem
    rcases hmem with ⟨-, rfl, -⟩ | ⟨-, rfl, -⟩ | ⟨-, rfl, -⟩
    · exact hclamp _
    · exact hclamp _
    · exact hcap
  · exact ⟨le_max_left _ _, max_le (by decide) (min_le_right _ _)⟩

/-- The stores that calls within the bounds lead to, with a fixed burst. -/
inductive Reached (rnd : ℚ → ℚ) (burst : Int) : Store → Prop
  | empty : Reached rnd burst ∅
  | acquire {db db' : Store} {c : AcquireCall} {reply : AcquireReply} (h : Reached rnd burst db)
      (hc : c.InBounds burst)
        (hrun : acquireScript rnd db c.time c.keys c.argv = .ok (db', reply)) :
      Reached rnd burst db'

/-! ### One check -/

/-- A value that the script computes exactly. -/
def Fits (n : Int) : Prop := 0 ≤ n ∧ n < 2 ^ 53

def elapsedMs (now window ts : Int) : Int := min (max (now - ts) 0) window

/-- What an integer check would find, in doubles. -/
def ofInt (c : Checked Int) : Checked ℚ := ⟨c.level, c.need, c.wait, c.stamp⟩

/-- The reply of `HMGET` for a bucket within the bounds. -/
def ReplyOk (h : List (Option Int)) : Prop :=
  ∀ l ts, h = [some l, some ts] → (0 ≤ l ∧ l ≤ maxLevel) ∧ 0 ≤ ts ∧ ts < timeLimit

/-- A check is exact: its intermediate values are integers below `2^53`, and it finds what the same
check in integers finds. -/
structure CheckExact (rnd : ℚ → ℚ) (now window quota tokens : Int) (h : List (Option Int)) :
    Prop where
  capacity : Fits (quota * window)
  refill : ∀ l ts, h = [some l, some ts] → Fits (l + elapsedMs now window ts * quota)
  need : Fits (tokens * 60000)
  deficit : (scriptCheck id now window quota tokens h).level <
    (scriptCheck id now window quota tokens h).need →
    Fits ((scriptCheck id now window quota tokens h).need
      - (scriptCheck id now window quota tokens h).level + quota)
  result : check rnd now window quota tokens h = ofInt (scriptCheck id now window quota tokens h)

section Exact

variable {rnd : ℚ → ℚ} (hrnd : Nearest rnd)

include hrnd

theorem rnd_int {n : Int} (h₁ : -2 ^ 53 ≤ n) (h₂ : n ≤ 2 ^ 53) : rnd n = n :=
  hrnd.int (abs_le.mpr ⟨h₁, h₂⟩)

/-- The remainder comes out exact. -/
theorem mod_eq {a b : Int} (ha : 0 ≤ a) (ha' : a < 2 ^ 53) (hb : 0 < b) :
    mod rnd a b = (a % b : Int) := by
  have hdiv := Int.mul_ediv_add_emod a b
  have hmod := Int.emod_nonneg a hb.ne'
  have hnonneg : 0 ≤ b * (a / b) := mul_nonneg hb.le (Int.ediv_nonneg ha hb.le)
  have hprod : ((a / b : Int) : ℚ) * b = (b * (a / b) : Int) := by
    push_cast
    ring
  have hsub : (a : ℚ) - (b * (a / b) : Int) = (a % b : Int) := by
    rw [← Int.cast_sub]
    congr 1
    omega
  unfold mod
  rw [hrnd.floor_div ha ha' hb, hprod, rnd_int hrnd (by omega) (by omega), hsub,
    rnd_int hrnd (by omega) (by omega)]

/-- **`ceil_div` is the ceiling**, computed as it is. -/
theorem ceilDiv_eq_int {a b : Int} (ha : 0 ≤ a) (hb : 0 < b) (hab : a + b < 2 ^ 53) :
    ceilDiv rnd a b = ((a + b - 1) / b : Int) := by
  have hsum : (a : ℚ) + b = (a + b : Int) := by push_cast; rfl
  have hpred : ((a + b : Int) : ℚ) - 1 = (a + b - 1 : Int) := by push_cast; rfl
  have hdiv := Int.mul_ediv_add_emod (a + b - 1) b
  have hmod := Int.emod_nonneg (a + b - 1) hb.ne'
  have hle : (a + b - 1) / b ≤ a + b - 1 := Int.ediv_le_self b (by omega)
  have hnonneg := Int.ediv_nonneg (by omega : 0 ≤ a + b - 1) hb.le
  have hrest : ((a + b - 1 : Int) : ℚ) - ((a + b - 1) % b : Int) =
      (b * ((a + b - 1) / b) : Int) := by
    rw [← Int.cast_sub]
    congr 1
    omega
  have hquot : ((b * ((a + b - 1) / b) : Int) : ℚ) / b = ((a + b - 1) / b : Int) := by
    have hbq : (b : ℚ) ≠ 0 := by exact_mod_cast hb.ne'
    rw [Int.cast_mul, mul_div_cancel_left₀ _ hbq]
  have hmod' := Int.emod_lt_of_pos (a + b - 1) hb
  unfold ceilDiv
  rw [hsum, rnd_int hrnd (by omega) (by omega), hpred, rnd_int hrnd (by omega) (by omega)]
  dsimp only
  rw [mod_eq hrnd (by omega) (by omega) hb, hrest, rnd_int hrnd (by omega) (by omega), hquot,
    rnd_int hrnd (by omega) (by omega)]

theorem ceilDiv_eq_ceil {a b : Int} (ha : 0 ≤ a) (hb : 0 < b) (hab : a + b < 2 ^ 53) :
    ceilDiv rnd a b = ⌈(a : ℚ) / b⌉ := by
  rw [ceilDiv_eq_int hrnd ha hb hab]
  congr 1
  have hbq : (0 : ℚ) < b := by exact_mod_cast hb
  have hdiv := Int.mul_ediv_add_emod (a + b - 1) b
  have hmod := Int.emod_nonneg (a + b - 1) hb.ne'
  have hmod' := Int.emod_lt_of_pos (a + b - 1) hb
  refine (Int.ceil_eq_iff.mpr ⟨?_, ?_⟩).symm
  · rw [lt_div_iff₀ hbq]
    have : ((a + b - 1) / b - 1) * b < a := by
      rw [sub_mul, mul_comm]
      omega
    exact_mod_cast this
  · rw [div_le_iff₀ hbq]
    have : a ≤ (a + b - 1) / b * b := by
      rw [mul_comm]
      omega
    exact_mod_cast this

theorem elapsed_eq {now window ts : Int} (hnow : 0 ≤ now ∧ now < timeLimit)
    (hts : 0 ≤ ts ∧ ts < timeLimit) : elapsed rnd now window ts = elapsedMs now window ts := by
  have hlimit : timeLimit = 2 ^ 43 := rfl
  unfold elapsed elapsedMs
  rw [← Int.cast_sub, rnd_int hrnd (by omega) (by omega)]
  dsimp only
  rw [clamp_below, clamp_above]
  push_cast
  rfl

end Exact

/-! ### A check in integers -/

theorem scriptRefill_id (now window quota cap l ts : Int) :
    scriptRefill id now window quota cap l ts =
      (min (l + elapsedMs now window ts * quota) cap, max ts now) := by
  have helapsed : (if (if now - ts < 0 then 0 else now - ts) > window then window
      else (if now - ts < 0 then 0 else now - ts)) = elapsedMs now window ts := by
    unfold elapsedMs
    omega
  unfold scriptRefill
  simp only [id_eq]
  rw [helapsed, max_comm]
  exact Prod.ext (clamp_above _ _) (clamp_below _ _)

theorem scriptCeilDiv_id {a b : Int} (hb : 0 < b) : scriptCeilDiv id a b = (a + b - 1) / b := by
  have hdiv : a + b - 1 - (a + b - 1) % b = b * ((a + b - 1) / b) := by
    have := Int.mul_ediv_add_emod (a + b - 1) b
    omega
  unfold scriptCeilDiv
  simp only [id_eq]
  rw [hdiv, Int.mul_ediv_cancel_left _ hb.ne']

section Check

variable {now window quota tokens : Int} {h : List (Option Int)} (hnow : 0 ≤ now ∧ now < timeLimit)
  (hwindow : 1000 ≤ window ∧ window ≤ 3600000) (hquota : 0 < quota ∧ quota ≤ maxQuota)

include hwindow hquota

theorem capacity_bounds : 0 < quota * window ∧ quota * window ≤ maxLevel := by
  refine ⟨mul_pos hquota.1 (by omega), ?_⟩
  calc quota * window ≤ maxQuota * 3600000 := mul_le_mul hquota.2 hwindow.2 (by omega) (by decide)
    _ = maxLevel := by decide

/-- A refill adds at most the largest capacity. -/
theorem refill_bounds (now ts : Int) :
    0 ≤ elapsedMs now window ts * quota ∧ elapsedMs now window ts * quota ≤ maxLevel := by
  have helapsed : 0 ≤ elapsedMs now window ts ∧ elapsedMs now window ts ≤ window := by
    unfold elapsedMs
    omega
  refine ⟨mul_nonneg helapsed.1 hquota.1.le, ?_⟩
  calc elapsedMs now window ts * quota ≤ window * quota := mul_le_mul_of_nonneg_right helapsed.2 hquota.1.le
    _ = quota * window := mul_comm _ _
    _ ≤ maxLevel := (capacity_bounds hwindow hquota).2

include hnow

/-- The level is between empty and full, and the stamp is within the times. -/
theorem scriptPeek_bounds (hreply : ReplyOk h) :
    (0 ≤ (scriptPeek id now window quota (quota * window) h).1 ∧
      (scriptPeek id now window quota (quota * window) h).1 ≤ quota * window) ∧
    0 ≤ (scriptPeek id now window quota (quota * window) h).2 ∧
      (scriptPeek id now window quota (quota * window) h).2 < timeLimit := by
  have hcap := capacity_bounds hwindow hquota
  rcases h with _ | ⟨_ | l, _ | ⟨_ | ts, _ | ⟨x, rest⟩⟩⟩
  case cons.some.cons.some.nil =>
    obtain ⟨hl, hts⟩ := hreply l ts rfl
    have hadd := refill_bounds hwindow hquota now ts
    have heq : scriptPeek id now window quota (quota * window) [some l, some ts] = _ :=
      scriptRefill_id now window quota (quota * window) l ts
    rw [heq]
    dsimp only
    omega
  all_goals exact ⟨⟨hcap.1.le, le_rfl⟩, hnow⟩

/-- What the check in integers finds lies within the bounds, and it waits exactly if it is short. -/
theorem scriptCheck_bounds (hreply : ReplyOk h) (htokens : 0 ≤ tokens) :
    let c := scriptCheck id now window quota tokens h
    (0 ≤ c.level ∧ c.level ≤ maxLevel) ∧ 0 ≤ c.need ∧ (c.wait ≤ 0 → c.need ≤ c.level) ∧
      0 ≤ c.stamp ∧ c.stamp < timeLimit ∧ (c.level < c.need → c.need - c.level ≤ maxLevel) := by
  obtain ⟨hlevel, hstamp⟩ := scriptPeek_bounds hnow hwindow hquota hreply
  have hcap := capacity_bounds hwindow hquota
  have hneed : (0 ≤ if tokens * 60000 > quota * window then quota * window else tokens * 60000) ∧
      (if tokens * 60000 > quota * window then quota * window else tokens * 60000) ≤
          quota * window := by
    split <;> omega
  unfold scriptCheck
  simp only [id_eq]
  refine ⟨⟨hlevel.1, hlevel.2.trans hcap.2⟩, hneed.1, ?_, hstamp.1, hstamp.2, fun _ => by omega⟩
  intro hwait
  by_contra hshort
  have hlt := not_le.mp hshort
  rw [if_pos hlt, scriptCeilDiv_id hquota.1] at hwait
  have hone : 1 ≤ ((if tokens * 60000 > quota * window then quota * window else tokens * 60000) -
      (scriptPeek id now window quota (quota * window) h).1 + quota - 1) / quota :=
    (Int.le_ediv_iff_mul_le hquota.1).mpr (by omega)
  omega

variable {rnd : ℚ → ℚ} (hrnd : Nearest rnd)

include hrnd

theorem peek_eq (hreply : ReplyOk h) : peek rnd now window quota ((quota * window : Int) : ℚ) h =
    (((scriptPeek id now window quota (quota * window) h).1 : ℚ),
      ((scriptPeek id now window quota (quota * window) h).2 : ℚ)) := by
  rcases h with _ | ⟨_ | l, _ | ⟨_ | ts, _ | ⟨x, rest⟩⟩⟩
  case cons.some.cons.some.nil =>
    obtain ⟨hl, hts⟩ := hreply l ts rfl
    have hadd := refill_bounds hwindow hquota now ts
    have hmax : maxLevel = 3600000000000000 := by decide
    show ((if _ then _ else _ : ℚ), (if _ then _ else _ : ℚ)) =
      (((scriptRefill id now window quota (quota * window) l ts).1 : ℚ),
        ((scriptRefill id now window quota (quota * window) l ts).2 : ℚ))
    rw [scriptRefill_id, elapsed_eq hrnd hnow hts, ← Int.cast_mul,
      rnd_int hrnd (by omega) (by omega), ← Int.cast_add, rnd_int hrnd (by omega) (by omega)]
    rw [Int.cast_min, Int.cast_max, max_comm]
    exact Prod.ext (clamp_above _ _) (clamp_below _ _)
  all_goals rfl

/-- **A check is exact**, given a reply within the bounds. -/
theorem checkExact (hreply : ReplyOk h) (htokens : 0 ≤ tokens ∧ tokens ≤ maxCost) :
    CheckExact rnd now window quota tokens h := by
  have hmax : maxLevel = 3600000000000000 := by decide
  have hcost : maxCost = 4294967296 := by decide
  have hmaxq : maxQuota = 1000000000 := rfl
  have hcap := capacity_bounds hwindow hquota
  have hbounds := scriptCheck_bounds hnow hwindow hquota hreply htokens.1
  dsimp only at hbounds
  obtain ⟨hlevel, hneed, -, -, -, hdeficit⟩ := hbounds
  refine ⟨⟨by omega, by omega⟩, ?_, ⟨by omega, by omega⟩, ?_, ?_⟩
  · intro l ts hh
    obtain ⟨hl, -⟩ := hreply l ts hh
    have hadd := refill_bounds hwindow hquota now ts
    exact ⟨by omega, by omega⟩
  · intro hshort
    have := hdeficit hshort
    exact ⟨by omega, by omega⟩
  · have hneedq : (if ((tokens * 60000 : Int) : ℚ) > (quota * window : Int) then
      ((quota * window : Int) : ℚ)
        else ((tokens * 60000 : Int) : ℚ)) =
            ((scriptCheck id now window quota tokens h).need : ℚ) := by
      unfold scriptCheck
      simp only [id_eq]
      rw [clamp_above, clamp_above, Int.cast_min]
    have hlevelq : (scriptPeek id now window quota (quota * window) h).1 =
        (scriptCheck id now window quota tokens h).level := rfl
    have htok : (tokens : ℚ) * 60000 = (tokens * 60000 : Int) := by push_cast; rfl
    have hwaitq : (scriptCheck id now window quota tokens h).wait =
        if (scriptCheck id now window quota tokens h).level <
          (scriptCheck id now window quota tokens h).need then
          scriptCeilDiv id ((scriptCheck id now window quota tokens h).need -
            (scriptCheck id now window quota tokens h).level) quota
        else 0 := rfl
    unfold check
    rw [← Int.cast_mul, rnd_int hrnd (by omega) (by omega), htok,
      rnd_int hrnd (by omega) (by omega)]
    dsimp only
    rw [peek_eq hnow hwindow hquota hrnd hreply, hneedq]
    dsimp only
    rw [hlevelq]
    refine Checked.ext rfl rfl ?_ rfl
    show (if _ then _ else _ : ℚ) = ((scriptCheck id now window quota tokens h).wait : ℚ)
    rw [hwaitq]
    split
    next hlt =>
      have hlt' : (scriptCheck id now window quota tokens h).level <
          (scriptCheck id now window quota tokens h).need := by exact_mod_cast hlt
      have := hdeficit hlt'
      rw [if_pos hlt', ← Int.cast_sub, rnd_int hrnd (by omega) (by omega),
        ceilDiv_eq_int hrnd (by omega) hquota.1 (by omega), scriptCeilDiv_id hquota.1]
    next hge =>
      have hge' : ¬ (scriptCheck id now window quota tokens h).level <
          (scriptCheck id now window quota tokens h).need := by exact_mod_cast hge
      rw [if_neg hge', Int.cast_zero]

end Check

/-! ### The store -/

/-- The fields of a bucket: a level between empty and the largest capacity, and a stamp within the
times. -/
structure FieldsOk (f : GoMap String Int) : Prop where
  level : ∀ l, f.lookup "l" = some l → 0 ≤ l ∧ l ≤ maxLevel
  stamp : ∀ ts, f.lookup "t" = some ts → 0 ≤ ts ∧ ts < timeLimit

/-- Sets of leases are under their keys, and every other key is that of a bucket. -/
def ValueOk (k : Bytes) : Redis.Value → Prop
  | .hash f => ¬ IsLeases k ∧ FieldsOk f
  | .zset _ => IsLeases k

def StoreOk (db : Store) : Prop := ∀ k e, db.lookup k = some e → ValueOk k e.value

section Store

variable {db : Store} {ms : Int} {k : Bytes}

theorem fieldsOk_empty : FieldsOk ∅ := ⟨fun l h => by simp at h, fun ts h => by simp at h⟩

section

variable (h : StoreOk db)
include h

theorem StoreOk.find {e : Redis.Entry} (he : Redis.find db ms k = some e) : ValueOk k e.value :=
  h k e (Option.filter_eq_some_iff.mp he).1

theorem StoreOk.hashAt (ms : Int) (hk : ¬ IsLeases k) :
    ∃ f, Redis.hashAt db ms k = .ok f ∧ FieldsOk f := by
  unfold Redis.hashAt
  cases he : Redis.find db ms k with
  | none => exact ⟨∅, rfl, fieldsOk_empty⟩
  | some e =>
    have hv := h.find he
    obtain ⟨v, exp⟩ := e
    cases v with
    | hash f => exact ⟨f, rfl, hv.2⟩
    | zset z => exact absurd hv hk

theorem StoreOk.zsetAt (ms : Int) (hk : IsLeases k) : ∃ z, Redis.zsetAt db ms k = .ok z := by
  unfold Redis.zsetAt
  cases he : Redis.find db ms k with
  | none => exact ⟨∅, rfl⟩
  | some e =>
    have hv := h.find he
    obtain ⟨v, exp⟩ := e
    cases v with
    | hash f => exact absurd hk hv.1
    | zset z => exact ⟨z, rfl⟩

theorem StoreOk.insert {e : Redis.Entry} (he : ValueOk k e.value) :
    StoreOk (AList.insert k e db) := by
  intro k' e' hk'
  rcases of_lookup_insert hk' with ⟨rfl, rfl⟩ | ⟨-, hk'⟩
  · exact he
  · exact h k' e' hk'

theorem StoreOk.erase (k : Bytes) : StoreOk (AList.erase k db) :=
  fun k' e' hk' => h k' e' (of_lookup_erase hk').2

theorem StoreOk.pexpire (ms : Int) (k : Bytes) (ttl : Int) :
    StoreOk (Redis.pexpire db ms k ttl) := by
  unfold Redis.pexpire
  split
  · exact h
  next e he =>
    split
    · exact h.erase k
    · have hv : ValueOk k e.value := h.find he
      exact h.insert hv

theorem StoreOk.putZset (ms : Int) (hk : IsLeases k) (z : GoMap (List UInt8) Int) :
    StoreOk (Redis.putZset db ms k z) := by
  unfold Redis.putZset
  split
  · exact h.erase k
  · exact h.insert hk

theorem StoreOk.hmget (ms : Int) (hk : ¬ IsLeases k) :
    ∃ reply, Redis.hmget db ms k ["l", "t"] = .ok reply ∧ ReplyOk reply := by
  obtain ⟨f, hf, hok⟩ := h.hashAt ms hk
  refine ⟨[f.lookup "l", f.lookup "t"], ?_, ?_⟩
  · unfold Redis.hmget
    rw [hf]
    rfl
  · intro l ts heq
    have hl : f.lookup "l" = some l := by injection heq
    have hts : f.lookup "t" = some ts := by
      injection heq with _ heq
      injection heq
    exact ⟨hok.level l hl, hok.stamp ts hts⟩

end

end Store

/-! ### One call -/

/-- What a check that passes leaves in its bucket. -/
def Chargeable (rnd : ℚ → ℚ) (c : Checked ℚ) : Prop :=
  ∃ n ts : Int, rnd (c.level - c.need) = n ∧ c.stamp = ts ∧ (0 ≤ n ∧ n ≤ maxLevel) ∧ 0 ≤ ts ∧
    ts < timeLimit

theorem considerChecked_ok {b : Best ℚ} (h : b.Ok) {code : Int} (hcode : 0 < code)
    (c : Option (Checked ℚ)) :
    (b.considerChecked code c).Ok ∧
      (¬ 0 < (b.considerChecked code c).code → ¬ 0 < b.code ∧ ∀ d, c = some d → d.wait ≤ 0) := by
  cases c with
  | none => exact ⟨h, fun hnot => ⟨hnot, nofun⟩⟩
  | some d =>
    by_cases hwait : d.wait > 0
    · have hc : b.considerChecked code (some d) = b.consider code d.wait := if_pos hwait
      rw [hc]
      obtain ⟨hok, hpos⟩ := h.consider hcode hwait
      exact ⟨hok, fun hnot => absurd hpos hnot⟩
    · have hc : b.considerChecked code (some d) = b := if_neg hwait
      rw [hc]
      refine ⟨h, fun hnot => ⟨hnot, fun d' hd' => ?_⟩⟩
      obtain rfl := some.inj hd'
      exact not_lt.mp hwait

section Call

variable {rnd : ℚ → ℚ} (hrnd : Nearest rnd) {db : Store}

include hrnd

/-- A check of a bucket succeeds, and if it need not wait it leaves a bucket within the bounds. -/
theorem StoreOk.checkIf (h : StoreOk db) (ms : Int) {now window quota tokens : Int}
    (hk : ¬ IsLeases k) (hnow : 0 ≤ now ∧ now < timeLimit)
    (hwindow : 1000 ≤ window ∧ window ≤ 3600000) (hquota : 0 ≤ quota ∧ quota ≤ maxQuota)
    (htokens : 0 ≤ tokens ∧ tokens ≤ maxCost) {ttl : ℚ} :
    ∃ c, (arith rnd now window ttl).checkIf db ms k quota tokens = .ok c ∧
      ∀ d, c = some d → d.wait ≤ 0 → Chargeable rnd d := by
  unfold Arith.checkIf
  by_cases hq : quota > 0
  · obtain ⟨reply, hreply, hok⟩ := h.hmget ms hk
    have hquota' : 0 < quota ∧ quota ≤ maxQuota := ⟨hq, hquota.2⟩
    have hexact := (checkExact hnow hwindow hquota' hrnd hok htokens).result
    have hbounds := scriptCheck_bounds hnow hwindow hquota' hok htokens.1
    dsimp only at hbounds
    obtain ⟨hlevel, hneed, hpass, hstamp⟩ := hbounds
    have hmax : maxLevel = 3600000000000000 := by decide
    refine ⟨some (check rnd now window quota tokens reply), ?_, ?_⟩
    · rw [if_pos hq, hreply]
      rfl
    · intro d hd hwait
      obtain rfl := some.inj hd
      rw [hexact] at hwait ⊢
      have hle := hpass (by exact_mod_cast
        (show ((scriptCheck id now window quota tokens reply).wait : ℚ) ≤ 0 from hwait))
      refine ⟨(scriptCheck id now window quota tokens reply).level
        - (scriptCheck id now window quota tokens reply).need,
        (scriptCheck id now window quota tokens reply).stamp, ?_, rfl, ⟨by omega, by omega⟩,
          hstamp.1, hstamp.2.1⟩
      show rnd (((scriptCheck id now window quota tokens reply).level : ℚ) -
        ((scriptCheck id now window quota tokens reply).need : ℚ)) = _
      rw [← Int.cast_sub, rnd_int hrnd (by omega) (by omega)]
  · exact ⟨none, if_neg hq, nofun⟩

omit hrnd in
theorem StoreOk.storeIf (h : StoreOk db) (ms : Int) {now window ttl : ℚ}
    (hk : ¬ IsLeases k) {c : Option (Checked ℚ)} (hc : ∀ d, c = some d → Chargeable rnd d) :
    ∃ db', (arith rnd now window ttl).storeIf db ms k c = .ok db' ∧ StoreOk db' := by
  cases c with
  | none => exact ⟨db, rfl, h⟩
  | some d =>
    obtain ⟨n, ts, hn, hts, hlevel, hstamp⟩ := hc d rfl
    obtain ⟨f, hf, hfields⟩ := h.hashAt ms hk
    have hput : StoreOk (Redis.put db ms k (.hash ((f.insert "l" n).insert "t" ts))) := by
      refine h.insert ⟨hk, ⟨?_, ?_⟩⟩
      · intro l hl
        rw [lookup_insert_ne (by decide), lookup_insert] at hl
        obtain rfl := some.inj hl
        exact hlevel
      · intro ts' hts'
        rw [lookup_insert] at hts'
        obtain rfl := some.inj hts'
        exact hstamp
    refine ⟨_, ?_, hput.pexpire ms k (roundInt (rnd (window * 2)))⟩
    dsimp only [Arith.storeIf, arith]
    rw [Redis.hset_ok hf, hn, hts, Double.roundInt_int, Double.roundInt_int]
    rfl

omit hrnd in
theorem StoreOk.checkLeases (h : StoreOk db) (ms : Int) (a : Arith ℚ) (hk : IsLeases k)
    (mc : Int) {b : Best ℚ} (hb : b.Ok) :
    ∃ db' b', a.checkLeases db ms k mc b = .ok (db', b') ∧ StoreOk db' ∧ b'.Ok ∧
      (¬ 0 < b'.code → ¬ 0 < b.code) := by
  unfold Arith.checkLeases
  by_cases hmc : mc > 0
  · obtain ⟨z, hz⟩ := h.zsetAt ms hk
    have hput := h.putZset ms hk (z.keep fun _ score => decide (a.now < score))
    have hrange : Redis.zremrangebyscore db ms k a.now =
        .ok (Redis.putZset db ms k (z.keep fun _ score => decide (a.now < score))) := by
      unfold Redis.zremrangebyscore
      rw [hz]
      rfl
    obtain ⟨n, hcard⟩ : ∃ n, Redis.zcard (Redis.putZset db ms k
        (z.keep fun _ score => decide (a.now < score))) ms k = .ok n := by
      unfold Redis.zcard
      rw [Redis.zsetAt_putZset]
      exact ⟨_, rfl⟩
    rw [if_pos hmc, hrange]
    dsimp only [bind, Except.bind]
    rw [hcard]
    refine ⟨_, _, rfl, hput, ?_⟩
    split
    · obtain ⟨hok, hpos⟩ :=
        hb.consider (show (0 : Int) < 3 by decide) (show (0 : ℚ) < 1000 by norm_num)
      exact ⟨hok, fun hnot => absurd hpos hnot⟩
    · exact ⟨hb, fun hnot => hnot⟩
  · exact ⟨db, b, if_neg hmc, h, hb, fun hnot => hnot⟩

omit hrnd in
theorem StoreOk.storeLease (h : StoreOk db) (ms : Int) (a : Arith ℚ) (hk : IsLeases k)
    (argv : AcquireArgs) : ∃ db', a.storeLease db ms k argv = .ok db' ∧ StoreOk db' := by
  unfold Arith.storeLease
  by_cases hmc : argv.maxConcurrent > 0
  · obtain ⟨z, hz⟩ := h.zsetAt ms hk
    have hadd : Redis.zadd db ms k a.leaseScore argv.leaseID =
        .ok (Redis.putZset db ms k (z.insert argv.leaseID a.leaseScore)) := by
      unfold Redis.zadd
      rw [hz]
      rfl
    rw [if_pos hmc, hadd]
    exact ⟨_, rfl, (h.putZset ms hk _).pexpire ms k _⟩
  · exact ⟨db, if_neg hmc, h⟩

variable {burst : Int} (hburst : 1 ≤ burst ∧ burst ≤ maxBurstSeconds) {c : AcquireCall}
  (hc : c.InBounds burst)

include hc

theorem now_eq : now rnd c.argv.override c.time = c.ms := by
  have htime := hc.time
  have husec := hc.usec
  have hlimit : timeLimit = 2 ^ 43 := rfl
  unfold Lua.now AcquireCall.ms
  split
  · rfl
  · unfold RedisTime.ms at htime ⊢
    have hsec : (c.time.sec : ℚ) * 1000 = ((c.time.sec * 1000 : Int) : ℚ) := by push_cast; rfl
    have hdiv : ⌊rnd ((c.time.usec : ℚ) / 1000)⌋ = ((c.time.usec / 1000 : Nat) : Int) := by
      have := hrnd.floor_div (a := c.time.usec) (b := 1000) (by omega) (by omega) (by norm_num)
      push_cast at this ⊢
      exact this
    rw [hsec, rnd_int hrnd (by omega) (by omega), hdiv, ← Int.cast_add,
      rnd_int hrnd (by omega) (by omega)]

omit hrnd in
theorem ms_bounds : 0 ≤ c.ms ∧ c.ms < timeLimit := by
  have htime := hc.time
  have hoverride := hc.override
  unfold AcquireCall.ms
  split
  · omega
  · refine ⟨?_, htime⟩
    unfold RedisTime.ms
    omega

include hburst

theorem window_eq : rnd (c.argv.burstSeconds * 1000) = (burst * 1000 : Int) := by
  have hmax : maxBurstSeconds = 3600 := rfl
  rw [hc.burst]
  have hcast : (burst : ℚ) * 1000 = ((burst * 1000 : Int) : ℚ) := by push_cast; rfl
  rw [hcast, rnd_int hrnd (by omega) (by omega)]

omit hrnd hc in
theorem window_bounds : 1000 ≤ burst * 1000 ∧ burst * 1000 ≤ 3600000 := by
  have hmax : maxBurstSeconds = 3600 := rfl
  omega

omit hrnd hburst in
/-- The tokens of a check are within the bounds. -/
theorem tokens_bounds {q n : Int} (hmem : (k, q, n) ∈ c.checks) : 0 ≤ n ∧ n ≤ maxCost := by
  have hcost := hc.cost
  have hone : (0 : Int) ≤ 1 ∧ 1 ≤ maxCost := by decide
  simp only [AcquireCall.checks, mem_cons, not_mem_nil, or_false, Prod.mk.injEq] at hmem
  rcases hmem with ⟨-, -, rfl⟩ | ⟨-, -, rfl⟩ | ⟨-, -, rfl⟩
  · exact hone
  · exact hcost
  · exact hone

/-- **The script runs to its end** and leaves a store within the bounds. -/
theorem StoreOk.acquire (h : StoreOk db) :
    ∃ db' reply, acquireScript rnd db c.time c.keys c.argv = .ok (db', reply) ∧ StoreOk db' := by
  have hms := ms_bounds hc
  have hwindow := window_bounds hburst
  have hmem₁ : (c.keys.requests, c.argv.requests, (1 : Int)) ∈ c.checks := by
    simp [AcquireCall.checks]
  have hmem₂ : (c.keys.tokens, c.argv.tokens, c.argv.cost) ∈ c.checks := by
    simp [AcquireCall.checks]
  have hmem₃ : (c.keys.model, c.argv.modelRequests, (1 : Int)) ∈ c.checks := by
    simp [AcquireCall.checks]
  let a := arith rnd (c.ms : ℚ) ((burst * 1000 : Int) : ℚ) (c.argv.leaseTTLMs : ℚ)
  have hcheck : ∀ {db : Store} (h : StoreOk db) {k q n}, (k, q, n) ∈ c.checks →
      ∃ x, a.checkIf db c.time.ms k q n = .ok x ∧ ∀ d, x = some d → d.wait ≤ 0 → Chargeable rnd d :=
    fun h k q n hmem => h.checkIf hrnd c.time.ms (hc.buckets k q n hmem) hms hwindow
      (hc.quota k q n hmem) (tokens_bounds hc hmem)
  obtain ⟨req, hreq, hreq'⟩ := hcheck h hmem₁
  obtain ⟨tok, htok, htok'⟩ := hcheck h hmem₂
  obtain ⟨hbest₁, hzero₁⟩ := considerChecked_ok (b := ⟨0, 0⟩) (.inl ⟨rfl, rfl⟩)
    (show (0 : Int) < 1 by decide) req
  obtain ⟨hbest₂, hzero₂⟩ := considerChecked_ok hbest₁ (show (0 : Int) < 2 by decide) tok
  obtain ⟨db₁, best, hleases, hdb₁, hbest₃, hzero₃⟩ :=
    h.checkLeases c.time.ms a hc.leases c.argv.maxConcurrent hbest₂
  obtain ⟨mod, hmod, hmod'⟩ := hcheck hdb₁ hmem₃
  obtain ⟨hbest₄, hzero₄⟩ := considerChecked_ok hbest₃ (show (0 : Int) < 4 by decide) mod
  have hchecks : a.acquireChecks db c.time.ms c.keys c.argv =
      .ok (db₁, ⟨req, tok, mod, best.considerChecked 4 mod⟩) := by
    simp only [Arith.acquireChecks, hreq, htok, hleases, hmod, bind, Except.bind, pure, Except.pure]
  unfold Lua.acquireScript Arith.acquireScript
  rw [now_eq hrnd hc, window_eq hrnd hburst hc, hchecks]
  dsimp only [bind, Except.bind]
  split
  · exact ⟨db₁, _, rfl, hdb₁⟩
  next hcode =>
    -- nothing has to wait, so every bucket is charged what it holds
    obtain ⟨hcode, hmodw⟩ := hzero₄ hcode
    obtain ⟨hcode, htokw⟩ := hzero₂ (hzero₃ hcode)
    obtain ⟨-, hreqw⟩ := hzero₁ hcode
    have hstore : ∀ {db : Store} (h : StoreOk db) {k q n x}, (k, q, n) ∈ c.checks →
        (∀ d, x = some d → Chargeable rnd d) →
        ∃ db', a.storeIf db c.time.ms k x = .ok db' ∧ StoreOk db' :=
      fun h k q n x hmem hx => h.storeIf c.time.ms (hc.buckets k q n hmem) hx
    obtain ⟨db₂, hstore₂, hdb₂⟩ := hstore hdb₁ hmem₁ fun d hd => hreq' d hd (hreqw d hd)
    obtain ⟨db₃, hstore₃, hdb₃⟩ := hstore hdb₂ hmem₂ fun d hd => htok' d hd (htokw d hd)
    obtain ⟨db₄, hstore₄, hdb₄⟩ := hstore hdb₃ hmem₃ fun d hd => hmod' d hd (hmodw d hd)
    obtain ⟨db₅, hstore₅, hdb₅⟩ := hdb₄.storeLease c.time.ms a hc.leases c.argv
    have hstores : a.acquireStores db₁ c.time.ms c.keys c.argv
        ⟨req, tok, mod, best.considerChecked 4 mod⟩ = .ok db₅ := by
      simp only [Arith.acquireStores, hstore₂, hstore₃, hstore₄, hstore₅, bind, Except.bind]
    rw [hstores]
    exact ⟨db₅, _, rfl, hdb₅⟩

end Call

/-- Every store that the calls lead to is within the bounds. -/
theorem storeOk_of_reached {rnd : ℚ → ℚ} (hrnd : Nearest rnd) {burst : Int}
    (hburst : 1 ≤ burst ∧ burst ≤ maxBurstSeconds) {db : Store} (h : Reached rnd burst db) :
    StoreOk db := by
  induction h with
  | empty =>
    intro k e he
    simp at he
  | acquire _ hc hrun ih =>
    obtain ⟨db', reply, hrun', hok⟩ := ih.acquire hrnd hburst hc
    have heq := Except.ok.inj (hrun.symm.trans hrun')
    rw [Prod.mk.injEq] at heq
    exact heq.1 ▸ hok

/-! ### Exactness -/

/-- **The script's arithmetic is exact in doubles.** In every store that calls within the bounds
lead to, each check of a further call computes integers below `2^53` and finds what it would find in
integers; the script then runs to its end. Integers in that range are not rounded, and `ceil_div` is
the ceiling for all operands whose sum is in it. -/
theorem script_exact_in_doubles (rnd : ℚ → ℚ) (hrnd : Nearest rnd) (burst : Int)
    (hburst : 1 ≤ burst ∧ burst ≤ maxBurstSeconds) (db : Store) (hdb : Reached rnd burst db)
    (c : AcquireCall) (hc : c.InBounds burst) :
    (now rnd c.argv.override c.time = c.ms ∧
      rnd (c.argv.burstSeconds * 1000) = (burst * 1000 : Int)) ∧
    (∀ k q n, (k, q, n) ∈ c.checks → 0 < q →
      ∃ reply, Redis.hmget db c.time.ms k ["l", "t"] = .ok reply ∧
      CheckExact rnd c.ms (burst * 1000) q n reply) ∧
    (∃ db' reply, acquireScript rnd db c.time c.keys c.argv = .ok (db', reply)) ∧
    (∀ n : Int, Fits n → rnd n = n) ∧
    ∀ a b : Int, 0 ≤ a → 0 < b → Fits (a + b) → ceilDiv rnd a b = ⌈(a : ℚ) / b⌉ := by
  have hok := storeOk_of_reached hrnd hburst hdb
  refine ⟨⟨now_eq hrnd hc, window_eq hrnd hburst hc⟩, ?_, ?_, ?_, ?_⟩
  · intro k q n hmem hq
    obtain ⟨reply, hreply, hreplyOk⟩ := hok.hmget c.time.ms (hc.buckets k q n hmem)
    exact ⟨reply, hreply,
      checkExact (ms_bounds hc) (window_bounds hburst) ⟨hq, (hc.quota k q n hmem).2⟩ hrnd hreplyOk
      (tokens_bounds hc hmem)⟩
  · obtain ⟨db', reply, hrun, -⟩ := hok.acquire hrnd hburst hc
    exact ⟨db', reply, hrun⟩
  · intro n hn
    exact rnd_int hrnd (by have := hn.1; omega) (by have := hn.2; omega)
  · intro a b ha hb hab
    exact ceilDiv_eq_ceil hrnd ha hb hab.2

/-- The largest quotas and the longest burst: a full bucket is charged the largest cost, and a
request with a lower quota then finds it at a clock that has stepped back. -/
theorem script_exact_in_doubles_lowered_quota :
    let r (quota : Int) : ModelRequest := ⟨[97], [109], maxCost, ⟨0, quota, 0⟩, 0, [108]⟩
    let first : AcquireCall :=
      ⟨⟨1700000000, 500000⟩, acquireKeys (r maxQuota), acquireArgs ⟨3600, 1000⟩ (r maxQuota)⟩
    let second : AcquireCall :=
      ⟨⟨1700000000, 400000⟩, acquireKeys (r 60), acquireArgs ⟨3600, 1000⟩ (r 60)⟩
    ∃ db reply, acquireScript Double.roundEven ∅ first.time first.keys first.argv =
      .ok (db, reply) ∧ ∃ h, Redis.hmget db second.time.ms (keyTokens [97]) ["l", "t"] = .ok h ∧
        CheckExact Double.roundEven second.ms 3600000 60 maxCost h := by
  intro r first second
  have hfirst : first.InBounds 3600 :=
    inBounds_of_request (p := ⟨3600, 1000⟩) (by decide) (by decide) (by decide)
  have hsecond : second.InBounds 3600 :=
    inBounds_of_request (p := ⟨3600, 1000⟩) (by decide) (by decide) (by decide)
  obtain ⟨-, -, ⟨db, reply, hrun⟩, -⟩ :=
    script_exact_in_doubles Double.roundEven Double.nearest_roundEven 3600
    (by decide) ∅ .empty first hfirst
  have hexact := (script_exact_in_doubles Double.roundEven Double.nearest_roundEven 3600
    (by decide) db (.acquire .empty hfirst hrun) second hsecond).2.1
  exact ⟨db, reply, hrun, hexact (keyTokens [97]) 60 maxCost (by decide) (by decide)⟩

end ServerFlow.Ratelimit.Lua
