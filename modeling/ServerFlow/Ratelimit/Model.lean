import ServerFlow.Lib.GoMap
import ServerFlow.Ratelimit.Keys

/-!
# Ratelimit.Model

The reference rate limiter (`internal/ratelimit/model.go`): token buckets in scaled
integers and concurrency leases, with the clock passed in. A quota of `Q` tokens a
minute refills `Q` scaled units in a millisecond, one token costs `scale` of them, and
a bucket of burst `B` seconds holds `Q * B * 1000`.

Quantities are `int64` in the source and unbounded integers here. `ServerFlow.Ratelimit.Int64` has
the same calls with every result reduced, and shows that the two agree within the bounds the limiter
enforces (`MaxQuota`, `MaxBurstSeconds`, `MaxCost`); beyond them they do not.
-/

namespace ServerFlow.Ratelimit

open List AList

/-- How many scaled units make one token. -/
def scale : Int := 60000

/-- The `Retry-After` hint of a concurrency refusal, in milliseconds. -/
def concurrencyRetryMs : Int := 1000

/-- The quota that refused a request. -/
inductive Limit
  | requests
  | tokens
  | concurrency
  | model
  /-- Only the Redis limiter answers this, for a reply code it does not know. -/
  | unavailable
  deriving Repr, DecidableEq

/-- One tenant's quotas; `0` (or less) means "not limited". -/
structure Limits where
  requestsPerMinute : Int
  tokensPerMinute : Int
  maxConcurrent : Int
  deriving Repr, DecidableEq

/-- The largest quota. -/
def maxQuota : Int := 1000000000

/-- The largest burst. -/
def maxBurstSeconds : Int := 3600

/-- The largest cost. -/
def maxCost : Int := 2 ^ 32

/-- The settings the model and the script share. -/
structure Params where
  burstSeconds : Int
  leaseTTLMs : Int

/-- How long a bucket takes to refill from empty, in milliseconds. -/
def Params.window (p : Params) : Int := p.burstSeconds * 1000

/-- The answer to one check; `limit` is `none` (`""` in the source) when it is allowed. -/
structure Outcome where
  allowed : Bool
  limit : Option Limit
  retryMs : Int
  deriving Repr, DecidableEq

/-- One check: the quotas for this call and the lease to take. -/
structure ModelRequest where
  tenantID : Bytes
  model : Bytes
  cost : Int
  limits : Limits
  /-- The per-model cap for `model`, `0` for none. -/
  modelRequestsPerMinute : Int
  leaseID : Bytes
  deriving Repr, DecidableEq

/-- A token bucket: its level in scaled units and the millisecond of its last update (the
field `at`). The source's flag `set` is true of every bucket that is stored. -/
structure Bucket where
  level : Int
  stamp : Int
  deriving Repr, DecidableEq

/-- The limiter's state. Leases are kept by concurrency key and lease id, with their
expiry in milliseconds. -/
structure Model where
  p : Params
  buckets : GoMap Bytes Bucket
  leases : GoMap Bytes (GoMap Bytes Int)

/-- `NewModel`. -/
def Model.new (p : Params) : Model := ⟨p, ∅, ∅⟩

/-! ### Bucket arithmetic -/

/-- The scaled size of a bucket. -/
def capacity (p : Params) (quota : Int) : Int := quota * p.burstSeconds * 1000

/-- How much of the time since the bucket's stamp refills it: nothing if the clock went
backwards, and never more than the window. -/
def Bucket.elapsed (p : Params) (b : Bucket) (now : Int) : Int :=
  min (max (now - b.stamp) 0) p.window

/-- A bucket's level at time `now` after refilling; an unset bucket is full. -/
def level (p : Params) (b : Option Bucket) (now quota : Int) : Int :=
  match b with
  | none => capacity p quota
  | some b => min (b.level + b.elapsed p now * quota) (capacity p quota)

/-- `Model.peek`: the refilled level and the capacity. -/
def Model.peek (m : Model) (key : Bytes) (now quota : Int) : Int × Int :=
  (level m.p (m.buckets.lookup key) now quota, capacity m.p quota)

/-- The scaled cost of `cost` tokens, never more than the bucket can hold. -/
def need (cost capacity : Int) : Int := min (cost * scale) capacity

/-- `a / b` rounded up, for `a ≥ 0` and `b > 0`. -/
def ceilDiv (a b : Int) : Int := (a + b - 1).tdiv b

/-! ### Allow -/

/-- One active quota of a request, with the level found and the amount needed. -/
structure Check where
  limit : Limit
  key : Bytes
  quota : Int
  level : Int
  need : Int

/-- The quota admits the request. -/
def Check.passes (c : Check) : Bool := decide (c.need ≤ c.level)

/-- How long until the quota could admit the request. -/
def Check.wait (c : Check) : Int := ceilDiv (c.need - c.level) c.quota

/-- The closure `add` of `Allow`: a quota that is not set contributes no check. -/
def Model.add (m : Model) (now : Int) (limit : Limit) (key : Bytes) (quota cost : Int) :
    List Check :=
  if quota ≤ 0 then []
  else [⟨limit, key, quota, (m.peek key now quota).1, need cost (m.peek key now quota).2⟩]

/-- The checks of a request, in the order the source appends them. -/
def Model.checks (m : Model) (now : Int) (r : ModelRequest) : List Check :=
  m.add now .requests (keyRequests r.tenantID) r.limits.requestsPerMinute 1 ++
  m.add now .tokens (keyTokens r.tenantID) r.limits.tokensPerMinute r.cost ++
  m.add now .model (keyModel r.model) r.modelRequestsPerMinute 1

/-- The outcome before anything refused. -/
def Outcome.none : Outcome := ⟨false, Option.none, 0⟩

/-- The closure `consider`: a strictly longer wait replaces the worst so far. -/
def consider (worst : Outcome) (l : Limit) (wait : Int) : Outcome :=
  if wait > worst.retryMs then ⟨false, some l, wait⟩ else worst

/-- Consider the failed checks that satisfy `p`, in order. -/
def considerChecks (p : Check → Bool) (cs : List Check) (worst : Outcome) : Outcome :=
  cs.foldl (fun w c => if p c && !c.passes then consider w c.limit c.wait else w) worst

/-- The leases of a tenant that have not expired at `now`. -/
def evict (now : Int) (held : GoMap Bytes Int) : GoMap Bytes Int :=
  held.keep fun _ exp => decide (now < exp)

/-- `Allow` evicts the tenant's expired leases in place when concurrency is limited. -/
def Model.evicted (m : Model) (now : Int) (r : ModelRequest) : GoMap Bytes (GoMap Bytes Int) :=
  match m.leases.lookup (keyConcurrency r.tenantID) with
  | some held =>
    if r.limits.maxConcurrent > 0 then
      m.leases.insert (keyConcurrency r.tenantID) (evict now held)
    else m.leases
  | none => m.leases

/-- How many unexpired leases the tenant holds. -/
def Model.heldCount (m : Model) (now : Int) (tenant : Bytes) : Nat :=
  match m.leases.lookup (keyConcurrency tenant) with
  | some held => (evict now held).len
  | none => 0

/-- The tenant already holds as many leases as it may. -/
def Model.concurrencyFull (m : Model) (now : Int) (r : ModelRequest) : Bool :=
  decide (r.limits.maxConcurrent > 0) &&
    decide (r.limits.maxConcurrent ≤ (m.heldCount now r.tenantID : Int))

/-- The refusal with the longest wait (ties: requests, tokens, concurrency, model), or
`Outcome.none` if every quota admits the request. -/
def Model.worst (m : Model) (now : Int) (r : ModelRequest) : Outcome :=
  let w := considerChecks (fun c => c.limit ≠ .model) (m.checks now r) Outcome.none
  let w := if m.concurrencyFull now r then consider w .concurrency concurrencyRetryMs else w
  considerChecks (fun c => c.limit = .model) (m.checks now r) w

/-- The stamp to store: it never moves back. -/
def nextStamp (b : Option Bucket) (now : Int) : Int :=
  match b with
  | some b => if b.stamp > now then b.stamp else now
  | none => now

/-- Charge one check's bucket. -/
def charge (now : Int) (bs : GoMap Bytes Bucket) (c : Check) : GoMap Bytes Bucket :=
  bs.insert c.key ⟨c.level - c.need, nextStamp (bs.lookup c.key) now⟩

/-- The leases after the request has taken one that expires at `exp`. -/
def Model.leased (m : Model) (now : Int) (r : ModelRequest) (exp : Int) :
    GoMap Bytes (GoMap Bytes Int) :=
  if r.limits.maxConcurrent > 0 then
    let held := ((m.evicted now r).lookup (keyConcurrency r.tenantID)).getD ∅
    (m.evicted now r).insert (keyConcurrency r.tenantID) (held.insert r.leaseID exp)
  else m.evicted now r

/-- The leases after the request has taken one. -/
def Model.withLease (m : Model) (now : Int) (r : ModelRequest) : GoMap Bytes (GoMap Bytes Int) :=
  m.leased now r (now + m.p.leaseTTLMs)

/-- The state after a refusal: only expired leases are gone. -/
def Model.refused (m : Model) (now : Int) (r : ModelRequest) : Model :=
  { m with leases := m.evicted now r }

/-- The state after an admission: every check is charged and the lease is taken. -/
def Model.admitted (m : Model) (now : Int) (r : ModelRequest) : Model :=
  { m with buckets := (m.checks now r).foldl (charge now) m.buckets, leases := m.withLease now r }

/-- `Model.Allow`: either every quota admits the request and all of them are charged, or
none is charged. -/
def Model.allow (m : Model) (now : Int) (r : ModelRequest) : Model × Outcome :=
  if (m.worst now r).limit.isSome then (m.refused now r, m.worst now r)
  else (m.admitted now r, ⟨true, none, 0⟩)

/-! ### Leases -/

/-- The expiry of a lease, if it is stored. -/
def Model.lease (m : Model) (tenant leaseID : Bytes) : Option Int :=
  (m.leases.lookup (keyConcurrency tenant)).bind (·.lookup leaseID)

/-- Store the leases of a tenant. -/
def Model.setHeld (m : Model) (tenant : Bytes) (held : GoMap Bytes Int) : Model :=
  { m with leases := m.leases.insert (keyConcurrency tenant) held }

/-- `Model.Release`. Deleting from a missing map does nothing. -/
def Model.release (m : Model) (tenant leaseID : Bytes) : Model × Bool :=
  match m.leases.lookup (keyConcurrency tenant) with
  | some held => (m.setHeld tenant (held.erase leaseID), (m.lease tenant leaseID).isSome)
  | none => (m, false)

/-- Extend a lease that is stored and has not expired to `until_`. -/
def Model.extend (m : Model) (now until_ : Int) (tenant leaseID : Bytes) : Model × Bool :=
  match m.leases.lookup (keyConcurrency tenant) with
  | some held =>
    match held.lookup leaseID with
    | some exp =>
      if exp ≤ now then (m, false)
      else (m.setHeld tenant (held.insert leaseID until_), true)
    | none => (m, false)
  | none => (m, false)

/-- `Model.Renew`. -/
def Model.renew (m : Model) (now : Int) (tenant leaseID : Bytes) : Model × Bool :=
  m.extend now (now + m.p.leaseTTLMs) tenant leaseID

/-! ### Runs -/

/-- A call to the limiter. `Allow` and `Renew` carry the time they are made at. -/
inductive Call
  | allow (now : Int) (r : ModelRequest)
  | renew (now : Int) (tenant leaseID : Bytes)
  | release (tenant leaseID : Bytes)
  deriving Repr, DecidableEq

/-- Whose call it is. -/
def Call.tenant : Call → Bytes
  | allow _ r => r.tenantID
  | renew _ t _ => t
  | release t _ => t

/-- The answer to a call. -/
inductive Reply
  | outcome (o : Outcome)
  | ok (b : Bool)
  deriving Repr, DecidableEq

/-- One call. -/
def Model.step (m : Model) : Call → Model × Reply
  | .allow now r => ((m.allow now r).1, .outcome (m.allow now r).2)
  | .renew now t id => ((m.renew now t id).1, .ok (m.renew now t id).2)
  | .release t id => ((m.release t id).1, .ok (m.release t id).2)

/-! ### What a check is made of -/

/-- The quotas of a request: the limit, the bucket's key, the quota and the cost. -/
def ModelRequest.quotas (r : ModelRequest) : List (Limit × Bytes × Int × Int) :=
  [(.requests, keyRequests r.tenantID, r.limits.requestsPerMinute, 1),
    (.tokens, keyTokens r.tenantID, r.limits.tokensPerMinute, r.cost),
    (.model, keyModel r.model, r.modelRequestsPerMinute, 1)]

/-- The check that `Allow` makes for a quota that is set. -/
def Model.checkOf (m : Model) (now : Int) (limit : Limit) (key : Bytes) (quota cost : Int) :
    Check :=
  ⟨limit, key, quota, Ratelimit.level m.p (m.buckets.lookup key) now quota,
    Ratelimit.need cost (capacity m.p quota)⟩

variable {now : Int} {w : Outcome}

/-- The checks of a request are those of its positive quotas. -/
theorem Model.mem_checks {m : Model} {r : ModelRequest} {c : Check} :
    c ∈ m.checks now r ↔ ∃ l k q cost, (l, k, q, cost) ∈ r.quotas ∧ 0 < q ∧
      c = m.checkOf now l k q cost := by
  have hadd : ∀ (l : Limit) (k : Bytes) (q cost : Int), c ∈ m.add now l k q cost ↔
      0 < q ∧ c = m.checkOf now l k q cost := by
    intro l k q cost
    unfold Model.add
    split
    · simp; omega
    · simp only [mem_singleton]
      exact ⟨fun h => ⟨by omega, h⟩, fun h => h.2⟩
  simp only [Model.checks, mem_append, hadd, ModelRequest.quotas, mem_cons,
    not_mem_nil, or_false, Prod.mk.injEq]
  constructor
  · rintro ((h | h) | h)
    · exact ⟨_, _, _, _, .inl ⟨rfl, rfl, rfl, rfl⟩, h⟩
    · exact ⟨_, _, _, _, .inr (.inl ⟨rfl, rfl, rfl, rfl⟩), h⟩
    · exact ⟨_, _, _, _, .inr (.inr ⟨rfl, rfl, rfl, rfl⟩), h⟩
  · rintro ⟨l, k, q, cost, ⟨rfl, rfl, rfl, rfl⟩ | ⟨rfl, rfl, rfl, rfl⟩ | ⟨rfl, rfl, rfl, rfl⟩, h⟩
    · exact .inl (.inl h)
    · exact .inl (.inr h)
    · exact .inr h

/-- The three buckets of a request are different buckets. -/
theorem Model.nodup_keys_checks (m : Model) (now : Int) (r : ModelRequest) :
    ((m.checks now r).map Check.key).Nodup := by
  have h₁ : keyRequests r.tenantID ≠ keyTokens r.tenantID := fun h => by
    cases (KeyKind.key_injective .requests .tokens h).1
  have h₂ : keyRequests r.tenantID ≠ keyModel r.model := fun h => by
    cases (KeyKind.key_injective .requests .model h).1
  have h₃ : keyTokens r.tenantID ≠ keyModel r.model := fun h => by
    cases (KeyKind.key_injective .tokens .model h).1
  unfold Model.checks Model.add
  split <;> split <;> split <;> simp [h₁, h₂, h₃]

/-! ### When a request is admitted -/

theorem ceilDiv_pos {a b : Int} (ha : 0 < a) (hb : 0 < b) : 0 < ceilDiv a b := by
  unfold ceilDiv
  rw [Int.tdiv_eq_ediv_of_nonneg (by omega)]
  have h : 1 ≤ (a + b - 1) / b := (Int.le_ediv_iff_mul_le hb).mpr (by omega)
  omega

/-- A failed check has something to wait for. -/
theorem Model.wait_pos {m : Model} {r : ModelRequest} {c : Check}
    (h : c ∈ m.checks now r) (hc : c.passes = false) : 0 < c.wait := by
  obtain ⟨l, k, q, cost, -, hq, rfl⟩ := Model.mem_checks.mp h
  simp only [Check.passes, decide_eq_false_iff_not, not_le] at hc
  exact ceilDiv_pos (by omega) hq

/-- The refusals collected so far: none yet with no wait, or one with a positive wait. -/
def Outcome.Pending (w : Outcome) : Prop :=
  w.allowed = false ∧ 0 ≤ w.retryMs ∧ (w.limit = Option.none → w.retryMs = 0)

theorem Outcome.pending_none : Outcome.none.Pending := ⟨rfl, le_rfl, fun _ => rfl⟩

theorem consider_spec {wait : Int} (l : Limit) (hw : w.Pending) (h : 0 < wait) :
    (consider w l wait).Pending ∧ (consider w l wait).limit ≠ none := by
  obtain ⟨ha, h₀, hnone⟩ := hw
  unfold consider
  split
  · exact ⟨⟨rfl, le_of_lt h, nofun⟩, by simp⟩
  · rename_i hle
    refine ⟨⟨ha, h₀, hnone⟩, fun hl => ?_⟩
    rw [hnone hl] at hle
    exact hle h

/-- Considering a list of checks refuses exactly if it did before or one of them fails. -/
theorem considerChecks_spec {p : Check → Bool} {cs : List Check} (hw : w.Pending)
    (hcs : ∀ c ∈ cs, c.passes = false → 0 < c.wait) :
    (considerChecks p cs w).Pending ∧ ((considerChecks p cs w).limit = none ↔
      w.limit = none ∧ ∀ c ∈ cs, p c = true → c.passes = true) := by
  induction cs generalizing w with
  | nil => exact ⟨hw, by simp [considerChecks]⟩
  | cons c cs ih =>
    have hcs' : ∀ d ∈ cs, d.passes = false → 0 < d.wait := fun d hd => hcs d (by simp [hd])
    have hstep : considerChecks p (c :: cs) w =
        considerChecks p cs (if p c && !c.passes then consider w c.limit c.wait else w) := rfl
    rw [hstep]
    cases hfail : p c && !c.passes with
    | false =>
      obtain ⟨hP, hiff⟩ := ih hw hcs'
      refine ⟨hP, hiff.trans ?_⟩
      have : p c = true → c.passes = true := by
        intro hp
        simpa [hp] using hfail
      rw [forall_mem_cons]
      exact and_congr_right fun _ => ⟨fun h => ⟨this, h⟩, fun h => h.2⟩
    | true =>
      simp only [Bool.and_eq_true, Bool.not_eq_true'] at hfail
      obtain ⟨hP, hne⟩ := consider_spec c.limit hw (hcs c (by simp) hfail.2)
      obtain ⟨hP', hiff⟩ := ih hP hcs'
      refine ⟨hP', ?_⟩
      simp only [if_true, hiff, hne, false_and, false_iff, not_and, not_forall]
      exact fun _ => ⟨c, by simp, hfail.1, by simp [hfail.2]⟩

theorem considerIf_spec (full : Bool) {wait : Int} (l : Limit) (hw : w.Pending) (h : 0 < wait) :
    (if full then consider w l wait else w).Pending ∧
      ((if full then consider w l wait else w).limit = none ↔ w.limit = none ∧ full = false) := by
  cases full with
  | false => exact ⟨by simpa using hw, by simp⟩
  | true =>
    obtain ⟨hP, hne⟩ := consider_spec l hw h
    exact ⟨by simpa using hP, by simp [hne]⟩

/-- `worst` reports a refusal exactly if a check fails or the tenant's leases are used up. -/
theorem Model.worst_spec (m : Model) (now : Int) (r : ModelRequest) :
    (m.worst now r).Pending ∧ ((m.worst now r).limit = none ↔
      (∀ c ∈ m.checks now r, c.passes = true) ∧ m.concurrencyFull now r = false) := by
  have hwait : ∀ c ∈ m.checks now r, c.passes = false → 0 < c.wait := fun c h => m.wait_pos h
  obtain ⟨hP₁, hiff₁⟩ := considerChecks_spec (p := fun c => decide (c.limit ≠ .model))
    Outcome.pending_none hwait
  obtain ⟨hP₂, hiff₂⟩ := considerIf_spec (m.concurrencyFull now r) .concurrency hP₁
    (show (0 : Int) < concurrencyRetryMs by decide)
  obtain ⟨hP₃, hiff₃⟩ := considerChecks_spec (p := fun c => decide (c.limit = .model)) hP₂ hwait
  refine ⟨hP₃, hiff₃.trans ?_⟩
  rw [hiff₂, hiff₁]
  -- the two passes over the checks split them by limit
  constructor
  · rintro ⟨⟨⟨-, hother⟩, hfull⟩, hmodel⟩
    refine ⟨fun c hc => ?_, hfull⟩
    by_cases hl : c.limit = .model
    · exact hmodel c hc (by simpa using hl)
    · exact hother c hc (by simpa using hl)
  · rintro ⟨hall, hfull⟩
    exact ⟨⟨⟨rfl, fun c hc _ => hall c hc⟩, hfull⟩, fun c hc _ => hall c hc⟩

/-- The two ways `Allow` ends: a refusal, which only evicts expired leases, or an
admission, which needs every check to pass and charges all of them. -/
theorem Model.allow_cases (m : Model) (now : Int) (r : ModelRequest) :
    (m.allow now r = (m.refused now r, m.worst now r) ∧
      (m.worst now r).allowed = false) ∨
    (m.allow now r = (m.admitted now r, ⟨true, none, 0⟩) ∧
      (∀ c ∈ m.checks now r, c.passes = true) ∧ m.concurrencyFull now r = false) := by
  obtain ⟨hP, hiff⟩ := m.worst_spec now r
  unfold Model.allow
  cases hl : (m.worst now r).limit with
  | some l => exact .inl ⟨by simp, hP.1⟩
  | none => exact .inr ⟨by simp, hiff.mp hl⟩

@[simp] theorem Model.allow_p (m : Model) (now : Int) (r : ModelRequest) :
    (m.allow now r).1.p = m.p := by
  rcases m.allow_cases now r with ⟨h, -⟩ | ⟨h, -⟩
  · rw [h, Model.refused]
  · rw [h, Model.admitted]

theorem Model.renew_frame (m : Model) (now : Int) (t id : Bytes) :
    (m.renew now t id).1.p = m.p ∧ (m.renew now t id).1.buckets = m.buckets := by
  unfold Model.renew Model.extend
  split
  · split
    · split <;> exact ⟨rfl, rfl⟩
    · exact ⟨rfl, rfl⟩
  · exact ⟨rfl, rfl⟩

theorem Model.release_frame (m : Model) (t id : Bytes) :
    (m.release t id).1.p = m.p ∧ (m.release t id).1.buckets = m.buckets := by
  unfold Model.release
  split <;> exact ⟨rfl, rfl⟩

/-! ### What an admission stores -/

/-- Charging a list of checks on different buckets: each charged bucket is lowered by its
need and stamped, the others are untouched. -/
theorem lookup_foldl_charge {cs : List Check} (hnd : (cs.map Check.key).Nodup)
    (bs : GoMap Bytes Bucket) (k : Bytes) :
    (cs.foldl (charge now) bs).lookup k =
      match cs.find? (·.key = k) with
      | some c => some ⟨c.level - c.need, nextStamp (bs.lookup k) now⟩
      | none => bs.lookup k := by
  induction cs generalizing bs with
  | nil => rfl
  | cons c cs ih =>
    obtain ⟨hc, hnd'⟩ := List.nodup_cons.mp hnd
    rw [foldl_cons, ih hnd']
    by_cases hk : c.key = k
    · subst hk
      have hnone : cs.find? (·.key = c.key) = none := by
        rw [List.find?_eq_none]
        intro d hd
        have : d.key ≠ c.key := fun h => hc (h ▸ mem_map_of_mem hd)
        simpa using this
      rw [hnone, List.find?_cons_of_pos (by simp)]
      simp [charge]
    · rw [List.find?_cons_of_neg (by simpa using hk)]
      have hk' : (charge now bs c).lookup k = bs.lookup k :=
        lookup_insert_ne (Ne.symm hk)
      rw [hk']

theorem Model.lookup_admitted (m : Model) (now : Int) (r : ModelRequest) (k : Bytes) :
    (m.admitted now r).buckets.lookup k =
      match (m.checks now r).find? (·.key = k) with
      | some c => some ⟨c.level - c.need, nextStamp (m.buckets.lookup k) now⟩
      | none => m.buckets.lookup k :=
  lookup_foldl_charge (m.nodup_keys_checks now r) m.buckets k

/-! ### What a call does to the leases -/

theorem Model.lookup_evicted (m : Model) (now : Int) (r : ModelRequest) (k : Bytes) :
    (m.evicted now r).lookup k =
      if k = keyConcurrency r.tenantID ∧ r.limits.maxConcurrent > 0 then
        (m.leases.lookup k).map (evict now)
      else m.leases.lookup k := by
  unfold Model.evicted
  cases hl : m.leases.lookup (keyConcurrency r.tenantID) with
  | none =>
    by_cases hk : k = keyConcurrency r.tenantID
    · subst hk; simp [hl]
    · simp [hk]
  | some held =>
    by_cases hc : r.limits.maxConcurrent > 0
    · simp only [hc, if_true, and_true, lookup_insert_ite]
      split
      · rename_i hk; subst hk; simp [hl]
      · rfl
    · simp [hc]

theorem Model.lookup_withLease (m : Model) (now : Int) (r : ModelRequest) (k : Bytes) :
    (m.withLease now r).lookup k =
      if k = keyConcurrency r.tenantID ∧ r.limits.maxConcurrent > 0 then
        some ((((m.leases.lookup k).map (evict now)).getD ∅).insert r.leaseID
          (now + m.p.leaseTTLMs))
      else m.leases.lookup k := by
  unfold Model.withLease Model.leased
  by_cases hc : r.limits.maxConcurrent > 0
  · by_cases hk : k = keyConcurrency r.tenantID
    · subst hk
      simp [hc, Model.lookup_evicted]
    · simp [hc, hk, Model.lookup_evicted]
  · simp [hc, Model.lookup_evicted]

theorem Model.lookup_setHeld (m : Model) (t : Bytes) (held : GoMap Bytes Int) (k : Bytes) :
    (m.setHeld t held).leases.lookup k =
      if k = keyConcurrency t then some held else m.leases.lookup k :=
  lookup_insert_ite _ _ _ _

end ServerFlow.Ratelimit
