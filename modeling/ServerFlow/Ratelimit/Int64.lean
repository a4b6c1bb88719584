import ServerFlow.Lib.Machine
import ServerFlow.Lib.Word
import ServerFlow.Ratelimit.Model

/-!
# Ratelimit.Int64

The limiter's calls in `int64`. Reduction is a homomorphism of rings, so it is enough to reduce what
is compared, divided or stored (`Word.wrap`).

With settings, quotas and costs within what `RedisLimiter` clamps to, and times within `maxTime` of
zero, nothing is reduced: a state whose buckets are within the bounds (`Model.Fits`) stays so and
takes each call as the exact model does (`Model.Fits.step`), and so does a run (`run64_eq`).
-/

namespace ServerFlow.Ratelimit

open Machine List
open Word (wrap wrap_eq)

/-! ### The calls -/

/-- The results of `peek`: the level, given what is stored. -/
def level64 (p : Params) (b : Option Bucket) (now quota : Int) : Int :=
  match b with
  | none => wrap (capacity p quota)
  | some b =>
    let elapsed := min (max (wrap (now - b.stamp)) 0) (wrap p.window)
    min (wrap (b.level + elapsed * quota)) (wrap (capacity p quota))

def Model.add64 (m : Model) (now : Int) (x : Limit × Bytes × Int × Int) : List Check :=
  let (limit, key, quota, cost) := x
  if quota ≤ 0 then []
  else [⟨limit, key, quota, level64 m.p (m.buckets.lookup key) now quota,
    min (wrap (cost * scale)) (wrap (capacity m.p quota))⟩]

def Model.checks64 (m : Model) (now : Int) (r : ModelRequest) : List Check :=
  r.quotas.flatMap (m.add64 now)

def Check.wait64 (c : Check) : Int := (wrap (c.need - c.level + c.quota - 1)).tdiv c.quota

def considerChecks64 (p : Check → Bool) (cs : List Check) (worst : Outcome) : Outcome :=
  cs.foldl (fun w c => if p c && !c.passes then consider w c.limit c.wait64 else w) worst

def Model.worst64 (m : Model) (now : Int) (r : ModelRequest) : Outcome :=
  let w := considerChecks64 (fun c => c.limit ≠ .model) (m.checks64 now r) Outcome.none
  let w := if m.concurrencyFull now r then consider w .concurrency concurrencyRetryMs else w
  considerChecks64 (fun c => c.limit = .model) (m.checks64 now r) w

def charge64 (now : Int) (bs : GoMap Bytes Bucket) (c : Check) : GoMap Bytes Bucket :=
  bs.insert c.key ⟨wrap (c.level - c.need), nextStamp (bs.lookup c.key) now⟩

/-- `Model.Allow`. -/
def Model.allow64 (m : Model) (now : Int) (r : ModelRequest) : Model × Outcome :=
  if (m.worst64 now r).limit.isSome then (m.refused now r, m.worst64 now r)
  else
    ({ m with
        buckets := (m.checks64 now r).foldl (charge64 now) m.buckets
        leases := m.leased now r (wrap (now + m.p.leaseTTLMs)) },
      ⟨true, none, 0⟩)

/-- `Model.Renew`. -/
def Model.renew64 (m : Model) (now : Int) (tenant leaseID : Bytes) : Model × Bool :=
  m.extend now (wrap (now + m.p.leaseTTLMs)) tenant leaseID

/-- One call. -/
def Model.step64 (m : Model) : Call → Model × Reply
  | .allow now r => ((m.allow64 now r).1, .outcome (m.allow64 now r).2)
  | .renew now t id => ((m.renew64 now t id).1, .ok (m.renew64 now t id).2)
  | .release t id => ((m.release t id).1, .ok (m.release t id).2)

/-! ### Bounds -/

/-- The largest level a bucket can have. -/
def maxLevel : Int := maxQuota * (maxBurstSeconds * 1000)

/-- The latest time considered, in milliseconds. -/
def maxTime : Int := 2 ^ 52

abbrev InTime (t : Int) : Prop := -maxTime ≤ t ∧ t ≤ maxTime

/-- A burst of at most an hour, and a TTL within the times. -/
structure Params.Bounded (p : Params) : Prop where
  burst : 0 ≤ p.burstSeconds ∧ p.burstSeconds ≤ maxBurstSeconds
  ttl : InTime p.leaseTTLMs

/-- The quotas are at most `maxQuota`, and the costs are from `0` to `maxCost`. -/
def ModelRequest.Bounded (r : ModelRequest) : Prop :=
  ∀ x ∈ r.quotas, x.2.2.1 ≤ maxQuota ∧ 0 ≤ x.2.2.2 ∧ x.2.2.2 ≤ maxCost

instance (r : ModelRequest) : Decidable r.Bounded :=
  inferInstanceAs (Decidable (∀ x ∈ r.quotas, _))

/-- The call is made within the times, with a request within the bounds. -/
def Call.Bounded : Call → Prop
  | .allow now r => InTime now ∧ r.Bounded
  | .renew now _ _ => InTime now
  | .release _ _ => True

/-- The settings and the stored buckets are within the bounds. -/
structure Model.Fits (m : Model) : Prop where
  params : m.p.Bounded
  buckets : ∀ k b, m.buckets.lookup k = some b →
    (0 ≤ b.level ∧ b.level ≤ maxLevel) ∧ InTime b.stamp

/-! ### One bucket -/

theorem capacity_eq (p : Params) (Q : Int) : capacity p Q = p.window * Q := by
  unfold capacity Params.window
  ring

theorem level_le_capacity (p : Params) (b : Option Bucket) (now Q : Int) :
    level p b now Q ≤ capacity p Q := by
  cases b with
  | none => exact le_rfl
  | some b => exact min_le_right _ _

theorem need_nonneg {cost cap : Int} (hcost : 0 ≤ cost) (hcap : 0 ≤ cap) : 0 ≤ need cost cap :=
  le_min (mul_nonneg hcost (by decide)) hcap

section Bounds

variable {p : Params} (hp : p.Bounded) {Q : Int} (hQ : 0 < Q) (hQ' : Q ≤ maxQuota)

include hp hQ hQ'

theorem Params.Bounded.capacity_bounds : 0 ≤ capacity p Q ∧ capacity p Q ≤ maxLevel := by
  obtain ⟨hlow, hhigh⟩ := hp.burst
  have hnonneg : 0 ≤ Q * p.burstSeconds := mul_nonneg hQ.le hlow
  have hle : Q * p.burstSeconds ≤ maxQuota * maxBurstSeconds :=
    mul_le_mul hQ' hhigh hlow (by decide)
  have hmax : maxLevel = maxQuota * maxBurstSeconds * 1000 := by decide
  unfold capacity
  omega

/-- The level of a bucket within the bounds is not reduced. -/
theorem Params.Bounded.level_eq {b : Option Bucket}
    (hb : ∀ c, b = some c → (0 ≤ c.level ∧ c.level ≤ maxLevel) ∧ InTime c.stamp) {now : Int}
    (hnow : -(2 * maxTime) ≤ now ∧ now ≤ 2 * maxTime) :
    level64 p b now Q = level p b now Q ∧ 0 ≤ level p b now Q := by
  obtain ⟨hcap, hcap'⟩ := hp.capacity_bounds hQ hQ'
  have hburst := hp.burst
  have hmax : maxLevel = 3600000000000000 := by decide
  have htime : maxTime = 2 ^ 52 := rfl
  have hhour : maxBurstSeconds = 3600 := rfl
  have hwindow : p.window = p.burstSeconds * 1000 := rfl
  cases b with
  | none => exact ⟨wrap_eq (by omega) (by omega), hcap⟩
  | some c =>
    obtain ⟨hlevel, hstamp⟩ := hb c rfl
    have helapsed : 0 ≤ c.elapsed p now ∧ c.elapsed p now ≤ p.window := by
      unfold Bucket.elapsed
      omega
    have hlow : 0 ≤ c.elapsed p now * Q := mul_nonneg helapsed.1 hQ.le
    have hhigh : c.elapsed p now * Q ≤ capacity p Q := by
      rw [capacity_eq]
      exact mul_le_mul_of_nonneg_right helapsed.2 hQ.le
    refine ⟨?_, le_min (by omega) hcap⟩
    unfold level64
    dsimp only
    rw [wrap_eq (x := now - c.stamp) (by omega) (by omega),
      wrap_eq (x := p.window) (by omega) (by omega),
      wrap_eq (x := capacity p Q) (by omega) (by omega)]
    exact congrArg (min · _) (wrap_eq (x := c.level + c.elapsed p now * Q) (by omega) (by omega))

end Bounds

/-! ### One call -/

namespace Model.Fits

variable {m : Model} {now : Int} {r : ModelRequest} {c : Check}

variable (h : m.Fits)
include h

theorem checks64_eq (hr : r.Bounded)
    (hnow : -(2 * maxTime) ≤ now ∧ now ≤ 2 * maxTime) : m.checks64 now r = m.checks now r := by
  have hmax : maxLevel = 3600000000000000 := by decide
  have hcosts : maxCost = 4294967296 := by decide
  have hadd : ∀ x ∈ r.quotas, m.add64 now x = m.add now x.1 x.2.1 x.2.2.1 x.2.2.2 := by
    rintro ⟨l, k, q, cost⟩ hmem
    obtain ⟨hq', hcost, hcost'⟩ := hr _ hmem
    unfold Model.add64 Model.add Model.peek need scale
    dsimp only at hq' hcost hcost' ⊢
    split
    · rfl
    next hq =>
      obtain ⟨hcap, hcap'⟩ := h.params.capacity_bounds (not_le.mp hq) hq'
      rw [(h.params.level_eq (not_le.mp hq) hq' (h.buckets k) hnow).1,
        wrap_eq (x := capacity m.p q) (by omega) (by omega),
        wrap_eq (x := cost * 60000) (by omega) (by omega)]
  simp only [Model.checks64, Model.checks, ModelRequest.quotas, flatMap_cons, flatMap_nil,
    append_nil, append_assoc] at hadd ⊢
  rw [hadd _ (by simp), hadd _ (by simp), hadd _ (by simp)]

/-- What a check is made of is within the bounds. -/
theorem bounds (hr : r.Bounded) (hnow : InTime now) (hc : c ∈ m.checks now r) :
    (0 < c.quota ∧ c.quota ≤ maxQuota) ∧ (0 ≤ c.level ∧ c.level ≤ maxLevel) ∧
      0 ≤ c.need ∧ c.need ≤ maxLevel := by
  obtain ⟨l, k, q, cost, hmem, hq, rfl⟩ := Model.mem_checks.mp hc
  obtain ⟨hq', hcost, -⟩ := hr _ hmem
  obtain ⟨hcap, hcap'⟩ := h.params.capacity_bounds hq hq'
  exact ⟨⟨hq, hq'⟩, ⟨(h.params.level_eq hq hq' (h.buckets k) (by omega)).2,
    (level_le_capacity _ _ _ _).trans hcap'⟩, need_nonneg hcost hcap,
      (min_le_right _ _).trans hcap'⟩

theorem worst64_eq (hr : r.Bounded) (hnow : InTime now) : m.worst64 now r = m.worst now r := by
  have hmax : maxLevel = 3600000000000000 := by decide
  have hquotas : maxQuota = 1000000000 := rfl
  have hconsider : ∀ p w, considerChecks64 p (m.checks now r) w =
      considerChecks p (m.checks now r) w := by
    intro p w
    refine foldl_ext _ _ w fun w c hc => ?_
    obtain ⟨hquota, hlevel, hneed⟩ := h.bounds hr hnow hc
    unfold Check.wait64 Check.wait ceilDiv
    rw [wrap_eq (by omega) (by omega)]
  unfold Model.worst64 Model.worst
  rw [h.checks64_eq hr (by omega), hconsider, hconsider]

theorem expiry_eq (hnow : InTime now) : wrap (now + m.p.leaseTTLMs) = now + m.p.leaseTTLMs := by
  have htime : maxTime = 2 ^ 52 := rfl
  have httl := h.params.ttl
  exact wrap_eq (by omega) (by omega)

theorem allow64_eq (hr : r.Bounded) (hnow : InTime now) : m.allow64 now r = m.allow now r := by
  have hmax : maxLevel = 3600000000000000 := by decide
  have hcharge : (m.checks now r).foldl (charge64 now) m.buckets =
      (m.checks now r).foldl (charge now) m.buckets := by
    refine foldl_ext _ _ _ fun bs c hc => ?_
    obtain ⟨-, hlevel, hneed⟩ := h.bounds hr hnow hc
    unfold charge64 charge
    rw [wrap_eq (by omega) (by omega)]
  unfold Model.allow64
  rw [h.worst64_eq hr hnow, h.checks64_eq hr (by omega), hcharge, h.expiry_eq hnow]
  rfl

/-- A bucket is charged only what it holds. -/
theorem allow (hr : r.Bounded) (hnow : InTime now) : (m.allow now r).1.Fits := by
  rcases m.allow_cases now r with ⟨hallow, -⟩ | ⟨hallow, hpass, -⟩ <;> rw [hallow]
  · exact ⟨h.params, h.buckets⟩
  · refine ⟨h.params, fun k b hb => ?_⟩
    rw [Model.lookup_admitted] at hb
    split at hb
    next c hfind =>
      have hmem := mem_of_find?_eq_some hfind
      have hle : c.need ≤ c.level := of_decide_eq_true (hpass c hmem)
      obtain ⟨-, hlevel, hneed⟩ := h.bounds hr hnow hmem
      obtain rfl := Option.some.inj hb
      refine ⟨⟨by dsimp only; omega, by dsimp only; omega⟩, ?_⟩
      show InTime (nextStamp (m.buckets.lookup k) now)
      cases hk : m.buckets.lookup k with
      | none => exact hnow
      | some b =>
        have hstamp := (h.buckets k b hk).2
        unfold nextStamp
        dsimp only
        split <;> omega
    next => exact h.buckets k b hb

/-- **A call in `int64` is the call of the model**, within the bounds, and stays within them. -/
theorem step {c : Call} (hc : c.Bounded) :
    m.step64 c = m.step c ∧ (m.step c).1.Fits ∧ (m.step c).1.p = m.p := by
  cases c with
  | allow now r =>
    simp only [Model.step64, Model.step, h.allow64_eq hc.2 hc.1]
    exact ⟨trivial, h.allow hc.2 hc.1, m.allow_p now r⟩
  | renew now t id =>
    obtain ⟨hp, hb⟩ := m.renew_frame now t id
    refine ⟨?_, ⟨by rw [Model.step, hp]; exact h.params, by rw [Model.step, hb]; exact h.buckets⟩,
      hp⟩
    simp only [Model.step64, Model.step, Model.renew64, h.expiry_eq hc, Model.renew]
  | release t id =>
    obtain ⟨hp, hb⟩ := m.release_frame t id
    exact ⟨rfl, ⟨by rw [Model.step, hp]; exact h.params, by rw [Model.step, hb]; exact h.buckets⟩,
      hp⟩

end Model.Fits

theorem Model.fits_new {p : Params} (hp : p.Bounded) : (Model.new p).Fits :=
  ⟨hp, fun k b h => by simp [Model.new] at h⟩

/-- **A run in `int64` is the run of the model**, within the bounds. -/
theorem run64_eq {p : Params} (hp : p.Bounded) {run : List Call} (hrun : ∀ c ∈ run, c.Bounded) :
    final Model.step64 (Model.new p) run = final Model.step (Model.new p) run ∧
      (final Model.step (Model.new p) run).Fits ∧ (final Model.step (Model.new p) run).p = p := by
  have hstep : ∀ (m : Model) c, c.Bounded → m.Fits ∧ m.p = p →
      (m.step c).1.Fits ∧ (m.step c).1.p = p :=
    fun m c hc h => ⟨(h.1.step hc).2.1, (h.1.step hc).2.2.trans h.2⟩
  have hnew : (Model.new p).Fits ∧ (Model.new p).p = p := ⟨Model.fits_new hp, rfl⟩
  exact ⟨final_eq_of_agree (fun m c hc h => (Model.Fits.step h.1 hc).1) hstep hrun hnew,
    final_invariant hstep hrun hnew⟩

end ServerFlow.Ratelimit
