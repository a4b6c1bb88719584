import ServerFlow.Ratelimit.ParityRelation

/-!
# Ratelimit.Parity

The Lua scripts and the Go model are the same algorithm, although the scripts lose keys: at
non-decreasing Redis time they give the same answers along every run
(`scripts_answer_as_model`), by a lockstep simulation with the relation of
`ServerFlow.Ratelimit.ParityRelation`.
-/

namespace ServerFlow.Ratelimit

open List Machine
open Redis (Store Error)

variable {r : ModelRequest} {m : Model} {db : Store}

/-! ### Acquire -/

/-- The request is within what the limiter clamps to. -/
structure ModelRequest.InRange (r : ModelRequest) : Prop where
  requests : 0 ≤ r.limits.requestsPerMinute ∧ r.limits.requestsPerMinute ≤ maxQuota
  tokens : 0 ≤ r.limits.tokensPerMinute ∧ r.limits.tokensPerMinute ≤ maxQuota
  concurrent : 0 ≤ r.limits.maxConcurrent ∧ r.limits.maxConcurrent ≤ maxQuota
  model : 0 ≤ r.modelRequestsPerMinute ∧ r.modelRequestsPerMinute ≤ maxQuota
  cost : 0 ≤ r.cost ∧ r.cost ≤ maxCost

theorem clampQuota_eq {n : Int} (h : 0 ≤ n ∧ n ≤ maxQuota) : clampQuota n = n := by
  unfold clampQuota
  rw [if_neg (by omega), if_neg (by omega)]

/-- The model's refusals in the order the script considers them. -/
theorem Model.worst_eq (m : Model) (now : Int) (r : ModelRequest) :
    m.worst now r =
      considerChecks (fun c => c.limit = .model)
        (m.add now .model (keyModel r.model) r.modelRequestsPerMinute 1)
        (let w := considerChecks (fun c => c.limit ≠ .model)
          (m.add now .tokens (keyTokens r.tenantID) r.limits.tokensPerMinute r.cost)
          (considerChecks (fun c => c.limit ≠ .model)
            (m.add now .requests (keyRequests r.tenantID) r.limits.requestsPerMinute 1)
            Outcome.none)
        if m.concurrencyFull now r then consider w .concurrency concurrencyRetryMs else w) := by
  have hskip : ∀ {f : Check → Bool} {l : Limit} {key : Bytes} {Q cost : Int} (w : Outcome),
      f (m.checkOf now l key Q cost) = false → considerChecks f (m.add now l key Q cost) w = w := by
    intro f l key Q cost w hf
    unfold Model.add
    split
    · rfl
    · show (if (f (m.checkOf now l key Q cost) && _) = true then _ else w) = w
      rw [hf]
      rfl
  have happ : ∀ (f : Check → Bool) (xs ys : List Check) (w : Outcome),
      considerChecks f (xs ++ ys) w = considerChecks f ys (considerChecks f xs w) :=
    fun f xs ys w => foldl_append
  have hmod : ∀ w, considerChecks (fun c => decide (c.limit ≠ .model))
      (m.add now .model (keyModel r.model) r.modelRequestsPerMinute 1) w = w :=
    fun w => hskip w rfl
  have htok : ∀ w, considerChecks (fun c => decide (c.limit = .model))
      (m.add now .tokens (keyTokens r.tenantID) r.limits.tokensPerMinute r.cost) w = w :=
    fun w => hskip w rfl
  have hreq : ∀ w, considerChecks (fun c => decide (c.limit = .model))
      (m.add now .requests (keyRequests r.tenantID) r.limits.requestsPerMinute 1) w = w :=
    fun w => hskip w rfl
  unfold Model.worst Model.checks
  simp only [happ, hmod, htok, hreq]

section Script

variable {rnd : Int → Int} {db db₁ : Store} {t : RedisTime} {keys : AcquireKeys}
  {argv : AcquireArgs} {c : Checks Int} {now window : Int}

theorem acquireScript_refused (hnow : scriptNow rnd argv.override t = now)
    (hwindow : rnd (argv.burstSeconds * 1000) = window)
    (hchecks : (scriptArith rnd now window argv.leaseTTLMs).acquireChecks db t.ms keys argv =
      .ok (db₁, c)) (hcode : c.best.code > 0) :
    acquireScript rnd db t keys argv = .ok (db₁, ⟨0, c.best.code, c.best.wait⟩) := by
  unfold acquireScript Arith.acquireScript
  simp only [hnow, hwindow, hchecks, hcode, bind, Except.bind, pure, Except.pure, if_true]
  rfl

theorem acquireScript_admitted (hnow : scriptNow rnd argv.override t = now)
    (hwindow : rnd (argv.burstSeconds * 1000) = window)
    (hchecks : (scriptArith rnd now window argv.leaseTTLMs).acquireChecks db t.ms keys argv =
      .ok (db₁, c)) (hcode : ¬ c.best.code > 0) {db₂ : Store}
    (hstores : (scriptArith rnd now window argv.leaseTTLMs).acquireStores db₁ t.ms keys argv c =
      .ok db₂) : acquireScript rnd db t keys argv = .ok (db₂, ⟨1, 0, 0⟩) := by
  unfold acquireScript Arith.acquireScript
  simp only [hnow, hwindow, hchecks, hcode, hstores, bind, Except.bind, pure, Except.pure, if_false]

end Script

section Acquire

variable {p : Params} {now : Int} {m : Model} {db : Store} {rnd : Int → Int}
  (hrnd : ExactBelow rnd) (hp : p.InRange) (hnow : 0 ≤ now) (hnow' : now ≤ maxTime)

include hrnd hp hnow

/-- Charging the check of one quota, if it is set. -/
theorem BucketsRel.storeIf {bs : GoMap Bytes Bucket} (h : BucketsRel p now bs db) (hm : m.p = p)
    (k : KeyKind) (hk : k ≠ .concurrency) (s : Bytes) (l : Limit) (key : Bytes) {Q cost : Int}
    (hkey : 0 < Q → key = k.key s) (hQ' : Q ≤ maxQuota) (hcost : 0 ≤ cost)
    (hpass : ∀ c ∈ m.add now l (k.key s) Q cost, c.passes = true)
    (hstamp : nextStamp (m.buckets.lookup (k.key s)) now = now) (ttl : Int) :
    ∃ db', (scriptArith rnd now p.window ttl).storeIf db now key
        (quotaChecked m now (k.key s) Q cost) = .ok db' ∧
      BucketsRel p now ((m.add now l (k.key s) Q cost).foldl (charge now) bs) db' ∧
      ∀ k', k' ≠ k.key s → db'.lookup k' = db.lookup k' := by
  subst hm
  unfold quotaChecked
  by_cases hQ : Q > 0
  · have hadd : m.add now l (k.key s) Q cost = [m.checkOf now l (k.key s) Q cost] :=
      if_neg (by omega)
    obtain ⟨hcap, hcap'⟩ := hp.capacity_bounds hQ hQ'
    have hle := of_decide_eq_true (hpass _ (by rw [hadd]; exact mem_singleton_self _))
    have hlevel : (m.checkOf now l (k.key s) Q cost).level ≤ capacity m.p Q :=
      level_le_capacity _ _ _ _
    have hneed : 0 ≤ (m.checkOf now l (k.key s) Q cost).need := need_nonneg hcost hcap.le
    rw [if_pos hQ, hadd, hkey hQ]
    exact h.store hrnd hp hnow hk s rfl rfl rfl hstamp hle (by omega)
  · have hadd : m.add now l (k.key s) Q cost = [] := if_pos (by omega)
    rw [if_neg hQ, hadd]
    exact ⟨db, rfl, h, fun _ _ => rfl⟩

include hnow'

/-- The checks of the script are those of the model, and its longest wait is the model's. -/
theorem Parity.checks (h : Parity p now m db) (hr : r.InRange) :
    ∃ db' best, (scriptArith rnd now p.window p.leaseTTLMs).acquireChecks db now (acquireKeys r)
        (acquireArgs p r) = .ok (db', quotaChecks m now r best) ∧
      best.outcome = m.worst now r ∧ best.Ok ∧ BucketsRel p now m.buckets db' ∧
      LeasesRel p now (m.evicted now r) db' := by
  have hkeys : ∀ (k : KeyKind) (s : Bytes), k ≠ .concurrency →
      k.key s ≠ keyConcurrency r.tenantID := fun k s hk he =>
    hk (KeyKind.key_injective k .concurrency he).1
  set a := scriptArith rnd now p.window p.leaseTTLMs with ha
  -- the two tenant buckets
  have hreq : a.checkIf db now (acquireKeys r).requests r.limits.requestsPerMinute 1 =
      .ok (quotaChecked m now (keyRequests r.tenantID) r.limits.requestsPerMinute 1) :=
    (h.buckets .requests r.tenantID (by decide)).checkIf_eq hrnd hp hnow hnow' h.params
      hr.requests.2 (by decide) (by decide)
  have htok : a.checkIf db now (acquireKeys r).tokens r.limits.tokensPerMinute r.cost =
      .ok (quotaChecked m now (keyTokens r.tenantID) r.limits.tokensPerMinute r.cost) :=
    (h.buckets .tokens r.tenantID (by decide)).checkIf_eq hrnd hp hnow hnow' h.params
      hr.tokens.2 hr.cost.1 hr.cost.2
  obtain ⟨hok₁, hout₁⟩ := Best.Ok.outcome_considerChecked (b := ⟨0, 0⟩) (.inl ⟨rfl, rfl⟩) m now
    (keyRequests r.tenantID) r.limits.requestsPerMinute 1 (show (0 : Int) < 1 by decide)
    (l := .requests) rfl (f := fun c => decide (c.limit ≠ .model)) rfl
  obtain ⟨hok₂, hout₂⟩ := hok₁.outcome_considerChecked m now (keyTokens r.tenantID)
    r.limits.tokensPerMinute r.cost (show (0 : Int) < 2 by decide) (l := .tokens) rfl
    (f := fun c => decide (c.limit ≠ .model)) rfl
  -- the leases
  generalize hb₂ : (Best.considerChecked ⟨0, 0⟩ 1 (quotaChecked m now (keyRequests r.tenantID)
    r.limits.requestsPerMinute 1)).considerChecked 2 (quotaChecked m now (keyTokens r.tenantID)
      r.limits.tokensPerMinute r.cost) = b₂ at hok₂ hout₂
  obtain ⟨db₁, hdb₁, hlease, hframe⟩ := (h.leases r.tenantID).checkLeases
    r.limits.maxConcurrent b₂ (show a.now = now from rfl)
  have hcons := hok₂.outcome_consider (show (0 : Int) < 3 by decide)
    (show (0 : Int) < 1000 by decide)
  have hfull : (r.limits.maxConcurrent > 0 ∧ r.limits.maxConcurrent ≤
      (heldLen now (m.leases.lookup (keyConcurrency r.tenantID)) : Int)) ↔
        m.concurrencyFull now r = true := by
    unfold Model.concurrencyFull
    rw [Bool.and_eq_true, decide_eq_true_eq, decide_eq_true_eq]
    rfl
  have hbuckets₁ : BucketsRel p now m.buckets db₁ := fun k s hk => by
    rw [hframe _ (hkeys k s hk)]
    exact h.buckets k s hk
  generalize hb₃ : (if r.limits.maxConcurrent > 0 ∧ r.limits.maxConcurrent ≤
    (heldLen now (m.leases.lookup (keyConcurrency r.tenantID)) : Int) then b₂.consider 3 1000
      else b₂) = b₃ at hdb₁
  have h₃ : b₃.Ok ∧ b₃.outcome = if m.concurrencyFull now r then
      consider b₂.outcome .concurrency concurrencyRetryMs else b₂.outcome := by
    rw [← hb₃]
    simp only [hfull]
    split
    · exact hcons
    · exact ⟨hok₂, rfl⟩
  -- the model's bucket
  have hmod : a.checkIf db₁ now (acquireKeys r).model r.modelRequestsPerMinute 1 =
      .ok (quotaChecked m now (keyModel r.model) r.modelRequestsPerMinute 1) := by
    by_cases hQ : r.modelRequestsPerMinute > 0
    · rw [show (acquireKeys r).model = keyModel r.model from if_pos hQ]
      exact (hbuckets₁ .model r.model (by decide)).checkIf_eq hrnd hp hnow hnow' h.params
        hr.model.2 (by decide) (by decide)
    · unfold Arith.checkIf quotaChecked
      rw [if_neg hQ, if_neg hQ]
      rfl
  obtain ⟨hok₄, hout₄⟩ :=
    h₃.1.outcome_considerChecked m now (keyModel r.model) r.modelRequestsPerMinute 1
    (show (0 : Int) < 4 by decide) (l := .model) rfl (f := fun c => decide (c.limit = .model)) rfl
  refine ⟨db₁, _, ?_, ?_, hok₄, hbuckets₁, fun t => ?_⟩
  · have hargs : (acquireArgs p r).maxConcurrent = r.limits.maxConcurrent :=
      clampQuota_eq hr.concurrent
    have hrq : (acquireArgs p r).requests = r.limits.requestsPerMinute :=
      clampQuota_eq hr.requests
    have htq : (acquireArgs p r).tokens = r.limits.tokensPerMinute := clampQuota_eq hr.tokens
    have hcost : (acquireArgs p r).cost = r.cost := by
      show max 0 (min r.cost maxCost) = r.cost
      rw [min_eq_left hr.cost.2, max_eq_right hr.cost.1]
    unfold Arith.acquireChecks
    rw [hargs, hrq, htq, hcost,
      show (acquireKeys r).concurrency = keyConcurrency r.tenantID from rfl,
      show (acquireArgs p r).modelRequests = r.modelRequestsPerMinute from rfl]
    simp only [hreq, htok, hb₂, hdb₁, hmod, quotaChecks, bind, Except.bind, pure, Except.pure]
  · rw [hout₄, h₃.2, hout₂, hout₁, m.worst_eq]
    rfl
  · rw [Model.lookup_evicted]
    by_cases ht : t = r.tenantID
    · subst ht
      split
      next hc => rwa [if_pos hc.2] at hlease
      next hc => rwa [if_neg (fun hmc => hc ⟨rfl, hmc⟩)] at hlease
    · have hne : keyConcurrency t ≠ keyConcurrency r.tenantID := fun he =>
        ht (KeyKind.key_injective .concurrency .concurrency he).2
      rw [if_neg (fun hc => hne hc.1), hframe _ hne]
      exact h.leases t

/-- Storing every check and taking the lease is what the model's admission does. -/
theorem BucketsRel.stores (hm : m.p = p) (hb : BucketsRel p now m.buckets db)
    (hl : LeasesRel p now (m.evicted now r) db) (hr : r.InRange)
    (hpass : ∀ c ∈ m.checks now r, c.passes = true) (best : Best Int) :
    ∃ db', (scriptArith rnd now p.window p.leaseTTLMs).acquireStores db now (acquireKeys r)
        (acquireArgs p r) (quotaChecks m now r best) = .ok db' ∧
      Parity p now (m.admitted now r) db' := by
  unfold Model.checks at hpass
  simp only [mem_append] at hpass
  obtain ⟨db₁, h₁, hb₁, hf₁⟩ := hb.storeIf hrnd hp hnow hm .requests (by decide) r.tenantID
    .requests (acquireKeys r).requests (fun _ => rfl) hr.requests.2
    (show (0 : Int) ≤ 1 by decide) (fun c hc => hpass c (.inl (.inl hc)))
    (hb .requests r.tenantID (by decide)).nextStamp_eq p.leaseTTLMs
  obtain ⟨db₂, h₂, hb₂, hf₂⟩ := hb₁.storeIf hrnd hp hnow hm .tokens (by decide) r.tenantID
    .tokens (acquireKeys r).tokens (fun _ => rfl) hr.tokens.2 hr.cost.1
    (fun c hc => hpass c (.inl (.inr hc))) (hb .tokens r.tenantID (by decide)).nextStamp_eq
    p.leaseTTLMs
  obtain ⟨db₃, h₃, hb₃, hf₃⟩ := hb₂.storeIf hrnd hp hnow hm .model (by decide) r.model
    .model (acquireKeys r).model (fun hQ => if_pos hQ) hr.model.2
    (show (0 : Int) ≤ 1 by decide) (fun c hc => hpass c (.inr hc))
    (hb .model r.model (by decide)).nextStamp_eq p.leaseTTLMs
  have hne : ∀ (k : KeyKind) (s t : Bytes), k ≠ .concurrency → keyConcurrency t ≠ k.key s :=
    fun k s t hk he => hk (KeyKind.key_injective .concurrency k he).1.symm
  -- the three hashes are not the tenants' sets
  have hl₃ : LeasesRel p now (m.evicted now r) db₃ := fun t => by
    rw [hf₃ _ (hne _ _ _ (by decide)), hf₂ _ (hne _ _ _ (by decide)),
      hf₁ _ (hne _ _ _ (by decide))]
    exact hl t
  have hbuckets : BucketsRel p now (m.admitted now r).buckets db₃ := by
    show BucketsRel p now ((m.checks now r).foldl (charge now) m.buckets) db₃
    unfold Model.checks
    rw [foldl_append, foldl_append]
    exact hb₃
  have hmc : (acquireArgs p r).maxConcurrent = r.limits.maxConcurrent := clampQuota_eq hr.concurrent
  have hrun : ∀ db', (scriptArith rnd now p.window p.leaseTTLMs).storeLease db₃ now
      (acquireKeys r).concurrency (acquireArgs p r) = .ok db' →
      (scriptArith rnd now p.window p.leaseTTLMs).acquireStores db now (acquireKeys r)
        (acquireArgs p r) (quotaChecks m now r best) = .ok db' := by
    intro db' h'
    simp only [KeyKind.key] at h₁ h₂ h₃
    simp only [Arith.acquireStores, quotaChecks, h₁, h₂, h₃, h', bind, Except.bind]
  by_cases hc : r.limits.maxConcurrent > 0
  · obtain ⟨db₄, h₄, hl₄, hf₄⟩ := (hl₃ r.tenantID).storeLease hrnd hp hnow hnow'
      (acquireArgs p r) (by rwa [hmc])
    refine ⟨db₄, hrun db₄ h₄, hm, fun k s hk => ?_, fun t => ?_⟩
    · rw [hf₄ _ (hne k s r.tenantID hk).symm]
      exact hbuckets k s hk
    · show LeaseRel p now ((m.withLease now r).lookup _) _
      rw [Model.lookup_withLease]
      by_cases ht : t = r.tenantID
      · subst ht
        rw [Model.lookup_evicted, if_pos ⟨rfl, hc⟩,
          show (acquireArgs p r).leaseID =
            r.leaseID from if_pos (by rwa [clampQuota_eq hr.concurrent])]
          at hl₄
        rw [if_pos ⟨rfl, hc⟩, hm]
        exact hl₄
      · have hkt : keyConcurrency t ≠ keyConcurrency r.tenantID := fun he =>
          ht (KeyKind.key_injective .concurrency .concurrency he).2
        have := hl₃ t
        rw [Model.lookup_evicted, if_neg (fun h => hkt h.1)] at this
        rw [if_neg (fun h => hkt h.1), hf₄ _ hkt]
        exact this
  · refine ⟨db₃, hrun db₃ ?_, hm, hbuckets, fun t => ?_⟩
    · unfold Arith.storeLease
      rw [hmc, if_neg hc]
      rfl
    · show LeaseRel p now ((m.withLease now r).lookup _) _
      have := hl₃ t
      rw [Model.lookup_evicted, if_neg (fun h => hc h.2)] at this
      rw [Model.lookup_withLease, if_neg (fun h => hc h.2)]
      exact this

/-- The acquire script answers as the model does, and keeps the relation. -/
theorem Parity.acquire (h : Parity p now m db) {t : RedisTime} (ht : t.ms = now) (hr : r.InRange) :
    (scriptStep rnd p db (.acquire t r)).2 = (modelStep m (.acquire t r)).2 ∧
      Parity p now (modelStep m (.acquire t r)).1 (scriptStep rnd p db (.acquire t r)).1 := by
  obtain ⟨hw, hw'⟩ := hp.window_bounds
  obtain ⟨db₁, best, hchecks, hworst, hok, hb, hl⟩ := h.checks hrnd hp hnow hnow' hr
  have hnow_eq : scriptNow rnd (acquireArgs p r).override t = now := by
    rw [← ht] at hnow' ⊢
    exact scriptNow_eq hrnd hnow'
  have hwindow : rnd ((acquireArgs p r).burstSeconds * 1000) = p.window :=
    hrnd p.window (by omega) (by omega)
  have hstep : ∀ db' a, acquireScript rnd db t (acquireKeys r) (acquireArgs p r) = .ok (db', a) →
      scriptStep rnd p db (.acquire t r) = (db', .outcome a.outcome) := fun db' a ha => by
    show reply db _ (acquireScript rnd db t (acquireKeys r) (acquireArgs p r)) = _
    rw [ha]
    rfl
  show _ = LimiterReply.outcome (m.allow t.ms r).2 ∧ Parity p now (m.allow t.ms r).1 _
  rw [ht]
  by_cases hcode : best.code > 0
  · have hout : best.outcome = ⟨false, some (limitFromCode best.code), best.wait⟩ := if_pos hcode
    have hallow : m.allow now r = (m.refused now r, m.worst now r) :=
      if_pos (by rw [← hworst, hout]; rfl)
    rw [hstep _ _ (acquireScript_refused hnow_eq hwindow (by rwa [ht]) hcode), hallow, ← hworst,
      hout]
    exact ⟨rfl, h.params, hb, hl⟩
  · have hout : best.outcome = Outcome.none := if_neg hcode
    have hallow : m.allow now r = (m.admitted now r, ⟨true, none, 0⟩) :=
      if_neg (by rw [← hworst, hout]; decide)
    have hpass := ((m.worst_spec now r).2.mp (by rw [← hworst, hout]; rfl)).1
    obtain ⟨db₂, hdb₂, hparity⟩ := hb.stores hrnd hp hnow hnow' h.params hl hr hpass best
    rw [hstep _ _ (acquireScript_admitted hnow_eq hwindow (by rwa [ht]) hcode (by rwa [ht])),
      hallow]
    exact ⟨rfl, hparity⟩

end Acquire

/-! ### Renew -/

section Renew

variable {p : Params} {now : Int} {rnd : Int → Int}

/-- A lease that is held and not expired is extended. -/
theorem Model.renew_of_live {t id : Bytes} {exp : Int}
    (h : leaseIn (m.leases.lookup (keyConcurrency t)) id = some exp) (hexp : now < exp) :
    ∃ held, m.leases.lookup (keyConcurrency t) = some held ∧
      m.renew now t id = (m.setHeld t (held.insert id (now + m.p.leaseTTLMs)), true) := by
  cases hl : m.leases.lookup (keyConcurrency t) with
  | none => simp [leaseIn, hl] at h
  | some held =>
    have hid : held.lookup id = some exp := by simpa [leaseIn, hl] using h
    refine ⟨held, rfl, ?_⟩
    unfold Model.renew Model.extend
    rw [hl]
    dsimp only
    rw [hid]
    exact if_neg (by omega)

/-- A lease that is not held, or has expired, is not revived. -/
theorem Model.renew_of_dead {t id : Bytes}
    (h : ∀ exp, leaseIn (m.leases.lookup (keyConcurrency t)) id = some exp → exp ≤ now) :
    m.renew now t id = (m, false) := by
  unfold Model.renew Model.extend
  cases hl : m.leases.lookup (keyConcurrency t) with
  | none => rfl
  | some held =>
    dsimp only
    cases hid : held.lookup id with
    | none => rfl
    | some exp => exact if_pos (h exp (by rw [hl]; exact hid))

/-- The model and the store inside the loop of the renew script, which started at `m₀` and
`db₀` and has renewed `n` leases of tenant `t`. The key's expiry is set after the loop. -/
structure RenewInv (p : Params) (now : Int) (t : Bytes) (m₀ : Model) (db₀ : Store) (m : Model)
    (db : Store) (n : Nat) : Prop where
  fresh : n = 0 → m = m₀ ∧ db = db₀
  params : m.p = p
  buckets : m.buckets = m₀.buckets
  frame : ∀ k, k ≠ keyConcurrency t →
    db.lookup k = db₀.lookup k ∧ m.leases.lookup k = m₀.leases.lookup k
  leases : ∃ z, Redis.zsetAt db now (keyConcurrency t) = .ok z ∧
    SameLeases p now (m.leases.lookup (keyConcurrency t)) z ∧
    (0 < n → ∃ E, Redis.find db now (keyConcurrency t) = some ⟨.zset z, E⟩)

variable {t : Bytes} {m₀ m : Model} {db₀ db : Store} {n : Nat} (hrnd : ExactBelow rnd)
  (hp : p.InRange) (hnow : 0 ≤ now) (hnow' : now ≤ maxTime)

include hrnd hp hnow hnow'

/-- One lease. -/
theorem RenewInv.renewOne (h : RenewInv p now t m₀ db₀ m db n) (id : Bytes) :
    ∃ db', renewOne rnd now now p.leaseTTLMs (keyConcurrency t) (db, n) id =
        .ok (db', (renewNext now t (m, n) id).2) ∧
      RenewInv p now t m₀ db₀ (renewNext now t (m, n) id).1 db' (renewNext now t (m, n) id).2 := by
  unfold renewNext
  dsimp only
  obtain ⟨z, hz, hsame, hfind⟩ := h.leases
  have hge := hp.ttl_ge
  have hle := hp.ttl_le
  have htime : maxTime = 2 ^ 52 := rfl
  have hscore : Redis.zscore db now (keyConcurrency t) id = .ok (z.lookup id) := by
    unfold Redis.zscore
    rw [hz]
    rfl
  by_cases hlive : ∃ exp, z.lookup id = some exp ∧ now < exp
  · obtain ⟨exp, hid, hexp⟩ := hlive
    obtain ⟨held, hheld, hrenew⟩ := Model.renew_of_live ((hsame.same id exp hexp).mp hid) hexp
    have hlen : (z.insert id (now + p.leaseTTLMs)).len ≠ 0 := by
      rw [AList.len, AList.entries_insert]
      simp
    have hput : Redis.putZset db now (keyConcurrency t) (z.insert id (now + p.leaseTTLMs)) =
        Redis.put db now (keyConcurrency t) (.zset (z.insert id (now + p.leaseTTLMs))) :=
          if_neg hlen
    refine ⟨Redis.putZset db now (keyConcurrency t) (z.insert id (now + p.leaseTTLMs)), ?_, ?_⟩
    · have hadd : Redis.zaddXX db now (keyConcurrency t) (now + p.leaseTTLMs) id =
          .ok (Redis.putZset db now (keyConcurrency t) (z.insert id (now + p.leaseTTLMs))) := by
        unfold Redis.zaddXX
        simp only [hz, hid, bind, Except.bind, pure, Except.pure, Option.isSome_some, if_true]
      unfold Ratelimit.renewOne
      rw [hrnd (now + p.leaseTTLMs) (by omega) (by omega)]
      simp only [hscore, hid, hadd, hrenew, bind, Except.bind, pure, Except.pure, hexp, if_true]
    · rw [hrenew, h.params]
      refine ⟨by simp, h.params, h.buckets, fun k hk => ⟨?_, ?_⟩, ?_⟩
      · rw [Redis.lookup_putZset, if_neg hk, (h.frame k hk).1]
      · rw [Model.lookup_setHeld, if_neg hk, (h.frame k hk).2]
      · refine ⟨_, Redis.zsetAt_putZset _, ?_, fun _ => ⟨_, by rw [hput, Redis.find_put]⟩⟩
        rw [Model.lookup_setHeld, if_pos rfl]
        rw [hheld] at hsame
        exact hsame.insert id
  · have hrenew : m.renew now t id = (m, false) := by
      refine Model.renew_of_dead fun exp hid => ?_
      by_contra hexp
      exact hlive ⟨exp, (hsame.same id exp (by omega)).mpr hid, by omega⟩
    refine ⟨db, ?_, by rwa [hrenew]⟩
    unfold Ratelimit.renewOne
    rw [hrenew]
    cases hid : z.lookup id with
    | none => simp only [hscore, hid, bind, Except.bind, pure, Except.pure]; rfl
    | some exp =>
      have hexp : ¬ exp > now := fun hexp => hlive ⟨exp, hid, hexp⟩
      simp only [hscore, hid, hexp, bind, Except.bind, pure, Except.pure, if_false]
      rfl

/-- The whole loop, by induction on the leases. -/
theorem RenewInv.loop (h : RenewInv p now t m₀ db₀ m db n) (ids : List Bytes) :
    ∃ db', ids.foldlM (Ratelimit.renewOne rnd now now p.leaseTTLMs (keyConcurrency t)) (db, n) =
        .ok (db', (ids.foldl (renewNext now t) (m, n)).2) ∧
      RenewInv p now t m₀ db₀ (ids.foldl (renewNext now t) (m, n)).1 db'
        (ids.foldl (renewNext now t) (m, n)).2 := by
  induction ids generalizing m db n with
  | nil => exact ⟨db, rfl, h⟩
  | cons id ids ih =>
    obtain ⟨db₁, hone, hinv⟩ := h.renewOne hrnd hp hnow hnow' id
    obtain ⟨db', hrest, hinv'⟩ := ih hinv
    refine ⟨db', ?_, hinv'⟩
    rw [foldlM_cons, hone]
    exact hrest

/-- The renew script answers as the model does, and keeps the relation. -/
theorem Parity.renew (h : Parity p now m db) {time : RedisTime}
    (ht : time.ms = now) (t : Bytes) (ids : List Bytes) :
    (scriptStep rnd p db (.renew time t ids)).2 = (modelStep m (.renew time t ids)).2 ∧
      Parity p now (modelStep m (.renew time t ids)).1
        (scriptStep rnd p db (.renew time t ids)).1 := by
  have hge := hp.ttl_ge
  have hle := hp.ttl_le
  obtain ⟨z, hz, hsame, -⟩ := (h.leases t).zsetAt
  have hstart : RenewInv p now t m db m db 0 :=
    ⟨fun _ => ⟨rfl, rfl⟩, h.params, rfl, fun _ _ => ⟨rfl, rfl⟩, z, hz, hsame, fun hn => by omega⟩
  obtain ⟨db₁, hloop, hinv⟩ := hstart.loop hrnd hp hnow hnow' ids
  generalize hfold : ids.foldl (renewNext now t) (m, 0) = s at hloop hinv
  have hmodel : m.renewAll time.ms t ids = s := by rw [ht]; exact hfold
  have hscript : scriptStep rnd p db (.renew time t ids) = (if s.2 > 0 then
      Redis.pexpire db₁ now (keyConcurrency t) (p.leaseTTLMs * 2) else db₁, .renewed s.2) := by
    have hnow_eq : scriptNow rnd 0 time = now := by
      rw [← ht] at hnow' ⊢
      exact scriptNow_eq hrnd hnow'
    show reply db _ (renewScript rnd db time (keyConcurrency t) 0 p.leaseTTLMs ids) = _
    unfold renewScript
    simp only [hnow_eq, ht, hloop, bind, Except.bind, pure, Except.pure,
      hrnd (p.leaseTTLMs * 2) (by omega) (by omega)]
    rfl
  rw [hscript]
  show _ = LimiterReply.renewed (m.renewAll time.ms t ids).2 ∧
    Parity p now (m.renewAll time.ms t ids).1 _
  rw [hmodel]
  refine ⟨rfl, ?_⟩
  by_cases hn : s.2 > 0
  · obtain ⟨z', -, hsame', hfind⟩ := hinv.leases
    obtain ⟨E, hE⟩ := hfind hn
    rw [if_pos hn]
    refine ⟨hinv.params, fun k s' hk => ?_, fun t' => ?_⟩
    · have hne : k.key s' ≠ keyConcurrency t := fun he =>
        hk (KeyKind.key_injective k .concurrency he).1
      rw [Redis.lookup_pexpire hE (by omega), if_neg hne, (hinv.frame _ hne).1, hinv.buckets]
      exact h.buckets k s' hk
    · rw [Redis.lookup_pexpire hE (by omega)]
      by_cases htt : keyConcurrency t' = keyConcurrency t
      · rw [if_pos htt, htt]
        exact .stored hsame' fun id exp hid => (hsame'.le id exp hid).trans (by omega)
      · rw [if_neg htt, (hinv.frame _ htt).1, (hinv.frame _ htt).2]
        exact h.leases t'
  · obtain ⟨hm, hdb⟩ := hinv.fresh (by omega)
    rw [if_neg hn, hm, hdb]
    exact h

end Renew

/-! ### Release -/

/-- Forgetting a lease that the set does not hold. -/
theorem LeaseRel.forget {p : Params} {now : Int} {held : Option (GoMap Bytes Int)}
    {z : GoMap Bytes Int} {k id : Bytes} (h : LeaseRel p now held (db.lookup k))
    (hz : Redis.zsetAt db now k = .ok z) (hid : z.lookup id = none) :
    LeaseRel p now (held.map (·.erase id)) (db.lookup k) := by
  generalize he : db.lookup k = e at h
  cases h with
  | missing gone =>
    refine .missing fun id' exp hid' => ?_
    rw [leaseIn_erase] at hid'
    split at hid'
    · cases hid'
    · exact gone id' exp hid'
  | @stored z' E same le =>
    have hnot : ∀ exp, now < exp → z'.lookup id ≠ some exp := by
      intro exp hexp hid'
      have hlive : Redis.Entry.live now ⟨.zset z', some E⟩ = true := by
        have := le id exp hid'
        simp only [Redis.Entry.live, decide_eq_true_eq]
        omega
      have hzz : Redis.zsetAt db now k = .ok z' := by
        unfold Redis.zsetAt
        rw [Redis.find_of_lookup now he, if_pos hlive]
        rfl
      rw [hz] at hzz
      cases hzz
      rw [hid] at hid'
      cases hid'
    refine .stored ⟨same.le, fun id' exp hexp => ?_⟩ le
    rw [leaseIn_erase]
    split
    next heq => exact ⟨fun h' => absurd (heq ▸ h') (hnot exp hexp), fun h => by cases h⟩
    next => exact same.same id' exp hexp

theorem Model.lookup_release (m : Model) (t id k : Bytes) :
    (m.release t id).1.leases.lookup k =
      if k = keyConcurrency t then (m.leases.lookup k).map (·.erase id) else m.leases.lookup k := by
  unfold Model.release
  cases hl : m.leases.lookup (keyConcurrency t) with
  | none =>
    dsimp only
    split
    next hk => rw [hk, hl]; rfl
    next => rfl
  | some held =>
    dsimp only
    rw [Model.lookup_setHeld]
    split
    next hk => rw [hk, hl]; rfl
    next => rfl

/-- The release script keeps the relation. Its reply may differ from the model's, which still
knows of leases that have expired. -/
theorem Parity.release {rnd : Int → Int} {p : Params} {now : Int}
    (h : Parity p now m db) {time : RedisTime} (ht : time.ms = now) (t id : Bytes) :
    Parity p now (modelStep m (.release time t id)).1
      (scriptStep rnd p db (.release time t id)).1 := by
  obtain ⟨z, hz, hsame, hE⟩ := (h.leases t).zsetAt
  have hne : ∀ (k : KeyKind) (s : Bytes), k ≠ .concurrency → k.key s ≠ keyConcurrency t :=
    fun k s hk he => hk (KeyKind.key_injective k .concurrency he).1
  have hscript : (scriptStep rnd p db (.release time t id)).1 =
      if (z.lookup id).isSome then Redis.putZset db now (keyConcurrency t)
          (z.erase id) else db := by
    show (reply db _ (Redis.zrem db time.ms (keyConcurrency t) id)).1 = _
    unfold Redis.zrem
    rw [ht]
    simp only [hz, bind, Except.bind, pure, Except.pure]
    split
    · rfl
    · rfl
  rw [hscript]
  show Parity p now (m.release t id).1 _
  refine ⟨(m.release_frame t id).1.trans h.params, fun k s hk => ?_, fun t' => ?_⟩
  · rw [(m.release_frame t id).2]
    split
    · rw [Redis.lookup_putZset, if_neg (hne k s hk)]
      exact h.buckets k s hk
    · exact h.buckets k s hk
  · rw [Model.lookup_release]
    by_cases htt : keyConcurrency t' = keyConcurrency t
    · rw [if_pos htt, htt]
      split
      next =>
        exact LeaseRel.putZset (fun id' exp hid => (AList.of_lookup_erase hid).2) hE
          (hsame.erase id)
      next hid => exact (h.leases t).forget hz (by simpa using hid)
    · rw [if_neg htt]
      split
      · rw [Redis.lookup_putZset, if_neg htt]
        exact h.leases t'
      · exact h.leases t'

/-! ### The refinement -/

/-- The call is within the bounds the limiter enforces, at a time that doubles represent. -/
def LimiterCall.InRange (c : LimiterCall) : Prop :=
  c.time.ms ≤ maxTime ∧
    match c with
    | .acquire _ r => r.InRange
    | .renew _ _ _ => True
    | .release _ _ _ => True

/-- The calls whose answers are compared. -/
def LimiterCall.answered : LimiterCall → Bool
  | .acquire _ _ => true
  | .renew _ _ _ => true
  | .release _ _ _ => false

/-- The calls are in range and their times do not decrease from `T` on. -/
theorem admitted_of_sorted (m : Model) (T : Int) (calls : List LimiterCall)
    (hT : ∀ c ∈ calls, T ≤ c.time.ms) (hmono : (calls.map (·.time.ms)).Pairwise (· ≤ ·))
    (hrange : ∀ c ∈ calls, c.InRange) :
    Machine.Admitted modelStep (fun T c => T ≤ c.time.ms ∧ c.InRange)
      (fun _ c _ => c.time.ms) T m calls := by
  induction calls generalizing m T with
  | nil => trivial
  | cons c cs ih =>
    rw [map_cons, pairwise_cons] at hmono
    refine ⟨⟨hT c (by simp), hrange c (by simp)⟩, ih _ _ (fun d hd => ?_) hmono.2
      (fun d hd => hrange d (by simp [hd]))⟩
    exact hmono.1 _ (mem_map_of_mem hd)

/-- **Parity.** At non-decreasing Redis time and within the limiter's bounds, the scripts
answer every acquire and every renew of every run as the model does, whatever rounding Lua
applies to results beyond `2^53`. Quotas may change from call to call. -/
theorem scripts_answer_as_model {rnd : Int → Int} (hrnd : ExactBelow rnd) {p : Params}
    (hp : p.InRange) (calls : List LimiterCall)
    (hmono : (calls.map (·.time.ms)).Pairwise (· ≤ ·)) (hrange : ∀ c ∈ calls, c.InRange) :
    outputsOf (scriptStep rnd p) LimiterCall.answered ∅ calls =
      outputsOf modelStep LimiterCall.answered (Model.new p) calls := by
  have hms : ∀ t : RedisTime, 0 ≤ t.ms := fun t => by unfold RedisTime.ms; omega
  refine (outputsOf_eq_of_sim (R := Parity p) ?_ ?_
    (admitted_of_sorted (Model.new p) 0 calls (fun c _ => hms c.time) hmono hrange)).symm
  · rintro T m db c hpar ⟨hT, hc⟩
    have h : Parity p c.time.ms m db :=
      ⟨hpar.params, fun k s hk => (hpar.buckets k s hk).mono hT, fun t => (hpar.leases t).mono hT⟩
    cases c with
    | acquire t r =>
      obtain ⟨hout, hnext⟩ := h.acquire hrnd hp (hms t) hc.1 rfl hc.2
      exact ⟨fun _ => hout.symm, hnext⟩
    | renew t tenant ids =>
      obtain ⟨hout, hnext⟩ := h.renew hrnd hp (hms t) hc.1 rfl tenant ids
      exact ⟨fun _ => hout.symm, hnext⟩
    | release t tenant id => exact ⟨nofun, h.release rfl tenant id⟩
  · exact ⟨rfl, fun k s hk => .missing, fun t => .missing fun id exp hid => by
      simp [leaseIn, Model.new] at hid⟩

/-- A bucket and a lease set that Redis drops between the calls: one second of burst, leases
of three milliseconds, identity rounding. The scripts, like the model, admit the last call. -/
theorem scripts_answer_as_model_after_expiry :
    let r : ModelRequest := ⟨[97], [109], 1, ⟨60, 60, 1⟩, 0, [108]⟩
    let calls : List LimiterCall := [.acquire ⟨1, 0⟩ r, .acquire ⟨1, 1000⟩ r,
      .renew ⟨1, 2000⟩ [97] [[108]], .acquire ⟨9, 0⟩ r]
    outputsOf modelStep LimiterCall.answered (Model.new ⟨1, 3⟩) calls =
        [.outcome ⟨true, none, 0⟩, .outcome ⟨false, some .concurrency, 1000⟩, .renewed 1,
          .outcome ⟨true, none, 0⟩] ∧
      outputsOf (scriptStep id ⟨1, 3⟩) LimiterCall.answered ∅ calls =
        outputsOf modelStep LimiterCall.answered (Model.new ⟨1, 3⟩) calls := by
  intro r calls
  have hr : r.InRange := ⟨by decide, by decide, by decide, by decide, by decide⟩
  refine ⟨by decide, scripts_answer_as_model (fun _ _ _ => rfl)
    ⟨by decide, by decide, by decide, by decide⟩ calls (by decide) fun c hc => ?_⟩
  simp only [calls, mem_cons, not_mem_nil, or_false] at hc
  rcases hc with rfl | rfl | rfl | rfl
  · exact ⟨by decide, hr⟩
  · exact ⟨by decide, hr⟩
  · exact ⟨by decide, trivial⟩
  · exact ⟨by decide, hr⟩

end ServerFlow.Ratelimit
