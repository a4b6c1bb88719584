import ServerFlow.Ratelimit.Isolation

/-!
# Ratelimit.AllOrNothing

What one `Allow` may change, and how many leases a tenant can have stored.

`Allow` first decides and then charges, but it drops the tenant's expired leases in the middle of
the decision. So a refusal is a state that differs from the one before only in expired leases
(`Model.Refusal`), and an admission also drops them before it takes its own (`Model.Admission`).

The number of leases stored needs no assumption on the clock: an admission counts what is left after
the expired leases are dropped, a renewal replaces a lease that is there, and nothing else adds one.
-/

namespace ServerFlow.Ratelimit

open AList

variable {m m' : Model} {now M : Int} {r : ModelRequest} {t id : Bytes}

/-! ### One call -/

/-- The lease is as it was, or it is gone and had expired. -/
def Model.LeaseKept (m : Model) (now : Int) (m' : Model) (t id : Bytes) : Prop :=
  m'.lease t id = m.lease t id ∨ m'.lease t id = none ∧ ∃ exp, m.lease t id = some exp ∧ exp ≤ now

/-- What a refusal may change: nothing but leases that have expired. -/
structure Model.Refusal (m : Model) (now : Int) (m' : Model) : Prop where
  params : m'.p = m.p
  buckets : ∀ k, m'.buckets.lookup k = m.buckets.lookup k
  leases : ∀ t id, m.LeaseKept now m' t id

/-- How many leases are stored for a tenant, those that have expired included. -/
def Model.storedCount (m : Model) (tenant : Bytes) : Nat :=
  ((m.leases.lookup (keyConcurrency tenant)).map AList.len).getD 0

/-- What an admission changes: the bucket of every positive quota is its need below its refilled
level, one lease is taken if concurrency is limited, and the rest is as after a refusal. -/
structure Model.Admission (m : Model) (now : Int) (r : ModelRequest) (m' : Model) : Prop where
  params : m'.p = m.p
  charged : ∀ l k q cost, (l, k, q, cost) ∈ r.quotas → 0 < q →
    m'.buckets.lookup k = some ⟨level m.p (m.buckets.lookup k) now q - need cost (capacity m.p q),
      nextStamp (m.buckets.lookup k) now⟩
  uncharged : ∀ k, (∀ l q cost, (l, k, q, cost) ∈ r.quotas → q ≤ 0) →
    m'.buckets.lookup k = m.buckets.lookup k
  taken : 0 < r.limits.maxConcurrent → m'.lease r.tenantID r.leaseID = some (now + m.p.leaseTTLMs) ∧
    m'.storedCount r.tenantID = m.heldCount now r.tenantID + 1
  leases : ∀ t id, ¬ (0 < r.limits.maxConcurrent ∧ t = r.tenantID ∧ id = r.leaseID) →
    m.LeaseKept now m' t id

theorem lookup_evict (now : Int) (held : GoMap Bytes Int) (id : Bytes) :
    (evict now held).lookup id = (held.lookup id).filter (fun exp => decide (now < exp)) :=
  lookup_keep _ _ _

theorem keyConcurrency_inj : keyConcurrency t = keyConcurrency id ↔ t = id :=
  ⟨fun h => (KeyKind.key_injective .concurrency .concurrency h).2, fun h => by rw [h]⟩

/-- A lease after a tenant's expired ones were dropped. -/
theorem Model.lease_of_evicted (hm : m'.leases = m.evicted now r) (t id : Bytes) :
    m.LeaseKept now m' t id := by
  unfold Model.LeaseKept Model.lease
  rw [hm, Model.lookup_evicted]
  split
  next h =>
    cases hheld : m.leases.lookup (keyConcurrency t) with
    | none => exact .inl rfl
    | some held =>
      show (evict now held).lookup id = held.lookup id ∨ (evict now held).lookup id = none ∧ _
      rw [lookup_evict]
      cases hexp : held.lookup id with
      | none => exact .inl rfl
      | some exp =>
        by_cases hlive : now < exp
        · exact .inl (by simp [hlive])
        · exact .inr ⟨by simp [not_lt.mp hlive], exp, hexp, not_lt.mp hlive⟩
  next => exact .inl rfl

theorem Model.refusal_refused (m : Model) (now : Int) (r : ModelRequest) :
    m.Refusal now (m.refused now r) where
  params := rfl
  buckets := fun _ => rfl
  leases := Model.lease_of_evicted rfl

theorem Model.lookup_charged (m : Model) (now : Int) (r : ModelRequest) {l : Limit} {k : Bytes}
    {q cost : Int} (hmem : (l, k, q, cost) ∈ r.quotas) (hq : 0 < q) :
    (m.admitted now r).buckets.lookup k =
      some ⟨level m.p (m.buckets.lookup k) now q - need cost (capacity m.p q),
        nextStamp (m.buckets.lookup k) now⟩ := by
  have hc : m.checkOf now l k q cost ∈ m.checks now r :=
    Model.mem_checks.mpr ⟨l, k, q, cost, hmem, hq, rfl⟩
  have hfind : (m.checks now r).find? (fun c => decide (c.key = k)) =
      some (m.checkOf now l k q cost) := by
    cases hd : (m.checks now r).find? (fun c => decide (c.key = k)) with
    | none =>
      have hnot := List.find?_eq_none.mp hd _ hc
      exact absurd (decide_eq_true (rfl : (m.checkOf now l k q cost).key = k)) hnot
    | some d =>
      -- the checks of a request are on different buckets
      have hkey : d.key = k := by simpa using List.find?_some hd
      have hinj := List.inj_on_of_nodup_map (m.nodup_keys_checks now r)
      exact congrArg some (hinj (List.mem_of_find?_eq_some hd) hc hkey)
  rw [Model.lookup_admitted, hfind]
  rfl

theorem Model.lookup_uncharged (m : Model) (now : Int) (r : ModelRequest) {k : Bytes}
    (hk : ∀ l q cost, (l, k, q, cost) ∈ r.quotas → q ≤ 0) :
    (m.admitted now r).buckets.lookup k = m.buckets.lookup k := by
  have hnone : (m.checks now r).find? (fun c => decide (c.key = k)) = none := by
    refine List.find?_eq_none.mpr fun c hc hck => ?_
    obtain ⟨l, k', q, cost, hmem, hq, rfl⟩ := Model.mem_checks.mp hc
    obtain rfl : k' = k := of_decide_eq_true hck
    have := hk l q cost hmem
    omega
  rw [Model.lookup_admitted, hnone]

/-- The leases of the tenant after an admission. -/
theorem Model.held_admitted (hmc : 0 < r.limits.maxConcurrent) :
    (m.admitted now r).leases.lookup (keyConcurrency r.tenantID) =
      some ((((m.leases.lookup (keyConcurrency r.tenantID)).map (evict now)).getD ∅).insert
        r.leaseID
        (now + m.p.leaseTTLMs)) := by
  show (m.withLease now r).lookup _ = _
  rw [Model.lookup_withLease, if_pos ⟨rfl, hmc⟩]

theorem heldCount_eq (m : Model) (now : Int) (t : Bytes) :
    m.heldCount now t = (((m.leases.lookup (keyConcurrency t)).map (evict now)).getD ∅).len := by
  unfold Model.heldCount
  cases m.leases.lookup (keyConcurrency t) <;> rfl

/-- A lease that is not stored is not stored after the expired ones were dropped. -/
theorem Model.fresh_evicted (hfresh : m.lease t id = none) :
    (((m.leases.lookup (keyConcurrency t)).map (evict now)).getD ∅).lookup id = none := by
  unfold Model.lease at hfresh
  cases hheld : m.leases.lookup (keyConcurrency t) with
  | none => rfl
  | some held =>
    rw [hheld] at hfresh
    show (evict now held).lookup id = none
    rw [lookup_evict, show held.lookup id = none from hfresh]
    rfl

theorem Model.admission_admitted (m : Model) (now : Int) (r : ModelRequest)
    (hfresh : m.lease r.tenantID r.leaseID = none) : m.Admission now r (m.admitted now r) where
  params := rfl
  charged := fun _ _ _ _ => m.lookup_charged now r
  uncharged := fun _ => m.lookup_uncharged now r
  taken := by
    intro hmc
    refine ⟨?_, ?_⟩
    · unfold Model.lease
      rw [Model.held_admitted hmc]
      exact lookup_insert _
    · unfold Model.storedCount
      rw [Model.held_admitted hmc, heldCount_eq]
      exact len_insert_of_lookup_none (Model.fresh_evicted hfresh) _
  leases := by
    intro t id hother
    -- next to the eviction there is only the entry of the request's own lease
    have hsame : (m.admitted now r).lease t id = (m.refused now r).lease t id := by
      show ((m.withLease now r).lookup _).bind _ = ((m.evicted now r).lookup _).bind _
      rw [Model.lookup_withLease, Model.lookup_evicted]
      split
      next h =>
        have hne : id ≠ r.leaseID := fun heq => hother ⟨h.2, keyConcurrency_inj.mp h.1, heq⟩
        show AList.lookup id (AList.insert _ _ _) = _
        rw [lookup_insert_ne hne]
        cases m.leases.lookup (keyConcurrency t) <;> rfl
      next => rfl
    unfold Model.LeaseKept
    rw [hsame]
    exact (m.refusal_refused now r).leases t id

/-! ### Runs -/

/-- Every check for the tenant comes with the same limit on its leases. -/
def Call.FixedConcurrency (tenant : Bytes) (M : Int) : Call → Prop
  | .allow _ r => r.tenantID = tenant → r.limits.maxConcurrent = M
  | _ => True

instance (tenant : Bytes) (M : Int) (c : Call) : Decidable (c.FixedConcurrency tenant M) := by
  cases c <;> unfold Call.FixedConcurrency <;> infer_instance

/-- A negative limit means, like zero, that no lease is taken. -/
def Model.WithinLeases (tenant : Bytes) (M : Int) (m : Model) : Prop :=
  (m.storedCount tenant : Int) ≤ max M 0

theorem Model.storedCount_setHeld (m : Model) (t : Bytes) (held : GoMap Bytes Int)
    (tenant : Bytes) :
    (m.setHeld t held).storedCount tenant = if tenant =
      t then held.len else m.storedCount tenant := by
  unfold Model.storedCount
  rw [Model.lookup_setHeld]
  by_cases h : tenant = t
  · rw [if_pos h, if_pos (by rw [h])]
    rfl
  · rw [if_neg h, if_neg fun heq => h (keyConcurrency_inj.mp heq)]

theorem Model.storedCount_refused_le (m : Model) (now : Int) (r : ModelRequest) (tenant : Bytes) :
    (m.refused now r).storedCount tenant ≤ m.storedCount tenant := by
  show ((((m.evicted now r).lookup _)).map AList.len).getD 0 ≤ _
  unfold Model.storedCount
  rw [Model.lookup_evicted]
  split
  · cases m.leases.lookup (keyConcurrency tenant) with
    | none => exact le_rfl
    | some held => exact len_keep_le _ held
  · exact le_rfl

theorem Model.WithinLeases.admitted (h : m.WithinLeases t M)
    (hfix : r.tenantID = t → r.limits.maxConcurrent = M) (hfull : m.concurrencyFull now r = false) :
    (m.admitted now r).WithinLeases t M := by
  by_cases hown : 0 < r.limits.maxConcurrent ∧ r.tenantID = t
  · obtain ⟨hmc, rfl⟩ := hown
    -- there was room for one more among the leases that have not expired
    have hroom : (m.heldCount now r.tenantID : Int) < r.limits.maxConcurrent := by
      simpa [Model.concurrencyFull, hmc] using hfull
    have hlen : (m.admitted now r).storedCount r.tenantID ≤ m.heldCount now r.tenantID + 1 := by
      unfold Model.storedCount
      rw [Model.held_admitted hmc, heldCount_eq]
      exact len_insert_le _ _ _
    have hM := hfix rfl
    unfold Model.WithinLeases
    omega
  · have hsame : (m.admitted now r).storedCount t = m.storedCount t := by
      show (((m.withLease now r).lookup _).map AList.len).getD 0 = _
      rw [Model.lookup_withLease, if_neg fun h => hown ⟨h.2, (keyConcurrency_inj.mp h.1).symm⟩]
      rfl
    unfold Model.WithinLeases
    rw [hsame]
    exact h

/-- No call makes a tenant's leases more than its limit. -/
theorem Model.WithinLeases.step (h : m.WithinLeases t M) {c : Call} (hc : c.FixedConcurrency t M) :
    (m.step c).1.WithinLeases t M := by
  have hmono : ∀ {m' : Model}, m'.storedCount t ≤ m.storedCount t → m'.WithinLeases t M := by
    intro m' hle
    unfold Model.WithinLeases at h ⊢
    omega
  have hset : ∀ {t' : Bytes} {held held' : GoMap Bytes Int},
      m.leases.lookup (keyConcurrency t') = some held → held'.len ≤ held.len →
      (m.setHeld t' held').storedCount t ≤ m.storedCount t := by
    intro t' held held' hheld hle
    rw [Model.storedCount_setHeld]
    split
    next heq =>
      subst heq
      unfold Model.storedCount
      rw [hheld]
      exact hle
    next => exact le_rfl
  cases c with
  | allow now r =>
    show (m.allow now r).1.WithinLeases t M
    rcases m.allow_cases now r with ⟨hallow, -⟩ | ⟨hallow, -, hfull⟩
    · rw [hallow]
      exact hmono (m.storedCount_refused_le now r t)
    · rw [hallow]
      exact h.admitted hc hfull
  | renew now t' id =>
    show (m.renew now t' id).1.WithinLeases t M
    unfold Model.renew Model.extend
    split
    next held hheld =>
      split
      next exp hexp =>
        split
        · exact h
        · exact hmono (hset hheld (len_insert_of_lookup hexp _).le)
      next => exact h
    next => exact h
  | release t' id =>
    show (m.release t' id).1.WithinLeases t M
    unfold Model.release
    split
    next held hheld => exact hmono (hset hheld (len_erase_le _ _))
    next => exact h

/-! ### All or nothing -/

/-- **All or nothing.** `Allow` refuses and changes nothing but expired leases, or it admits: then
every bucket with a positive quota is charged, one lease is taken if concurrency is limited, and
otherwise again nothing changes but expired leases. In a run with a fixed limit a tenant never has
more leases stored than that. -/
theorem allow_all_or_nothing (m : Model) (now : Int) (r : ModelRequest)
    (hfresh : m.lease r.tenantID r.leaseID = none) (p : Params) (tenant : Bytes) (M : Int)
    (run : List Call) (hfix : ∀ c ∈ run, c.FixedConcurrency tenant M) :
    ((m.allow now r).2.allowed = false ∧ m.Refusal now (m.allow now r).1 ∨
      (m.allow now r).2.allowed = true ∧ m.Admission now r (m.allow now r).1) ∧
    (Machine.final Model.step (Model.new p) run).WithinLeases tenant M := by
  refine ⟨?_, ?_⟩
  · rcases m.allow_cases now r with ⟨hallow, hworst⟩ | ⟨hallow, -, -⟩
    · rw [hallow]
      exact .inl ⟨hworst, m.refusal_refused now r⟩
    · rw [hallow]
      exact .inr ⟨rfl, m.admission_admitted now r hfresh⟩
  · have hstart : (Model.new p).WithinLeases tenant M := le_max_right M 0
    exact Machine.final_invariant (fun _ _ hc h => h.step hc) hfix hstart

/-- An admission drops an expired lease next to taking its own. -/
theorem admission_drops_expired :
    ∃ (m : Model) (now : Int) (r : ModelRequest) (id : Bytes),
      m = Machine.final Model.step (Model.new ⟨1, 10⟩)
        [.allow 0 ⟨[97], [109], 1, ⟨0, 0, 2⟩, 0, [108]⟩] ∧
      m.lease r.tenantID r.leaseID = none ∧ (m.allow now r).2.allowed = true ∧ id ≠ r.leaseID ∧
      m.lease r.tenantID id = some 10 ∧ (m.allow now r).1.lease r.tenantID id = none :=
  ⟨_, 100, ⟨[97], [109], 1, ⟨0, 0, 2⟩, 0, [107]⟩, [108], rfl, by decide⟩

/-- A tenant with two leases of ten milliseconds: the third request is refused as long as the clock,
which steps back, has not passed the first expiry. -/
theorem allow_all_or_nothing_two_leases :
    let r (id : Bytes) : ModelRequest := ⟨[97], [109], 1, ⟨60, 0, 2⟩, 0, id⟩
    let run : List Call := [.allow 5 (r [1]), .allow 0 (r [2]), .renew 1 [97] [2], .allow 3 (r [3]),
      .release [97] [1], .allow 4 (r [3])]
    let m := Machine.final Model.step (Model.new ⟨60, 10⟩) run
    (m.allow 20 (r [4])).2.allowed = true ∧ m.Admission 20 (r [4]) (m.allow 20 (r [4])).1 ∧
      m.storedCount [97] = 2 ∧ m.WithinLeases [97] 2 := by
  intro r run m
  have hall := allow_all_or_nothing m 20 (r [4]) (by decide) ⟨60, 10⟩ [97] 2 run (by decide)
  have hyes : (m.allow 20 (r [4])).2.allowed = true := by decide
  refine ⟨hyes, ?_, by decide, hall.2⟩
  rcases hall.1 with ⟨hno, -⟩ | ⟨-, hadm⟩
  · rw [hyes] at hno
    cases hno
  · exact hadm

end ServerFlow.Ratelimit
