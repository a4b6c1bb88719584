import ServerFlow.Lib.Machine
import ServerFlow.Ratelimit.Model

/-!
# Ratelimit.Isolation

Tenants of the rate limiter cannot notice each other: changing, adding or dropping calls
of one tenant leaves the answers to every other tenant alone, as long as the tenant's
calls are for models without a per-model cap (a cap is shared by design).

The proof is an unwinding argument (`Machine.outputsOf_eq_of_unwinding`). `AgreeBut a`
relates two limiter states that agree on every key that is not one of `a`'s; a call of
`a` keeps the state related to what it was, and a call of anyone else reads and writes
only keys on which related states agree. That the two sets of keys are disjoint is
`KeyKind.key_injective`.
-/

namespace ServerFlow.Ratelimit

open Machine List

/-- The call touches no per-model bucket. -/
def Call.Uncapped : Call → Prop
  | .allow _ r => r.modelRequestsPerMinute ≤ 0
  | .renew _ _ _ => True
  | .release _ _ => True

instance (c : Call) : Decidable c.Uncapped :=
  match c with
  | .allow _ r => inferInstanceAs (Decidable (r.modelRequestsPerMinute ≤ 0))
  | .renew _ _ _ => isTrue trivial
  | .release _ _ => isTrue trivial

/-- The bucket keys of a tenant. -/
def ownsBucket (a k : Bytes) : Prop := k = keyRequests a ∨ k = keyTokens a

/-- The two states agree on everything that does not belong to tenant `a`. -/
structure AgreeBut (a : Bytes) (m m' : Model) : Prop where
  p : m.p = m'.p
  buckets : ∀ k, ¬ ownsBucket a k → m.buckets.lookup k = m'.buckets.lookup k
  leases : ∀ k, k ≠ keyConcurrency a → m.leases.lookup k = m'.leases.lookup k

theorem AgreeBut.refl (a : Bytes) (m : Model) : AgreeBut a m m :=
  ⟨rfl, fun _ _ => rfl, fun _ _ => rfl⟩

variable {a : Bytes} {m m' : Model} {r : ModelRequest} {now : Int}

/-! ### Calls of the tenant itself -/

/-- The keys an uncapped request of `a` charges are `a`'s own. -/
theorem ownsBucket_of_mem_checks {c : Check}
    (hu : r.modelRequestsPerMinute ≤ 0) (h : c ∈ m.checks now r) : ownsBucket r.tenantID c.key := by
  obtain ⟨l, k, q, cost, hmem, hq, rfl⟩ := Model.mem_checks.mp h
  simp only [ModelRequest.quotas, mem_cons, not_mem_nil, or_false, Prod.mk.injEq] at hmem
  rcases hmem with ⟨-, rfl, -, -⟩ | ⟨-, rfl, -, -⟩ | ⟨-, -, rfl, -⟩
  · exact .inl rfl
  · exact .inr rfl
  · omega

theorem AgreeBut.allow_own (hu : r.modelRequestsPerMinute ≤ 0)
    (h : AgreeBut r.tenantID m m') : AgreeBut r.tenantID (m.allow now r).1 m' := by
  rcases m.allow_cases now r with ⟨hm, -⟩ | ⟨hm, -⟩ <;> rw [hm]
  · refine ⟨h.p, h.buckets, fun k hk => ?_⟩
    show (m.evicted now r).lookup k = _
    rw [Model.lookup_evicted, if_neg (fun hc => hk hc.1), h.leases k hk]
  · refine ⟨h.p, fun k hk => ?_, fun k hk => ?_⟩
    · rw [Model.lookup_admitted]
      have hnone : (m.checks now r).find? (·.key = k) = none := by
        rw [List.find?_eq_none]
        intro c hc hck
        rw [← of_decide_eq_true hck] at hk
        exact hk (ownsBucket_of_mem_checks hu hc)
      rw [hnone]
      exact h.buckets k hk
    · show (m.withLease now r).lookup k = _
      rw [Model.lookup_withLease, if_neg (fun hc => hk hc.1), h.leases k hk]

theorem AgreeBut.setHeld_own (h : AgreeBut a m m') (held : GoMap Bytes Int) :
    AgreeBut a (m.setHeld a held) m' :=
  ⟨h.p, h.buckets, fun k hk => by rw [Model.lookup_setHeld, if_neg hk, h.leases k hk]⟩

/-- A call of the tenant changes nothing that the others can see. -/
theorem AgreeBut.step_own {c : Call} (hc : c.tenant = a) (hu : c.Uncapped) (h : AgreeBut a m m') :
    AgreeBut a (m.step c).1 m' := by
  subst hc
  cases c with
  | allow now r => exact h.allow_own hu
  | renew now t id =>
    show AgreeBut t (m.renew now t id).1 m'
    unfold Model.renew Model.extend
    split
    · split
      · split
        · exact h
        · exact h.setHeld_own _
      · exact h
    · exact h
  | release t id =>
    show AgreeBut t (m.release t id).1 m'
    unfold Model.release
    split
    · exact h.setHeld_own _
    · exact h

/-! ### Calls of the others -/

theorem not_ownsBucket {t : Bytes} (ht : t ≠ a) (hr : r.tenantID = t) {l : Limit}
    {k : Bytes} {q cost : Int} (h : (l, k, q, cost) ∈ r.quotas) : ¬ ownsBucket a k := by
  subst hr
  simp only [ModelRequest.quotas, mem_cons, not_mem_nil, or_false, Prod.mk.injEq] at h
  -- each of the request's three keys against each of `a`'s two
  rcases h with ⟨-, rfl, -, -⟩ | ⟨-, rfl, -, -⟩ | ⟨-, rfl, -, -⟩ <;> rintro (h | h)
  · exact ht (KeyKind.key_injective .requests .requests h).2
  · cases (KeyKind.key_injective .requests .tokens h).1
  · cases (KeyKind.key_injective .tokens .requests h).1
  · exact ht (KeyKind.key_injective .tokens .tokens h).2
  · cases (KeyKind.key_injective .model .requests h).1
  · cases (KeyKind.key_injective .model .tokens h).1

theorem keyConcurrency_ne {t : Bytes} (ht : t ≠ a) : keyConcurrency t ≠ keyConcurrency a :=
  fun h => ht (KeyKind.key_injective .concurrency .concurrency h).2

/-- Related states make the same checks for another tenant. -/
theorem AgreeBut.checks_eq (ht : r.tenantID ≠ a)
    (h : AgreeBut a m m') : m.checks now r = m'.checks now r := by
  have hadd : ∀ {l : Limit} {k : Bytes} {q cost : Int}, (l, k, q, cost) ∈ r.quotas →
      m.add now l k q cost = m'.add now l k q cost := by
    intro l k q cost hmem
    unfold Model.add Model.peek
    rw [h.p, h.buckets k (not_ownsBucket ht rfl hmem)]
  unfold Model.checks
  rw [hadd (by simp [ModelRequest.quotas]), hadd (by simp [ModelRequest.quotas]),
    hadd (by simp [ModelRequest.quotas])]

theorem AgreeBut.worst_eq (ht : r.tenantID ≠ a)
    (h : AgreeBut a m m') : m.worst now r = m'.worst now r := by
  have hfull : m.concurrencyFull now r = m'.concurrencyFull now r := by
    unfold Model.concurrencyFull Model.heldCount
    rw [h.leases _ (keyConcurrency_ne ht)]
  unfold Model.worst
  rw [h.checks_eq ht, hfull]

theorem AgreeBut.allow_other (now : Int) (ht : r.tenantID ≠ a)
    (h : AgreeBut a m m') : (m.allow now r).2 = (m'.allow now r).2 ∧
      AgreeBut a (m.allow now r).1 (m'.allow now r).1 := by
  unfold Model.allow
  rw [h.worst_eq ht]
  split
  · refine ⟨rfl, h.p, h.buckets, fun k hk => ?_⟩
    show (m.evicted now r).lookup k = (m'.evicted now r).lookup k
    rw [Model.lookup_evicted, Model.lookup_evicted, h.leases k hk]
  · refine ⟨rfl, h.p, fun k hk => ?_, fun k hk => ?_⟩
    · show (m.admitted now r).buckets.lookup k = (m'.admitted now r).buckets.lookup k
      rw [Model.lookup_admitted, Model.lookup_admitted, h.checks_eq ht, h.buckets k hk]
    · show (m.withLease now r).lookup k = (m'.withLease now r).lookup k
      rw [Model.lookup_withLease, Model.lookup_withLease, h.leases k hk, h.p]

theorem AgreeBut.setHeld_other (h : AgreeBut a m m') (t : Bytes) (held : GoMap Bytes Int) :
    AgreeBut a (m.setHeld t held) (m'.setHeld t held) :=
  ⟨h.p, h.buckets, fun k hk => by rw [Model.lookup_setHeld, Model.lookup_setHeld, h.leases k hk]⟩

/-- A call of another tenant is answered alike in related states, and keeps them related. -/
theorem AgreeBut.step_other {c : Call} (hc : c.tenant ≠ a) (h : AgreeBut a m m') :
    (m.step c).2 = (m'.step c).2 ∧ AgreeBut a (m.step c).1 (m'.step c).1 := by
  cases c with
  | allow now r =>
    obtain ⟨hout, hE⟩ := h.allow_other now hc
    exact ⟨congrArg Reply.outcome hout, hE⟩
  | renew now t id =>
    have hl := h.leases _ (keyConcurrency_ne hc)
    simp only [Model.step, Model.renew, Model.extend, Call.tenant] at hl ⊢
    rw [hl, h.p]
    split
    · split
      · split
        · exact ⟨rfl, h⟩
        · exact ⟨rfl, h.setHeld_other _ _⟩
      · exact ⟨rfl, h⟩
    · exact ⟨rfl, h⟩
  | release t id =>
    have hl := h.leases _ (keyConcurrency_ne hc)
    simp only [Model.step, Model.release, Model.lease, Call.tenant] at hl ⊢
    rw [hl]
    split
    · exact ⟨rfl, h.setHeld_other _ _⟩
    · exact ⟨rfl, h⟩

/-! ### The hyperproperty -/

/-- **Tenant isolation.** Take two runs from the same state that differ only in the calls of
tenant `a`, all of them for models without a cap. Then every answer to another tenant `b`
is the same in both. Part of why is that no two (kind, name) pairs share a key. -/
theorem tenant_isolation {a b : Bytes} (hab : a ≠ b) (m : Model) (run run' : List Call)
    (hu : ∀ c ∈ run, c.tenant = a → c.Uncapped) (hu' : ∀ c ∈ run', c.tenant = a → c.Uncapped)
    (hsame : run.filter (·.tenant ≠ a) = run'.filter (·.tenant ≠ a)) :
    outputsOf Model.step (·.tenant = b) m run =
        outputsOf Model.step (·.tenant = b) m run' ∧
      ∀ (k k' : KeyKind) (s t : Bytes), k.key s = k'.key t → k = k' ∧ s = t := by
  refine ⟨?_, fun k k' s t => KeyKind.key_injective k k'⟩
  refine outputsOf_eq_of_unwinding (v := fun c => decide (c.tenant ≠ a))
    (A := fun c => c.tenant = a → c.Uncapped) (E := AgreeBut a) ?_ ?_ ?_ hu hu'
    (AgreeBut.refl a m) hsame
  · intro c hc
    simp only [decide_eq_true_eq] at hc ⊢
    exact fun h => hab (h ▸ hc)
  · intro s t c hA hv hE
    have hc : c.tenant = a := by simpa using hv
    exact hE.step_own hc (hA hc)
  · intro s t c hv hE
    exact hE.step_other (by simpa using hv)

/-- Tenant `a` takes a lease and drains its quota between two calls of `b`, or makes no call
at all: `b`, with sixty requests a minute and one lease, gets the same answers. -/
theorem tenant_isolation_two_tenants :
    let r (t : Bytes) : ModelRequest := ⟨t, [109], 5, ⟨60, 60, 1⟩, 0, [108]⟩
    let b₀ := Call.allow 0 (r [98])
    let b₁ := Call.allow 100 (r [98])
    let run := [b₀, .allow 10 (r [97]), .renew 20 [97] [108], .release [97] [108], b₁]
    outputsOf Model.step (·.tenant = [98]) (Model.new ⟨1, 1000⟩) run =
      [.outcome ⟨true, none, 0⟩, .outcome ⟨false, some .concurrency, 1000⟩] ∧
    outputsOf Model.step (·.tenant = [98]) (Model.new ⟨1, 1000⟩) run =
      outputsOf Model.step (·.tenant = [98]) (Model.new ⟨1, 1000⟩) [b₀, b₁] := by
  intro r b₀ b₁ run
  refine ⟨by decide, ?_⟩
  exact (tenant_isolation (a := [97]) (b := [98]) (by decide) (Model.new ⟨1, 1000⟩) run [b₀, b₁]
    (by decide) (by decide) (by decide)).1

end ServerFlow.Ratelimit
