import ServerFlow.Ratelimit.Int64

/-!
# Ratelimit.RateBound

How much a bucket can be charged, under a clock that may step backwards and forwards.

The argument is a potential: an admitted request that needs `n` leaves
`n + level' ≤ level + Q * (stamp' - stamp)`, because the time that refills a bucket never
exceeds what its stamp grows by (`level_le_add_growth`). Summed over a run, the charges are
bounded by the level the run starts with plus `Q` times the growth of the stamp, and a
bucket that is not stored yet counts as full at its first stamp.
-/

namespace ServerFlow.Ratelimit

open Machine List

/-! ### One bucket -/

section Bucket

variable {p : Params} {Q : Int}

/-- The stamp never moves back. -/
theorem stamp_le_nextStamp (b : Bucket) (now : Int) : b.stamp ≤ nextStamp (some b) now := by
  unfold nextStamp
  dsimp only
  split <;> omega

/-- Refilling adds at most `Q` for every millisecond the stamp grows by. -/
theorem level_le_add_growth (hQ : 0 < Q) (b : Bucket) (now : Int) :
    level p (some b) now Q ≤ b.level + Q * (nextStamp (some b) now - b.stamp) := by
  have helapsed : b.elapsed p now ≤ nextStamp (some b) now - b.stamp := by
    unfold Bucket.elapsed nextStamp
    dsimp only
    split <;> omega
  have hmul : b.elapsed p now * Q ≤ Q * (nextStamp (some b) now - b.stamp) := by
    rw [mul_comm Q]
    exact mul_le_mul_of_nonneg_right helapsed hQ.le
  calc level p (some b) now Q ≤ b.level + b.elapsed p now * Q := min_le_left _ _
    _ ≤ _ := by omega

/-- Time split at a charge refills no more than the whole interval does: a bucket charged
at `now ≤ T` holds at `T` at most what it would have held uncharged. -/
theorem level_after_charge_le {b : Option Bucket} {now T n : Int}
    (hb : ∀ c, b = some c → 0 ≤ c.level) (hn : 0 ≤ n) (hT : now ≤ T) :
    level p (some ⟨level p b now Q - n, nextStamp b now⟩) T Q ≤ level p b T Q := by
  cases b with
  | none => exact level_le_capacity _ _ _ _
  | some b =>
    have hl : 0 ≤ b.level := hb b rfl
    by_cases he : p.window ≤ max (T - b.stamp) 0
    · -- the whole window has passed by `T`, so the uncharged bucket is full
      have hfull : level p (some b) T Q = capacity p Q := by
        show min (b.level + min (max (T - b.stamp) 0) p.window * Q) (capacity p Q) = _
        rw [min_eq_right he, capacity_eq]
        exact min_eq_right (by omega)
      rw [hfull]
      exact level_le_capacity _ _ _ _
    · -- otherwise no clamp of the elapsed time applies, and the two parts add up
      have hsplit : b.elapsed p now +
          (⟨level p (some b) now Q - n, nextStamp (some b) now⟩ : Bucket).elapsed p T =
          b.elapsed p T := by
        unfold Bucket.elapsed nextStamp
        dsimp only
        split <;> omega
      have hmul : b.elapsed p now * Q +
          (⟨level p (some b) now Q - n, nextStamp (some b) now⟩ : Bucket).elapsed p T * Q =
          b.elapsed p T * Q := by
        rw [← add_mul, hsplit]
      refine le_min ?_ (level_le_capacity _ _ _ _)
      refine (min_le_left _ _).trans ?_
      have hlev : level p (some b) now Q ≤ b.level + b.elapsed p now * Q := min_le_left _ _
      dsimp only at hmul ⊢
      omega

end Bucket

/-! ### One call -/

/-- A run of checks, each with the time it is made at. -/
abbrev AllowCall := Int × ModelRequest

/-- One `Allow`. -/
def Model.allowStep (m : Model) (c : AllowCall) : Model × Outcome := m.allow c.1 c.2

/-- One `Allow` in `int64`. -/
def Model.allowStep64 (m : Model) (c : AllowCall) : Model × Outcome := m.allow64 c.1 c.2

/-- The check, if any, that a request makes on bucket `k`. -/
def Model.checkAt (m : Model) (now : Int) (r : ModelRequest) (k : Bytes) : Option Check :=
  (m.checks now r).find? (·.key = k)

/-- The call is made within the times, with a request within the bounds. -/
def AllowCall.Bounded (c : AllowCall) : Prop := InTime c.1 ∧ c.2.Bounded

/-- The scaled amount a call charges to bucket `k`. -/
def Model.charged (m : Model) (c : AllowCall) (k : Bytes) : Int :=
  if (m.allowStep c).2.allowed then ((m.checkAt c.1 c.2 k).map Check.need).getD 0 else 0

/-- Whenever the request checks bucket `k`, it does so with quota `Q`. -/
def ModelRequest.FixedQuota (r : ModelRequest) (k : Bytes) (Q : Int) : Prop :=
  ∀ l q cost, (l, k, q, cost) ∈ r.quotas → 0 < q → q = Q

variable {m : Model} {c : AllowCall} {k : Bytes} {Q : Int}

/-- What a call does to bucket `k`: nothing, or an admitted charge of a need that the
refilled level covers. -/
theorem Model.allowStep_bucket (hfix : c.2.FixedQuota k Q) :
    ((m.allowStep c).1.buckets.lookup k = m.buckets.lookup k ∧ m.charged c k = 0) ∨
    ∃ cost, (cost = 1 ∨ cost = c.2.cost) ∧
      m.charged c k = need cost (capacity m.p Q) ∧
      m.charged c k ≤ level m.p (m.buckets.lookup k) c.1 Q ∧
      (m.allowStep c).1.buckets.lookup k =
        some ⟨level m.p (m.buckets.lookup k) c.1 Q - m.charged c k,
          nextStamp (m.buckets.lookup k) c.1⟩ := by
  unfold Model.charged Model.allowStep
  rcases m.allow_cases c.1 c.2 with ⟨h, hw⟩ | ⟨h, hpass, -⟩ <;> rw [h]
  · exact .inl ⟨rfl, by simp [hw]⟩
  · rw [Model.lookup_admitted]
    show _ ∨ _
    cases hc : m.checkAt c.1 c.2 k with
    | none =>
      unfold Model.checkAt at hc
      exact .inl ⟨by rw [hc], by simp⟩
    | some d =>
      have hd : d ∈ m.checks c.1 c.2 := mem_of_find?_eq_some hc
      have hk : d.key = k := by simpa using List.find?_some hc
      obtain ⟨l, k', q, cost, hmem, hq, rfl⟩ := Model.mem_checks.mp hd
      obtain rfl : k' = k := hk
      obtain rfl : q = Q := hfix l q cost hmem hq
      have hp : need cost (capacity m.p q) ≤ level m.p (m.buckets.lookup k') c.1 q :=
        of_decide_eq_true (hpass _ hd)
      unfold Model.checkAt at hc
      refine .inr ⟨cost, ?_, by simp [Model.checkOf], by simpa [Model.checkOf] using hp, ?_⟩
      · simp only [ModelRequest.quotas, mem_cons, not_mem_nil, or_false,
          Prod.mk.injEq] at hmem
        tauto
      · rw [hc]
        simp [Model.checkOf]

/-! ### Runs -/

/-- The scaled amount a run charges to bucket `k`. -/
def Model.totalCharged (k : Bytes) : Model → List AllowCall → Int
  | _, [] => 0
  | m, c :: cs => m.charged c k + totalCharged k (m.allowStep c).1 cs

/-- The first stamp bucket `k` has in a run: the stored one, or the one of its first charge. -/
def Model.firstStamp (k : Bytes) : Model → List AllowCall → Option Int
  | m, [] => (m.buckets.lookup k).map Bucket.stamp
  | m, c :: cs =>
    match m.buckets.lookup k with
    | some b => some b.stamp
    | none => firstStamp k (m.allowStep c).1 cs

/-- How far the stored stamp of bucket `k` moves in a run (`0` while it is not stored). -/
def Model.stampGrowth (k : Bytes) (m : Model) (cs : List AllowCall) : Int :=
  match m.firstStamp k cs, (final Model.allowStep m cs).buckets.lookup k with
  | some t, some b => b.stamp - t
  | _, _ => 0

/-- The call checks bucket `k` with quota `Q` only, and its cost is not negative. -/
structure AllowCall.Regular (k : Bytes) (Q : Int) (c : AllowCall) : Prop where
  quota : c.2.FixedQuota k Q
  cost : 0 ≤ c.2.cost

/-- The stored level of bucket `k` is between empty and full. -/
structure BucketOk (p : Params) (k : Bytes) (Q : Int) (m : Model) : Prop where
  params : m.p = p
  bounds : ∀ b, m.buckets.lookup k = some b → 0 ≤ b.level ∧ b.level ≤ capacity p Q

section Runs

variable {p : Params} (hcap : 0 ≤ capacity p Q)

include hcap

theorem BucketOk.charged_nonneg (h : BucketOk p k Q m) (hc : c.Regular k Q) :
    0 ≤ m.charged c k := by
  rcases Model.allowStep_bucket (m := m) hc.quota with ⟨-, h₀⟩ | ⟨cost, hcost, hch, -, -⟩
  · exact h₀.ge
  · rw [hch, h.params]
    refine need_nonneg ?_ hcap
    rcases hcost with rfl | rfl
    · decide
    · exact hc.cost

theorem BucketOk.step (h : BucketOk p k Q m) (hc : c.Regular k Q) :
    BucketOk p k Q (m.allowStep c).1 := by
  refine ⟨(Model.allow_p _ _ _).trans h.params, fun b hb => ?_⟩
  have hnn := h.charged_nonneg hcap hc
  rcases Model.allowStep_bucket (m := m) hc.quota with ⟨hl, -⟩ | ⟨cost, -, -, hle, hl⟩
  · exact h.bounds b (hl ▸ hb)
  · obtain rfl := Option.some.inj (hl.symm.trans hb)
    have := level_le_capacity m.p (m.buckets.lookup k) c.1 Q
    rw [h.params] at this hle ⊢
    dsimp only
    omega

variable {cs : List AllowCall}

/-- Along a run from a stored bucket the bucket stays stored, its stamp does not move back,
and the charges are paid from the level and from `Q` times the growth of the stamp. -/
theorem BucketOk.run_stored (hQ : 0 < Q) (h : BucketOk p k Q m)
    (hcs : ∀ c ∈ cs, AllowCall.Regular k Q c) {b : Bucket} (hb : m.buckets.lookup k = some b) :
    ∃ b', (final Model.allowStep m cs).buckets.lookup k = some b' ∧ b.stamp ≤ b'.stamp ∧
      m.totalCharged k cs + b'.level ≤ b.level + Q * (b'.stamp - b.stamp) := by
  induction cs generalizing m b with
  | nil => exact ⟨b, hb, le_rfl, by simp [Model.totalCharged]⟩
  | cons c cs ih =>
    have hc : AllowCall.Regular k Q c := hcs c (by simp)
    have hcs' : ∀ d ∈ cs, AllowCall.Regular k Q d := fun d hd => hcs d (by simp [hd])
    have hok := h.step hcap hc
    rw [final_cons, Model.totalCharged]
    rcases Model.allowStep_bucket (m := m) hc.quota with ⟨hl, h₀⟩ | ⟨cost, -, -, hle, hl⟩
    · obtain ⟨b', hb', hst, hsum⟩ := ih hok hcs' (hl.trans hb)
      exact ⟨b', hb', hst, by omega⟩
    · obtain ⟨b', hb', hst, hsum⟩ := ih hok hcs' hl
      rw [hb] at hst hsum
      have hgrow := level_le_add_growth (p := m.p) hQ b c.1
      have hmono := stamp_le_nextStamp b c.1
      refine ⟨b', hb', hmono.trans hst, ?_⟩
      dsimp only at hsum
      linarith

/-- Along a run from a bucket that is not stored, it counts as full at its first stamp. -/
theorem BucketOk.run_unset (hQ : 0 < Q) (h : BucketOk p k Q m)
    (hcs : ∀ c ∈ cs, AllowCall.Regular k Q c) (hb : m.buckets.lookup k = none) :
    m.totalCharged k cs ≤ capacity p Q + Q * m.stampGrowth k cs := by
  induction cs generalizing m with
  | nil => simpa [Model.totalCharged, Model.stampGrowth, Model.firstStamp, hb] using hcap
  | cons c cs ih =>
    have hc : AllowCall.Regular k Q c := hcs c (by simp)
    have hcs' : ∀ d ∈ cs, AllowCall.Regular k Q d := fun d hd => hcs d (by simp [hd])
    have hok := h.step hcap hc
    have hgrow : m.stampGrowth k (c :: cs) = (m.allowStep c).1.stampGrowth k cs := by
      simp only [Model.stampGrowth, Model.firstStamp, hb, final_cons]
    rw [Model.totalCharged, hgrow]
    rcases Model.allowStep_bucket (m := m) hc.quota with ⟨hl, h₀⟩ | ⟨cost, -, -, hle, hl⟩
    · have := ih hok hcs' (hl.trans hb)
      omega
    · obtain ⟨b', hb', hst, hsum⟩ := hok.run_stored hcap hQ hcs' hl
      have hlev := ((final_invariant (P := BucketOk p k Q) (A := AllowCall.Regular k Q)
        (fun s i hi hs => hs.step hcap hi) hcs' hok).bounds b' hb').1
      have hfirst : (m.allowStep c).1.firstStamp k cs =
          some (nextStamp (m.buckets.lookup k) c.1) := by
        cases cs <;> simp [Model.firstStamp, hl]
      have hval : (m.allowStep c).1.stampGrowth k cs =
          b'.stamp - nextStamp (m.buckets.lookup k) c.1 := by
        simp only [Model.stampGrowth, hfirst, hb']
      have hfull : level m.p (m.buckets.lookup k) c.1 Q = capacity p Q := by
        rw [hb, h.params, level]
      rw [hval]
      dsimp only at hsum
      omega

/-- What the bucket would hold at `T` does not grow by calls made up to `T`. -/
theorem BucketOk.run_level_le (h : BucketOk p k Q m) (hcs : ∀ c ∈ cs, AllowCall.Regular k Q c)
    {T : Int} (hT : ∀ c ∈ cs, c.1 ≤ T) :
    level p ((final Model.allowStep m cs).buckets.lookup k) T Q ≤
      level p (m.buckets.lookup k) T Q := by
  induction cs generalizing m with
  | nil => exact le_rfl
  | cons c cs ih =>
    have hc : AllowCall.Regular k Q c := hcs c (by simp)
    have hok := h.step hcap hc
    have hrest := ih hok (fun d hd => hcs d (by simp [hd])) (fun d hd => hT d (by simp [hd]))
    refine hrest.trans ?_
    have hnn := h.charged_nonneg hcap hc
    rcases Model.allowStep_bucket (m := m) hc.quota with ⟨hl, -⟩ | ⟨cost, -, -, -, hl⟩
    · rw [hl]
    · rw [hl, h.params]
      exact level_after_charge_le (fun b hb => (h.bounds b hb).1) hnn (hT c (by simp))

end Runs

/-! ### The bound -/

theorem AllowCall.Bounded.cost_nonneg {c : AllowCall} (h : c.Bounded) : 0 ≤ c.2.cost :=
  have hmem : (.tokens, keyTokens c.2.tenantID, c.2.limits.tokensPerMinute, c.2.cost) ∈
    c.2.quotas :=
    mem_cons_of_mem _ mem_cons_self
  (h.2 _ hmem).2.1

theorem Model.Fits.allowRun64_eq {m : Model} (h : m.Fits) {calls : List AllowCall}
    (hcalls : ∀ c ∈ calls, c.Bounded) :
    final Model.allowStep64 m calls = final Model.allowStep m calls ∧
      (final Model.allowStep m calls).Fits := by
  have hfits : ∀ (m : Model) (c : AllowCall), c.Bounded → m.Fits → (m.allowStep c).1.Fits :=
    fun _ _ hc h => h.allow hc.2 hc.1
  have hagree : ∀ (m : Model) (c : AllowCall), c.Bounded → m.Fits →
      m.allowStep64 c = m.allowStep c := fun _ _ hc h => h.allow64_eq hc.2 hc.1
  exact ⟨final_eq_of_agree hagree hfits hcalls h, final_invariant hfits hcalls h⟩

/-- Without a bound on the cost a refund would fill a bucket beyond its capacity: a cost of
`-1` leaves 61000 units in a bucket of 1000. -/
theorem negative_cost_overfills :
    ∃ (p : Params) (c : AllowCall) (k : Bytes) (Q : Int) (b : Bucket),
      0 < Q ∧ c.2.FixedQuota k Q ∧
      (final Model.allowStep64 (Model.new p) [c]).buckets.lookup k = some b ∧
      capacity p Q < b.level := by
  refine ⟨⟨1, 1000⟩, (0, ⟨[97], [109], -1, ⟨0, 1, 0⟩, 0, [108]⟩), keyTokens [97], 1, ⟨61000, 0⟩,
    by decide, ?_, by decide, by decide⟩
  intro l q cost h hq
  simp only [ModelRequest.quotas, mem_cons, not_mem_nil, or_false, Prod.mk.injEq] at h
  omega

/-- **Rate bound.** Fix the quota `Q` of a bucket and make any calls within the bounds, at
any times. The run in `int64` is the exact one. Over any stretch `mid` of it the bucket is charged
at most its capacity plus `Q` for every millisecond its stamp grows by; its level stays between
empty and full, its stamp never moves back, and what it holds at a time no call is past is never
increased by the calls, so that a clock that steps back and returns adds nothing. -/
theorem bucket_rate_bound (p : Params) (hp : p.Bounded) {Q : Int} (hQ : 0 < Q)
    (k : Bytes) (pre mid : List AllowCall) (hfix : ∀ c ∈ pre ++ mid, c.2.FixedQuota k Q)
    (hbound : ∀ c ∈ pre ++ mid, c.Bounded) :
    let m₀ := final Model.allowStep (Model.new p) pre
    let m₁ := final Model.allowStep m₀ mid
    (final Model.allowStep64 (Model.new p) pre = m₀ ∧ final Model.allowStep64 m₀ mid = m₁) ∧
    m₀.totalCharged k mid ≤ Q * p.burstSeconds * 1000 + Q * m₀.stampGrowth k mid ∧
    (∀ b, m₁.buckets.lookup k = some b → 0 ≤ b.level ∧ b.level ≤ Q * p.burstSeconds * 1000) ∧
    (∀ b, m₀.buckets.lookup k = some b →
      ∃ b', m₁.buckets.lookup k = some b' ∧ b.stamp ≤ b'.stamp) ∧
    (∀ T, (∀ c ∈ mid, c.1 ≤ T) →
      level p (m₁.buckets.lookup k) T Q ≤ level p (m₀.buckets.lookup k) T Q) := by
  intro m₀ m₁
  have hcap : 0 ≤ capacity p Q := mul_nonneg (mul_nonneg hQ.le hp.burst.1) (by decide)
  have hreg : ∀ c ∈ pre ++ mid, AllowCall.Regular k Q c :=
    fun c hc => ⟨hfix c hc, (hbound c hc).cost_nonneg⟩
  obtain ⟨hpre64, hfits⟩ := (Model.fits_new hp).allowRun64_eq
    fun c hc => hbound c (mem_append_left mid hc)
  obtain ⟨hmid64, -⟩ := hfits.allowRun64_eq fun c hc => hbound c (mem_append_right pre hc)
  have hpre : ∀ c ∈ pre, AllowCall.Regular k Q c := fun c hc => hreg c (by simp [hc])
  have hmid : ∀ c ∈ mid, AllowCall.Regular k Q c := fun c hc => hreg c (by simp [hc])
  have hstep : ∀ s c, AllowCall.Regular k Q c → BucketOk p k Q s →
      BucketOk p k Q (Model.allowStep s c).1 := fun s c hc hs => hs.step hcap hc
  have hok₀ : BucketOk p k Q m₀ :=
    final_invariant hstep hpre ⟨rfl, fun b hb => by simp [Model.new] at hb⟩
  have hok₁ : BucketOk p k Q m₁ := final_invariant hstep hmid hok₀
  refine ⟨⟨hpre64, hmid64⟩, ?_, hok₁.bounds, fun b hb => ?_,
    fun T hT => hok₀.run_level_le hcap hmid hT⟩
  · cases hb : m₀.buckets.lookup k with
    | none => exact hok₀.run_unset hcap hQ hmid hb
    | some b =>
      obtain ⟨b', hb', -, hsum⟩ := hok₀.run_stored hcap hQ hmid hb
      have hlev₀ := (hok₀.bounds b hb).2
      have hlev₁ := (hok₁.bounds b' hb').1
      have hfirst : m₀.firstStamp k mid = some b.stamp := by
        cases mid <;> simp [Model.firstStamp, hb]
      have hgrow : m₀.stampGrowth k mid = b'.stamp - b.stamp := by
        simp only [Model.stampGrowth, hfirst, hb']
      rw [hgrow]
      exact (le_add_of_nonneg_right hlev₁).trans (hsum.trans (add_le_add_left hlev₀ _))
  · obtain ⟨b', hb', hst, -⟩ := hok₀.run_stored hcap hQ hmid hb
    exact ⟨b', hb', hst⟩

/-- The bound at a run whose clock steps back by 500 ms and forward again: the tokens bucket
of tenant `a` with 60 tokens a minute and one second of burst. -/
theorem bucket_rate_bound_clock_step_back :
    let r : ModelRequest := ⟨[97], [109], 1, ⟨0, 60, 0⟩, 0, [108]⟩
    let m₀ := final Model.allowStep (Model.new ⟨1, 1000⟩) [(1000, r)]
    let mid : List AllowCall := [(500, r), (1000, r), (2000, r)]
    m₀.totalCharged (keyTokens [97]) mid = 60000 ∧
      m₀.totalCharged (keyTokens [97]) mid ≤
        60 * 1 * 1000 + 60 * m₀.stampGrowth (keyTokens [97]) mid := by
  intro r m₀ mid
  refine ⟨by decide, ?_⟩
  have hall : ∀ c : AllowCall, c.2 = r → c.2.FixedQuota (keyTokens [97]) 60 := by
    intro c hc l q cost h hq
    simp only [hc, r, ModelRequest.quotas, mem_cons, not_mem_nil, or_false,
      Prod.mk.injEq] at h
    omega
  have hcalls : ∀ c ∈ [(1000, r)] ++ mid, c.2 = r ∧ InTime c.1 := by decide
  exact (bucket_rate_bound ⟨1, 1000⟩ ⟨by decide, by decide⟩ (by decide) (keyTokens [97])
    [(1000, r)] mid (fun c hc => hall c (hcalls c hc).1)
    fun c hc => ⟨(hcalls c hc).2, (hcalls c hc).1 ▸ by decide⟩).2.1

end ServerFlow.Ratelimit
