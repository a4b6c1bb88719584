import ServerFlow.Ratelimit.RateBound

/-!
# Ratelimit.RetryAfter

The wait that a refusal reports. The reported wait is the longest of those considered
(`worst_longest`), and a bucket that is short of its need at `t` holds at `t + w` what it held,
refilled at the full rate and clamped to its capacity (`level_add`): no clamp of the elapsed time
can matter, because a bucket whose stamp is a window old is full. So the ceiling of the deficit over
the quota is the first millisecond at which the need is met.

That a stored level is never negative (`LevelsNonneg`) is what keeps a wait within the window.
-/

namespace ServerFlow.Ratelimit

open List Machine

/-! ### The longest wait -/

/-- The refusals that `Allow` considers, in its order. -/
def Model.refusals (m : Model) (now : Int) (r : ModelRequest) : List (Limit × Int) :=
  ((m.checks now r).filter fun c => decide (c.limit ≠ .model) && !c.passes).map
    (fun c => (c.limit, c.wait)) ++
  (if m.concurrencyFull now r then [(.concurrency, concurrencyRetryMs)] else []) ++
  ((m.checks now r).filter fun c => decide (c.limit = .model) && !c.passes).map fun c =>
    (c.limit, c.wait)

def considerAll (ls : List (Limit × Int)) (w : Outcome) : Outcome :=
  ls.foldl (fun w x => consider w x.1 x.2) w

theorem considerChecks_eq (p : Check → Bool) (cs : List Check) (w : Outcome) :
    considerChecks p cs w =
      considerAll ((cs.filter fun c => p c && !c.passes).map fun c => (c.limit, c.wait)) w := by
  unfold considerChecks considerAll
  rw [foldl_map, foldl_filter]

theorem Model.worst_eq_considerAll (m : Model) (now : Int) (r : ModelRequest) :
    m.worst now r = considerAll (m.refusals now r) Outcome.none := by
  unfold Model.worst Model.refusals
  rw [considerChecks_eq, considerChecks_eq]
  unfold considerAll
  rw [foldl_append, foldl_append]
  cases m.concurrencyFull now r <;> rfl

/-- The outcome is the one before or one of those considered, and none of these is longer. -/
theorem considerAll_spec (ls : List (Limit × Int)) (w : Outcome) :
    (considerAll ls w = w ∨ ∃ x ∈ ls, considerAll ls w = ⟨false, some x.1, x.2⟩) ∧
      w.retryMs ≤ (considerAll ls w).retryMs ∧ ∀ x ∈ ls, x.2 ≤ (considerAll ls w).retryMs := by
  induction ls generalizing w with
  | nil => exact ⟨.inl rfl, le_rfl, nofun⟩
  | cons x ls ih =>
    have hx : (consider w x.1 x.2 = w ∨ consider w x.1 x.2 = ⟨false, some x.1, x.2⟩) ∧
        w.retryMs ≤ (consider w x.1 x.2).retryMs ∧ x.2 ≤ (consider w x.1 x.2).retryMs := by
      unfold consider
      split
      next hlong => exact ⟨.inr rfl, hlong.le, le_rfl⟩
      next hshort => exact ⟨.inl rfl, le_rfl, not_lt.mp hshort⟩
    obtain ⟨hfrom, hmono, hown⟩ := hx
    obtain ⟨hfrom', hmono', hall⟩ := ih (consider w x.1 x.2)
    refine ⟨?_, hmono.trans hmono', ?_⟩
    · rcases hfrom' with hsame | ⟨y, hy, hlast⟩
      · rcases hfrom with hkept | hnew
        · exact .inl (hsame.trans hkept)
        · exact .inr ⟨x, mem_cons_self, hsame.trans hnew⟩
      · exact .inr ⟨y, mem_cons_of_mem x hy, hlast⟩
    · intro y hy
      rcases mem_cons.mp hy with rfl | hy
      · exact hown.trans hmono'
      · exact hall y hy

variable {m : Model} {now : Int} {r : ModelRequest}

theorem Model.mem_refusals {c : Check} (hc : c ∈ m.checks now r)
    (hfail : c.passes = false) : (c.limit, c.wait) ∈ m.refusals now r := by
  unfold Model.refusals
  rw [mem_append, mem_append]
  by_cases hmodel : c.limit = .model
  · exact .inr (mem_map.mpr ⟨c, mem_filter.mpr ⟨hc, by simp [hmodel, hfail]⟩, rfl⟩)
  · exact .inl (.inl (mem_map.mpr ⟨c, mem_filter.mpr ⟨hc, by simp [hmodel, hfail]⟩, rfl⟩))

/-- A refusal other than that of the leases is a check that failed. -/
theorem Model.exists_of_mem_refusals {x : Limit × Int}
    (hx : x ∈ m.refusals now r) (hl : x.1 ≠ .concurrency) :
    ∃ c ∈ m.checks now r, c.passes = false ∧ c.limit = x.1 ∧ c.wait = x.2 := by
  have hfailed : ∀ {p : Check → Bool},
      x ∈ ((m.checks now r).filter fun c => p c && !c.passes).map (fun c => (c.limit, c.wait)) →
      ∃ c ∈ m.checks now r, c.passes = false ∧ c.limit = x.1 ∧ c.wait = x.2 := by
    intro p hmem
    obtain ⟨c, hc, rfl⟩ := mem_map.mp hmem
    obtain ⟨hmem, hp⟩ := mem_filter.mp hc
    simp only [Bool.and_eq_true, Bool.not_eq_true'] at hp
    exact ⟨c, hmem, hp.2, rfl, rfl⟩
  unfold Model.refusals at hx
  rcases mem_append.mp hx with hx | hx
  · rcases mem_append.mp hx with hx | hx
    · exact hfailed hx
    · split at hx
      · obtain rfl := mem_singleton.mp hx
        exact absurd rfl hl
      · cases hx
  · exact hfailed hx

/-- A refusal by a bucket reports that bucket's wait, and no check that fails has to wait longer. -/
theorem Model.worst_longest {l : Limit} {w : Int}
    (h : m.worst now r = ⟨false, some l, w⟩) (hl : l ≠ .concurrency) :
    (∃ c ∈ m.checks now r, c.passes = false ∧ c.limit = l ∧ c.wait = w) ∧
      ∀ c ∈ m.checks now r, c.passes = false → c.wait ≤ w := by
  rw [Model.worst_eq_considerAll] at h
  obtain ⟨hfrom, -, hall⟩ := considerAll_spec (m.refusals now r) Outcome.none
  rw [h] at hfrom hall
  refine ⟨?_, fun c hc hfail => hall _ (Model.mem_refusals hc hfail)⟩
  rcases hfrom with hnone | ⟨x, hx, heq⟩
  · cases hnone
  · cases heq
    exact Model.exists_of_mem_refusals hx hl

/-! ### A bucket while it refills -/

section Bucket

variable {p : Params} {Q t w n : Int}

/-- As time goes by, a bucket that nobody charges only fills. -/
theorem level_mono (b : Option Bucket) (hQ : 0 < Q) (hw : 0 ≤ w) :
    level p b t Q ≤ level p b (t + w) Q := by
  cases b with
  | none => exact le_rfl
  | some b =>
    have helapsed : b.elapsed p t ≤ b.elapsed p (t + w) := by
      unfold Bucket.elapsed
      omega
    have hmul : b.elapsed p t * Q ≤ b.elapsed p (t + w) * Q :=
      mul_le_mul_of_nonneg_right helapsed hQ.le
    exact min_le_min (by omega) le_rfl

/-- A bucket that is not full has been refilled at the full rate since its stamp. -/
theorem level_of_short {b : Bucket} (hlevel : 0 ≤ b.level) (hstamp : b.stamp ≤ t)
    (hshort : level p (some b) t Q < capacity p Q) :
    t - b.stamp ≤ p.window ∧ level p (some b) t Q = b.level + (t - b.stamp) * Q := by
  have hcap := capacity_eq p Q
  have hfull : ∀ {x : Int}, b.elapsed p t = x → b.level + x * Q < capacity p Q := by
    intro x hx
    by_contra hge
    refine absurd hshort (not_lt.mpr (le_min ?_ le_rfl))
    rw [hx]
    exact not_lt.mp hge
  -- a bucket whose stamp is a window old is full
  have hyoung : t - b.stamp ≤ p.window := by
    by_contra hold
    have helapsed : b.elapsed p t = p.window := by
      unfold Bucket.elapsed
      omega
    have := hfull helapsed
    omega
  have helapsed : b.elapsed p t = t - b.stamp := by
    unfold Bucket.elapsed
    omega
  refine ⟨hyoung, ?_⟩
  show min (b.level + b.elapsed p t * Q) (capacity p Q) = _
  rw [helapsed]
  exact min_eq_left (hfull helapsed).le

/-- A bucket that is not full refills at the full rate until it is. -/
theorem level_add {b : Bucket} (hQ : 0 < Q) (hw : 0 ≤ w) (hlevel : 0 ≤ b.level)
    (hstamp : b.stamp ≤ t) (hshort : level p (some b) t Q < capacity p Q) :
    level p (some b) (t + w) Q = min (level p (some b) t Q + w * Q) (capacity p Q) := by
  have hcap := capacity_eq p Q
  obtain ⟨hyoung, hnow⟩ := level_of_short hlevel hstamp hshort
  have hsum : (t - b.stamp) * Q + w * Q = (t + w - b.stamp) * Q := by ring
  rw [hnow, add_assoc, hsum]
  show min (b.level + b.elapsed p (t + w) * Q) (capacity p Q) = _
  by_cases hlong : t + w - b.stamp ≤ p.window
  · have helapsed' : b.elapsed p (t + w) = t + w - b.stamp := by
      unfold Bucket.elapsed
      omega
    rw [helapsed']
  · -- both sides are clamped
    have helapsed' : b.elapsed p (t + w) = p.window := by
      unfold Bucket.elapsed
      omega
    have hmul : p.window * Q ≤ (t + w - b.stamp) * Q := mul_le_mul_of_nonneg_right (by omega) hQ.le
    rw [helapsed', min_eq_right (by omega), min_eq_right (by omega)]

/-- What a ceiling division promises: enough, and not one more than needed. -/
theorem ceilDiv_spec {a q : Int} (ha : 0 < a) (hq : 0 < q) :
    a ≤ ceilDiv a q * q ∧ (ceilDiv a q - 1) * q < a := by
  have hdiv := Int.mul_ediv_add_emod (a + q - 1) q
  have hmod := Int.emod_nonneg (a + q - 1) hq.ne'
  have hmod' := Int.emod_lt_of_pos (a + q - 1) hq
  unfold ceilDiv
  rw [Int.tdiv_eq_ediv_of_nonneg (by omega), sub_mul, mul_comm _ q]
  omega

theorem ceilDiv_le {a q k : Int} (ha : 0 < a) (hq : 0 < q) (h : a ≤ k * q) : ceilDiv a q ≤ k := by
  have hlt : (ceilDiv a q - 1) * q < k * q := (ceilDiv_spec ha hq).2.trans_le h
  have := lt_of_mul_lt_mul_right hlt hq.le
  omega

/-- The wait of a bucket that is short of `n`: it is short until then and no longer, and the wait is
within the window. -/
theorem short_until {b : Option Bucket} (hQ : 0 < Q) (hn : n ≤ capacity p Q)
    (hb : ∀ c, b = some c → 0 ≤ c.level ∧ c.stamp ≤ t) (hshort : level p b t Q < n) :
    (∀ w, ceilDiv (n - level p b t Q) Q ≤ w → n ≤ level p b (t + w) Q) ∧
      level p b (t + ceilDiv (n - level p b t Q) Q - 1) Q < n ∧
      ceilDiv (n - level p b t Q) Q ≤ p.window := by
  cases b with
  | none => exact absurd (hshort.trans_le hn) (lt_irrefl _)
  | some b =>
    obtain ⟨hlevel, hstamp⟩ := hb b rfl
    have hpos := ceilDiv_pos (a := n - level p (some b) t Q) (by omega) hQ
    obtain ⟨henough, hleast⟩ := ceilDiv_spec (a := n - level p (some b) t Q) (by omega) hQ
    have hadd := fun {w : Int} (hw : 0 ≤ w) => level_add hQ hw hlevel hstamp (hshort.trans_le hn)
    have hcap := capacity_eq p Q
    refine ⟨?_, ?_, ?_⟩
    · intro w hw
      have hmul : ceilDiv (n - level p (some b) t Q) Q * Q ≤ w * Q :=
        mul_le_mul_of_nonneg_right hw hQ.le
      rw [hadd (by omega)]
      exact le_min (by omega) hn
    · rw [add_sub_assoc, hadd (by omega)]
      exact (min_le_left _ _).trans_lt (by omega)
    · refine ceilDiv_le (by omega) hQ ?_
      obtain ⟨-, hnow⟩ := level_of_short hlevel hstamp (hshort.trans_le hn)
      have hrefill : 0 ≤ (t - b.stamp) * Q := mul_nonneg (by omega) hQ.le
      omega

end Bucket

/-! ### Retry-after -/

/-- The clock is not behind the stamp of any bucket that the request checks. -/
def Model.StampsUpTo (m : Model) (t : Int) (r : ModelRequest) : Prop :=
  ∀ l k q cost, (l, k, q, cost) ∈ r.quotas → 0 < q → ∀ b, m.buckets.lookup k = some b → b.stamp ≤ t

theorem stampsUpTo_of_all {m : Model} {t : Int} {r : ModelRequest}
    (h : ∀ x ∈ r.quotas, ∀ b ∈ m.buckets.lookup x.2.1, b.stamp ≤ t) : m.StampsUpTo t r :=
  fun _ _ _ _ hmem _ b hb => h _ hmem b hb

theorem Model.checks_refused (m : Model) (t now : Int) (r : ModelRequest) :
    (m.refused t r).checks now r = m.checks now r := rfl

section Refused

variable {m : Model} {t w : Int} {r : ModelRequest} {l : Limit}

/-- A check that fails at `t` fails until its wait is over and no longer, and the wait is within the
burst. -/
theorem Model.Fits.fails_until (h : m.Fits) (hstamps : m.StampsUpTo t r) {k : Bytes} {q cost : Int}
    (hmem : (l, k, q, cost) ∈ r.quotas) (hq : 0 < q)
    (hfail : (m.checkOf t l k q cost).passes = false) :
    (∀ w, (m.checkOf t l k q cost).wait ≤ w → (m.checkOf (t + w) l k q cost).passes = true) ∧
      (m.checkOf (t + (m.checkOf t l k q cost).wait - 1) l k q cost).passes = false ∧
      (m.checkOf t l k q cost).wait ≤ m.p.window := by
  have hlt : level m.p (m.buckets.lookup k) t q < need cost (capacity m.p q) :=
    not_le.mp (of_decide_eq_false hfail)
  obtain ⟨hlater, hbefore, hwindow⟩ := short_until hq (min_le_right _ _)
    (fun b hb => ⟨(h.buckets k b hb).1.1, hstamps l k q cost hmem hq b hb⟩) hlt
  exact ⟨fun w hw => decide_eq_true (hlater w hw), decide_eq_false (not_le.mpr hbefore), hwindow⟩

/-- Every check passes once the longest wait is over. -/
theorem Model.Fits.passes_after (h : m.Fits) (hstamps : m.StampsUpTo t r) (hw : 0 ≤ w)
    (hlongest : ∀ c ∈ m.checks t r, c.passes = false → c.wait ≤ w) :
    ∀ c ∈ m.checks (t + w) r, c.passes = true := by
  intro c hc
  obtain ⟨l, k, q, cost, hmem, hq, rfl⟩ := Model.mem_checks.mp hc
  cases hnow : (m.checkOf t l k q cost).passes with
  | false =>
    have hc' : m.checkOf t l k q cost ∈ m.checks t r :=
      Model.mem_checks.mpr ⟨l, k, q, cost, hmem, hq, rfl⟩
    exact (h.fails_until hstamps hmem hq hnow).1 w (hlongest _ hc' hnow)
  | true =>
    have hpass : need cost (capacity m.p q) ≤ level m.p (m.buckets.lookup k) t q :=
      of_decide_eq_true hnow
    exact decide_eq_true (hpass.trans (level_mono _ hq hw))

/-- What a refusal by a bucket says about the waits. -/
theorem Model.Fits.retry_after (h : m.Fits) (hstamps : m.StampsUpTo t r)
    (hrefused : (m.allow t r).2 = ⟨false, some l, w⟩) (hl : l ≠ .concurrency) :
    (∀ c ∈ (m.allow t r).1.checks (t + w) r, c.passes = true) ∧
    (∃ c ∈ (m.allow t r).1.checks (t + w - 1) r, c.limit = l ∧ c.passes = false) ∧
    1 ≤ w ∧ w ≤ m.p.window := by
  have hm : m.allow t r = (m.refused t r, m.worst t r) := by
    rcases m.allow_cases t r with ⟨hallow, -⟩ | ⟨hallow, -, -⟩
    · exact hallow
    · rw [hallow] at hrefused
      cases hrefused
  rw [hm] at hrefused ⊢
  rw [Model.checks_refused, Model.checks_refused]
  obtain ⟨⟨c, hc, hfail, hlim, hwait⟩, hlongest⟩ := Model.worst_longest hrefused hl
  have hpos : 0 < w := hwait ▸ Model.wait_pos hc hfail
  obtain ⟨l', k, q, cost, hmem, hq, rfl⟩ := Model.mem_checks.mp hc
  obtain rfl : l' = l := hlim
  obtain ⟨-, hbefore, hwindow⟩ := h.fails_until hstamps hmem hq hfail
  rw [hwait] at hbefore hwindow
  refine ⟨h.passes_after hstamps hpos.le hlongest,
    ⟨m.checkOf (t + w - 1) l' k q cost, ?_, rfl, hbefore⟩, hpos, hwindow⟩
  exact Model.mem_checks.mpr ⟨l', k, q, cost, hmem, hq, rfl⟩

end Refused

/-- **Retry-after is exact**, in `int64` and within the bounds. A request that a bucket refuses at
`t` with a wait of `w` passes every bucket at `t + w` if nothing happens in between, and the bucket
that is named still refuses it a millisecond earlier. The wait is at least a millisecond and at most
the burst. -/
theorem retry_after_exact (p : Params) (hp : p.Bounded) (run : List Call)
    (hrun : ∀ c ∈ run, c.Bounded) (t : Int) (r : ModelRequest) (hr : (Call.allow t r).Bounded)
    (l : Limit) (w : Int) (hstamps : (final Model.step64 (Model.new p) run).StampsUpTo t r)
    (hrefused : ((final Model.step64 (Model.new p) run).allow64 t r).2 = ⟨false, some l, w⟩)
    (hl : l = .requests ∨ l = .tokens ∨ l = .model) :
    (∀ c ∈ ((final Model.step64 (Model.new p) run).allow64 t r).1.checks64 (t + w) r,
      c.passes = true) ∧
    (∃ c ∈ ((final Model.step64 (Model.new p) run).allow64 t r).1.checks64 (t + w - 1) r,
      c.limit = l ∧ c.passes = false) ∧
    1 ≤ w ∧ w ≤ p.burstSeconds * 1000 := by
  obtain ⟨hrun64, hfits, hparams⟩ := run64_eq hp hrun
  rw [hrun64] at hstamps hrefused ⊢
  generalize final Model.step (Model.new p) run = m at hstamps hrefused hfits hparams ⊢
  have hl' : l ≠ .concurrency := by
    rintro rfl
    simp at hl
  rw [hfits.allow64_eq hr.2 hr.1] at hrefused ⊢
  obtain ⟨hpass, hfail, hpos, hwindow⟩ := hfits.retry_after hstamps hrefused hl'
  have hafter := hfits.allow hr.2 hr.1
  rw [hparams] at hwindow
  have hhour := hp.burst.2
  have hshort : w ≤ 3600000 := hwindow.trans (by unfold Params.window maxBurstSeconds at *; omega)
  have htime : maxTime = 2 ^ 52 := rfl
  obtain ⟨hlow, hhigh⟩ := hr.1
  rw [hafter.checks64_eq hr.2 (by omega), hafter.checks64_eq hr.2 (by omega)]
  exact ⟨hpass, hfail, hpos, hwindow⟩

/-- Without a bound on the cost a reduced need is negative, and so is the level that is left: the
next request of one token is told to wait for 292 thousand years, at a burst of a second. -/
theorem unbounded_cost_defers_retry : ∃ (p : Params) (run : List Call) (t : Int) (r : ModelRequest)
    (w : Int), (final Model.step64 (Model.new p) run).StampsUpTo t r ∧
    ((final Model.step64 (Model.new p) run).allow64 t r).2 = ⟨false, some .tokens, w⟩ ∧
    p.burstSeconds * 1000 < w := by
  let r (cost : Int) : ModelRequest := ⟨[97], [109], cost, ⟨0, 1000, 0⟩, 0, []⟩
  refine ⟨⟨1, 1000⟩, [.allow 0 (r 153722867280913)], 0, r 1, 9223372036853840, ?_, by decide,
    by decide⟩
  exact stampsUpTo_of_all (by decide)

/-- Sixty requests a minute and ninety tokens a minute with a burst of two seconds: the second
request of two tokens has to wait for the tokens, and the wait of the requests is within it. -/
theorem retry_after_exact_tokens :
    let r : ModelRequest := ⟨[97], [109], 2, ⟨60, 90, 0⟩, 0, []⟩
    let m := final Model.step64 (Model.new ⟨2, 1000⟩) [.allow 1000 r, .allow 1010 r]
    (m.allow64 1020 r).2 = ⟨false, some .tokens, 647⟩ ∧
      (∀ c ∈ (m.allow64 1020 r).1.checks64 1667 r, c.passes = true) ∧
      ∃ c ∈ (m.allow64 1020 r).1.checks64 1666 r, c.limit = .tokens ∧ c.passes = false := by
  intro r m
  have href : (m.allow64 1020 r).2 = ⟨false, some .tokens, 647⟩ := by decide
  have hcall : ∀ t, InTime t → (Call.allow t r).Bounded := fun t ht => ⟨ht, by decide⟩
  have hexact := retry_after_exact ⟨2, 1000⟩ ⟨by decide, by decide⟩ [.allow 1000 r, .allow 1010 r]
    (by simpa using ⟨hcall 1000 (by decide), hcall 1010 (by decide)⟩) 1020 r
    (hcall 1020 (by decide)) .tokens 647 (stampsUpTo_of_all (by decide)) href (by decide)
  exact ⟨href, hexact.1, hexact.2.1⟩

end ServerFlow.Ratelimit
