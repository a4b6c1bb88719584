import Mathlib

/-!
# Arithmetic in doubles

A double is an integer of at most 53 bits times a power of two. An operation on doubles is the exact
operation followed by a rounding to nearest. What is said here holds for every such rounding
(`Nearest`), however ties are broken; `roundEven` is the usual one. There is no largest double here:
nothing below concerns numbers that overflow.

Rounding fixes doubles, integers up to `2^53` among them, and never takes a number across one. The
quotient of two integers may be rounded, but not up to the next integer as long as the dividend is
below `2^53` (`Nearest.floor_div`).
-/

namespace Double

/-- The numbers that a double can be. -/
def IsDouble (x : ℚ) : Prop := ∃ m e : ℤ, |m| < 2 ^ 53 ∧ -1074 ≤ e ∧ x = m * 2 ^ e

/-- A rounding to nearest: no double is closer than the one chosen. -/
structure Nearest (rnd : ℚ → ℚ) : Prop where
  isDouble : ∀ x, IsDouble (rnd x)
  nearest : ∀ x d, IsDouble d → |rnd x - x| ≤ |d - x|

theorem isDouble_int {n : ℤ} (h : |n| ≤ 2 ^ 53) : IsDouble n := by
  rcases h.lt_or_eq with hlt | heq
  · exact ⟨n, 0, hlt, by norm_num, by simp⟩
  · -- one bit, shifted
    rcases (abs_eq (by norm_num)).mp heq with rfl | rfl
    · exact ⟨1, 53, by norm_num, by norm_num, by norm_num⟩
    · exact ⟨-1, 53, by norm_num, by norm_num, by norm_num⟩

namespace Nearest

variable {rnd : ℚ → ℚ} (h : Nearest rnd)

include h

theorem eq_self {x : ℚ} (hx : IsDouble x) : rnd x = x := by
  have hle := h.nearest x x hx
  rw [sub_self, abs_zero] at hle
  exact sub_eq_zero.mp (abs_nonpos_iff.mp hle)

theorem int {n : ℤ} (hn : |n| ≤ 2 ^ 53) : rnd n = n := h.eq_self (isDouble_int hn)

/-- Rounding does not cross a double on the way up. -/
theorem le_of_le {x d : ℚ} (hd : IsDouble d) (hx : x ≤ d) : rnd x ≤ d := by
  have hle := h.nearest x d hd
  rw [abs_of_nonneg (sub_nonneg.mpr hx)] at hle
  linarith [le_abs_self (rnd x - x)]

/-- Nor on the way down. -/
theorem ge_of_ge {x d : ℚ} (hd : IsDouble d) (hx : d ≤ x) : d ≤ rnd x := by
  have hle := h.nearest x d hd
  rw [abs_of_nonpos (sub_nonpos.mpr hx)] at hle
  linarith [neg_abs_le (rnd x - x)]

/-- **Integer division through doubles.** The rounded quotient has the floor of the exact one. -/
theorem floor_div {a b : ℤ} (ha : 0 ≤ a) (ha' : a < 2 ^ 53) (hb : 0 < b) :
    ⌊rnd ((a : ℚ) / b)⌋ = a / b := by
  have hbq : (0 : ℚ) < b := by exact_mod_cast hb
  have hdiv := Int.mul_ediv_add_emod a b
  have hmod := Int.emod_nonneg a hb.ne'
  have hmod' := Int.emod_lt_of_pos a hb
  have hquot := Int.ediv_nonneg ha hb.le
  have hquot' : a / b ≤ a := Int.ediv_le_self b ha
  -- `N` is the next integer, and `r` is what `a` lacks to reach it
  obtain ⟨N, hN⟩ : ∃ N : ℕ, (N : ℤ) = a / b + 1 :=
    ⟨(a / b + 1).toNat, Int.toNat_of_nonneg (by omega)⟩
  obtain ⟨r, hr⟩ : ∃ r : ℤ, r = b - a % b := ⟨_, rfl⟩
  have hNb : (N : ℤ) * b = a + r := by
    rw [hN, add_mul, mul_comm]
    omega
  have hgap : (a : ℚ) / b = N - r / b := by
    have hq : (N : ℚ) * b = a + r := by exact_mod_cast hNb
    field_simp
    linarith
  refine Int.floor_eq_iff.mpr ⟨?_, ?_⟩
  · refine h.ge_of_ge (isDouble_int ?_) ?_
    · rw [abs_of_nonneg hquot]
      omega
    · rw [le_div_iff₀ hbq]
      have : a / b * b ≤ a := by
        rw [mul_comm]
        omega
      exact_mod_cast this
  · -- the double right below `N` is `N - 2^(-j)`, where `j` uses up the 53 bits
    have hNpos : 0 < N := by omega
    have hNle : N ≤ 2 ^ 53 := by omega
    obtain ⟨j, hj, hj'⟩ : ∃ j : ℕ, N * 2 ^ j ≤ 2 ^ 53 ∧ 2 ^ 53 < N * 2 ^ (j + 1) := by
      refine ⟨Nat.log 2 (2 ^ 53 / N), ?_, ?_⟩
      · have hlog := Nat.pow_log_le_self 2 (Nat.div_pos hNle hNpos).ne'
        exact (Nat.mul_le_mul_left N hlog).trans (Nat.mul_div_le _ _)
      · have hlog := Nat.lt_pow_succ_log_self (by norm_num : 1 < 2) (2 ^ 53 / N)
        rw [mul_comm]
        exact (Nat.div_lt_iff_lt_mul hNpos).mp hlog
    have hj53 : j ≤ 53 := by
      refine (Nat.pow_le_pow_iff_right (by norm_num : 1 < 2)).mp ?_
      exact (Nat.le_mul_of_pos_left _ hNpos).trans hj
    have hpow : (0 : ℚ) < 2 ^ j := by positivity
    have hbelow : IsDouble ((N : ℚ) - 1 / 2 ^ j) := by
      refine ⟨N * 2 ^ j - 1, -j, ?_, by omega, ?_⟩
      · have hone : 1 ≤ N * 2 ^ j := Nat.one_le_iff_ne_zero.mpr (by positivity)
        zify at hone hj
        rw [abs_of_nonneg (by omega)]
        omega
      · push_cast
        rw [zpow_neg, zpow_natCast]
        field_simp
    have hlt : rnd ((a : ℚ) / b) < N := by
      rcases le_or_gt ((a : ℚ) / b) (N - 1 / 2 ^ j) with hle | hgt
      · have hdown := h.le_of_le hbelow hle
        have : (0 : ℚ) < 1 / 2 ^ j := by positivity
        linarith
      · -- past it, `N` is further away than it is: otherwise `r` would have to be below 1
        by_contra hge
        have hge := not_lt.mp hge
        have hr₁ : (1 : ℤ) ≤ r := by omega
        have hinv : (0 : ℚ) < r / b := div_pos (by exact_mod_cast hr₁) hbq
        have hnear := h.nearest ((a : ℚ) / b) _ hbelow
        rw [abs_of_nonneg (by linarith), abs_of_neg (by linarith)] at hnear
        have hhalf : 2 * ((r : ℚ) / b) ≤ 1 / 2 ^ j := by linarith
        have hle : (r : ℚ) * 2 ^ (j + 1) ≤ b := by
          rw [le_div_iff₀ hpow] at hhalf
          field_simp at hhalf
          rw [pow_succ]
          linarith
        have hle' : r * 2 ^ (j + 1) ≤ b := by exact_mod_cast hle
        have hcontra : (N : ℤ) * 2 ^ (j + 1) * r ≤ a + r := by
          rw [← hNb, mul_assoc, mul_comm (2 ^ (j + 1)) r]
          exact mul_le_mul_of_nonneg_left hle' (by omega)
        have hmore : (2 ^ 53 + 1) * r ≤ (N : ℤ) * 2 ^ (j + 1) * r := by
          zify at hj'
          exact mul_le_mul_of_nonneg_right (by omega) (by omega)
        omega
    have hcast : ((a / b : ℤ) : ℚ) + 1 = N := by exact_mod_cast hN.symm
    rw [hcast]
    exact hlt

end Nearest

/-! ### Ties to even -/

/-- The integer next to a number, the even one of two. This is also what `%.0f` prints. -/
def roundInt (y : ℚ) : ℤ :=
  if y - ⌊y⌋ < 1 / 2 then ⌊y⌋
  else if y - ⌊y⌋ = 1 / 2 ∧ ⌊y⌋ % 2 = 0 then ⌊y⌋
  else ⌊y⌋ + 1

/-- The power of two that `x` is rounded to a multiple of: 53 bits are left, unless `x` is tiny. -/
def exponent (x : ℚ) : ℤ := max (Int.log 2 |x| - 52) (-1074)

def unit (x : ℚ) : ℚ := 2 ^ exponent x

def roundEven (x : ℚ) : ℚ := roundInt (x / unit x) * unit x

theorem roundInt_nearest (y : ℚ) (n : ℤ) : |(roundInt y : ℚ) - y| ≤ |(n : ℚ) - y| := by
  have hfloor := Int.floor_le y
  have hlt := Int.lt_floor_add_one y
  -- `n` is at the floor or below it, or above it
  have hn : (n : ℚ) ≤ ⌊y⌋ ∨ (⌊y⌋ : ℚ) + 1 ≤ n := by
    rcases le_or_gt n ⌊y⌋ with hle | hgt
    · exact .inl (by exact_mod_cast hle)
    · exact .inr (by exact_mod_cast hgt)
  have hdist : y - ⌊y⌋ ≤ |(n : ℚ) - y| ∨ ⌊y⌋ + 1 - y ≤ |(n : ℚ) - y| := by
    rcases hn with hle | hge
    · left
      rw [abs_sub_comm]
      exact (by linarith : y - ⌊y⌋ ≤ y - n).trans (le_abs_self _)
    · right
      exact (by linarith : (⌊y⌋ : ℚ) + 1 - y ≤ n - y).trans (le_abs_self _)
  unfold roundInt
  split
  next hlow =>
    rw [abs_sub_comm, abs_of_nonneg (by linarith)]
    rcases hdist with hd | hd <;> linarith
  next hhigh =>
    split
    next htie =>
      rw [abs_sub_comm, abs_of_nonneg (by linarith)]
      rcases hdist with hd | hd <;> linarith [htie.1]
    next =>
      push_cast
      rw [abs_of_nonneg (by linarith)]
      rcases hdist with hd | hd <;> linarith [not_lt.mp hhigh]

theorem roundInt_int (n : ℤ) : roundInt n = n := by
  unfold roundInt
  rw [Int.floor_intCast, if_pos (by norm_num)]

theorem roundInt_bounds (y : ℚ) : ⌊y⌋ ≤ roundInt y ∧ roundInt y ≤ ⌊y⌋ + 1 := by
  unfold roundInt
  split
  · omega
  · split <;> omega

section

variable (x : ℚ)

theorem unit_pos : 0 < unit x := by
  unfold unit
  positivity

theorem pow_mul_unit (k : ℕ) : (2 : ℚ) ^ k * unit x = 2 ^ (k + exponent x) := by
  unfold unit
  rw [zpow_add₀ (by norm_num), zpow_natCast]

/-- A number has at most 53 bits above its unit. -/
theorem abs_lt_unit : |x| < 2 ^ 53 * unit x := by
  have hlog := Int.lt_zpow_succ_log_self (by norm_num : 1 < 2) |x|
  rw [pow_mul_unit]
  refine hlog.trans_le ?_
  unfold exponent
  exact zpow_le_zpow_right₀ (by norm_num) (by omega)

theorem isDouble_mul_unit {n : ℤ} (hn : |n| ≤ 2 ^ 53) : IsDouble (n * unit x) := by
  have hexp : -1074 ≤ exponent x := le_max_right _ _
  rcases hn.lt_or_eq with hlt | heq
  · exact ⟨n, exponent x, hlt, hexp, rfl⟩
  · have hpow := pow_mul_unit x 53
    rcases (abs_eq (by norm_num)).mp heq with rfl | rfl
    · refine ⟨1, 53 + exponent x, by norm_num, by omega, ?_⟩
      rw [Int.cast_pow, Int.cast_ofNat, hpow, Int.cast_one, one_mul]
      rfl
    · refine ⟨-1, 53 + exponent x, by norm_num, by omega, ?_⟩
      rw [Int.cast_neg, Int.cast_pow, Int.cast_ofNat, neg_mul, hpow, Int.cast_neg, Int.cast_one,
        neg_one_mul]
      rfl

theorem isDouble_roundEven : IsDouble (roundEven x) := by
  refine isDouble_mul_unit x ?_
  have habs : |x / unit x| < 2 ^ 53 := by
    rw [abs_div, abs_of_pos (unit_pos x), div_lt_iff₀ (unit_pos x)]
    exact abs_lt_unit x
  obtain ⟨hlow, hhigh⟩ := abs_lt.mp habs
  obtain ⟨hfloor, hceil⟩ := roundInt_bounds (x / unit x)
  have hlow' : -(2 ^ 53) ≤ ⌊x / unit x⌋ := Int.le_floor.mpr (by push_cast; exact hlow.le)
  have hhigh' : ⌊x / unit x⌋ < 2 ^ 53 := Int.floor_lt.mpr (by push_cast; exact hhigh)
  exact abs_le.mpr ⟨by omega, by omega⟩

/-- No multiple of the unit is closer. -/
theorem roundEven_nearest_multiple (n : ℤ) : |roundEven x - x| ≤ |n * unit x - x| := by
  have hpos := unit_pos x
  have hscale : ∀ k : ℤ, |(k : ℚ) * unit x - x| = |(k : ℚ) - x / unit x| * unit x := by
    intro k
    rw [← abs_of_pos hpos, ← abs_mul, abs_of_pos hpos, sub_mul, div_mul_cancel₀ _ hpos.ne']
  unfold roundEven
  rw [hscale, hscale]
  exact mul_le_mul_of_nonneg_right (roundInt_nearest _ n) hpos.le

end

/-- A double with a smaller power of two is not above the last multiple of the unit before `x`, by
magnitude. -/
theorem small_double {x : ℚ} (hx : x ≠ 0) {m e : ℤ} (hm : |m| < 2 ^ 53) (he : -1074 ≤ e)
    (hsmall : e < exponent x) :
    |(m : ℚ) * 2 ^ e| ≤ 2 ^ 52 * unit x ∧ 2 ^ 52 * unit x ≤ |x| := by
  have hexp : exponent x = Int.log 2 |x| - 52 := by
    unfold exponent at hsmall ⊢
    omega
  have hlog := Int.zpow_log_le_self (by norm_num : 1 < 2) (abs_pos.mpr hx)
  rw [pow_mul_unit]
  refine ⟨?_, ?_⟩
  · have hmq : |(m : ℚ)| ≤ 2 ^ (53 : ℤ) := by exact_mod_cast hm.le
    calc |(m : ℚ) * 2 ^ e| = |(m : ℚ)| * 2 ^ e := by rw [abs_mul, abs_of_pos (by positivity : (0 : ℚ) < 2 ^ e)]
      _ ≤ 2 ^ (53 : ℤ) * 2 ^ e := mul_le_mul_of_nonneg_right hmq (by positivity)
      _ = 2 ^ (53 + e) := (zpow_add₀ (by norm_num) _ _).symm
      _ ≤ 2 ^ ((52 : ℕ) + exponent x) := zpow_le_zpow_right₀ (by norm_num) (by push_cast; omega)
  · rw [hexp]
    refine le_trans (le_of_eq ?_) hlog
    push_cast
    congr 1
    omega

theorem nearest_roundEven : Nearest roundEven where
  isDouble := isDouble_roundEven
  nearest := by
    rintro x d ⟨m, e, hm, he, rfl⟩
    by_cases hx : x = 0
    · have hzero : roundEven x = 0 := by
        unfold roundEven
        rw [hx, zero_div, show roundInt 0 = 0 from roundInt_int 0]
        simp
      rw [hzero, hx, sub_zero, abs_zero]
      exact abs_nonneg _
    · rcases le_or_gt (exponent x) e with hle | hlt
      · -- a multiple of the unit itself
        have hmult : (m : ℚ) * 2 ^ e = ((m * 2 ^ (e - exponent x).toNat : ℤ) : ℚ) * unit x := by
          unfold unit
          push_cast
          rw [mul_assoc, ← zpow_natCast, ← zpow_add₀ (by norm_num), Int.toNat_of_nonneg (by omega)]
          congr 2
          omega
        rw [hmult]
        exact roundEven_nearest_multiple x _
      · obtain ⟨hd, hx'⟩ := small_double hx hm he hlt
        obtain ⟨hd₁, hd₂⟩ := abs_le.mp hd
        rcases le_or_gt 0 x with hpos | hneg
        · rw [abs_of_nonneg hpos] at hx'
          have hnear := roundEven_nearest_multiple x (2 ^ 52)
          push_cast at hnear
          refine hnear.trans ?_
          rw [abs_of_nonpos (by linarith), abs_of_nonpos (by linarith)]
          linarith
        · rw [abs_of_neg hneg] at hx'
          have hnear := roundEven_nearest_multiple x (-2 ^ 52)
          push_cast at hnear
          refine hnear.trans ?_
          rw [abs_of_nonneg (by linarith), abs_of_nonneg (by linarith)]
          linarith

end Double
