import SymbolicAlgebra.Number.Arithmetic
import SymbolicAlgebra.Proofs.DecimalRounding

/-!
# Proofs/FlooredModulo — the remainder of decimals

The remainder `x - y * ⌊x / y⌋` takes three steps, each of which is rounded.  It is what it should be if the
quotient is not so near below a whole number that it is rounded up to it, and if the product and the
difference fit the precision (`Decimal.IsClear`): then the product and the difference are exact, and the
remainder lies between zero and the divisor (`Number.mod_floored`).  That is so for decimals which have, over
one common last place, a divisor within the precision and a dividend of a fifth of that at most
(`Decimal.isClear_of_aligned`); a longer dividend can be rounded to a multiple of the divisor above it, and
then the remainder is negative (`Number.mod_rounds_up`).
-/

namespace SymbolicAlgebra

namespace Decimal

variable {p : ℕ} {x y : Decimal}

/-! ## Remainders that rounding does not disturb -/

/-- A quotient whose rounding keeps the whole part, and a product and a difference that are not rounded. -/
structure IsClear (p : ℕ) (x y : ℚ) : Prop where
  quotient_lt : |x / y| < 10 ^ p
  quotient_moderate : IsModerateValue (x / y)
  gap : x / y + roundingUnit p (x / y) / 2 < ⌊x / y⌋ + 1
  product : Fits p (y * ⌊x / y⌋)
  remainder : Fits p (x - y * ⌊x / y⌋)

/-- **A clear remainder is exact.** -/
theorem IsClear.gives_floorMod (h : IsClear p x.toRat y.toRat) (hp : 0 < p) (hx : x.isFinite = true)
    (hy : y.isFinite = true) (hy0 : y.isZero = false) :
    Gives (floorMod p x y) (x.toRat - y.toRat * ⌊x.toRat / y.toRat⌋) := by
  obtain ⟨q, hq, hfinite, hnear⟩ := exists_div_isNear hp hx hy hy0 h.quotient_moderate
  obtain ⟨hwhole, hfloor⟩ := gives_floor hfinite
  rw [hnear.floor_eq h.quotient_lt h.gap] at hfloor
  have hproduct := h.product
  rw [← hfloor] at hproduct
  obtain ⟨m, hm, hmfinite, hvalue⟩ := gives_mul hp hy hwhole hproduct
  rw [hfloor] at hvalue
  have hremainder := h.remainder
  rw [← hvalue] at hremainder ⊢
  have hmod : floorMod p x y = sub p x m := by
    simp only [floorMod, hq, bind, Except.bind, hm]
  rw [hmod]
  exact gives_sub hp hx hmfinite hremainder

/-- A floored remainder lies between zero and the divisor. -/
theorem floored_bounds (x : ℚ) {y : ℚ} :
    (0 < y → 0 ≤ x - y * ⌊x / y⌋ ∧ x - y * ⌊x / y⌋ < y) ∧
      (y < 0 → y < x - y * ⌊x / y⌋ ∧ x - y * ⌊x / y⌋ ≤ 0) := by
  constructor
  · intro hy
    rw [mul_comm y]
    exact ⟨Int.sub_floor_div_mul_nonneg x hy, Int.sub_floor_div_mul_lt x hy⟩
  · intro hy
    have hnonneg := Int.sub_floor_div_mul_nonneg (-x) (neg_pos.2 hy)
    have hlt := Int.sub_floor_div_mul_lt (-x) (neg_pos.2 hy)
    rw [neg_div_neg_eq] at hnonneg hlt
    constructor <;> linarith

/-! ## Aligned decimals -/

theorem isModerateValue_of_le {v : ℚ} {k : ℤ} (h : |v| ≤ 10 ^ k) (hk : k ≤ maxExponent) :
    IsModerateValue v := h.trans (zpow_le_zpow_right₀ (by norm_num) hk)

/-- Coefficients within the precision fit. -/
theorem fits_of_coefficient {n e : ℤ} (hn : |n| < 10 ^ p) (hlow : tinyExponent p ≤ e)
    (hhigh : e + p ≤ maxExponent) : Fits p (n * 10 ^ e) where
  digits := ⟨n, e, rfl, hn, hlow⟩
  moderate := by
    refine isModerateValue_of_le (abs_mul_zpow_lt hn e).le ?_
    rwa [add_comm]

section Aligned

variable {a b : ℤ}

/-- The multiple of the divisor is not above the divisor, or not above twice the dividend. -/
theorem abs_mul_floor_le (a : ℤ) (hb : b ≠ 0) :
    |b * ⌊(a / b : ℚ)⌋| ≤ |b| ∨ |b * ⌊(a / b : ℚ)⌋| ≤ 2 * |a| := by
  have hle := Int.floor_le (a / b : ℚ)
  have hlt := Int.lt_floor_add_one (a / b : ℚ)
  rw [abs_mul]
  by_cases hsmall : |(a / b : ℚ)| < 1
  · rw [abs_lt] at hsmall
    have hfloor : |⌊(a / b : ℚ)⌋| ≤ 1 := by
      have hupper : (⌊(a / b : ℚ)⌋ : ℚ) < 1 := by linarith
      have hlower : (-2 : ℚ) < ⌊(a / b : ℚ)⌋ := by linarith
      rw [abs_le]
      exact ⟨by exact_mod_cast Int.add_one_le_of_lt (by exact_mod_cast hlower : -2 < ⌊(a / b : ℚ)⌋),
        by exact_mod_cast hupper.le⟩
    exact .inl (mul_le_of_le_one_right (abs_nonneg b) hfloor)
  · right
    have hb' : (b : ℚ) ≠ 0 := by exact_mod_cast hb
    have hfloor : |(⌊(a / b : ℚ)⌋ : ℚ)| ≤ 2 * |(a / b : ℚ)| := by
      rcases abs_cases (a / b : ℚ) with ⟨h, -⟩ | ⟨h, -⟩ <;> rw [h] at hsmall ⊢ <;> rw [abs_le] <;>
        constructor <;> linarith
    have hmul := mul_le_mul_of_nonneg_left hfloor (abs_nonneg (b : ℚ))
    have hcancel : |(b : ℚ)| * (2 * |(a / b : ℚ)|) = 2 * |(a : ℚ)| := by
      rw [abs_div]
      field_simp
    rw [hcancel] at hmul
    exact_mod_cast hmul

/-- A whole number is at least the inverse of the denominator above a fraction that is below it. -/
theorem inv_le_floor_add_one_sub (a : ℤ) (hb : b ≠ 0) :
    1 / |(b : ℚ)| ≤ ⌊(a / b : ℚ)⌋ + 1 - a / b := by
  have hb' : (b : ℚ) ≠ 0 := by exact_mod_cast hb
  have hpos : 0 < (⌊(a / b : ℚ)⌋ + 1 - a / b : ℚ) := by
    have := Int.lt_floor_add_one (a / b : ℚ)
    linarith
  have hvalue : (⌊(a / b : ℚ)⌋ + 1 - a / b : ℚ) = ((⌊(a / b : ℚ)⌋ * b + b - a : ℤ) : ℚ) / b := by
    push_cast
    field_simp
  have hne : ⌊(a / b : ℚ)⌋ * b + b - a ≠ 0 := fun hzero => by
    rw [hvalue, hzero, Int.cast_zero, zero_div] at hpos
    exact hpos.false
  rw [← abs_of_pos hpos, hvalue, abs_div]
  refine div_le_div_of_nonneg_right ?_ (abs_nonneg _)
  exact_mod_cast Int.one_le_abs hne

/-- **The quotient of short coefficients is short of the next whole number by more than half a unit.** -/
theorem gap_of_aligned (hb : b ≠ 0) (ha : 5 * |a| < 10 ^ p) (hbp : |b| < 10 ^ p) :
    (a / b : ℚ) + roundingUnit p (a / b) / 2 < ⌊(a / b : ℚ)⌋ + 1 := by
  have hb' : (0 : ℚ) < |(b : ℚ)| := by simpa using hb
  have ha : 5 * |(a : ℚ)| < 10 ^ p := by exact_mod_cast ha
  have hbp : |(b : ℚ)| < 10 ^ p := by exact_mod_cast hbp
  have hpos : (0 : ℚ) < 10 ^ p := by positivity
  have hunit : roundingUnit p (a / b) < 2 / |(b : ℚ)| := by
    refine max_lt ?_ ?_
    · rw [abs_div, div_mul_eq_mul_div, div_lt_div_iff_of_pos_right hb', zpow_sub₀ (by norm_num), zpow_one,
        zpow_natCast, ← mul_div_assoc, div_lt_iff₀ hpos]
      linarith
    · rw [lt_div_iff₀ hb', mul_comm]
      have htiny : (10 : ℚ) ^ p * 10 ^ tinyExponent p ≤ 1 := by
        rw [← zpow_natCast, ← zpow_add₀ (by norm_num), ← zpow_zero (10 : ℚ)]
        refine zpow_le_zpow_right₀ (by norm_num) ?_
        simp only [tinyExponent, maxExponent]
        omega
      have hsmall := mul_lt_mul_of_pos_right hbp (by positivity : (0 : ℚ) < 10 ^ tinyExponent p)
      linarith
  have hgap := inv_le_floor_add_one_sub a hb
  have hhalf : 2 / |(b : ℚ)| = 2 * (1 / |(b : ℚ)|) := by ring
  rw [hhalf] at hunit
  linarith

/-- **Short decimals over one common last place have a clear remainder.** -/
theorem isClear_of_aligned {e : ℤ} (hb : b ≠ 0) (ha : 5 * |a| < 10 ^ p) (hbp : |b| < 10 ^ p)
    (hlow : tinyExponent p ≤ e) (hhigh : e + p ≤ maxExponent) (hp : p ≤ maxExponent) :
    IsClear p (a * 10 ^ e) (b * 10 ^ e) := by
  have hunit : (10 : ℚ) ^ e ≠ 0 := by positivity
  have hquotient : (a * 10 ^ e / (b * 10 ^ e) : ℚ) = a / b := mul_div_mul_right _ _ hunit
  have hlt : |(a / b : ℚ)| < 10 ^ p := by
    have hone : (1 : ℚ) ≤ |(b : ℚ)| := by exact_mod_cast Int.one_le_abs hb
    have hle : |(a / b : ℚ)| ≤ |(a : ℚ)| := by
      rw [abs_div]
      exact div_le_self (abs_nonneg _) hone
    have ha : 5 * |(a : ℚ)| < 10 ^ p := by exact_mod_cast ha
    linarith [abs_nonneg (a : ℚ)]
  have hproduct : (b * 10 ^ e * ⌊(a / b : ℚ)⌋ : ℚ) = ((b * ⌊(a / b : ℚ)⌋ : ℤ) : ℚ) * 10 ^ e := by
    push_cast
    ring
  have hremainder : (a * 10 ^ e - b * 10 ^ e * ⌊(a / b : ℚ)⌋ : ℚ) =
      ((a - b * ⌊(a / b : ℚ)⌋ : ℤ) : ℚ) * 10 ^ e := by
    push_cast
    ring
  constructor
  · rwa [hquotient]
  · rw [hquotient]
    exact isModerateValue_of_le (by exact_mod_cast hlt.le) hp
  · rw [hquotient]
    exact gap_of_aligned hb ha hbp
  · rw [hquotient, hproduct]
    refine fits_of_coefficient ?_ hlow hhigh
    rcases abs_mul_floor_le a hb with h | h <;> linarith [abs_nonneg a]
  · rw [hquotient, hremainder]
    refine fits_of_coefficient (lt_of_le_of_lt ?_ hbp) hlow hhigh
    obtain ⟨hpositive, hnegative⟩ := floored_bounds (a : ℚ) (y := b)
    have hcast : ((a - b * ⌊(a / b : ℚ)⌋ : ℤ) : ℚ) = a - b * ⌊(a / b : ℚ)⌋ := by push_cast; ring
    rw [← hcast] at hpositive hnegative
    rcases lt_or_gt_of_ne hb with h | h
    · obtain ⟨hlt, hle⟩ := hnegative (by exact_mod_cast h)
      rw [abs_of_neg h, abs_of_nonpos (by exact_mod_cast hle)]
      exact neg_le_neg (by exact_mod_cast hlt.le)
    · obtain ⟨hle, hlt⟩ := hpositive (by exact_mod_cast h)
      rw [abs_of_pos h, abs_of_nonneg (by exact_mod_cast hle)]
      exact_mod_cast hlt.le

end Aligned

end Decimal

namespace Number

open Decimal (IsClear)

variable {p : ℕ} {x y : Decimal}

/-- The remainder of decimals of a precision is computed at that precision. -/
theorem mod_big {r : Decimal} (hy0 : y.isZero = false) (hr : Decimal.floorMod p x y = .ok r) :
    mod (.real (.big x p)) (.real (.big y p)) = .ok (.real (.big r p)) := by
  have hzero : (Scalar.big y p).isZero = false := hy0
  simp only [mod, binary, Scalar.binary, hzero, Bool.and_false, Bool.false_eq_true, ↓reduceIte,
    Scalar.bigLane?, max_self, Scalar.toDecimal, bind, Except.bind, Operation.onDecimal, hr, liftDecimal]
  rfl

/-- **The remainder of decimals is floored.**  The remainder of two finite decimals of a precision, with a
divisor other than zero and undisturbed by rounding, is what is left when the divisor is taken as often as
the whole part of the quotient says: at least zero and below a positive divisor, at most zero and above a
negative one. -/
theorem mod_floored (hp : 0 < p) (hx : x.isFinite = true) (hy : y.isFinite = true) (hy0 : y.isZero = false)
    (h : IsClear p x.toRat y.toRat) :
    ∃ r : Decimal, mod (.real (.big x p)) (.real (.big y p)) = .ok (.real (.big r p)) ∧
      r.isFinite = true ∧ r.toRat = x.toRat - y.toRat * ⌊x.toRat / y.toRat⌋ ∧
      (0 < y.toRat → 0 ≤ r.toRat ∧ r.toRat < y.toRat) ∧ (y.toRat < 0 → y.toRat < r.toRat ∧ r.toRat ≤ 0) := by
  obtain ⟨r, hr, hfinite, hvalue⟩ := h.gives_floorMod hp hx hy hy0
  refine ⟨r, mod_big hy0 hr, hfinite, hvalue, ?_⟩
  rw [hvalue]
  exact Decimal.floored_bounds x.toRat

/-- The remainder of `7.5` by `-2.0` with five digits is `-1 / 2`. -/
theorem mod_floored_negative :
    IsClear 5 (Decimal.finite false 75 (-1)).toRat (Decimal.finite true 20 (-1)).toRat ∧ ∃ r : Decimal,
      mod (.real (.big (.finite false 75 (-1)) 5)) (.real (.big (.finite true 20 (-1)) 5)) =
        .ok (.real (.big r 5)) ∧ r.toRat = -1 / 2 := by
  have hx : (Decimal.finite false 75 (-1)).toRat = ((75 : ℤ) : ℚ) * 10 ^ (-1 : ℤ) := by
    simp [Decimal.toRat_finite, Decimal.withSign]
  have hy : (Decimal.finite true 20 (-1)).toRat = ((-20 : ℤ) : ℚ) * 10 ^ (-1 : ℤ) := by
    simp [Decimal.toRat_finite, Decimal.withSign]
  have hclear : IsClear 5 (Decimal.finite false 75 (-1)).toRat (Decimal.finite true 20 (-1)).toRat := by
    rw [hx, hy]
    exact Decimal.isClear_of_aligned (by decide) (by decide) (by decide) (by decide) (by decide) (by decide)
  obtain ⟨r, hr, -, hvalue, -⟩ := mod_floored (by decide) rfl rfl rfl hclear
  refine ⟨hclear, r, hr, ?_⟩
  rw [hvalue, hx, hy]
  have hfloor : ⌊(((75 : ℤ) : ℚ) * 10 ^ (-1 : ℤ)) / (((-20 : ℤ) : ℚ) * 10 ^ (-1 : ℤ))⌋ = -4 := by
    rw [Int.floor_eq_iff]
    norm_num
  rw [hfloor]
  norm_num

/-- **A rounded quotient can spoil the remainder**: with one digit, that of `3` by `2` is `-1`. -/
theorem mod_rounds_up :
    0 < (Decimal.ofInt 2).toRat ∧ ∃ r : Decimal,
      mod (.real (.big (.ofInt 3) 1)) (.real (.big (.ofInt 2) 1)) = .ok (.real (.big r 1)) ∧
        r.isFinite = true ∧ r.toRat < 0 := by
  have hr : Decimal.floorMod 1 (.ofInt 3) (.ofInt 2) = .ok (.finite true 1 0) := by decide +kernel
  exact ⟨by decide +kernel, _, mod_big rfl hr, rfl, by decide +kernel⟩

end Number

end SymbolicAlgebra
