import SymbolicAlgebra.Number.Functions
import SymbolicAlgebra.Proofs.DecimalRounding

/-!
# Proofs/PiSeries — the series for `π` comes to an end

The partial sums of the series for `π` are rounded, and the series stops when one of them is equal to the one
before.  Each term is at most a quarter of the one before, up to three rounding errors, so that it is below
half a unit of the last place of the sum after two terms for each digit (`Decimal.PiState.exists_next`).  The
sums stay between one and ten, hence keep their last place, and less than half a unit of it does not change
them (`Decimal.exists_add_unit`, `Decimal.eq_of_near_unit`).

`Decimal.Stops` is the series without a bound on the number of its terms.
-/

namespace SymbolicAlgebra.Decimal

variable {p : ℕ} {v r : ℚ} {c d : ℕ} {e f : ℤ} {x y : Decimal}

/-! ## Rounding errors -/

/-- With three digits, a value grows by one part in two hundred at most, or by half of the last place there
is. -/
theorem IsNear.le (h : IsNear p v r) (hp : 3 ≤ p) (hv : 0 ≤ v) :
    r ≤ 201 / 200 * v + 10 ^ tinyExponent p / 2 := by
  have hunit : roundingUnit p v ≤ v / 100 + 10 ^ tinyExponent p := by
    have htiny : (0 : ℚ) < 10 ^ tinyExponent p := by positivity
    refine max_le ?_ (le_add_of_nonneg_left (by positivity))
    have hdigits : (10 : ℚ) ^ (1 - p : ℤ) ≤ 1 / 100 := by
      calc (10 : ℚ) ^ (1 - p : ℤ) ≤ 10 ^ (-2 : ℤ) := zpow_le_zpow_right₀ (by norm_num) (by omega)
        _ = 1 / 100 := by norm_num
    rw [abs_of_nonneg hv]
    linarith [mul_le_mul_of_nonneg_left hdigits hv]
  have hnear := (le_abs_self _).trans h.abs_sub_le
  linarith

/-! ## Sums with a fixed last place -/

/-- The unit of the last place at a precision, for values between one and ten. -/
def lastUnit (p : ℕ) : ℚ := 10 ^ (1 - p : ℤ)

theorem lastUnit_pos (p : ℕ) : 0 < lastUnit p := by
  rw [lastUnit]
  positivity

theorem lastUnit_le_one (hp : 0 < p) : lastUnit p ≤ 1 := by
  rw [lastUnit, ← zpow_zero (10 : ℚ)]
  exact zpow_le_zpow_right₀ (by norm_num) (by omega)

theorem hundred_le : (100 : ℚ) ≤ 10 ^ maxExponent := by
  calc (100 : ℚ) = 10 ^ (2 : ℤ) := by norm_num
    _ ≤ 10 ^ maxExponent := zpow_le_zpow_right₀ (by norm_num) (by decide)

/-- The leading digit of a value between one and ten. -/
theorem lead_eq_one (hone : 1 ≤ (c : ℚ) * 10 ^ e) (hten : (c : ℚ) * 10 ^ e < 10) :
    c ≠ 0 ∧ e + digitCount c = 1 := by
  have hc : c ≠ 0 := by
    rintro rfl
    norm_num at hone
  obtain ⟨hle, hlt⟩ := magnitude_bounds hc e
  have hbelow : e + digitCount c - 1 < 1 :=
    (zpow_lt_zpow_iff_right₀ (by norm_num)).1 (hle.trans_lt (by rwa [zpow_one]))
  have habove : 0 < e + (digitCount c : ℤ) :=
    (zpow_lt_zpow_iff_right₀ (a := (10 : ℚ)) (by norm_num)).1 (by rw [zpow_zero]; exact hone.trans_lt hlt)
  exact ⟨hc, by omega⟩

/-- A value between one and ten is rounded to a multiple of the unit. -/
theorem exists_round_unit (hp : 0 < p) (hone : 1 ≤ (c : ℚ) * 10 ^ e) (hten : (c : ℚ) * 10 ^ e < 10) :
    ∃ c' e', ∃ j : ℤ, round p false c e = .ok (.finite false c' e') ∧
      (c' : ℚ) * 10 ^ e' = j * lastUnit p ∧ |j * lastUnit p - c * 10 ^ e| ≤ lastUnit p / 2 := by
  obtain ⟨hc, hlead⟩ := lead_eq_one hone hten
  have hmoderate : (c : ℚ) * 10 ^ e ≤ 10 ^ maxExponent := by linarith [hundred_le]
  have hplace : place p c e = 1 - p := by
    rw [place, hlead, tinyExponent, maxExponent]
    omega
  obtain ⟨c', e', hround, hvalue⟩ := exists_round_eq hp false hc hmoderate
  rw [hplace] at hvalue
  split at hvalue
  next hlt =>
    refine ⟨c', e', (divHalfEven c (10 ^ (1 - p - e : ℤ).toNat) : ℕ), hround, ?_, ?_⟩
    · rw [hvalue, lastUnit, Int.cast_natCast]
    · exact abs_kept_sub_le hlt.le c
  next hle =>
    obtain ⟨j, hj⟩ := exists_multiple (not_lt.1 hle) (c : ℤ)
    rw [Int.cast_natCast, ← lastUnit] at hj
    refine ⟨c', e', j, hround, by rw [hvalue, hj], ?_⟩
    rw [hj, sub_self, abs_zero]
    exact (half_pos (lastUnit_pos p)).le

/-- A multiple of a unit that is less than half a unit away is no other one. -/
theorem eq_of_near_unit {u : ℚ} (hu : 0 < u) {i j : ℤ} (h : |(j : ℚ) * u - i * u| < u) : j = i := by
  rw [← sub_mul, abs_mul, abs_of_pos hu, mul_lt_iff_lt_one_left hu] at h
  have hlt : |j - i| < 1 := by exact_mod_cast h
  rw [Int.abs_lt_one_iff] at hlt
  omega

/-- What replaces a negligible addend is negligible too. -/
theorem negligible_cases (p : ℕ) (hc : e + digitCount c = 1) (hd : d ≠ 0) :
    negligible p c e d f = (d, f) ∨ ∃ f', negligible p c e d f = (1, f') ∧
      (d : ℚ) * 10 ^ f ≤ lastUnit p / 100 ∧ (10 : ℚ) ^ f' ≤ lastUnit p / 100 := by
  have hunit : lastUnit p / 100 = 10 ^ (-p - 1 : ℤ) := by
    rw [lastUnit, show (1 - p : ℤ) = (-p - 1) + 2 by omega, zpow_add₀ (by norm_num)]
    norm_num
  unfold negligible
  simp only
  split
  next hsmall =>
    refine .inr ⟨_, rfl, ?_, ?_⟩
    · rw [hunit]
      exact (magnitude_bounds hd f).2.le.trans (zpow_le_zpow_right₀ (by norm_num) (by omega))
    · rw [hunit]
      exact zpow_le_zpow_right₀ (by norm_num) (by omega)
  next => exact .inl rfl

/-- **A value between one and ten and a smaller one are added** and rounded, unless the smaller one is far
below the last place; then something else far below it is added. -/
theorem exists_addFinite_eq (p : ℕ) (hc : e + digitCount c = 1) (hd : d ≠ 0)
    (hd1 : f + digitCount d ≤ 1) : ∃ d' f', addFinite p false c e false d f =
        round p false (c * 10 ^ (e - min e f').toNat + d' * 10 ^ (f' - min e f').toNat) (min e f') ∧
      ((d' : ℚ) * 10 ^ f' = d * 10 ^ f ∨
        (d : ℚ) * 10 ^ f ≤ lastUnit p / 100 ∧ (d' : ℚ) * 10 ^ f' ≤ lastUnit p / 100) := by
  have hround : ∀ d' f',
      (if e < f then (negligible p d f c e, (d, f)) else ((c, e), negligible p c e d f)) =
        ((c, e), (d', f')) → addFinite p false c e false d f =
        round p false (c * 10 ^ (e - min e f').toNat + d' * 10 ^ (f' - min e f').toNat) (min e f') := by
    intro d' f' hkept
    unfold addFinite
    rw [hkept]
    simp only [signed, Bool.false_eq_true, ↓reduceIte, Nat.pow_eq, Bool.and_false, Bool.or_false]
    norm_cast
  by_cases hef : e < f
  · -- the first value is not below the last place of the second one
    refine ⟨d, f, hround d f ?_, .inl rfl⟩
    rw [if_pos hef, negligible, if_neg (by omega)]
  · rcases negligible_cases (f := f) p hc hd with hkept | ⟨f', hkept, hbelow, hbelow'⟩
    · exact ⟨d, f, hround d f (by rw [if_neg hef, hkept]), .inl rfl⟩
    · refine ⟨1, f', hround 1 f' (by rw [if_neg hef, hkept]), .inr ⟨hbelow, ?_⟩⟩
      rwa [Nat.cast_one, one_mul]

/-- Two magnitudes in units of the last digit of both. -/
theorem aligned_add (c : ℕ) (e : ℤ) (d : ℕ) (f : ℤ) :
    ((c * 10 ^ (e - min e f).toNat + d * 10 ^ (f - min e f).toNat : ℕ) : ℚ) * 10 ^ min e f =
      c * 10 ^ e + d * 10 ^ f := by
  rw [zpow_eq_mul (min_le_left e f), zpow_eq_mul (min_le_right e f)]
  push_cast
  ring

/-- A sum of two positive values, one of them a multiple of the unit, is rounded to a multiple of the unit. -/
theorem exists_addFinite_unit (hp : 0 < p) {i : ℤ} (hi : (c : ℚ) * 10 ^ e = i * lastUnit p)
    (hone : 1 ≤ (c : ℚ) * 10 ^ e) (hd : d ≠ 0) (hnine : (c : ℚ) * 10 ^ e + d * 10 ^ f < 9) :
    ∃ c' e', ∃ j : ℤ, addFinite p false c e false d f = .ok (.finite false c' e') ∧
      (c' : ℚ) * 10 ^ e' = j * lastUnit p ∧
      |j * lastUnit p - (c * 10 ^ e + d * 10 ^ f)| ≤ lastUnit p / 2 := by
  have hadded := magnitude_nonneg d f
  obtain ⟨-, hlead⟩ := lead_eq_one hone (by linarith)
  have hd1 : f + digitCount d ≤ 1 := by
    have hlt : f + (digitCount d : ℤ) - 1 < 1 := by
      rw [← zpow_lt_zpow_iff_right₀ (a := (10 : ℚ)) (by norm_num), zpow_one]
      exact (magnitude_bounds hd f).1.trans_lt (by linarith)
    omega
  obtain ⟨d', f', hadd, hkept⟩ := exists_addFinite_eq p hlead hd hd1
  have hadded' := magnitude_nonneg d' f'
  have hunit := lastUnit_pos p
  have hunit1 := lastUnit_le_one hp
  have hsum := aligned_add c e d' f'
  obtain ⟨c', e', j, hround, hj, hnear⟩ := exists_round_unit hp
    (by rw [hsum]; linarith) (by rw [hsum]; rcases hkept with h | h <;> linarith)
  refine ⟨c', e', j, hadd.trans hround, hj, ?_⟩
  rw [hsum] at hnear
  rcases hkept with h | ⟨hbelow, hbelow'⟩
  · rwa [h] at hnear
  · -- the sum is the first value, and the second one is less than half a unit
    obtain rfl : j = i := by
      refine eq_of_near_unit hunit ?_
      rw [abs_le] at hnear
      rw [abs_lt, ← hi]
      constructor <;> linarith
    rw [← hi, sub_add_cancel_left, abs_neg, abs_of_nonneg hadded]
    linarith

/-- A multiple of the unit below ten has few digits. -/
theorem multiple_lt {i : ℤ} (h : i * lastUnit p < 10) : i < 10 ^ p := by
  have hten : (10 : ℚ) = ((10 ^ p : ℤ) : ℚ) * lastUnit p := by
    rw [lastUnit]
    push_cast
    rw [← zpow_natCast, ← zpow_add₀ (by norm_num), show (p : ℤ) + (1 - p) = 1 by omega, zpow_one]
  rw [hten, mul_lt_mul_iff_of_pos_right (lastUnit_pos p)] at h
  exact_mod_cast h

/-- A multiple of the unit below ten fits the precision. -/
theorem fits_multiple {i : ℤ} (h0 : 0 ≤ i * lastUnit p) (h : i * lastUnit p < 10) :
    Fits p (i * lastUnit p) where
  digits := by
    have hi : 0 ≤ i := by exact_mod_cast nonneg_of_mul_nonneg_left h0 (lastUnit_pos p)
    refine ⟨i, 1 - p, rfl, by rw [abs_of_nonneg hi]; exact multiple_lt h, ?_⟩
    rw [tinyExponent, maxExponent]
    omega
  moderate := by
    rw [IsModerateValue, abs_of_nonneg h0]
    linarith [hundred_le]

theorem toRat_unsigned (c : ℕ) (e : ℤ) : toRat (.finite false c e) = c * 10 ^ e := by
  rw [toRat_finite, withSign, if_neg Bool.false_ne_true]

/-- A positive value has no sign. -/
theorem exists_unsigned (hx : x.isFinite = true) (hpos : 0 < x.toRat) :
    ∃ c e, x = .finite false c e ∧ c ≠ 0 := by
  obtain ⟨s, c, e, rfl⟩ := exists_finite hx
  rw [toRat_finite] at hpos
  have hmagnitude := magnitude_nonneg c e
  have hs : s = false := by
    cases s with
    | false => rfl
    | true =>
        simp only [withSign, ↓reduceIte] at hpos
        linarith
  subst hs
  refine ⟨c, e, rfl, ?_⟩
  rintro rfl
  simp at hpos

/-- **A sum below nine**, of a multiple of the unit that is at least one and something that is not negative,
is rounded to a multiple of the unit. -/
theorem exists_add_unit (hp : 0 < p) (hx : x.isFinite = true) (hy : y.isFinite = true) {i : ℤ}
    (hi : x.toRat = i * lastUnit p) (hone : 1 ≤ x.toRat) (hy0 : 0 ≤ y.toRat)
    (hnine : x.toRat + y.toRat < 9) :
    ∃ z, add p x y = .ok z ∧ z.isFinite = true ∧ ∃ j : ℤ, z.toRat = j * lastUnit p ∧
      |j * lastUnit p - (x.toRat + y.toRat)| ≤ lastUnit p / 2 := by
  rcases hy0.eq_or_lt with hzero | hpos
  · -- nothing is added
    have hfits : Fits p (x.toRat + y.toRat) := by
      rw [← hzero, add_zero, hi]
      exact fits_multiple (by linarith) (by linarith)
    obtain ⟨z, hadd, hz, hvalue⟩ := gives_add hp hx hy hfits
    refine ⟨z, hadd, hz, i, by rw [hvalue, ← hzero, add_zero, hi], ?_⟩
    rw [← hzero, add_zero, hi, sub_self, abs_zero]
    exact (half_pos (lastUnit_pos p)).le
  · obtain ⟨c, e, rfl, hc⟩ := exists_unsigned hx (by linarith)
    obtain ⟨d, f, rfl, hd⟩ := exists_unsigned hy hpos
    rw [toRat_unsigned] at hi hone hnine ⊢
    rw [toRat_unsigned] at hnine ⊢
    obtain ⟨c', e', j, hadd, hj, hnear⟩ := exists_addFinite_unit hp hi hone hd hnine
    refine ⟨.finite false c' e', ?_, rfl, j, by rw [toRat_unsigned, hj], hnear⟩
    simp only [add, hc, hd, false_and, ↓reduceIte]
    exact hadd

/-! ## The terms -/

/-- The last place there is, for three digits and more, is far below that of a value between one and ten. -/
theorem tiny_mul_le (p : ℕ) : (10 : ℚ) ^ tinyExponent p * 10 ^ p ≤ 1 / 1000 := by
  rw [← zpow_natCast, ← zpow_add₀ (by norm_num), tinyExponent, maxExponent]
  calc (10 : ℚ) ^ (-999999 - (p : ℤ) + 1 + p) ≤ 10 ^ (-3 : ℤ) :=
        zpow_le_zpow_right₀ (by norm_num) (by omega)
    _ = 1 / 1000 := by norm_num

/-- The squares of odd numbers grow more slowly than the powers of three. -/
theorem odd_sq_le : ∀ k : ℕ, ((2 * k + 1) ^ 2 : ℚ) ≤ 9 * 3 ^ k
  | 0 => by norm_num
  | 1 => by norm_num
  | k + 2 => by
      have h := odd_sq_le (k + 1)
      have hk : (0 : ℚ) ≤ k := Nat.cast_nonneg k
      push_cast at h ⊢
      rw [pow_succ (3 : ℚ)]
      nlinarith

/-- Few powers of three, in units of the last place there is. -/
theorem tiny_mul_pow_le {k : ℕ} (hk : k ≤ 2 * p) : (10 : ℚ) ^ tinyExponent p * 3 ^ k ≤ 1 / 1000 := by
  refine (mul_le_mul_of_nonneg_left ?_ (by positivity)).trans (tiny_mul_le p)
  calc (3 : ℚ) ^ k ≤ 3 ^ (2 * p) := pow_le_pow_right₀ (by norm_num) hk
    _ = 9 ^ p := by rw [pow_mul]; norm_num
    _ ≤ 10 ^ p := pow_le_pow_left₀ (by norm_num) (by norm_num) p

theorem tiny_le (p : ℕ) : (10 : ℚ) ^ tinyExponent p ≤ 1 / 1000 := by
  simpa using tiny_mul_pow_le (Nat.zero_le (2 * p))

theorem tiny_mul_natCast_le {k : ℕ} (hk : k ≤ 2 * p) : (10 : ℚ) ^ tinyExponent p * k ≤ 1 / 1000 := by
  refine (mul_le_mul_of_nonneg_left ?_ (by positivity)).trans (tiny_mul_pow_le hk)
  exact_mod_cast (Nat.lt_pow_self (by norm_num : 1 < 3)).le

/-- What bounds the term after `k` others. -/
def termBound (p k : ℕ) : ℚ := 3 * (3 / 10) ^ k + 2 * 10 ^ tinyExponent p

theorem termBound_succ (p k : ℕ) :
    3 / 10 * termBound p k + 10 ^ tinyExponent p ≤ termBound p (k + 1) := by
  have hpos : (0 : ℚ) < 10 ^ tinyExponent p := by positivity
  rw [termBound, termBound, pow_succ]
  linarith

/-- **After two terms for each digit, a term is below half a unit of the last place.** -/
theorem termBound_lt (p : ℕ) : termBound p (2 * p) < lastUnit p / 2 := by
  have hunit : lastUnit p = 10 * (1 / 10) ^ p := by
    rw [lastUnit, zpow_sub₀ (by norm_num), zpow_one, zpow_natCast, one_div, inv_pow, div_eq_mul_inv]
  have hpow : (3 / 10 : ℚ) ^ (2 * p) ≤ (1 / 10) ^ p := by
    rw [pow_mul]
    exact pow_le_pow_left₀ (by norm_num) (by norm_num) p
  have htiny : (10 : ℚ) ^ tinyExponent p ≤ 1 / 1000 * (1 / 10) ^ p := by
    have h := mul_le_mul_of_nonneg_right (tiny_mul_le p) (by positivity : (0 : ℚ) ≤ (1 / 10) ^ p)
    rwa [mul_assoc, ← mul_pow, mul_one_div_cancel (by norm_num), one_pow, mul_one] at h
  have hpos : (0 : ℚ) < (1 / 10) ^ p := by positivity
  rw [termBound, hunit]
  linarith

/-- The term bound, multiplied by what a term is multiplied by. -/
theorem termBound_mul_le {k : ℕ} (hk : k ≤ 2 * p) : termBound p k * (2 * k + 1) ^ 2 ≤ 28 := by
  have hpow : (3 / 10 : ℚ) ^ k * 3 ^ k ≤ 1 := by
    rw [← mul_pow]
    exact pow_le_one₀ (by norm_num) (by norm_num)
  have htiny := tiny_mul_pow_le hk
  have hbound : 0 ≤ termBound p k := by
    rw [termBound]
    positivity
  calc termBound p k * (2 * k + 1) ^ 2 ≤ termBound p k * (9 * 3 ^ k) :=
        mul_le_mul_of_nonneg_left (odd_sq_le k) hbound
    _ = 27 * ((3 / 10 : ℚ) ^ k * 3 ^ k) + 18 * (10 ^ tinyExponent p * 3 ^ k) := by
        rw [termBound]
        ring
    _ ≤ 28 := by linarith

/-- Each term is multiplied by a quarter at most. -/
theorem factor_le (k : ℕ) : ((2 * k + 1) ^ 2 : ℚ) / (8 * (k + 1) * (2 * k + 3)) ≤ 1 / 4 := by
  have hk : (0 : ℚ) ≤ k := Nat.cast_nonneg k
  rw [div_le_iff₀ (by positivity)]
  nlinarith

theorem toRat_ofNat (n : ℕ) : (ofNat n).toRat = n := by
  rw [ofNat, toRat_unsigned, zpow_zero, mul_one]

/-- A product with a whole number. -/
theorem exists_mul_ofNat (hp : 3 ≤ p) (hx : x.isFinite = true) (hx0 : 0 ≤ x.toRat) {n : ℕ}
    (h : x.toRat * n ≤ 100) :
    ∃ y, mul p x (ofNat n) = .ok y ∧ y.isFinite = true ∧ 0 ≤ y.toRat ∧
      y.toRat ≤ 201 / 200 * (x.toRat * n) + 10 ^ tinyExponent p / 2 := by
  have h0 : 0 ≤ x.toRat * n := mul_nonneg hx0 (Nat.cast_nonneg n)
  have hmoderate : IsModerateValue (x.toRat * (ofNat n).toRat) := by
    rw [toRat_ofNat, IsModerateValue, abs_of_nonneg h0]
    exact h.trans hundred_le
  obtain ⟨y, hmul, hy, hnear⟩ := exists_mul_isNear (by omega : 0 < p) hx rfl hmoderate
  rw [toRat_ofNat] at hnear
  exact ⟨y, hmul, hy, hnear.nonneg h0, hnear.le hp h0⟩

/-- A quotient by a whole number. -/
theorem exists_div_ofNat (hp : 3 ≤ p) (hx : x.isFinite = true) (hx0 : 0 ≤ x.toRat) (h : x.toRat ≤ 100)
    {d : ℕ} (hd : d ≠ 0) :
    ∃ y, div p x (ofNat d) = .ok y ∧ y.isFinite = true ∧ 0 ≤ y.toRat ∧
      y.toRat ≤ 201 / 200 * (x.toRat / d) + 10 ^ tinyExponent p / 2 := by
  have hone : (1 : ℚ) ≤ d := by exact_mod_cast Nat.one_le_iff_ne_zero.2 hd
  have h0 : 0 ≤ x.toRat / d := div_nonneg hx0 (by linarith)
  have hmoderate : IsModerateValue (x.toRat / (ofNat d).toRat) := by
    rw [toRat_ofNat, IsModerateValue, abs_of_nonneg h0]
    exact (div_le_self hx0 hone).trans (h.trans hundred_le)
  have hzero : (ofNat d).isZero = false := beq_false_of_ne hd
  obtain ⟨y, hdiv, hy, hnear⟩ := exists_div_isNear (by omega : 0 < p) hx rfl hzero hmoderate
  rw [toRat_ofNat] at hnear
  exact ⟨y, hdiv, hy, hnear.nonneg h0, hnear.le hp h0⟩

/-- **The next term**: at most three tenths of a term, up to the last place there is. -/
theorem exists_term (hp : 3 ≤ p) {k : ℕ} (hk : k ≤ 2 * p) (hx : x.isFinite = true) (hx0 : 0 ≤ x.toRat)
    (hbound : x.toRat ≤ termBound p k) {n d : ℕ} (hn : n = (2 * k + 1) ^ 2)
    (hd : d = 8 * (k + 1) * (2 * k + 3)) :
    ∃ y z, mul p x (ofNat n) = .ok y ∧ div p y (ofNat d) = .ok z ∧ z.isFinite = true ∧
      0 ≤ z.toRat ∧ z.toRat ≤ 3 / 10 * x.toRat + 10 ^ tinyExponent p := by
  have htiny := tiny_le p
  have htiny0 : (0 : ℚ) < 10 ^ tinyExponent p := by positivity
  have hnq : (n : ℚ) = (2 * k + 1) ^ 2 := by rw [hn]; push_cast; ring
  have hdq : (d : ℚ) = 8 * (k + 1) * (2 * k + 3) := by rw [hd]; push_cast; ring
  have hproduct : x.toRat * n ≤ 28 := by
    rw [hnq]
    exact (mul_le_mul_of_nonneg_right hbound (by positivity)).trans (termBound_mul_le hk)
  obtain ⟨y, hmul, hy, hy0, hyle⟩ := exists_mul_ofNat hp hx hx0 (n := n) (by linarith)
  obtain ⟨z, hdiv, hz, hz0, hzle⟩ :=
    exists_div_ofNat hp hy hy0 (by linarith) (d := d) (by rw [hd]; positivity)
  refine ⟨y, z, hmul, hdiv, hz, hz0, hzle.trans ?_⟩
  have hd2 : (2 : ℚ) ≤ d := by
    have hk0 : (0 : ℚ) ≤ k := Nat.cast_nonneg k
    rw [hdq]
    nlinarith
  have hfactor : x.toRat * n / d ≤ x.toRat / 4 := by
    have h := mul_le_mul_of_nonneg_left (factor_le k) hx0
    rw [hnq, hdq, mul_div_assoc]
    linarith
  have hrest : (10 : ℚ) ^ tinyExponent p / 2 / d ≤ 10 ^ tinyExponent p / 4 := by
    rw [div_div]
    exact div_le_div_of_nonneg_left htiny0.le (by norm_num) (by linarith)
  calc 201 / 200 * (y.toRat / d) + 10 ^ tinyExponent p / 2
      ≤ 201 / 200 * ((201 / 200 * (x.toRat * n) + 10 ^ tinyExponent p / 2) / d) +
          10 ^ tinyExponent p / 2 := by
        have h := div_le_div_of_nonneg_right hyle (by linarith : (0 : ℚ) ≤ d)
        linarith
    _ = 201 / 200 * (201 / 200 * (x.toRat * n / d) + 10 ^ tinyExponent p / 2 / d) +
          10 ^ tinyExponent p / 2 := by ring
    _ ≤ 3 / 10 * x.toRat + 10 ^ tinyExponent p := by linarith

/-! ## The states of the series -/

namespace PiState

/-- The state of the series after `k` terms: the factors, a small term, and a sum with the last place of the
numbers between one and ten. -/
structure IsAt (p k : ℕ) (st : PiState) : Prop where
  n : st.n + 4 * k = 4 * k ^ 2 + 1
  na : st.na = 8 * k
  d : st.d = 16 * k ^ 2 + 8 * k
  da : st.da = 32 * k + 24
  term_finite : st.term.isFinite = true
  term_nonneg : 0 ≤ st.term.toRat
  term_le : st.term.toRat ≤ termBound p k
  total_finite : st.total.isFinite = true
  total_multiple : ∃ i : ℤ, st.total.toRat = i * lastUnit p
  one_le_total : 1 ≤ st.total.toRat
  sum_le : st.total.toRat + st.term.toRat ≤ 6 + 3 * (10 ^ tinyExponent p * k)

theorem isAt_start (hp : 0 < p) : IsAt p 0 start where
  n := rfl
  na := rfl
  d := rfl
  da := rfl
  term_finite := rfl
  term_nonneg := by rw [start, toRat_ofNat]; norm_num
  term_le := by
    have hpos : (0 : ℚ) < 10 ^ tinyExponent p := by positivity
    rw [start, toRat_ofNat, termBound]
    push_cast
    linarith
  total_finite := rfl
  total_multiple := by
    obtain ⟨i, hi⟩ := exists_multiple (show (1 - p : ℤ) ≤ 0 by omega) 3
    refine ⟨i, ?_⟩
    rw [start, toRat_ofNat, lastUnit, ← hi]
    norm_num
  one_le_total := by rw [start, toRat_ofNat]; norm_num
  sum_le := by rw [start, toRat_ofNat]; norm_num

/-- **A step of the series**: it succeeds, and a term below half a unit leaves the sum as it is. -/
theorem exists_next (hp : 3 ≤ p) {k : ℕ} (hk : k < 2 * p) {st : PiState} (h : st.IsAt p k) :
    ∃ st', st.next p = .ok st' ∧ st'.IsAt p (k + 1) ∧
      (st'.term.toRat < lastUnit p / 2 → st'.total.toRat = st.total.toRat) := by
  have hp0 : 0 < p := by omega
  have hn : st.n + st.na = (2 * k + 1) ^ 2 := by
    have h0 := h.n
    have h1 := h.na
    have hring : (2 * k + 1) ^ 2 = 4 * k ^ 2 + 1 + 4 * k := by ring
    omega
  have hd : st.d + st.da = 8 * (k + 1) * (2 * k + 3) := by
    rw [h.d, h.da]
    ring
  obtain ⟨y, term, hmul, hdiv, hterm, hterm0, htermle⟩ :=
    exists_term hp hk.le h.term_finite h.term_nonneg h.term_le hn hd
  obtain ⟨i, hi⟩ := h.total_multiple
  have htiny0 : (0 : ℚ) < 10 ^ tinyExponent p := by positivity
  have htiny := tiny_mul_natCast_le (p := p) hk.le
  have hsum := h.sum_le
  have hold0 := h.term_nonneg
  have htiny1 := tiny_le p
  obtain ⟨total, hadd, htotal, j, hj, hnear⟩ :=
    exists_add_unit hp0 h.total_finite hterm hi h.one_le_total hterm0 (by linarith)
  rw [abs_le] at hnear
  have hkeep : term.toRat < lastUnit p / 2 → total.toRat = st.total.toRat := by
    intro hlt
    obtain rfl : j = i := by
      refine eq_of_near_unit (lastUnit_pos p) ?_
      rw [abs_lt, ← hi]
      constructor <;> linarith
    rw [hi, hj]
  -- half a unit is no more than the term, if the sum changes
  have hbounds : st.total.toRat ≤ total.toRat ∧ total.toRat ≤ st.total.toRat + 2 * term.toRat := by
    rcases lt_or_ge term.toRat (lastUnit p / 2) with hlt | hge
    · rw [hkeep hlt]
      constructor <;> linarith
    · constructor <;> linarith
  refine ⟨⟨term, total, st.n + st.na, st.na + 8, st.d + st.da, st.da + 32⟩, ?_, ?_, hkeep⟩
  · simp only [next, hmul, hdiv, hadd, bind, Except.bind]
  · exact {
      n := by rw [hn]; ring
      na := by rw [h.na]; ring
      d := by rw [hd]; ring
      da := by rw [h.da]; ring
      term_finite := hterm
      term_nonneg := hterm0
      term_le := htermle.trans ((by linarith [h.term_le] : _ ≤ _).trans (termBound_succ p k))
      total_finite := htotal
      total_multiple := ⟨j, hj⟩
      one_le_total := h.one_le_total.trans hbounds.1
      sum_le := by
        push_cast
        linarith [hbounds.2] }

end PiState

/-! ## The end of the series -/

/-- The lead of a value other than zero is determined by it. -/
theorem lead_unique (hc : c ≠ 0) (hd : d ≠ 0) (h : (c : ℚ) * 10 ^ e = d * 10 ^ f) :
    e + (digitCount c : ℤ) = f + digitCount d := by
  have hcb := magnitude_bounds hc e
  have hdb := magnitude_bounds hd f
  rw [h] at hcb
  have hle := (zpow_lt_zpow_iff_right₀ (by norm_num)).1 (hcb.1.trans_lt hdb.2)
  have hge := (zpow_lt_zpow_iff_right₀ (by norm_num)).1 (hdb.1.trans_lt hcb.2)
  omega

/-- Positive decimals of one value are equal. -/
theorem equal_of_toRat_eq (hx : x.isFinite = true) (hy : y.isFinite = true) (hpos : 0 < x.toRat)
    (h : y.toRat = x.toRat) : equal y x = true := by
  obtain ⟨c, e, rfl, hc⟩ := exists_unsigned hx hpos
  obtain ⟨d, f, rfl, hd⟩ := exists_unsigned hy (h ▸ hpos)
  rw [toRat_unsigned, toRat_unsigned] at h
  have htrace : trace (.finite false d f) = trace (.finite false c e) := by
    simp [trace, sizeTrace, hc, hd, h, lead_unique hd hc h]
  simpa [isNaN] using (same_iff _ _).2 htrace

/-- **The series without a bound**: from a state it adds terms until the sum stays, and ends in another state
after so many terms. -/
inductive Stops (p : ℕ) : ℕ → PiState → PiState → Prop
  | stays {st st'} (hnext : st.next p = .ok st') (h : equal st'.total st.total = true) : Stops p 1 st st'
  | changes {steps st st' last} (hnext : st.next p = .ok st') (h : equal st'.total st.total = false)
      (hrest : Stops p steps st' last) : Stops p (steps + 1) st last

/-- A series that stops does not need a bound of more than its terms. -/
theorem Stops.piLoop_eq {steps : ℕ} {st last : PiState} (h : Stops p steps st last) :
    ∀ {fuel : ℕ}, steps ≤ fuel → piLoop p fuel st = .ok last := by
  induction h with
  | stays hnext h =>
      intro fuel hfuel
      obtain ⟨n, rfl⟩ := Nat.exists_eq_succ_of_ne_zero (show fuel ≠ 0 by omega)
      simp only [piLoop, hnext, bind, Except.bind, h, ↓reduceIte]
  | changes hnext h _ ih =>
      intro fuel hfuel
      obtain ⟨n, rfl⟩ := Nat.exists_eq_succ_of_ne_zero (show fuel ≠ 0 by omega)
      simp only [piLoop, hnext, bind, Except.bind, h, Bool.false_eq_true, ↓reduceIte]
      exact ih (by omega)

/-- **The series stops from every state on the way**, after two terms for each digit at most. -/
theorem PiState.IsAt.stops (hp : 3 ≤ p) {m k : ℕ} {st : PiState} (h : st.IsAt p k)
    (hm : k + (m + 1) = 2 * p) :
    ∃ steps last j, steps ≤ m + 1 ∧ Stops p steps st last ∧ j ≤ 2 * p ∧ last.IsAt p j := by
  induction m generalizing k st with
  | zero =>
      obtain ⟨st', hnext, hat, hkeep⟩ := exists_next hp (by omega) h
      have hlt : st'.term.toRat < lastUnit p / 2 := by
        refine hat.term_le.trans_lt ?_
        rw [show k + 1 = 2 * p by omega]
        exact termBound_lt p
      have hequal := equal_of_toRat_eq h.total_finite hat.total_finite
        (zero_lt_one.trans_le h.one_le_total) (hkeep hlt)
      exact ⟨1, st', k + 1, le_rfl, .stays hnext hequal, by omega, hat⟩
  | succ m ih =>
      obtain ⟨st', hnext, hat, -⟩ := exists_next hp (by omega) h
      cases hequal : equal st'.total st.total with
      | true => exact ⟨1, st', k + 1, by omega, .stays hnext hequal, by omega, hat⟩
      | false =>
          obtain ⟨steps, last, j, hsteps, hstops, hj, hlast⟩ := ih hat (by omega)
          exact ⟨steps + 1, last, j, by omega, .changes hnext hequal hstops, hj, hlast⟩

/-- A sum on the way is rounded to any precision. -/
theorem PiState.IsAt.exists_plus {precision : ℕ} (hprecision : 0 < precision) {k : ℕ} {st : PiState}
    (h : st.IsAt p k) (hk : k ≤ 2 * p) : ∃ x, plus precision st.total = .ok x ∧ x.isFinite = true := by
  have htiny := tiny_mul_natCast_le hk
  have hterm := h.term_nonneg
  have hsum := h.sum_le
  obtain ⟨c, e, htotal, -⟩ := exists_unsigned h.total_finite (zero_lt_one.trans_le h.one_le_total)
  rw [htotal, toRat_unsigned] at hsum
  obtain ⟨c', e', hround, -⟩ := exists_round_isNear hprecision (false && c != 0) (c := c) (e := e)
    (by linarith [hundred_le])
  exact ⟨_, by rw [htotal]; exact hround, rfl⟩

/-- **The series for `π` stops at every precision**, after two terms at most for each digit that it is
computed with, and with every bound that is not smaller; so there is a finite `π` of each precision, and a
number for it in the lane of the precision. -/
theorem pi_stops (precision : ℕ) (hprecision : 1 ≤ precision) :
    ∃ steps last, Stops (precision + 2) steps .start last ∧ steps ≤ 2 * (precision + 2) ∧
      (∀ fuel, steps ≤ fuel → piLoop (precision + 2) fuel .start = .ok last) ∧
      ∃ x, plus precision last.total = .ok x ∧ pi precision = .ok x ∧ x.isFinite = true ∧
        Number.pi precision =
          .ok (if prefersDecimal precision then .big x precision else .machine Double.pi) := by
  obtain ⟨steps, last, k, hsteps, hstops, hk, hlast⟩ :=
    (PiState.isAt_start (p := precision + 2) (by omega)).stops (by omega)
      (m := 2 * (precision + 2) - 1) (by omega)
  have hloop : ∀ fuel, steps ≤ fuel → piLoop (precision + 2) fuel .start = .ok last :=
    fun _ => hstops.piLoop_eq
  obtain ⟨x, hplus, hx⟩ := hlast.exists_plus (by omega : 0 < precision) hk
  have hpi : pi precision = .ok x := by
    simp only [pi, hloop (4 * precision + 20) (by omega), bind, Except.bind, hplus]
  refine ⟨steps, last, hstops, by omega, hloop, x, hplus, hpi, hx, ?_⟩
  rw [Number.pi, hpi]
  split <;> rfl

theorem pi_stops_twenty : 1 ≤ 20 ∧ ∃ steps last, Stops 22 steps .start last ∧ steps ≤ 44 ∧
    piLoop 22 100 .start = .ok last ∧
    ∃ x, pi 20 = .ok x ∧ x.isFinite = true ∧ Number.pi 20 = .ok (.big x 20) := by
  obtain ⟨steps, last, hstops, hsteps, hloop, x, -, hpi, hx, hnumber⟩ := pi_stops 20 (by decide)
  exact ⟨by decide, steps, last, hstops, hsteps, hloop 100 (by omega), x, hpi, hx, hnumber⟩

end SymbolicAlgebra.Decimal
