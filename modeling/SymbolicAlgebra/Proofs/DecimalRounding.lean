import SymbolicAlgebra.Proofs.Moderation
import SymbolicAlgebra.Proofs.Nearest

/-!
# Proofs/DecimalRounding — what rounding does to the value of a decimal

Rounding cuts a coefficient at a place: the one that leaves as many digits as the precision has, or the last
place there is (`Decimal.place`).  The value is moved to the nearest multiple of a unit of that place
(`Decimal.exists_round_eq`), so it stays where it is if it fits the precision (`Decimal.Fits`), and else moves
by half a unit at most (`Decimal.IsNear`).  A quotient is cut off before it is rounded, one or two places
behind the last one that is kept, and its last digit moved off the ties; so it is as near as if it had been
rounded at once (`Decimal.exists_div_isNear`).
-/

namespace SymbolicAlgebra.Decimal

/-! ## Values -/

/-- A magnitude with a sign. -/
def withSign (negative : Bool) (v : ℚ) : ℚ := if negative then -v else v

theorem toRat_finite (s : Bool) (c : ℕ) (e : ℤ) : toRat (.finite s c e) = withSign s (c * 10 ^ e) := by
  rw [toRat, scale, Double.scaled_eq _ _ (by decide)]
  cases s <;> simp [signed, withSign]

theorem exists_finite {x : Decimal} (h : x.isFinite = true) : ∃ s c e, x = .finite s c e := by
  cases x with
  | finite s c e => exact ⟨s, c, e, rfl⟩
  | _ => cases h

theorem magnitude_nonneg (c : ℕ) (e : ℤ) : (0 : ℚ) ≤ c * 10 ^ e := by positivity

@[simp] theorem abs_withSign (s : Bool) (v : ℚ) : |withSign s v| = |v| := by
  cases s
  · rfl
  · exact abs_neg v

theorem withSign_mul (s t : Bool) (u v : ℚ) : withSign s u * withSign t v = withSign (s != t) (u * v) := by
  cases s <;> cases t <;> simp [withSign]

theorem withSign_div (s t : Bool) (u v : ℚ) : withSign s u / withSign t v = withSign (s != t) (u / v) := by
  cases s <;> cases t <;> simp [withSign, neg_div, div_neg]

/-! ## The place that is rounded at -/

variable {p : ℕ} {c : ℕ} {e : ℤ}

/-- The exponent of the last digit that is kept at a precision. -/
def place (p c : ℕ) (e : ℤ) : ℤ := max (e + digitCount c - p) (tinyExponent p)

theorem divHalfEven_mul (n : ℕ) {d : ℕ} (hd : 0 < d) : divHalfEven (n * d) d = n := by
  simp [divHalfEven, Nat.mul_div_cancel _ hd, hd]

/-- A coefficient that is shorter than what is dropped rounds to zero. -/
theorem divHalfEven_of_digitCount_lt {n : ℕ} (hc : c ≠ 0) (h : digitCount c < n) :
    divHalfEven c (10 ^ n) = 0 := by
  have hlt := (digitCount_bounds hc).2
  have hpow : 10 * 10 ^ digitCount c ≤ 10 ^ n := by
    rw [← pow_succ']
    exact Nat.pow_le_pow_right (by decide) h
  unfold divHalfEven
  simp only
  rw [Nat.mod_eq_of_lt (by omega), Nat.div_eq_of_lt (by omega), if_pos (by omega)]

/-- **What is kept of a coefficient has no more digits than the precision**, but for a carry. -/
theorem kept_le_pow (hc : c ≠ 0) (h : e < place p c e) :
    divHalfEven c (10 ^ (place p c e - e).toNat) ≤ 10 ^ p := by
  have hle : e + digitCount c - p ≤ place p c e := le_max_left _ _
  refine divHalfEven_le (by positivity) ?_
  rw [← pow_add]
  exact (digitCount_bounds hc).2.le.trans (Nat.pow_le_pow_right (by decide) (by omega))

/-- **Rounding moves a value to the nearest multiple of a unit of its place**, a tie to the even one. -/
theorem exists_round_eq (hp : 0 < p) (s : Bool) (hc : c ≠ 0) (h : (c : ℚ) * 10 ^ e ≤ 10 ^ maxExponent) :
    ∃ c' e', round p s c e = .ok (.finite s c' e') ∧ (c' : ℚ) * 10 ^ e' =
      if e < place p c e then (divHalfEven c (10 ^ (place p c e - e).toNat) : ℚ) * 10 ^ place p c e
      else c * 10 ^ e := by
  obtain ⟨d, hd, -⟩ := exists_round hp s h
  -- whatever coefficient and exponent are left, they are in range
  have hend : ∀ {c' : ℕ} {e' : ℤ}, (if maxExponent < e' + digitCount c' - 1 ∧ c' ≠ 0
      then Except.error Signal.overflow else Except.ok (finite s c' e')) = .ok d → d = .finite s c' e' :=
    fun {c' e'} h' => by
      split at h'
      · cases h'
      · exact (Except.ok.inj h').symm
  rw [hd]
  unfold round at hd
  simp only at hd
  rw [if_neg hc, ← place] at hd
  split at hd
  next hlt =>
    rw [if_pos hlt]
    have hkept := kept_le_pow hc hlt
    have hshort : (if digitCount c < (place p c e - e).toNat then 0
        else divHalfEven c (Nat.pow 10 (place p c e - e).toNat)) =
          divHalfEven c (10 ^ (place p c e - e).toNat) := by
      split
      next hdigits => exact (divHalfEven_of_digitCount_lt hc hdigits).symm
      next => rfl
    rw [hshort] at hd
    generalize divHalfEven c (10 ^ (place p c e - e).toNat) = m at hd hkept ⊢
    split at hd
    next hcarry =>
      refine ⟨_, _, congrArg _ (hend hd), ?_⟩
      -- a carry leaves a power of ten
      have hm : m = 10 ^ (p - 1) * 10 := by
        have hm0 : m ≠ 0 := by
          rintro rfl
          rw [show digitCount 0 = 1 by simp [digitCount, countDigits]] at hcarry
          omega
        have hle : 10 ^ p ≤ m :=
          (Nat.pow_le_pow_right (by decide) (by omega)).trans (digitCount_bounds hm0).1
        rw [← pow_succ, Nat.sub_add_cancel hp]
        exact le_antisymm hkept hle
      rw [hm, Nat.mul_div_cancel _ (by decide), zpow_add₀ (by norm_num), zpow_one]
      push_cast
      ring
    next => exact ⟨_, _, congrArg _ (hend hd), rfl⟩
  next hle =>
    rw [if_neg hle]
    exact ⟨_, _, congrArg _ (hend hd), rfl⟩

/-! ## Values that fit, and values near -/

variable {v r : ℚ} {k : ℤ}

/-- A value up to the greatest power of ten. -/
def IsModerateValue (v : ℚ) : Prop := |v| ≤ 10 ^ maxExponent

/-- A value fits a precision if it is written with as many digits, at places there are, and moderate. -/
structure Fits (p : ℕ) (v : ℚ) : Prop where
  digits : ∃ n k : ℤ, v = n * 10 ^ k ∧ |n| < 10 ^ p ∧ tinyExponent p ≤ k
  moderate : IsModerateValue v

/-- The unit that values of a size are rounded to at a precision, at most. -/
def roundingUnit (p : ℕ) (v : ℚ) : ℚ := max (|v| * 10 ^ (1 - p : ℤ)) (10 ^ tinyExponent p)

/-- A value near another one: the same, or the nearest multiple of a power of ten not above the unit. -/
def IsNear (p : ℕ) (v r : ℚ) : Prop :=
  r = v ∨ ∃ n k : ℤ, (10 : ℚ) ^ k ≤ roundingUnit p v ∧ r = n * 10 ^ k ∧ |r - v| ≤ 10 ^ k / 2

/-- The size of a value whose coefficient has few digits. -/
theorem abs_mul_zpow_lt {n : ℤ} (hn : |n| < 10 ^ p) (k : ℤ) : |(n : ℚ) * 10 ^ k| < 10 ^ (p + k : ℤ) := by
  rw [abs_mul, abs_of_pos (by positivity : (0 : ℚ) < 10 ^ k), zpow_add₀ (by norm_num), zpow_natCast]
  refine mul_lt_mul_of_pos_right ?_ (by positivity)
  exact_mod_cast hn

/-- A multiple of a unit other than zero is at least the unit. -/
theorem zpow_le_abs_multiple {m : ℤ} (hm : (m : ℚ) * 10 ^ k ≠ 0) : (10 : ℚ) ^ k ≤ |(m : ℚ) * 10 ^ k| := by
  have hm0 : m ≠ 0 := by
    rintro rfl
    simp at hm
  rw [abs_mul, abs_of_pos (by positivity : (0 : ℚ) < 10 ^ k)]
  refine le_mul_of_one_le_left (by positivity) ?_
  exact_mod_cast Int.one_le_abs hm0

theorem roundingUnit_withSign (s : Bool) (v : ℚ) : roundingUnit p (withSign s v) = roundingUnit p v := by
  rw [roundingUnit, abs_withSign, roundingUnit]

theorem IsNear.withSign (s : Bool) (h : IsNear p v r) : IsNear p (withSign s v) (withSign s r) := by
  cases s with
  | false => exact h
  | true =>
      rcases h with rfl | ⟨n, k, hk, rfl, hnear⟩
      · exact .inl rfl
      · refine .inr ⟨-n, k, by rwa [roundingUnit_withSign], by simp [Decimal.withSign], ?_⟩
        have heq : Decimal.withSign true (n * 10 ^ k) - Decimal.withSign true v = -(n * 10 ^ k - v) := by
          simp [Decimal.withSign]
          ring
        rwa [heq, abs_neg]

theorem IsNear.abs_sub_le (h : IsNear p v r) : |r - v| ≤ roundingUnit p v / 2 := by
  rcases h with rfl | ⟨n, k, hk, -, hnear⟩
  · have hpos : 0 < roundingUnit p r := lt_max_of_lt_right (by positivity)
    rw [sub_self, abs_zero]
    exact half_pos hpos |>.le
  · exact hnear.trans (div_le_div_of_nonneg_right hk zero_le_two)

/-- What is near a value that is not negative is not negative. -/
theorem IsNear.nonneg (h : IsNear p v r) (hv : 0 ≤ v) : 0 ≤ r := by
  rcases h with rfl | ⟨n, k, -, rfl, hnear⟩
  · exact hv
  · have hpos : (0 : ℚ) < 10 ^ k := by positivity
    have hn : 0 ≤ n := by
      by_contra hneg
      have hle : (n : ℚ) ≤ -1 := by exact_mod_cast Int.le_sub_one_of_lt (not_le.1 hneg)
      have hbelow := mul_le_mul_of_nonneg_right hle hpos.le
      rw [abs_le] at hnear
      linarith
    exact mul_nonneg (by exact_mod_cast hn) hpos.le

/-- **A value that is near has the same whole part**, if the value is short of the next whole number by more
than half a unit. -/
theorem IsNear.floor_eq (h : IsNear p v r) (hv : |v| < 10 ^ p) (hgap : v + roundingUnit p v / 2 < ⌊v⌋ + 1) :
    ⌊r⌋ = ⌊v⌋ := by
  rcases h with rfl | ⟨n, k, hk, rfl, hnear⟩
  · rfl
  · have hpos : (0 : ℚ) < 10 ^ k := by positivity
    rw [abs_le] at hnear
    -- the unit is at most one, so whole numbers are multiples of it
    have hk0 : k < 1 := by
      refine (zpow_lt_zpow_iff_right₀ (a := (10 : ℚ)) (by norm_num)).1 (hk.trans_lt (max_lt ?_ ?_))
      · calc |v| * 10 ^ (1 - p : ℤ) < 10 ^ p * 10 ^ (1 - p : ℤ) :=
              mul_lt_mul_of_pos_right hv (by positivity)
          _ = 10 ^ (1 : ℤ) := by rw [← zpow_natCast, ← zpow_add₀ (by norm_num)]; congr 1; omega
      · refine zpow_lt_zpow_right₀ (by norm_num) ?_
        simp only [tinyExponent, maxExponent]
        omega
    obtain ⟨j, hj⟩ := Int.eq_ofNat_of_zero_le (show 0 ≤ -k by omega)
    have hone : (10 : ℚ) ^ j * 10 ^ k = 1 := by
      rw [← zpow_natCast, ← zpow_add₀ (by norm_num), show (j : ℤ) + k = 0 by omega, zpow_zero]
    have hwhole : (⌊v⌋ : ℚ) = ((⌊v⌋ * 10 ^ j : ℤ) : ℚ) * 10 ^ k := by
      push_cast
      rw [mul_assoc, hone, mul_one]
    rw [Int.floor_eq_iff]
    constructor
    · -- otherwise it would be a whole unit below
      by_contra hlt
      rw [not_le, hwhole, mul_lt_mul_iff_of_pos_right hpos, Int.cast_lt] at hlt
      have hle : (n : ℚ) * 10 ^ k ≤ (((⌊v⌋ * 10 ^ j : ℤ) : ℚ) - 1) * 10 ^ k := by
        refine mul_le_mul_of_nonneg_right ?_ hpos.le
        exact_mod_cast Int.le_sub_one_of_lt hlt
      have hfloor := Int.floor_le v
      linarith
    · linarith

/-! ## Rounding -/

/-- A zero is rounded to a zero. -/
theorem round_zero (p : ℕ) (s : Bool) (e : ℤ) :
    round p s 0 e = .ok (.finite s 0 (max (tinyExponent p) (min maxExponent e))) := by
  rw [round]
  exact if_pos rfl

/-- The place of a coefficient is no unit above what its size allows. -/
theorem zpow_place_le (h : (10 : ℚ) ^ (e + digitCount c - 1) ≤ |v|) :
    (10 : ℚ) ^ place p c e ≤ roundingUnit p v := by
  rw [place, roundingUnit]
  rcases max_cases (e + digitCount c - p : ℤ) (tinyExponent p) with ⟨heq, -⟩ | ⟨heq, -⟩
  · rw [heq]
    refine le_max_of_le_left ?_
    calc (10 : ℚ) ^ (e + digitCount c - p : ℤ) = 10 ^ (e + digitCount c - 1) * 10 ^ (1 - p : ℤ) := by
          rw [← zpow_add₀ (by norm_num)]
          congr 1
          omega
      _ ≤ |v| * 10 ^ (1 - p : ℤ) := mul_le_mul_of_nonneg_right h (by positivity)
  · rw [heq]
    exact le_max_right _ _

/-- A power of ten, in units of a smaller one. -/
theorem zpow_eq_mul (h : e ≤ k) : (10 : ℚ) ^ k = ((10 ^ (k - e).toNat : ℕ) : ℚ) * 10 ^ e := by
  push_cast
  rw [← zpow_natCast, ← zpow_add₀ (by norm_num)]
  congr 1
  omega

/-- The error of a rounded coefficient, in units of the last digit before. -/
theorem kept_sub (h : e ≤ k) (m c : ℕ) : (m : ℚ) * 10 ^ k - c * 10 ^ e =
    (((m * 10 ^ (k - e).toNat : ℕ) : ℚ) - c) * 10 ^ e := by
  rw [zpow_eq_mul h]
  push_cast
  ring

/-- What is kept is off by half a unit at most. -/
theorem abs_kept_sub_le (h : e ≤ k) (c : ℕ) :
    |(divHalfEven c (10 ^ (k - e).toNat) : ℚ) * 10 ^ k - c * 10 ^ e| ≤ 10 ^ k / 2 := by
  obtain ⟨hle, hge, -⟩ := Double.divHalfEven_spec c (d := 10 ^ (k - e).toNat) (by positivity)
  rw [kept_sub h, abs_mul, abs_of_pos (by positivity : (0 : ℚ) < 10 ^ e), zpow_eq_mul h, mul_div_right_comm]
  refine mul_le_mul_of_nonneg_right ?_ (by positivity)
  generalize divHalfEven c (10 ^ (k - e).toNat) * 10 ^ (k - e).toNat = m at hle hge ⊢
  generalize 10 ^ (k - e).toNat = d at hle hge ⊢
  have hle : 2 * (m : ℚ) ≤ 2 * c + d := by exact_mod_cast hle
  have hge : 2 * (c : ℚ) ≤ 2 * m + d := by exact_mod_cast hge
  rw [abs_le]
  constructor <;> linarith

/-- **Rounding leaves a value near.** -/
theorem exists_round_isNear (hp : 0 < p) (s : Bool) (h : (c : ℚ) * 10 ^ e ≤ 10 ^ maxExponent) :
    ∃ c' e', round p s c e = .ok (.finite s c' e') ∧ IsNear p (c * 10 ^ e) (c' * 10 ^ e') := by
  by_cases hc : c = 0
  · subst hc
    exact ⟨_, _, round_zero p s e, .inl (by simp)⟩
  obtain ⟨c', e', hround, hvalue⟩ := exists_round_eq hp s hc h
  refine ⟨c', e', hround, ?_⟩
  rw [hvalue]
  split
  next hlt =>
    have hlead := (magnitude_bounds hc e).1
    rw [← abs_of_nonneg (magnitude_nonneg c e)] at hlead
    refine .inr ⟨(divHalfEven c (10 ^ (place p c e - e).toNat) : ℕ), _, zpow_place_le hlead, by simp, ?_⟩
    exact abs_kept_sub_le hlt.le c
  next => exact .inl rfl

/-- **A value that fits is not moved.** -/
theorem exists_round_of_fits (hp : 0 < p) (s : Bool) (h : Fits p (c * 10 ^ e)) :
    ∃ c' e', round p s c e = .ok (.finite s c' e') ∧ (c' : ℚ) * 10 ^ e' = c * 10 ^ e := by
  by_cases hc : c = 0
  · subst hc
    exact ⟨_, _, round_zero p s e, by simp⟩
  obtain ⟨⟨n, k, hn, hlt, htiny⟩, hmoderate⟩ := h
  rw [IsModerateValue, abs_of_nonneg (magnitude_nonneg c e)] at hmoderate
  obtain ⟨c', e', hround, hvalue⟩ := exists_round_eq hp s hc hmoderate
  refine ⟨c', e', hround, ?_⟩
  rw [hvalue]
  split
  next hplace =>
    -- the digits that are dropped are zeros
    have hk : place p c e ≤ k := by
      refine max_le ?_ htiny
      have hsize := (le_abs_self _).trans_lt (abs_mul_zpow_lt hlt k)
      rw [← hn] at hsize
      have hlead := (zpow_lt_zpow_iff_right₀ (by norm_num)).1 ((magnitude_bounds hc e).1.trans_lt hsize)
      omega
    clear hvalue
    generalize place p c e = l at hplace hk ⊢
    obtain ⟨m, rfl⟩ : ∃ m : ℕ, c = m * 10 ^ (l - e).toNat := by
      have hnonneg : 0 ≤ n := by
        have : (0 : ℚ) ≤ n * 10 ^ k := hn ▸ by positivity
        exact_mod_cast nonneg_of_mul_nonneg_left this (by positivity)
      obtain ⟨N, rfl⟩ := Int.eq_ofNat_of_zero_le hnonneg
      refine ⟨N * 10 ^ (k - l).toNat, ?_⟩
      rw [mul_assoc, ← pow_add, show (k - l).toNat + (l - e).toNat = (k - e).toNat by omega]
      rw [zpow_eq_mul (hplace.le.trans hk), ← mul_assoc] at hn
      exact_mod_cast mul_right_cancel₀ (by positivity) hn
    rw [divHalfEven_mul m (by positivity), ← sub_eq_zero, kept_sub hplace.le, sub_self, zero_mul]
  next => rfl

/-- The product of two magnitudes. -/
theorem magnitude_mul (c d : ℕ) (e f : ℤ) :
    (c * 10 ^ e * (d * 10 ^ f) : ℚ) = ((c * d : ℕ) : ℚ) * 10 ^ (e + f) := by
  rw [zpow_add₀ (by norm_num)]
  push_cast
  ring

/-- **A product is near.** -/
theorem exists_mul_isNear (hp : 0 < p) {x y : Decimal} (hx : x.isFinite = true)
    (hy : y.isFinite = true) (h : IsModerateValue (x.toRat * y.toRat)) :
    ∃ z, mul p x y = .ok z ∧ z.isFinite = true ∧ IsNear p (x.toRat * y.toRat) z.toRat := by
  obtain ⟨s, c, e, rfl⟩ := exists_finite hx
  obtain ⟨t, d, f, rfl⟩ := exists_finite hy
  rw [toRat_finite, toRat_finite, withSign_mul, magnitude_mul] at h ⊢
  rw [IsModerateValue, abs_withSign, abs_of_nonneg (magnitude_nonneg _ _)] at h
  obtain ⟨c', e', hround, hnear⟩ := exists_round_isNear hp (s != t) h
  exact ⟨_, hround, rfl, by rw [toRat_finite]; exact hnear.withSign _⟩

/-! ## Values that are cut off before they are rounded -/

/-- A coefficient that is no multiple of five is not rounded from a middle, nor from next to one. -/
theorem divHalfEven_of_mod_five {n j : ℕ} (hn : n % 5 ≠ 0) (hj : 0 < j) :
    2 * (divHalfEven n (10 ^ j) * 10 ^ j) + 2 ≤ 2 * n + 10 ^ j ∧
      2 * n + 2 ≤ 2 * (divHalfEven n (10 ^ j) * 10 ^ j) + 10 ^ j := by
  obtain ⟨hle, hge, -⟩ := Double.divHalfEven_spec n (d := 10 ^ j) (by positivity)
  generalize divHalfEven n (10 ^ j) = m at hle hge ⊢
  obtain ⟨i, rfl⟩ := Nat.exists_eq_succ_of_ne_zero hj.ne'
  have hm : m * 10 ^ (i + 1) = 10 * (m * 10 ^ i) := by ring
  have hd : 10 ^ (i + 1) = 10 * 10 ^ i := by ring
  rw [hm, hd] at hle hge ⊢
  omega

/-- The coefficient that stands for a value between two others: the lower one, moved off the ties. -/
def offTie (n : ℕ) : ℕ := if n % 5 = 0 then n + 1 else n

theorem offTie_mod_five (n : ℕ) : offTie n % 5 ≠ 0 := by
  unfold offTie
  split <;> omega

theorem offTie_bounds (n : ℕ) : n ≤ offTie n ∧ offTie n ≤ n + 1 := by
  unfold offTie
  split <;> omega

/-- Moving a coefficient off the ties adds no digit. -/
theorem pow_digitCount_offTie_le {n : ℕ} (hn : 10 ≤ n) : 10 ^ (digitCount (offTie n) - 1) ≤ n := by
  obtain ⟨hle, hlt⟩ := digitCount_bounds (n := offTie n) (by have := (offTie_bounds n).1; omega)
  rcases Nat.eq_zero_or_pos (digitCount (offTie n) - 1) with hzero | hpos
  · rw [hzero]
    omega
  · obtain ⟨i, hi⟩ := Nat.exists_eq_succ_of_ne_zero hpos.ne'
    rw [hi, pow_succ] at hle ⊢
    unfold offTie at hle
    split at hle <;> omega

/-- A coefficient moved off the ties does not pass a power of ten that is above the value. -/
theorem offTie_mul_le {n : ℕ} {m : ℤ} (hn : n ≠ 0) (hlt : (n : ℚ) * 10 ^ e < v) (hv : v ≤ 10 ^ m) :
    (offTie n : ℚ) * 10 ^ e ≤ 10 ^ m := by
  have hpos : (0 : ℚ) < 10 ^ e := by positivity
  have he : e ≤ m := by
    refine (zpow_le_zpow_iff_right₀ (a := (10 : ℚ)) (by norm_num)).1 ((le_of_lt ?_).trans hv)
    refine lt_of_le_of_lt (le_mul_of_one_le_left hpos.le ?_) hlt
    exact_mod_cast Nat.one_le_iff_ne_zero.2 hn
  have hsize : n < 10 ^ (m - e).toNat := by
    have h := hlt.trans_le hv
    rw [zpow_eq_mul he, mul_lt_mul_iff_of_pos_right hpos] at h
    exact_mod_cast h
  have := (offTie_bounds n).2
  exact (magnitude_le_iff he).2 (by omega)

/-- **A value is as near to what its cut off coefficient is rounded to as if it had been rounded itself.** -/
theorem exists_roundCut_isNear (hp : 0 < p) (s : Bool) {n : ℕ} (hn : 10 ^ p ≤ n)
    (hlt : (n : ℚ) * 10 ^ e < v) (hgt : v < (n + 1) * 10 ^ e) (hv : v ≤ 10 ^ maxExponent) :
    ∃ c' e', roundCut p s n e false = .ok (.finite s c' e') ∧ IsNear p v (c' * 10 ^ e') := by
  have hcut : roundCut p s n e false = round p s (offTie n) e := by
    simp [roundCut, offTie]
  obtain ⟨hle, hge⟩ := offTie_bounds n
  have hten : 10 ≤ n := (Nat.pow_le_pow_right (by decide) hp).trans hn
  have hpos : (0 : ℚ) < 10 ^ e := by positivity
  have hmoderate := offTie_mul_le (by omega : n ≠ 0) hlt hv
  have hdigits : p < digitCount (offTie n) := by
    have hlast := (digitCount_bounds (n := offTie n) (by omega)).2
    exact (Nat.pow_lt_pow_iff_right (a := 10) (by decide)).1 ((hn.trans hle).trans_lt hlast)
  have hplace : e < place p (offTie n) e := lt_max_of_lt_left (by omega)
  have hlead : (10 : ℚ) ^ (e + digitCount (offTie n) - 1) ≤ |v| := by
    calc (10 : ℚ) ^ (e + digitCount (offTie n) - 1)
        = ((10 ^ (digitCount (offTie n) - 1) : ℕ) : ℚ) * 10 ^ e := by
          rw [zpow_eq_mul (by omega : e ≤ e + digitCount (offTie n) - 1),
            show (e + digitCount (offTie n) - 1 - e).toNat = digitCount (offTie n) - 1 by omega]
      _ ≤ n * 10 ^ e := mul_le_mul_of_nonneg_right (by exact_mod_cast pow_digitCount_offTie_le hten) hpos.le
      _ ≤ |v| := hlt.le.trans (le_abs_self v)
  obtain ⟨c', e', hround, hvalue⟩ := exists_round_eq hp s (by omega) hmoderate
  refine ⟨c', e', hcut.trans hround, ?_⟩
  rw [hvalue, if_pos hplace]
  refine .inr ⟨(divHalfEven (offTie n) (10 ^ (place p (offTie n) e - e).toNat) : ℕ), _,
    zpow_place_le hlead, by simp, ?_⟩
  generalize place p (offTie n) e = k at hplace ⊢
  -- the coefficient moves by half a unit less one, and the value is within one of the coefficient
  obtain ⟨hupper, hlower⟩ := divHalfEven_of_mod_five (offTie_mod_five n) (j := (k - e).toNat) (by omega)
  rw [zpow_eq_mul hplace.le]
  generalize divHalfEven (offTie n) (10 ^ (k - e).toNat) = m at hupper hlower ⊢
  generalize 10 ^ (k - e).toNat = d at hupper hlower ⊢
  generalize (10 : ℚ) ^ e = w at hpos hlt hgt ⊢
  have hupper : (m : ℚ) * d + 1 ≤ n + 1 + d / 2 := by
    have : 2 * (m * d : ℚ) + 2 ≤ 2 * (n + 1) + d := by exact_mod_cast hupper.trans (by omega)
    linarith
  have hlower : (n : ℚ) + 1 ≤ m * d + d / 2 := by
    have : 2 * (n : ℚ) + 2 ≤ 2 * (m * d) + d := by exact_mod_cast le_trans (by omega) hlower
    linarith
  have hupper := mul_le_mul_of_nonneg_right hupper hpos.le
  have hlower := mul_le_mul_of_nonneg_right hlower hpos.le
  rw [abs_le]
  constructor <;> linarith

/-! ## Quotients -/

/-- Taking zeros off a coefficient keeps the value. -/
theorem dropZeros_value (c : ℕ) (e ideal : ℤ) :
    ((dropZeros c e ideal).1 : ℚ) * 10 ^ (dropZeros c e ideal).2 = c * 10 ^ e := by
  induction c, e using dropZeros.induct ideal with
  | case1 c e h ih =>
      rw [dropZeros, if_pos h, ih, zpow_add₀ (by norm_num), zpow_one]
      obtain ⟨m, hm⟩ := Nat.dvd_of_mod_eq_zero h.2.2
      rw [hm, Nat.mul_div_cancel_left _ (by decide)]
      push_cast
      ring
  | case2 c e h => rw [dropZeros, if_neg h]

/-- Numerator and denominator, shifted against each other by powers of ten. -/
theorem shifted_div (c d : ℕ) (shift : ℤ) :
    ((c * 10 ^ shift.toNat : ℕ) : ℚ) / ((d * 10 ^ (-shift).toNat : ℕ) : ℚ) = c / d * 10 ^ shift := by
  push_cast
  rw [mul_div_mul_comm, ← zpow_natCast, ← zpow_natCast, ← zpow_sub₀ (by norm_num)]
  congr 2
  omega

/-- A quotient has more digits than the precision before it is cut off. -/
theorem pow_le_shifted {c d : ℕ} (hc : c ≠ 0) (hd : d ≠ 0) (p : ℕ) {shift : ℤ}
    (hshift : shift = (digitCount d : ℤ) - digitCount c + p + 1) :
    10 ^ p ≤ c * 10 ^ shift.toNat / (d * 10 ^ (-shift).toNat) := by
  have hcount := digitCount_pos hc
  rw [Nat.le_div_iff_mul_le (by positivity)]
  calc 10 ^ p * (d * 10 ^ (-shift).toNat) ≤ 10 ^ p * (10 ^ digitCount d * 10 ^ (-shift).toNat) :=
        Nat.mul_le_mul_left _ (Nat.mul_le_mul_right _ (digitCount_bounds hd).2.le)
    _ = 10 ^ (digitCount c - 1) * 10 ^ shift.toNat := by
        rw [← pow_add, ← pow_add, ← pow_add]
        congr 1
        omega
    _ ≤ c * 10 ^ shift.toNat := Nat.mul_le_mul_right _ (digitCount_bounds hc).1

/-- A quotient that leaves a rest is between its whole part and the next whole number. -/
theorem quotient_between {n m : ℕ} (hm : 0 < m) (hrest : n % m ≠ 0) :
    ((n / m : ℕ) : ℚ) < n / m ∧ (n / m : ℚ) < (n / m : ℕ) + 1 := by
  have hmq : (0 : ℚ) < m := by exact_mod_cast hm
  have hsplit : (n : ℚ) = (n / m : ℕ) * m + (n % m : ℕ) := by exact_mod_cast (Nat.div_add_mod' n m).symm
  have hpos : (0 : ℚ) < (n % m : ℕ) := by exact_mod_cast Nat.pos_of_ne_zero hrest
  have hless : ((n % m : ℕ) : ℚ) < m := by exact_mod_cast Nat.mod_lt n hm
  rw [lt_div_iff₀ hmq, div_lt_iff₀ hmq]
  constructor <;> linarith

/-- **A quotient is near.** -/
theorem exists_div_isNear (hp : 0 < p) {x y : Decimal} (hx : x.isFinite = true) (hy : y.isFinite = true)
    (hy0 : y.isZero = false) (h : IsModerateValue (x.toRat / y.toRat)) :
    ∃ z, div p x y = .ok z ∧ z.isFinite = true ∧ IsNear p (x.toRat / y.toRat) z.toRat := by
  obtain ⟨s, c, e, rfl⟩ := exists_finite hx
  obtain ⟨t, d, f, rfl⟩ := exists_finite hy
  have hd : d ≠ 0 := by simpa [isZero] using hy0
  rw [toRat_finite, toRat_finite, withSign_div] at h ⊢
  rw [IsModerateValue, abs_withSign,
    abs_of_nonneg (div_nonneg (magnitude_nonneg c e) (magnitude_nonneg d f))] at h
  suffices hround : ∃ c' e', div p (.finite s c e) (.finite t d f) = .ok (.finite (s != t) c' e') ∧
      IsNear p (c * 10 ^ e / (d * 10 ^ f)) (c' * 10 ^ e') by
    obtain ⟨c', e', hdiv, hnear⟩ := hround
    exact ⟨_, hdiv, rfl, by rw [toRat_finite]; exact hnear.withSign _⟩
  by_cases hc : c = 0
  · subst hc
    refine ⟨0, max (tinyExponent p) (min maxExponent (e - f)), ?_, .inl (by simp)⟩
    simp only [div, if_neg hd, ↓reduceIte]
    exact round_zero p _ _
  · simp only [div, if_neg hd, if_neg hc, Nat.pow_eq]
    generalize hshift : (digitCount d : ℤ) - digitCount c + p + 1 = shift
    have hlong := pow_le_shifted hc hd p hshift.symm
    have hvalue : (c : ℚ) * 10 ^ e / (d * 10 ^ f) =
        ((c * 10 ^ shift.toNat : ℕ) : ℚ) / ((d * 10 ^ (-shift).toNat : ℕ) : ℚ) * 10 ^ (e - f - shift) := by
      rw [shifted_div, mul_assoc, ← zpow_add₀ (by norm_num), show shift + (e - f - shift) = e - f by omega,
        zpow_sub₀ (by norm_num), mul_div_mul_comm]
    have hm : 0 < d * 10 ^ (-shift).toNat := by positivity
    rw [hvalue] at h ⊢
    generalize c * 10 ^ shift.toNat = n at hlong h ⊢
    generalize d * 10 ^ (-shift).toNat = m at hlong hm h ⊢
    have hmq : (0 : ℚ) < m := by exact_mod_cast hm
    split
    next hexact =>
      have hquotient : (n : ℚ) / m = (n / m : ℕ) := by
        rw [Nat.cast_div (Nat.dvd_of_mod_eq_zero hexact) hmq.ne']
      rw [hquotient, ← dropZeros_value _ _ (e - f)] at h ⊢
      exact exists_round_isNear hp _ h
    next hexact =>
      obtain ⟨hbelow, habove⟩ := quotient_between hm hexact
      have hunit : (0 : ℚ) < 10 ^ (e - f - shift) := by positivity
      exact exists_roundCut_isNear hp _ hlong (mul_lt_mul_of_pos_right hbelow hunit)
        (mul_lt_mul_of_pos_right habove hunit) h

/-! ## Results that fit -/

variable {x y : Decimal}

/-- A computation gives a finite decimal of this value. -/
def Gives (result : Except Signal Decimal) (v : ℚ) : Prop :=
  ∃ z, result = .ok z ∧ z.isFinite = true ∧ z.toRat = v

theorem Fits.of_withSign {s : Bool} (h : Fits p (withSign s v)) : Fits p v := by
  obtain ⟨⟨n, k, hn, hlt, htiny⟩, hmoderate⟩ := h
  rw [IsModerateValue, abs_withSign] at hmoderate
  refine ⟨?_, hmoderate⟩
  cases s with
  | false => exact ⟨n, k, hn, hlt, htiny⟩
  | true =>
      refine ⟨-n, k, ?_, by rwa [abs_neg], htiny⟩
      rw [withSign, if_pos rfl] at hn
      rw [Int.cast_neg, neg_mul, ← hn, neg_neg]

theorem gives_round (hp : 0 < p) {s : Bool} (h : Fits p (withSign s (c * 10 ^ e))) :
    Gives (round p s c e) (withSign s (c * 10 ^ e)) := by
  obtain ⟨c', e', hround, hvalue⟩ := exists_round_of_fits hp s h.of_withSign
  exact ⟨_, hround, rfl, by rw [toRat_finite, hvalue]⟩

/-- **A product that fits is exact.** -/
theorem gives_mul (hp : 0 < p) (hx : x.isFinite = true) (hy : y.isFinite = true)
    (h : Fits p (x.toRat * y.toRat)) : Gives (mul p x y) (x.toRat * y.toRat) := by
  obtain ⟨s, c, e, rfl⟩ := exists_finite hx
  obtain ⟨t, d, f, rfl⟩ := exists_finite hy
  rw [toRat_finite, toRat_finite, withSign_mul, magnitude_mul] at h ⊢
  exact gives_round hp h

/-- A signed coefficient in units of its last digit. -/
theorem withSign_eq (s : Bool) (c : ℕ) (w : ℚ) : withSign s (c * w) = (signed s c : ℚ) * w := by
  cases s <;> simp [withSign, signed]

/-- A signed coefficient in units of an earlier digit. -/
theorem withSign_aligned (s : Bool) (c : ℕ) (h : k ≤ e) :
    withSign s (c * 10 ^ e) = (signed s (c * 10 ^ (e - k).toNat) : ℚ) * 10 ^ k := by
  rw [zpow_eq_mul h, ← withSign_eq]
  push_cast
  ring_nf

theorem signed_natAbs {s : Bool} {n : ℤ} (hneg : n < 0 → s = true) (hpos : 0 < n → s = false) :
    signed s n.natAbs = n := by
  rcases lt_trichotomy n 0 with h | rfl | h
  · rw [hneg h, signed, if_pos rfl]
    omega
  · cases s <;> rfl
  · rw [hpos h, signed, if_neg Bool.false_ne_true]
    omega

/-- A multiple of a power of ten is one of each smaller power. -/
theorem exists_multiple (h : e ≤ k) (n : ℤ) : ∃ m : ℤ, (n : ℚ) * 10 ^ k = m * 10 ^ e := by
  refine ⟨n * (10 ^ (k - e).toNat : ℕ), ?_⟩
  rw [zpow_eq_mul h]
  push_cast
  ring

/-- A small addend does not reach the last digit of a sum that has few digits and a large other addend. -/
theorem lt_of_sum_digits {u w : ℚ} {n m : ℤ} (hsum : u + w = n * 10 ^ k) (hn : |n| < 10 ^ p)
    (hu : (10 : ℚ) ^ (m + p + 1) ≤ |u|) (hw : |w| < 10 ^ m) : m < k := by
  by_contra hk
  have hsize : |u + w| < 10 ^ (m + p) := by
    rw [hsum, add_comm m]
    exact (abs_mul_zpow_lt hn k).trans_le (zpow_le_zpow_right₀ (by norm_num) (by omega))
  have hunit : (10 : ℚ) ^ m ≤ 10 ^ (m + p) := zpow_le_zpow_right₀ (by norm_num) (by omega)
  have htriangle := abs_sub_abs_le_abs_sub u (-w)
  rw [sub_neg_eq_add, abs_neg] at htriangle
  rw [zpow_add₀ (by norm_num), zpow_one] at hu
  have hpos : (0 : ℚ) < 10 ^ (m + p) := by positivity
  linarith

/-- **Beside a sum that fits, no addend is negligible**: it would be the difference of two multiples of a unit
that is greater than itself. -/
theorem negligible_eq {s t : Bool} {d : ℕ} {f : ℤ} (hc : c ≠ 0) (hd : d ≠ 0)
    (h : Fits p (withSign s (c * 10 ^ e) + withSign t (d * 10 ^ f))) : negligible p c e d f = (d, f) := by
  obtain ⟨⟨n, k, hn, hlt, -⟩, -⟩ := h
  unfold negligible
  simp only
  refine if_neg fun hsmall => ?_
  obtain ⟨m, hm, hme, hmp⟩ : ∃ m, f + digitCount d ≤ m ∧ m + 1 ≤ e ∧ m + p + 2 ≤ e + digitCount c :=
    ⟨e + min (-1) ((digitCount c : ℤ) - p - 2), by omega, by omega, by omega⟩
  have hlarge : (10 : ℚ) ^ (m + p + 1) ≤ |withSign s (c * 10 ^ e)| := by
    rw [abs_withSign, abs_of_nonneg (magnitude_nonneg c e)]
    exact (zpow_le_zpow_right₀ (by norm_num) (by omega)).trans (magnitude_bounds hc e).1
  have hless : |withSign t (d * 10 ^ f)| < 10 ^ m := by
    rw [abs_withSign, abs_of_nonneg (magnitude_nonneg d f)]
    exact (magnitude_bounds hd f).2.trans_le (zpow_le_zpow_right₀ (by norm_num) hm)
  have hk : m + 1 ≤ k := lt_of_sum_digits hn hlt hlarge hless
  -- the sum and the large addend are multiples of the next unit, and so is what is between them
  obtain ⟨i, hi⟩ := exists_multiple hk n
  obtain ⟨j, hj⟩ := exists_multiple hme (signed s c)
  have hmultiple : withSign t (d * 10 ^ f) = ((i - j : ℤ) : ℚ) * 10 ^ (m + 1) := by
    rw [withSign_eq s, hj, hi] at hn
    push_cast
    linarith
  have hne : withSign t (d * 10 ^ f) ≠ 0 := by
    rw [← abs_pos, abs_withSign, abs_of_nonneg (magnitude_nonneg d f)]
    positivity
  have hunit : (10 : ℚ) ^ m < 10 ^ (m + 1) := zpow_lt_zpow_right₀ (by norm_num) (by omega)
  rw [hmultiple] at hless hne
  exact (hless.trans hunit).not_ge (zpow_le_abs_multiple hne)

/-- A sum of decimals other than zero that fits is exact. -/
theorem gives_addFinite (hp : 0 < p) {s t : Bool} {d : ℕ} {f : ℤ} (hc : c ≠ 0) (hd : d ≠ 0)
    (h : Fits p (withSign s (c * 10 ^ e) + withSign t (d * 10 ^ f))) :
    Gives (addFinite p s c e t d f) (withSign s (c * 10 ^ e) + withSign t (d * 10 ^ f)) := by
  have hkept : (if e < f then (negligible p d f c e, (d, f)) else ((c, e), negligible p c e d f)) =
      ((c, e), (d, f)) := by
    split
    · rw [negligible_eq hd hc (by rwa [add_comm] at h)]
    · rw [negligible_eq hc hd h]
  unfold addFinite
  rw [hkept]
  simp only [Nat.pow_eq]
  rw [withSign_aligned s c (min_le_left e f), withSign_aligned t d (min_le_right e f), ← add_mul,
    ← Int.cast_add] at h ⊢
  generalize signed s (c * 10 ^ (e - min e f).toNat) + signed t (d * 10 ^ (f - min e f).toNat) = total at h ⊢
  have hsigned : (total : ℚ) * 10 ^ min e f =
      withSign (decide (total < 0) || (total == 0 && s && t)) (total.natAbs * 10 ^ min e f) := by
    rw [withSign_eq, signed_natAbs]
    · intro hneg
      simp [hneg]
    · intro hpos
      simp [hpos.not_gt, hpos.ne']
  rw [hsigned] at h ⊢
  exact gives_round hp h

@[simp] theorem withSign_zero (s : Bool) : withSign s 0 = 0 := by
  cases s
  · rfl
  · exact neg_zero

/-- Beside a zero, an addend may get zeros at the end, and is exact if it fits. -/
theorem gives_besideZero (hp : 0 < p) {s : Bool} (least : ℤ) (h : Fits p (withSign s (c * 10 ^ e))) :
    Gives (if least < e then round p s (c * 10 ^ (e - least).toNat) least else round p s c e)
      (withSign s (c * 10 ^ e)) := by
  split
  next hlt =>
    have hvalue : (c : ℚ) * 10 ^ e = ((c * 10 ^ (e - least).toNat : ℕ) : ℚ) * 10 ^ least := by
      rw [zpow_eq_mul hlt.le]
      push_cast
      ring
    rw [hvalue] at h ⊢
    exact gives_round hp h
  next => exact gives_round hp h

/-- **A sum that fits is exact.** -/
theorem gives_add (hp : 0 < p) (hx : x.isFinite = true) (hy : y.isFinite = true)
    (h : Fits p (x.toRat + y.toRat)) : Gives (add p x y) (x.toRat + y.toRat) := by
  obtain ⟨s, c, e, rfl⟩ := exists_finite hx
  obtain ⟨t, d, f, rfl⟩ := exists_finite hy
  rw [toRat_finite, toRat_finite] at h ⊢
  by_cases hc : c = 0
  · subst hc
    rw [Nat.cast_zero, zero_mul, withSign_zero, zero_add] at h ⊢
    by_cases hd : d = 0
    · subst hd
      simp only [add, and_self, ↓reduceIte]
      exact ⟨_, round_zero p _ _, rfl, by simp [toRat_finite]⟩
    · simp only [add, hd, and_false, ↓reduceIte, Nat.pow_eq]
      exact gives_besideZero hp _ h
  · by_cases hd : d = 0
    · subst hd
      rw [Nat.cast_zero, zero_mul, withSign_zero, add_zero] at h ⊢
      simp only [add, hc, false_and, ↓reduceIte, Nat.pow_eq]
      exact gives_besideZero hp _ h
    · simp only [add, hc, hd, false_and, ↓reduceIte]
      exact gives_addFinite hp hc hd h

theorem toRat_flip (x : Decimal) : x.flip.toRat = -x.toRat := by
  cases x with
  | finite s c e =>
      rw [flip, toRat_finite, toRat_finite]
      cases s <;> simp [withSign]
  | _ => exact neg_zero.symm

/-- **A difference that fits is exact.** -/
theorem gives_sub (hp : 0 < p) (hx : x.isFinite = true) (hy : y.isFinite = true)
    (h : Fits p (x.toRat - y.toRat)) : Gives (sub p x y) (x.toRat - y.toRat) := by
  rw [sub_eq_add_neg, ← toRat_flip] at h ⊢
  refine gives_add hp hx ?_ h
  obtain ⟨t, d, f, rfl⟩ := exists_finite hy
  rfl

/-- The coefficient of the whole part of a decimal with `j` places. -/
def wholeCoefficient (s : Bool) (c j : ℕ) : ℕ := if s && c % 10 ^ j != 0 then c / 10 ^ j + 1 else c / 10 ^ j

theorem floor_places (s : Bool) (c : ℕ) {j : ℕ} (hj : 0 < j) :
    floor (.finite s c (-j)) = .finite s (wholeCoefficient s c j) 0 := by
  rw [floor, if_neg (by omega), neg_neg, Int.toNat_natCast]
  split
  next hdigits =>
    have hlt : c < 10 ^ j := by
      by_cases hc : c = 0
      · rw [hc]
        positivity
      · exact (digitCount_bounds hc).2.trans_le (Nat.pow_le_pow_right (by decide) hdigits)
    rw [wholeCoefficient, Nat.mod_eq_of_lt hlt, Nat.div_eq_of_lt hlt]
  next => rfl

theorem signed_wholeCoefficient (s : Bool) (c j : ℕ) :
    signed s (wholeCoefficient s c j) = signed s c / ((10 ^ j : ℕ) : ℤ) := by
  cases s with
  | false => simp [signed, wholeCoefficient]
  | true =>
      have hpos : 0 < 10 ^ j := by positivity
      simp only [signed, wholeCoefficient, ↓reduceIte, Bool.true_and]
      generalize 10 ^ j = d at hpos ⊢
      have hsplit : (d : ℤ) * (c / d : ℕ) + (c % d : ℕ) = c := by exact_mod_cast Nat.div_add_mod c d
      have hlt := Nat.mod_lt c hpos
      symm
      split
      next hrest =>
        rw [bne_iff_ne] at hrest
        refine ((Int.ediv_emod_unique (r := (d - c % d : ℤ)) (by omega)).2 ⟨?_, ?_, ?_⟩).1
        · push_cast at hsplit ⊢
          linarith
        all_goals omega
      next hrest =>
        refine ((Int.ediv_emod_unique (r := 0) (by omega)).2 ⟨?_, le_rfl, by omega⟩).1
        simp only [bne_iff_ne, ne_eq, not_not] at hrest
        rw [hrest] at hsplit
        push_cast at hsplit ⊢
        linarith

/-- **The whole part of a decimal.** -/
theorem gives_floor (hx : x.isFinite = true) : x.floor.isFinite = true ∧ x.floor.toRat = ⌊x.toRat⌋ := by
  obtain ⟨s, c, e, rfl⟩ := exists_finite hx
  rw [toRat_finite, withSign_eq]
  by_cases he : 0 ≤ e
  · -- a decimal without places is whole
    obtain ⟨j, rfl⟩ := Int.eq_ofNat_of_zero_le he
    rw [floor, if_pos he, toRat_finite, withSign_eq, zpow_natCast]
    refine ⟨rfl, ?_⟩
    norm_cast
  · obtain ⟨j, rfl⟩ : ∃ j : ℕ, e = -j := ⟨(-e).toNat, by omega⟩
    have hfloor := Rat.floor_intCast_div_natCast (signed s c) (10 ^ j)
    rw [← signed_wholeCoefficient, Nat.cast_pow, Nat.cast_ofNat] at hfloor
    rw [floor_places s c (by omega), zpow_neg, zpow_natCast, ← div_eq_mul_inv, hfloor, toRat_finite,
      withSign_eq, zpow_zero, mul_one]
    exact ⟨rfl, rfl⟩

end SymbolicAlgebra.Decimal
