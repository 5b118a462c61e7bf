import SymbolicAlgebra.Proofs.Nearest

/-!
# Proofs/Division — quotients of doubles

A quotient of significands is cut off far enough for 53 bits, and two more bits tell what is left of it;
shifting it keeps these two bits right (`shiftRightOne_extendedQuotient`), so that it is rounded to a
nearest number whatever was shifted (`roundedMantissa_near`).  Hence the quotient of two normal doubles
differs from the quotient of their values by at most half a unit in the last place (`toRat_div_near`).
-/

namespace SymbolicAlgebra.Double

open Float.Model Float.Model.UnpackedFloat

/-! ## Rounding a quotient -/

/-- A quotient cut off, with what is left of it. -/
def extendedQuotient (a b : ℕ) : ExtendedMantissa :=
  .ofMantissaAndAccuracy (a / b) (accuracyOfFraction (a % b) b)

/-- The bits behind a quotient tell whether at least a half is left, and whether what is left is neither
nothing nor a half. -/
theorem extendedQuotient_eq (a : ℕ) {b : ℕ} (hb : 0 < b) : extendedQuotient a b =
    ⟨a / b, decide (b ≤ 2 * (a % b)), decide (a % b ≠ 0 ∧ 2 * (a % b) ≠ b)⟩ := by
  unfold extendedQuotient accuracyOfFraction
  by_cases hzero : a % b = 0
  · rw [if_pos hzero, decide_eq_false (by omega), decide_eq_false (by omega)]
    rfl
  · rw [if_neg hzero]
    cases hc : compare (2 * (a % b)) b with
    | lt =>
        have := Nat.compare_eq_lt.1 hc
        rw [decide_eq_false (by omega), decide_eq_true (by omega)]
        rfl
    | eq =>
        have := Nat.compare_eq_eq.1 hc
        rw [decide_eq_true (by omega), decide_eq_false (by omega)]
        rfl
    | gt =>
        have := Nat.compare_eq_gt.1 hc
        rw [decide_eq_true (by omega), decide_eq_true (by omega)]
        rfl

/-- **A quotient is rounded to the nearest number.** -/
theorem roundedMantissa_near (a : ℕ) {b : ℕ} (hb : 0 < b) :
    2 * ((extendedQuotient a b).roundedMantissa * b) ≤ 2 * a + b ∧
      2 * a ≤ 2 * ((extendedQuotient a b).roundedMantissa * b) + b := by
  have hsplit : a = a / b * b + a % b := (Nat.div_add_mod' a b).symm
  have hnext : (a / b + 1) * b = a / b * b + b := by ring
  rw [extendedQuotient_eq a hb, ExtendedMantissa.roundedMantissa]
  have hrest : a % b < b := Nat.mod_lt a hb
  by_cases hhalf : b ≤ 2 * (a % b)
  · by_cases hmore : a % b ≠ 0 ∧ 2 * (a % b) ≠ b
    · rw [decide_eq_true hhalf, decide_eq_true hmore]
      change 2 * ((a / b + 1) * b) ≤ _ ∧ _ ≤ 2 * ((a / b + 1) * b) + b
      omega
    · rw [decide_eq_true hhalf, decide_eq_false hmore]
      change 2 * ((a / b + a / b % 2) * b) ≤ _ ∧ _ ≤ 2 * ((a / b + a / b % 2) * b) + b
      rcases Nat.mod_two_eq_zero_or_one (a / b) with hparity | hparity
      · rw [hparity, Nat.add_zero]
        omega
      · rw [hparity]
        omega
  · have hkept : ∀ sticky, (ExtendedMantissa.accuracy ⟨a / b, false, sticky⟩).roundToNearestEven
        (a / b) = a / b := fun sticky => by cases sticky <;> rfl
    rw [decide_eq_false hhalf, hkept]
    omega

/-- A quotient that is shifted is a quotient by twice as much. -/
theorem shiftRightOne_extendedQuotient (a : ℕ) {b : ℕ} (hb : 0 < b) :
    (extendedQuotient a b).shiftRightOne = extendedQuotient a (2 * b) := by
  have hdiv : a / (2 * b) = a / b / 2 := by rw [Nat.div_div_eq_div_mul, Nat.mul_comm]
  have hmod : a % (2 * b) = a / b % 2 * b + a % b := by
    rw [Nat.mul_comm, Nat.mod_mul, Nat.mul_comm b, Nat.add_comm]
  have hrest : a % b < b := Nat.mod_lt a hb
  rw [extendedQuotient_eq a hb, extendedQuotient_eq a (Nat.mul_pos two_pos hb), hdiv, hmod,
    ExtendedMantissa.shiftRightOne]
  have hparity := Nat.mod_two_eq_zero_or_one (a / b)
  rw [ExtendedMantissa.mk.injEq]
  refine ⟨rfl, ?_, ?_⟩
  · rw [Bool.eq_iff_iff, bne_iff_ne, decide_eq_true_eq]
    rcases hparity with hparity | hparity <;> rw [hparity] <;> omega
  · rw [Bool.eq_iff_iff, Bool.or_eq_true, decide_eq_true_eq, decide_eq_true_eq, decide_eq_true_eq]
    rcases hparity with hparity | hparity <;> rw [hparity] <;> omega

theorem shiftToTargetExponent_eq {m : ℕ} {e : ℤ} {s : ℕ} (hlog : m.log2 = 52 + s) (he : -1074 ≤ e)
    (accuracy : Accuracy) : shiftToTargetExponent Format.binary64 m e accuracy =
      (ExtendedMantissa.ofMantissaAndAccuracy m accuracy >>> s, e + s) := by
  have htarget : Format.binary64.targetExponent (totalExponent m e) = e + s := by
    rw [Format.targetExponent, totalExponent, hlog]
    change max (((52 + s : ℕ) : ℤ) + 1 + e - 53) (-1074) = e + s
    omega
  have hshift : (e + s - e).toNat = s := by omega
  rw [shiftToTargetExponent, shiftToExponent, htarget]
  simp only [hshift]

/-- A significand of 53 bits, or the one after the last of them, is brought into range. -/
theorem exists_carried {r : ℕ} {e : ℤ} (hle : 2 ^ 52 ≤ r) (hle' : r ≤ 2 ^ 53) (he : -1074 ≤ e) :
    ∃ (m s : ℕ), s ≤ 1 ∧ 2 ^ 52 ≤ m ∧ m < 2 ^ 53 ∧ m * 2 ^ s = r ∧
      (shiftToTargetExponent Format.binary64 r e .exact).1.mantissa = m ∧
      (shiftToTargetExponent Format.binary64 r e .exact).2 = e + s := by
  obtain hlt | rfl := lt_or_eq_of_le hle'
  · have hlog : r.log2 = 52 + 0 := (Nat.log2_eq_iff (by omega)).2 ⟨hle, hlt⟩
    rw [shiftToTargetExponent_eq hlog he]
    exact ⟨r, 0, by decide, hle, hlt, mul_one r, rfl, rfl⟩
  · have hlog : (2 ^ 53).log2 = 52 + 1 := by decide
    rw [shiftToTargetExponent_eq hlog he]
    exact ⟨2 ^ 52, 1, le_rfl, le_rfl, by decide, by decide, rfl, rfl⟩

/-- A quotient of 53 bits is rounded to one of 53 bits, or to the power above them. -/
theorem roundedMantissa_range {a c : ℕ} (hc : 0 < c) (hle : 2 ^ 52 * c ≤ a) (hlt : a < 2 ^ 53 * c) :
    2 ^ 52 ≤ (extendedQuotient a c).roundedMantissa ∧
      (extendedQuotient a c).roundedMantissa ≤ 2 ^ 53 := by
  obtain ⟨hbelow, habove⟩ := roundedMantissa_near a hc
  generalize (extendedQuotient a c).roundedMantissa = r at *
  have hnext : (r + 1) * c = r * c + c := by ring
  constructor
  · by_contra hlow
    have := Nat.mul_le_mul_right c (show r + 1 ≤ 2 ^ 52 by omega)
    omega
  · by_contra hhigh
    have := Nat.mul_le_mul_right c (show 2 ^ 53 + 1 ≤ r by omega)
    omega

/-- What is half a unit from a quotient of at least 53 bits is near it. -/
theorem scaled_near {a b r s : ℕ} (hb : 0 < b) (hle : 2 ^ 52 * (2 ^ s * b) ≤ a)
    (hbelow : 2 * (r * (2 ^ s * b)) ≤ 2 * a + 2 ^ s * b)
    (habove : 2 * a ≤ 2 * (r * (2 ^ s * b)) + 2 ^ s * b) :
    |(r * 2 ^ s : ℚ) - a / b| ≤ 2 ^ (-53 : ℤ) * (a / b) := by
  have hb' : (0 : ℚ) < b := by exact_mod_cast hb
  have hbelow' : 2 * (r * 2 ^ s * b : ℚ) ≤ 2 * a + 2 ^ s * b := by exact_mod_cast (by linarith)
  have habove' : 2 * a ≤ 2 * (r * 2 ^ s * b : ℚ) + 2 ^ s * b := by exact_mod_cast (by linarith)
  have hle' : (2 ^ 52 * (2 ^ s * b) : ℚ) ≤ a := by exact_mod_cast hle
  rw [mul_div_assoc', le_div_iff₀ hb', ← abs_of_pos hb', ← abs_mul, abs_of_pos hb', sub_mul,
    div_mul_cancel₀ _ hb'.ne', abs_le, show (2 : ℚ) ^ (-53 : ℤ) = (2 ^ 53)⁻¹ by norm_num]
  constructor <;> linarith

/-- **A quotient of at least 53 bits is rounded to a double near it.** -/
theorem roundWithAccuracy_near {a b : ℕ} {e : ℤ} {s : ℕ} (hb : 0 < b) (hs : s ≤ 1)
    (hle : 2 ^ 52 * (2 ^ s * b) ≤ a) (hlt : a < 2 ^ 53 * (2 ^ s * b)) (he : -1074 ≤ e) (he' : e ≤ 900) :
    ∃ (m : ℕ) (q : ℤ) (hm : 0 < m), IsNormal m q ∧
      roundWithAccuracy Format.binary64 .positive (a / b) e (accuracyOfFraction (a % b) b) =
        .finite .positive m q hm ∧
      |(m * 2 ^ q : ℚ) - a / b * 2 ^ e| ≤ 2 ^ (-53 : ℤ) * (a / b * 2 ^ e) := by
  have hlog : (a / b).log2 = 52 + s := by
    have hlow : 2 ^ (52 + s) ≤ a / b := by
      rw [Nat.le_div_iff_mul_le hb, pow_add, mul_assoc]
      exact hle
    have hhigh : a / b < 2 ^ (52 + s + 1) := by
      rw [Nat.div_lt_iff_lt_mul hb, show 52 + s + 1 = 53 + s by omega, pow_add, mul_assoc]
      exact hlt
    exact (Nat.log2_eq_iff (lt_of_lt_of_le (by positivity) hlow).ne').2 ⟨hlow, hhigh⟩
  have hshifted : ExtendedMantissa.ofMantissaAndAccuracy (a / b) (accuracyOfFraction (a % b) b) >>> s =
      extendedQuotient a (2 ^ s * b) := by
    rcases Nat.le_one_iff_eq_zero_or_eq_one.1 hs with rfl | rfl
    · rw [pow_zero, one_mul]
      rfl
    · exact shiftRightOne_extendedQuotient a hb
  have hpos : 0 < 2 ^ s * b := by positivity
  obtain ⟨hbelow, habove⟩ := roundedMantissa_near a hpos
  have hrange := roundedMantissa_range hpos hle hlt
  generalize hr : (extendedQuotient a (2 ^ s * b)).roundedMantissa = r at hbelow habove hrange
  obtain ⟨m, t, ht, hm, hm', hmr, hmantissa, hexponent⟩ :=
    exists_carried (e := e + s) hrange.1 hrange.2 (by omega)
  refine ⟨m, e + s + t, by omega, ⟨hm, hm', by omega, by omega⟩, ?_, ?_⟩
  · rw [roundWithAccuracy, shiftToTargetExponent_eq hlog he, hshifted]
    simp only [hr, hmantissa, hexponent]
    exact dif_neg (by omega)
  · have hvalue : (m * 2 ^ (e + s + t) : ℚ) = r * 2 ^ s * 2 ^ e := by
      rw [← hmr, Nat.cast_mul, Nat.cast_pow, zpow_add₀ two_ne_zero, zpow_add₀ two_ne_zero, zpow_natCast,
        zpow_natCast]
      push_cast
      ring
    rw [hvalue, ← sub_mul, abs_mul, abs_of_pos (show (0 : ℚ) < 2 ^ e by positivity), ← mul_assoc]
    exact mul_le_mul_of_nonneg_right (scaled_near hb hle hbelow habove) (by positivity)

/-! ## Dividing doubles -/

variable {m n : ℕ} {e f : ℤ}

/-- What is left of a quotient of significands, with 53 bits more for the first one. -/
theorem divCore_eq (hm : IsNormal m e) (hn : IsNormal n f) (hlow : -1021 ≤ e - f) :
    divCore Format.binary64 m e n f =
      (m * 2 ^ 53 / n, e - f - 53, accuracyOfFraction (m * 2 ^ 53 % n) n) := by
  have hlog : ∀ {m : ℕ} {e : ℤ}, IsNormal m e → m.log2 = 52 := fun {m e} h =>
    (Nat.log2_eq_iff (lt_of_lt_of_le (by positivity) h.le).ne').2 ⟨h.le, h.lt⟩
  have htarget : min (e - f) (Format.binary64.targetExponent (totalExponent m e - totalExponent n f)) =
      e - f - 53 := by
    rw [Format.targetExponent, totalExponent, totalExponent, hlog hm, hlog hn]
    change min (e - f) (max (((52 : ℕ) : ℤ) + 1 + e - (((52 : ℕ) : ℤ) + 1 + f) - 53) (-1074)) =
      e - f - 53
    omega
  have hshift : (e - f - (e - f - 53)).toNat = 53 := by omega
  rw [divCore, htarget, hshift, Nat.shiftLeft_eq]

/-- **The quotient of two doubles is near the quotient of their values.** -/
theorem toRat_div_near (hm : IsNormal m e) (hn : IsNormal n f) (hlow : -1021 ≤ e - f)
    (hhigh : e - f ≤ 900) :
    |toRat (encode false m e / encode false n f) - m * 2 ^ e / (n * 2 ^ f)| ≤
      2 ^ (-53 : ℤ) * (m * 2 ^ e / (n * 2 ^ f)) := by
  have hmpos : 0 < m := lt_of_lt_of_le (by positivity) hm.le
  have hnpos : 0 < n := lt_of_lt_of_le (by positivity) hn.le
  obtain ⟨s, hs, hle, hlt⟩ : ∃ s ≤ 1,
      2 ^ 52 * (2 ^ s * n) ≤ m * 2 ^ 53 ∧ m * 2 ^ 53 < 2 ^ 53 * (2 ^ s * n) := by
    have := hm.le
    have := hm.lt
    have := hn.le
    have := hn.lt
    obtain hless | hless := lt_or_ge m n
    · exact ⟨0, by decide, by omega, by omega⟩
    · exact ⟨1, le_rfl, by omega, by omega⟩
  obtain ⟨r, q, hr, hnormal, hround, hnear⟩ :=
    roundWithAccuracy_near (e := e - f - 53) hnpos hs hle hlt (by omega) (by omega)
  have hunpacked : unpacked (encode false m e / encode false n f) = .finite .positive r q hr := by
    change (Float.Model.pack (UnpackedFloat.div Format.binary64 (unpacked (encode false m e))
      (unpacked (encode false n f)))).unpack = _
    rw [hm.unpacked_encode hmpos, hn.unpacked_encode hnpos]
    have hdiv : UnpackedFloat.div Format.binary64 (.finite (signOf false) m e hmpos)
        (.finite (signOf false) n f hnpos) = .finite .positive r q hr := by
      rw [UnpackedFloat.div, divCore_eq hm hn hlow]
      exact hround
    rw [hdiv]
    exact hnormal.unpack_pack hr
  have hencode : unpacked (encode false r q) = .finite .positive r q hr := hnormal.unpacked_encode hr
  have hplaced : IsPlaced r q := ⟨hnormal.lt, hnormal.exponent_ge, .inr hnormal.le⟩
  rw [eq_of_unpacked (hunpacked.trans hencode.symm), toRat_encode false hplaced hnormal.exponent_le]
  have hquotient : (m * 2 ^ e / (n * 2 ^ f) : ℚ) = (m * 2 ^ 53 : ℕ) / n * 2 ^ (e - f - 53) := by
    rw [zpow_sub₀ two_ne_zero, zpow_sub₀ two_ne_zero]
    push_cast
    field_simp
  rw [hquotient]
  exact hnear

/-- **The reciprocal of a whole number is near its double.** -/
theorem toRat_reciprocal_near {n : ℕ} (hn : 0 < n) (hle : n ≤ 2 ^ 53) :
    |toRat (1 / ofInt n) * n - 1| ≤ 2 ^ (-53 : ℤ) := by
  obtain ⟨m, j, hm, hnormal, hmj, hunpacked⟩ :=
    unpacked_ofRat_intCast (n := n) (by omega) (by rwa [Int.natAbs_natCast])
  rw [Int.natAbs_natCast] at hmj
  have hsign : decide ((n : ℤ) < 0) = false := decide_eq_false (Int.natCast_nonneg n).not_gt
  have hdivisor : ofInt n = encode false m (j - 52) := by
    rw [hsign] at hunpacked
    refine Eq.trans ?_ (eq_of_unpacked (hunpacked.trans (hnormal.unpacked_encode hm).symm))
    rw [ofInt, ofRat, Rat.num_intCast, Rat.den_intCast]
  have hone : (1 : Float) = encode false (2 ^ 52) (-52) := by decide
  have hj : j ≤ 53 := by
    have hpow : 2 ^ 52 * 2 ^ j ≤ 2 ^ 52 * 2 ^ 53 := calc
      2 ^ 52 * 2 ^ j ≤ m * 2 ^ j := Nat.mul_le_mul_right _ hnormal.le
      _ = 2 ^ 52 * n := by rw [hmj, Nat.mul_comm]
      _ ≤ 2 ^ 52 * 2 ^ 53 := Nat.mul_le_mul_left _ hle
    exact (Nat.pow_le_pow_iff_right one_lt_two).1 (Nat.le_of_mul_le_mul_left hpow (by positivity))
  have hunits : IsNormal (2 ^ 52) (-52) := ⟨le_rfl, by decide, by decide, by decide⟩
  have hnear := toRat_div_near hunits hnormal (by omega) (by omega)
  rw [← hone, ← hdivisor] at hnear
  have hn' : (0 : ℚ) < n := by exact_mod_cast hn
  have hvalue : (m * 2 ^ (j - 52 : ℤ) : ℚ) = n := by
    have hcast : (m * 2 ^ j : ℚ) = n * 2 ^ 52 := by exact_mod_cast hmj
    rw [zpow_sub₀ two_ne_zero, zpow_natCast, ← mul_div_assoc, hcast]
    norm_num
  have hunit : ((2 ^ 52 : ℕ) * 2 ^ (-52 : ℤ) : ℚ) = 1 := by norm_num
  rw [hvalue, hunit] at hnear
  have hscale : toRat (1 / ofInt n) * n - 1 = (toRat (1 / ofInt n) - 1 / n) * n := by
    field_simp
  rw [hscale, abs_mul, abs_of_pos hn', ← le_div_iff₀ hn']
  exact hnear.trans_eq (mul_one_div _ _)

end SymbolicAlgebra.Double
