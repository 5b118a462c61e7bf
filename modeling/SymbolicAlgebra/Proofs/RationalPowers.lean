import SymbolicAlgebra.Proofs.Gaussian
import SymbolicAlgebra.Proofs.Roots

/-!
# Proofs/RationalPowers — powers of rationals with a denominator in the exponent

What an exact root gives is the right power, in `ℚ(i)` when the base is negative: the magnitude is a power
of the root, and the residue of the numerator modulo four turns it (`Number.powNegative_of_exact`).  Other
magnitudes are not exact, and a magnitude that is not exact keeps the result out of the exact lane — but
for one case: the half power of a negative rational is a pair with the exact real part zero, and a pair
whose imaginary part is zero collapses to its real part, also when that zero is only where the magnitude
vanished in the approximate lane (`Number.Vanishes`).  So exact results are right or such a zero
(`Number.rational_power`).
-/

namespace SymbolicAlgebra.Number

open Kernel (exists_of_bind_ok)

variable {power : Float → Float → Float} {precision : ℕ} {b e : ℚ} {r : Number}

/-! ## Powers of the imaginary unit -/

theorem imaginaryUnit_sq : imaginaryUnit.gaussian ^ 2 = -1 := by decide +kernel

/-- An odd power of `i` is `i` or its opposite, by the residue of the exponent modulo four. -/
theorem imaginaryUnit_zpow {n : ℤ} (hn : n % 2 = 1) :
    imaginaryUnit.gaussian ^ n =
      if n % 4 = 1 then imaginaryUnit.gaussian else -imaginaryUnit.gaussian := by
  have hunit : imaginaryUnit.gaussian ≠ 0 := fun h => by cases congrArg QuadraticAlgebra.im h
  have hfour : ∀ k : ℤ, imaginaryUnit.gaussian ^ (4 * k) = 1 := fun k => by
    rw [zpow_mul, show (4 : ℤ) = (2 * 2 : ℕ) from rfl, zpow_natCast, pow_mul, imaginaryUnit_sq]
    simp
  obtain ⟨k, rfl | rfl⟩ : ∃ k, n = 4 * k + 1 ∨ n = 4 * k + 3 := ⟨n / 4, by omega⟩
  · rw [zpow_add₀ hunit, hfour, one_mul, zpow_one, if_pos (by omega)]
  · rw [zpow_add₀ hunit, hfour, one_mul, if_neg (by omega), show (3 : ℤ) = (2 + 1 : ℕ) from rfl, zpow_natCast,
      pow_succ, imaginaryUnit_sq, neg_one_mul]

/-! ## Lanes -/

theorem re_ofParts (x y : Scalar) : (ofParts x y).re = x := by
  unfold ofParts
  split <;> rfl

theorem isExact_approximate {a v : Scalar} (h : a.approximate precision = .ok v) : v.isExact = false := by
  unfold Scalar.approximate at h
  split at h
  next q =>
    split at h
    · obtain ⟨d, -, h⟩ := exists_of_bind_ok h
      cases h
      rfl
    · cases h
      rfl
  next hexact =>
    cases h
    cases a with
    | exact q => exact (hexact q rfl).elim
    | big d p => rfl
    | machine x => rfl

/-- An operand outside the exact lane keeps the result outside. -/
theorem isExact_scalarBinary {op : Operation} {x y v : Scalar} (h : Scalar.binary op x y = .ok v)
    (hx : x.isExact = false) : v.isExact = false := by
  unfold Scalar.binary at h
  split at h
  · cases h
    rfl
  split at h
  · cases hx
  split at h
  · obtain ⟨x', -, h⟩ := exists_of_bind_ok h
    obtain ⟨y', -, h⟩ := exists_of_bind_ok h
    obtain ⟨d, -, h⟩ := exists_of_bind_ok h
    cases h
    rfl
  · obtain ⟨z, -, h⟩ := exists_of_bind_ok h
    cases h
    rfl

/-- A real factor outside the exact lane keeps the real part of a product outside. -/
theorem isExact_re_mul {x : Scalar} {a c : Number} (h : (Number.real x).mul a = .ok c)
    (hx : x.isExact = false) : c.re.isExact = false := by
  cases a with
  | real y =>
      obtain ⟨v, hv, h⟩ := exists_of_bind_ok h
      cases h
      exact isExact_scalarBinary hv hx
  | complex y z =>
      -- the real part is a difference that starts from the product with the real part of the other factor
      obtain ⟨p, hp, h⟩ := exists_of_bind_ok h
      obtain ⟨q, -, h⟩ := exists_of_bind_ok h
      obtain ⟨re, hre, h⟩ := exists_of_bind_ok h
      obtain ⟨_, -, h⟩ := exists_of_bind_ok h
      obtain ⟨_, -, h⟩ := exists_of_bind_ok h
      obtain ⟨im, -, h⟩ := exists_of_bind_ok h
      cases h
      rw [re_ofParts]
      exact isExact_scalarBinary hre (isExact_scalarBinary hp hx)

/-! ## Magnitudes -/

/-- **A power of a positive rational is a power of its root, or not exact.** -/
theorem powReal_cases {v : Scalar} (hb : 0 < b)
    (h : powReal power precision (.exact b) (.exact e) = .ok v) :
    (∃ s : ℚ, 0 < s ∧ s ^ e.den = b ^ e.num ∧ v = .exact s) ∨ v.isExact = false := by
  obtain ⟨root?, hroot, h⟩ := exists_of_bind_ok h
  cases root? with
  | none => exact .inr (isExact_powApproximate h)
  | some root =>
      obtain ⟨hnonneg, hpow⟩ := pow_eq_of_ratRoot e.den_nz hb.le hroot
      have hpos : 0 < root := hnonneg.lt_of_ne fun hzero => by
        rw [← hzero, zero_pow e.den_nz] at hpow
        exact hb.ne hpow
      obtain ⟨s, hs, h⟩ := exists_of_bind_ok h
      rw [ratPow_eq fun _ => hpos.ne'] at hs
      cases hs
      cases h
      refine .inl ⟨_, zpow_pos hpos _, ?_, rfl⟩
      rw [← hpow, ← zpow_natCast, ← zpow_natCast, ← zpow_mul, ← zpow_mul, mul_comm]

/-! ## Powers -/

/-- The right exact value of a rational power: its power with the denominator is the power of the base with
the numerator; it is a positive rational if the base is; and if the base is negative, the denominator is two
and it is the positive square root of the power of the absolute value, turned by a power of `i`. -/
structure IsPower (b e : ℚ) (r : Number) : Prop where
  isProper : r.isProper = true
  pow_den : r.gaussian ^ e.den = (ofRat b).gaussian ^ e.num
  of_pos : 0 < b → ∃ s : ℚ, 0 < s ∧ r = .ofRat s
  of_neg : b < 0 → e.den = 2 ∧ ∃ s : ℚ, 0 < s ∧ s ^ 2 = |b| ^ e.num ∧
    r.gaussian = imaginaryUnit.gaussian ^ e.num * (ofRat s).gaussian

/-- A magnitude, turned to the positive or the negative imaginary axis. -/
def turned (e : ℚ) (magnitude : Scalar) : Except NumberFault Scalar :=
  if e.num % 4 = 1 then .ok magnitude else magnitude.neg

/-- A half power of a negative rational vanishes if its imaginary part is zero in the approximate lane. -/
structure Vanishes (power : Float → Float → Float) (precision : ℕ) (b e : ℚ) : Prop where
  neg : b < 0
  den_eq : e.den = 2
  isZero : ∃ magnitude part, powReal power precision (.exact (-b)) (.exact e) = .ok magnitude ∧
    turned e magnitude = .ok part ∧ part.isExact = false ∧ part.isZero = true

theorem gaussian_ofRat_zpow (x : ℚ) (n : ℤ) : (ofRat x).gaussian ^ n = (ofRat (x ^ n)).gaussian :=
  gaussian_zpow_ofRat x n

theorem gaussian_ofRat_pow (x : ℚ) (n : ℕ) : (ofRat x).gaussian ^ n = (ofRat (x ^ n)).gaussian :=
  (map_pow (algebraMap ℚ Gaussian) x n).symm

/-- The right value is not zero. -/
theorem IsPower.isZero_eq_false (h : IsPower b e r) (hb : b ≠ 0) : r.isZero = false := by
  rw [Bool.eq_false_iff]
  intro hzero
  have hgaussian := (represents_gaussian h.isProper).isZero_iff.1 hzero
  have hpow := h.pow_den
  rw [hgaussian, zero_pow e.den_nz, gaussian_ofRat_zpow] at hpow
  exact zpow_ne_zero e.num hb (congrArg QuadraticAlgebra.re hpow).symm

theorem isPower_of_pos {s : ℚ} (hb : 0 < b) (hs : 0 < s) (hpow : s ^ e.den = b ^ e.num) :
    IsPower b e (.ofRat s) where
  isProper := rfl
  pow_den := by rw [gaussian_ofRat_pow, gaussian_ofRat_zpow, hpow]
  of_pos _ := ⟨s, hs, rfl⟩
  of_neg hneg := absurd hneg hb.not_gt

/-- The numerator of a fraction with denominator two is odd. -/
theorem num_odd (hden : e.den = 2) : e.num % 2 = 1 := by
  have hcoprime := e.reduced
  rw [hden, Nat.coprime_two_right] at hcoprime
  rcases hcoprime with ⟨k, hk⟩
  omega

theorem isPower_of_neg {s : ℚ} (hb : b < 0) (hden : e.den = 2) (hs : 0 < s) (hpow : s ^ 2 = |b| ^ e.num)
    (hproper : r.isProper = true)
    (hr : r.gaussian = imaginaryUnit.gaussian ^ e.num * (ofRat s).gaussian) : IsPower b e r where
  isProper := hproper
  pow_den := by
    have hunit : (imaginaryUnit.gaussian ^ e.num) ^ 2 = (-1) ^ e.num := by
      rw [← zpow_natCast, ← zpow_mul, mul_comm, zpow_mul, zpow_natCast, imaginaryUnit_sq]
    have hbase : (ofRat b).gaussian = -1 * (ofRat |b|).gaussian := by
      rw [abs_of_neg hb]
      simp [gaussian, ofRat, Number.re, Number.im, Scalar.toRat, Scalar.zero]
    rw [hden, hr, mul_pow, hunit, gaussian_ofRat_pow, hpow, ← gaussian_ofRat_zpow, ← mul_zpow, hbase]
  of_pos hpos := absurd hpos hb.not_gt
  of_neg _ := ⟨hden, s, hs, hpow, hr⟩

/-- The right value for a negative base: the magnitude, turned as the residue of the numerator says. -/
theorem isPower_turned {s : ℚ} {part : Scalar} (hb : b < 0) (hden : e.den = 2) (hs : 0 < s)
    (hpow : s ^ 2 = |b| ^ e.num) (hpart : turned e (.exact s) = .ok part) :
    IsPower b e (ofParts .zero part) := by
  have hgaussian : ∀ t : ℚ, t ≠ 0 → (ofParts .zero (.exact t)).gaussian = ⟨0, t⟩ := fun t ht => by
    rw [Scalar.zero, ofParts_of_ne 0 ht]
    rfl
  unfold turned at hpart
  split at hpart
  next hone =>
    cases hpart
    refine isPower_of_neg hb hden hs hpow (isProper_ofParts _ _) ?_
    rw [imaginaryUnit_zpow (num_odd hden), if_pos hone, hgaussian s hs.ne']
    simp [gaussian, ofRat, imaginaryUnit, Number.re, Number.im, Scalar.toRat, Scalar.zero, Scalar.one]
  next hone =>
    cases hpart
    refine isPower_of_neg hb hden hs hpow (isProper_ofParts _ _) ?_
    rw [imaginaryUnit_zpow (num_odd hden), if_neg hone, hgaussian (-s) (neg_ne_zero.2 hs.ne')]
    simp [gaussian, ofRat, imaginaryUnit, Number.re, Number.im, Scalar.toRat, Scalar.zero, Scalar.one]

theorem isExact_turned {v part : Scalar} (h : turned e v = .ok part) : part.isExact = v.isExact := by
  unfold turned at h
  split at h
  · cases h
    rfl
  · cases v with
    | exact q =>
        cases h
        rfl
    | big d p =>
        obtain ⟨d', -, h⟩ := exists_of_bind_ok h
        cases h
        rfl
    | machine x =>
        cases h
        rfl

theorem powWith_of_neg (hb : b < 0) (he : e.den ≠ 1) :
    powWith power precision (.ofRat b) (.ofRat e) = powNegative power precision (.exact b) (.exact e) := by
  have hinteger : integer? (.ofRat e) = none := if_neg he
  have hnegative : (Scalar.exact b).isNegative = true := by rw [isNegative_exact, decide_eq_true hb]
  have hwhole : (Scalar.exact e).isInteger = false := beq_false_of_ne he
  simp only [powWith, isNaN_ofRat, hinteger, Bool.or_self, Bool.false_eq_true, ↓reduceIte]
  simp only [ofRat, hnegative, hwhole, Scalar.isFinite, Bool.not_false, Bool.and_self, ↓reduceIte]

/-- A half power of a negative number is its magnitude on the imaginary axis. -/
theorem powNegative_half (hden : e.den = 2) (h : powNegative power precision (.exact b) (.exact e) = .ok r) :
    ∃ magnitude part, powReal power precision (.exact (-b)) (.exact e) = .ok magnitude ∧
      turned e magnitude = .ok part ∧ r = ofParts .zero part := by
  obtain ⟨_, hopposite, h⟩ := exists_of_bind_ok h
  cases hopposite
  obtain ⟨magnitude, hmagnitude, h⟩ := exists_of_bind_ok h
  refine ⟨magnitude, ?_⟩
  by_cases hone : e.num % 4 = 1
  · simp only [Scalar.toRat, hden, hone, ↓reduceIte] at h
    cases h
    exact ⟨magnitude, hmagnitude, if_pos hone, rfl⟩
  · simp only [Scalar.toRat, hden, hone, ↓reduceIte] at h
    obtain ⟨part, hpart, h⟩ := exists_of_bind_ok h
    cases h
    exact ⟨part, hmagnitude, (if_neg hone).trans hpart, rfl⟩

/-- Other powers of negative numbers are not exact. -/
theorem isExact_powNegative (hden : e.den ≠ 2)
    (h : powNegative power precision (.exact b) (.exact e) = .ok r) : r.isExact = false := by
  obtain ⟨_, -, h⟩ := exists_of_bind_ok h
  obtain ⟨_, -, h⟩ := exists_of_bind_ok h
  simp only [Scalar.toRat, hden, ↓reduceIte] at h
  obtain ⟨m, hm, h⟩ := exists_of_bind_ok h
  obtain ⟨_, -, h⟩ := exists_of_bind_ok h
  obtain ⟨_, -, h⟩ := exists_of_bind_ok h
  obtain ⟨cosine, -, h⟩ := exists_of_bind_ok h
  obtain ⟨re, hre, h⟩ := exists_of_bind_ok h
  obtain ⟨_, -, h⟩ := exists_of_bind_ok h
  obtain ⟨im, -, h⟩ := exists_of_bind_ok h
  cases h
  rw [isExact, re_ofParts, isExact_re_mul hre (isExact_approximate hm), Bool.false_and]

/-- A half power that vanishes is zero. -/
theorem Vanishes.eq_zero (hv : Vanishes power precision b e) (he : e.den ≠ 1)
    (h : powWith power precision (.ofRat b) (.ofRat e) = .ok r) : r = zero := by
  obtain ⟨magnitude, part, hmagnitude, hpart, -, hzero⟩ := hv.isZero
  rw [powWith_of_neg hv.neg he] at h
  obtain ⟨magnitude', part', hmagnitude', hpart', rfl⟩ := powNegative_half hv.den_eq h
  cases hmagnitude.symm.trans hmagnitude'
  cases hpart.symm.trans hpart'
  exact if_pos hzero

/-- An exact power of a positive rational is the right one. -/
theorem isPower_of_isExact_pos (hb : 0 < b) (he : e.den ≠ 1)
    (h : powWith power precision (.ofRat b) (.ofRat e) = .ok r) (hexact : r.isExact = true) :
    IsPower b e r := by
  rw [powWith_ofRat power precision hb.le he] at h
  obtain ⟨v, hv, h⟩ := exists_of_bind_ok h
  cases h
  rcases powReal_cases hb hv with ⟨s, hs, hpow, rfl⟩ | happroximate
  · exact isPower_of_pos hb hs hpow
  · change (v.isExact && _) = true at hexact
    rw [happroximate, Bool.false_and] at hexact
    cases hexact

/-- An exact power of a negative rational is the right one, or the imaginary part vanished. -/
theorem isPower_or_vanishes_of_neg (hb : b < 0) (he : e.den ≠ 1)
    (h : powWith power precision (.ofRat b) (.ofRat e) = .ok r) (hexact : r.isExact = true) :
    IsPower b e r ∨ Vanishes power precision b e := by
  rw [powWith_of_neg hb he] at h
  by_cases hden : e.den = 2
  · obtain ⟨magnitude, part, hmagnitude, hpart, rfl⟩ := powNegative_half hden h
    rcases powReal_cases (neg_pos.2 hb) hmagnitude with ⟨s, hs, hpow, rfl⟩ | happroximate
    · rw [hden, ← abs_of_neg hb] at hpow
      exact .inl (isPower_turned hb hden hs hpow hpart)
    · -- a pair with such an imaginary part is exact only if it collapses
      have hpart' : part.isExact = false := (isExact_turned hpart).trans happroximate
      refine .inr ⟨hb, hden, magnitude, part, hmagnitude, hpart, hpart', ?_⟩
      by_contra hzero
      rw [ofParts, if_neg hzero, isExact] at hexact
      change (_ && part.isExact) = true at hexact
      rw [hpart', Bool.and_false] at hexact
      cases hexact
  · rw [isExact_powNegative hden h] at hexact
    cases hexact

/-- **Exact rational powers.**  Let a rational other than zero be raised to a rational that is not whole, at
any precision and for any power of doubles that the root search starts from.  The result is exact just if it
is the right value or the imaginary part vanished in the approximate lane; in the latter case it is zero,
which is not the right value. -/
theorem rational_power (power : Float → Float → Float) (precision : ℕ) (hb : b ≠ 0) (he : e.den ≠ 1)
    (h : powWith power precision (.ofRat b) (.ofRat e) = .ok r) :
    (r.isExact = true ↔ IsPower b e r ∨ Vanishes power precision b e) ∧
      (Vanishes power precision b e → r = zero ∧ ¬IsPower b e r) := by
  refine ⟨⟨fun hexact => ?_, ?_⟩, fun hv => ⟨hv.eq_zero he h, fun hpower => ?_⟩⟩
  · rcases hb.lt_or_gt with hneg | hpos
    · exact isPower_or_vanishes_of_neg hneg he h hexact
    · exact .inl (isPower_of_isExact_pos hpos he h hexact)
  · rintro (hpower | hv)
    · exact isExact_of_isProper hpower.isProper
    · rw [hv.eq_zero he h]
      rfl
  · have hzero := hpower.isZero_eq_false hb
    rw [hv.eq_zero he h] at hzero
    cases hzero

/-- The power of `-9 / 4` with exponent `3 / 2` is `-27 i / 8`, if square roots are started from square roots
of doubles. -/
theorem rational_power_three_halves :
    (-9 / 4 : ℚ) ≠ 0 ∧ (3 / 2 : ℚ).den ≠ 1 ∧ ∃ r,
      powWith (fun x _ => x.sqrt) machinePrecision (.ofRat (-9 / 4)) (.ofRat (3 / 2)) = .ok r ∧
        r.gaussian = ⟨0, -27 / 8⟩ ∧ IsPower (-9 / 4) (3 / 2) r := by
  have hb : (-9 / 4 : ℚ) ≠ 0 := by norm_num
  have he : (3 / 2 : ℚ).den ≠ 1 := by decide +kernel
  have hany : ((powWith (fun x _ => x.sqrt) machinePrecision (.ofRat (-9 / 4)) (.ofRat (3 / 2))).toOption.any
      (complex .zero (.exact (-27 / 8))).same) = true := by decide +kernel
  refine ⟨hb, he, ?_⟩
  cases h : powWith (fun x _ => x.sqrt) machinePrecision (.ofRat (-9 / 4)) (.ofRat (3 / 2)) with
  | error fault =>
      rw [h] at hany
      cases hany
  | ok r =>
      rw [h] at hany
      obtain rfl := (same_iff (v := complex .zero (.exact (-27 / 8))) rfl).1 hany
      obtain ⟨hexact, hvanishes⟩ := rational_power (fun x _ => x.sqrt) machinePrecision hb he h
      refine ⟨_, rfl, rfl, (hexact.1 rfl).resolve_right fun hv => ?_⟩
      cases (hvanishes hv).1

/-- **An irrational power can come out exact**: the square root of `-1 / 10 ^ 401` is zero. -/
theorem irrational_power_vanishes :
    (-1 / 10 ^ 401 : ℚ) ≠ 0 ∧ (1 / 2 : ℚ).den = 2 ∧
      pow machinePrecision (.ofRat (-1 / 10 ^ 401)) (.ofRat (1 / 2)) = .ok zero ∧ zero.isExact = true ∧
      zero.gaussian ^ 2 ≠ (ofRat (-1 / 10 ^ 401)).gaussian ^ (1 / 2 : ℚ).num := by
  have hb : (-1 / 10 ^ 401 : ℚ) < 0 := by
    rw [neg_div]
    exact neg_lt_zero.2 (by positivity)
  have hden : (1 / 2 : ℚ).den = 2 := by decide +kernel
  have hnum : (1 / 2 : ℚ).num = 1 := by decide +kernel
  have hroot : ratRoot? Float.pow 2 (1 / 10 ^ 401) = .ok none := by decide +kernel
  have hdouble : Double.pow (Double.ofRat (1 / 10 ^ 401)) (Double.ofRat (1 / 2)) = .ok 0 := by decide +kernel
  have hmagnitude : powReal Float.pow machinePrecision (.exact (1 / 10 ^ 401)) (.exact (1 / 2)) =
      .ok (.machine 0) := by
    simp only [powReal, hden, hroot, bind, Except.bind, powApproximate, Scalar.bigLane?, Scalar.isExact,
      prefersDecimal, machinePrecision, Scalar.toFloat, lt_irrefl, decide_false, Bool.and_false,
      Bool.false_eq_true, ↓reduceIte, hdouble, liftDouble]
    rfl
  have hopposite : -(-1 / 10 ^ 401 : ℚ) = 1 / 10 ^ 401 := by rw [neg_div, neg_neg]
  have hpow : pow machinePrecision (.ofRat (-1 / 10 ^ 401)) (.ofRat (1 / 2)) = .ok zero := by
    rw [pow, powWith_of_neg hb (by rw [hden]; decide)]
    simp only [powNegative, Scalar.neg, hopposite, bind, Except.bind, hmagnitude, Scalar.toRat, hden, hnum]
    rfl
  refine ⟨hb.ne, hden, hpow, rfl, fun h => ?_⟩
  have hzero : zero.gaussian = 0 := rfl
  rw [hnum, zpow_one, hzero, zero_pow two_ne_zero] at h
  exact hb.ne (congrArg QuadraticAlgebra.re h).symm

end SymbolicAlgebra.Number
