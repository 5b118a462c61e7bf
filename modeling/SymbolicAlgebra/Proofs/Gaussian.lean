import Mathlib.Algebra.QuadraticAlgebra.Basic
import Mathlib.Tactic.FieldSimp
import Mathlib.Tactic.Linarith
import Mathlib.Tactic.Ring
import SymbolicAlgebra.Proofs.Exact

/-!
# Proofs/Gaussian — the exact lane is the field `ℚ(i)`

Proper numbers represent the Gaussian rationals, each in one way: as a real number when its
imaginary part is zero, as a pair otherwise.  Every operation of the exact lane computes the
operation of the field on what its operands represent (`exact_field`).
-/

namespace SymbolicAlgebra

/-- The Gaussian rationals, `ℚ(i)`. -/
abbrev Gaussian := QuadraticAlgebra ℚ (-1) 0

/-- No rational squares to minus one, so the Gaussian rationals are a field. -/
instance factSqNeNegOne : Fact (∀ r : ℚ, r ^ 2 ≠ -1 + 0 * r) where
  out r h := by
    have := sq_nonneg r
    linarith

namespace Number

/-! ## Representation -/

/-- The Gaussian rational of an exact number. -/
def gaussian (a : Number) : Gaussian := ⟨a.re.toRat, a.im.toRat⟩

/-- The number that represents a Gaussian rational. -/
def ofGaussian (z : Gaussian) : Number := ofParts (.exact z.re) (.exact z.im)

/-- A number represents a Gaussian rational: exactly, and as a real number exactly when the
imaginary part is zero. -/
structure Represents (a : Number) (z : Gaussian) : Prop where
  re_eq : a.re = .exact z.re
  im_eq : a.im = .exact z.im
  isComplex_iff : a.isComplex = true ↔ z.im ≠ 0

/-- A computation succeeds with the number that represents a Gaussian rational. -/
def Computes (r : Except NumberFault Number) (z : Gaussian) : Prop :=
  ∃ c, r = .ok c ∧ c.Represents z

variable {a b : Number} {z w : Gaussian} {x y : ℚ}

theorem represents_ofGaussian (z : Gaussian) : (ofGaussian z).Represents z := by
  by_cases h : z.im = 0
  · have hz : ofGaussian z = .real (.exact z.re) := by simp [ofGaussian, ofParts, Scalar.isZero, h]
    exact hz ▸ ⟨rfl, by rw [h]; rfl, by simp [isComplex, h]⟩
  · have hz : ofGaussian z = .complex (.exact z.re) (.exact z.im) := ofParts_of_ne z.re h
    exact hz ▸ ⟨rfl, rfl, by simp [isComplex, h]⟩

theorem represents_real_iff : (Number.real (.exact x)).Represents z ↔ z = ⟨x, 0⟩ := by
  constructor
  · rintro ⟨hre, him, -⟩
    exact QuadraticAlgebra.ext (Scalar.exact.inj hre).symm (Scalar.exact.inj him).symm
  · rintro rfl
    exact ⟨rfl, rfl, by simp [isComplex]⟩

theorem represents_complex_iff :
    (Number.complex (.exact x) (.exact y)).Represents z ↔ z = ⟨x, y⟩ ∧ y ≠ 0 := by
  constructor
  · rintro ⟨hre, him, hc⟩
    obtain rfl : z = ⟨x, y⟩ :=
      QuadraticAlgebra.ext (Scalar.exact.inj hre).symm (Scalar.exact.inj him).symm
    exact ⟨rfl, hc.1 rfl⟩
  · rintro ⟨rfl, hy⟩
    exact ⟨rfl, rfl, by simp [isComplex, hy]⟩

/-- Proper numbers represent Gaussian rationals. -/
theorem represents_gaussian (ha : a.isProper = true) : a.Represents a.gaussian := by
  match a, ha with
  | .real (.exact q), _ => exact represents_real_iff.2 rfl
  | .complex (.exact x) (.exact y), ha =>
      exact represents_complex_iff.2 ⟨rfl, by simpa [isProper] using ha⟩

/-- A number that represents a Gaussian rational is a rational or a pair with an imaginary part. -/
theorem Represents.cases (h : a.Represents z) :
    (∃ x, a = ofRat x ∧ z = ⟨x, 0⟩) ∨
      ∃ x y, a = .complex (.exact x) (.exact y) ∧ z = ⟨x, y⟩ ∧ y ≠ 0 := by
  have hexact : a.isExact = true := by
    rw [Number.isExact, h.re_eq, h.im_eq]
    rfl
  rcases exact_cases hexact with ⟨x, rfl⟩ | ⟨x, y, rfl⟩
  · exact .inl ⟨x, rfl, represents_real_iff.1 h⟩
  · exact .inr ⟨x, y, rfl, represents_complex_iff.1 h⟩

/-- What a number represents determines it. -/
theorem Represents.eq_iff (ha : a.Represents z) (hb : b.Represents w) : a = b ↔ z = w := by
  rcases ha.cases with ⟨x, rfl, rfl⟩ | ⟨x, y, rfl, rfl, hy⟩ <;>
    rcases hb.cases with ⟨x', rfl, rfl⟩ | ⟨x', y', rfl, rfl, hy'⟩ <;>
      simp_all [ofRat, eq_comm]

theorem Represents.isZero_iff (h : a.Represents z) : a.isZero = true ↔ z = 0 := by
  rcases h.cases with ⟨x, rfl, rfl⟩ | ⟨x, y, rfl, rfl, hy⟩
  · simp [QuadraticAlgebra.ext_iff]
  · simp [isZero, QuadraticAlgebra.ext_iff, hy]

theorem represents_one : one.Represents 1 := represents_real_iff.2 rfl

/-- What is put together from its parts is represented. -/
theorem computes_ofParts (hx : x = z.re) (hy : y = z.im) :
    Computes (.ok (ofParts (.exact x) (.exact y))) z := by
  subst hx hy
  exact ⟨_, rfl, represents_ofGaussian z⟩

/-- A real result is represented. -/
theorem computes_ofRat (hx : x = z.re) (hz : z.im = 0) : Computes (.ok (ofRat x)) z :=
  ⟨_, rfl, represents_real_iff.2 (QuadraticAlgebra.ext hx.symm hz)⟩

/-! ## Operations

Two real operands are combined as rationals; all others go by the parts, where an operand without
imaginary part counts as one with imaginary part zero.  So the operands need only be exact; the
result represents what is computed. -/

@[simp] theorem gaussian_ofRat (x : ℚ) : (ofRat x).gaussian = ⟨x, 0⟩ := rfl

@[simp] theorem gaussian_complex (x y : ℚ) :
    (Number.complex (.exact x) (.exact y)).gaussian = ⟨x, y⟩ := rfl

theorem re_eq_exact (ha : a.isExact = true) : a.re = .exact a.gaussian.re := by
  rcases exact_cases ha with ⟨x, rfl⟩ | ⟨x, y, rfl⟩ <;> rfl

theorem im_eq_exact (ha : a.isExact = true) : a.im = .exact a.gaussian.im := by
  rcases exact_cases ha with ⟨x, rfl⟩ | ⟨x, y, rfl⟩ <;> rfl

theorem Represents.isExact (h : a.Represents z) : a.isExact = true := by
  rw [Number.isExact, h.re_eq, h.im_eq]
  rfl

theorem Represents.gaussian_eq (h : a.Represents z) : a.gaussian = z := by
  ext
  · rw [gaussian, h.re_eq]
    rfl
  · rw [gaussian, h.im_eq]
    rfl

theorem computes_add (ha : a.isExact = true) (hb : b.isExact = true) :
    Computes (a.add b) (a.gaussian + b.gaussian) := by
  rcases exact_cases ha with ⟨x, rfl⟩ | ⟨x, y, rfl⟩ <;>
    rcases exact_cases hb with ⟨x', rfl⟩ | ⟨x', y', rfl⟩
  · exact computes_ofRat rfl (add_zero 0)
  all_goals exact computes_ofParts rfl rfl

theorem Represents.add (ha : a.Represents z) (hb : b.Represents w) : Computes (a.add b) (z + w) :=
  ha.gaussian_eq ▸ hb.gaussian_eq ▸ computes_add ha.isExact hb.isExact

theorem Represents.sub (ha : a.Represents z) (hb : b.Represents w) : Computes (a.sub b) (z - w) := by
  rcases ha.cases with ⟨x, rfl, rfl⟩ | ⟨x, y, rfl, rfl, -⟩ <;>
    rcases hb.cases with ⟨x', rfl, rfl⟩ | ⟨x', y', rfl, rfl, -⟩
  · exact computes_ofRat rfl (sub_zero 0)
  all_goals exact computes_ofParts rfl rfl

theorem computes_mul (ha : a.isExact = true) (hb : b.isExact = true) :
    Computes (a.mul b) (a.gaussian * b.gaussian) := by
  rcases exact_cases ha with ⟨x, rfl⟩ | ⟨x, y, rfl⟩ <;>
    rcases exact_cases hb with ⟨x', rfl⟩ | ⟨x', y', rfl⟩
  · exact computes_ofRat (by simp [Operation.onRat]) (by simp)
  all_goals
    refine computes_ofParts ?_ ?_
    · change _ * _ - _ * _ = _
      rw [QuadraticAlgebra.re_mul]
      simp only [gaussian_ofRat, gaussian_complex]
      ring
    · change _ * _ + _ * _ = _
      rw [QuadraticAlgebra.im_mul]
      simp only [gaussian_ofRat, gaussian_complex]
      ring

theorem Represents.mul (ha : a.Represents z) (hb : b.Represents w) : Computes (a.mul b) (z * w) :=
  ha.gaussian_eq ▸ hb.gaussian_eq ▸ computes_mul ha.isExact hb.isExact

theorem computes_neg (ha : a.isExact = true) : Computes a.neg (-a.gaussian) := by
  rcases exact_cases ha with ⟨x, rfl⟩ | ⟨x, y, rfl⟩
  · exact computes_ofRat rfl neg_zero
  · exact computes_ofParts rfl rfl

theorem Represents.neg (ha : a.Represents z) : Computes a.neg (-z) :=
  ha.gaussian_eq ▸ computes_neg ha.isExact

theorem Represents.conjugate (ha : a.Represents z) (hc : a.isComplex = true) :
    Computes a.conjugate (star z) := by
  rcases ha.cases with ⟨x, rfl, rfl⟩ | ⟨x, y, rfl, rfl, -⟩
  · cases hc
  · exact computes_ofParts (by simp) (by simp)

/-- The quotient of numbers by their parts, over the norm of the divisor. -/
theorem complexBinary_div {x' y' : ℚ} (ha : a.re = .exact x) (ha' : a.im = .exact y)
    (hb : b.re = .exact x') (hb' : b.im = .exact y') :
    complexBinary .div a b =
      if x' * x' + y' * y' = 0 then .ok notANumber
      else .ok (ofParts (.exact ((x * x' + y * y') / (x' * x' + y' * y')))
        (.exact ((y * x' - x * y') / (x' * x' + y' * y')))) := by
  unfold complexBinary
  rw [ha, ha', hb, hb']
  simp only [Scalar.mul, Scalar.add, Scalar.sub, Scalar.div, Scalar.binary, Operation.divides,
    Operation.onRat, Bool.false_and, bind, Except.bind, pure, Except.pure]
  by_cases h : x' * x' + y' * y' = 0 <;> simp [Scalar.isZero, h]

/-- The quotient of Gaussian rationals by their parts, over the norm of the divisor. -/
theorem gaussian_div (z w : Gaussian) :
    z / w = ⟨(z.re * w.re + z.im * w.im) / (w.re * w.re + w.im * w.im),
      (z.im * w.re - z.re * w.im) / (w.re * w.re + w.im * w.im)⟩ := by
  rw [div_eq_mul_inv]
  ext <;>
  · simp [QuadraticAlgebra.re_inv, QuadraticAlgebra.im_inv, QuadraticAlgebra.norm_def]
    ring

theorem gaussian_norm_eq_zero : w.re * w.re + w.im * w.im = 0 ↔ w = 0 := by
  rw [← QuadraticAlgebra.norm_eq_zero_iff_eq_zero, QuadraticAlgebra.norm_def]
  constructor <;> intro h <;> linarith

theorem computes_div (ha : a.isExact = true) (hb : b.isExact = true) (hw : b.gaussian ≠ 0) :
    Computes (a.div b) (a.gaussian / b.gaussian) := by
  have hcomplex : Computes (complexBinary .div a b) (a.gaussian / b.gaussian) := by
    rw [complexBinary_div (re_eq_exact ha) (im_eq_exact ha) (re_eq_exact hb) (im_eq_exact hb),
      if_neg (mt gaussian_norm_eq_zero.1 hw), gaussian_div]
    exact computes_ofParts rfl rfl
  rcases exact_cases ha with ⟨x, rfl⟩ | ⟨x, y, rfl⟩ <;>
    rcases exact_cases hb with ⟨x', rfl⟩ | ⟨x', y', rfl⟩
  · have hx' : x' ≠ 0 := fun h => hw (by rw [h]; rfl)
    rw [div_ofRat x hx']
    refine computes_ofRat ?_ ?_ <;> rw [gaussian_div]
    · simp only [gaussian_ofRat]
      field_simp
      ring
    · simp
  all_goals exact hcomplex

theorem Represents.div (ha : a.Represents z) (hb : b.Represents w) (hw : w ≠ 0) :
    Computes (a.div b) (z / w) :=
  ha.gaussian_eq ▸ hb.gaussian_eq ▸ computes_div ha.isExact hb.isExact (hb.gaussian_eq.symm ▸ hw)

theorem Represents.div_zero (ha : a.Represents z) (hb : b.Represents 0) :
    a.div b = .ok notANumber := by
  obtain rfl : b = ofRat 0 := (hb.eq_iff (represents_real_iff.2 rfl)).2 rfl
  rcases ha.cases with ⟨x, rfl, rfl⟩ | ⟨x, y, rfl, rfl, -⟩
  · rfl
  · change complexBinary .div _ _ = _
    rw [complexBinary_div rfl rfl rfl rfl, if_pos (by simp)]

theorem computes_inv (ha : a.isExact = true) (hz : a.gaussian ≠ 0) :
    Computes a.inv a.gaussian⁻¹ := by
  have h := computes_div represents_one.isExact ha hz
  rwa [represents_one.gaussian_eq, one_div] at h

theorem Represents.inv (ha : a.Represents z) (hz : z ≠ 0) : Computes a.inv z⁻¹ :=
  ha.gaussian_eq ▸ computes_inv ha.isExact (ha.gaussian_eq.symm ▸ hz)

theorem Represents.inv_zero (ha : a.Represents 0) : a.inv = .ok notANumber :=
  represents_one.div_zero ha

/-! ## Powers -/

/-- **Repeated squaring.**  What is still to be multiplied is the power of the current base. -/
theorem Represents.powNatFrom (n : ℕ) (ha : a.Represents z) (hb : b.isExact = true) :
    Computes (powNatFrom a b n) (z * b.gaussian ^ n) := by
  induction n using Nat.strong_induction_on generalizing a b z with
  | _ n ih =>
      unfold Number.powNatFrom
      split
      next hn =>
        subst hn
        exact ⟨a, rfl, by rwa [pow_zero, mul_one]⟩
      next hn =>
        obtain ⟨b', hb', hw'⟩ := computes_mul hb hb
        have hsquare : b'.gaussian ^ (n / 2) = b.gaussian ^ (2 * (n / 2)) := by
          rw [hw'.gaussian_eq, ← sq, ← pow_mul]
        have hlt : n / 2 < n := by omega
        split
        next hodd =>
          obtain ⟨a', ha', hz'⟩ := computes_mul ha.isExact hb
          have heq : z * b.gaussian ^ n = a.gaussian * b.gaussian * b'.gaussian ^ (n / 2) := by
            rw [hsquare, ha.gaussian_eq, mul_assoc, ← pow_succ']
            congr 2
            omega
          rw [ha', hb', heq]
          exact ih _ hlt hz' hw'.isExact
        next heven =>
          have heq : z * b.gaussian ^ n = z * b'.gaussian ^ (n / 2) := by
            rw [hsquare]
            congr 2
            omega
          rw [hb', heq]
          exact ih _ hlt ha hw'.isExact

theorem computes_powInt (ha : a.isExact = true) (n : ℤ) (h : n < 0 → a.gaussian ≠ 0) :
    Computes (powInt a n) (a.gaussian ^ n) := by
  obtain ⟨c, hc, hz⟩ := represents_one.powNatFrom n.natAbs ha
  rw [one_mul] at hz
  unfold Number.powInt
  rw [hc]
  change Computes (if n < 0 then c.inv else .ok c) _
  split
  next hn =>
    obtain ⟨m, rfl⟩ := Int.exists_eq_neg_ofNat hn.le
    rw [Int.natAbs_neg, Int.natAbs_natCast] at hz
    rw [zpow_neg, zpow_natCast]
    exact hz.inv (pow_ne_zero _ (h hn))
  next hn =>
    obtain ⟨m, rfl⟩ := Int.eq_ofNat_of_zero_le (not_lt.1 hn)
    rw [zpow_natCast]
    exact ⟨c, rfl, hz⟩

theorem gaussian_zpow_ofRat (x : ℚ) (n : ℤ) : (⟨x, 0⟩ : Gaussian) ^ n = ⟨x ^ n, 0⟩ :=
  (map_zpow₀ (algebraMap ℚ Gaussian) x n).symm

theorem computes_pow (precision : ℕ) (ha : a.isExact = true) (n : ℤ) (h : n < 0 → a.gaussian ≠ 0) :
    Computes (a.pow precision (ofInt n)) (a.gaussian ^ n) := by
  rcases exact_cases ha with ⟨x, rfl⟩ | ⟨x, y, rfl⟩
  · rw [pow_ofRat precision fun hn hx => h hn (by rw [hx]; rfl), gaussian_ofRat, gaussian_zpow_ofRat]
    exact computes_ofRat rfl rfl
  · unfold Number.pow powWith
    rw [integer?_ofInt]
    exact computes_powInt ha n h

theorem Represents.pow (precision : ℕ) (ha : a.Represents z) (n : ℤ) (h : n < 0 → z ≠ 0) :
    Computes (a.pow precision (ofInt n)) (z ^ n) :=
  ha.gaussian_eq ▸ computes_pow precision ha.isExact n (ha.gaussian_eq.symm ▸ h)

theorem Represents.pow_zero_neg (precision : ℕ) (ha : a.Represents 0) {n : ℤ} (hn : n < 0) :
    a.pow precision (ofInt n) = .ok notANumber := by
  obtain rfl : a = ofRat 0 := (ha.eq_iff (represents_real_iff.2 rfl)).2 rfl
  unfold Number.pow powWith
  rw [integer?_ofInt]
  change powWhole _ _ = _
  unfold powWhole
  rw [if_pos (by simpa using hn)]

/-! ## Comparison -/

theorem order_eq_zero_iff (x y : ℚ) : Scalar.order x y = 0 ↔ x = y := by
  unfold Scalar.order
  rcases lt_trichotomy x y with h | h | h
  · simp [h, h.not_gt, h.ne]
  · simp [h]
  · simp [h, h.ne']

theorem Represents.compare?_eq_zero_iff (ha : a.Represents z) (hb : b.Represents w) :
    a.compare? b = some 0 ↔ z = w := by
  have hparts : ∀ p q p' q' : ℚ,
      (if (some (Scalar.order p q) == some 0 && some (Scalar.order p' q') == some 0) = true
        then some 0 else none) = some (0 : ℤ) ↔ p = q ∧ p' = q' := by
    simp [order_eq_zero_iff]
  rcases ha.cases with ⟨x, rfl, rfl⟩ | ⟨x, y, rfl, rfl, -⟩ <;>
    rcases hb.cases with ⟨x', rfl, rfl⟩ | ⟨x', y', rfl, rfl, -⟩
  · change some (Scalar.order x x') = some 0 ↔ _
    simp [order_eq_zero_iff, QuadraticAlgebra.ext_iff]
  all_goals
    rw [QuadraticAlgebra.ext_iff]
    exact hparts _ _ _ _

/-! ## The field -/

/-- **The exact lane is the field of the Gaussian rationals.**  Numbers that are exact and proper
represent elements of it, and sums, differences, products, opposites, quotients, inverses,
conjugates and whole powers compute the number of the result, at every precision; division by zero
is not a number; and two numbers compare as equal exactly when they represent the same element. -/
theorem exact_field (precision : ℕ) (n : ℤ) (ha : a.isProper = true) (hb : b.isProper = true) :
    a.Represents a.gaussian ∧ b.Represents b.gaussian ∧
      Computes (a.add b) (a.gaussian + b.gaussian) ∧
      Computes (a.sub b) (a.gaussian - b.gaussian) ∧
      Computes (a.mul b) (a.gaussian * b.gaussian) ∧
      Computes a.neg (-a.gaussian) ∧
      (b.gaussian ≠ 0 → Computes (a.div b) (a.gaussian / b.gaussian)) ∧
      (b.gaussian = 0 → a.div b = .ok notANumber) ∧
      (a.gaussian ≠ 0 → Computes a.inv a.gaussian⁻¹) ∧
      (a.gaussian = 0 → a.inv = .ok notANumber) ∧
      (a.isComplex = true → Computes a.conjugate (star a.gaussian)) ∧
      (a.gaussian ≠ 0 ∨ 0 ≤ n → Computes (a.pow precision (ofInt n)) (a.gaussian ^ n)) ∧
      (a.gaussian = 0 → n < 0 → a.pow precision (ofInt n) = .ok notANumber) ∧
      (a.compare? b = some 0 ↔ a.gaussian = b.gaussian) := by
  have hz := represents_gaussian ha
  have hw := represents_gaussian hb
  refine ⟨hz, hw, hz.add hw, hz.sub hw, hz.mul hw, hz.neg, hz.div hw, fun h => ?_, hz.inv,
    fun h => ?_, hz.conjugate, fun h => ?_, fun h hn => ?_, hz.compare?_eq_zero_iff hw⟩
  · exact hz.div_zero (h ▸ hw)
  · exact (h ▸ hz : a.Represents 0).inv_zero
  · exact hz.pow precision n fun hn => h.resolve_right (not_le.2 hn)
  · exact (h ▸ hz : a.Represents 0).pow_zero_neg precision hn

/-- The third negative power of `i`, and the half of `i`. -/
theorem exact_field_imaginaryUnit :
    imaginaryUnit.isProper = true ∧ half.isProper = true ∧ imaginaryUnit.gaussian ≠ 0 ∧
      Computes (imaginaryUnit.pow 15 (ofInt (-3))) (imaginaryUnit.gaussian ^ (-3 : ℤ)) ∧
      Computes (imaginaryUnit.mul half) (imaginaryUnit.gaussian * half.gaussian) ∧
      Computes imaginaryUnit.conjugate (star imaginaryUnit.gaussian) := by
  have hunit : imaginaryUnit.gaussian ≠ 0 := fun h => by cases congrArg QuadraticAlgebra.im h
  obtain ⟨-, -, -, -, hmul, -, -, -, -, -, hconj, hpow, -, -⟩ :=
    exact_field 15 (-3) (a := imaginaryUnit) (b := half) rfl rfl
  exact ⟨rfl, rfl, hunit, hpow (.inl hunit), hmul, hconj rfl⟩

/-- Rationals are their own conjugates in the field, but asking a real number for its conjugate
fails. -/
theorem conjugate_one_fails :
    one.isProper = true ∧ ¬Computes one.conjugate (star one.gaussian) :=
  ⟨rfl, fun ⟨_, h, _⟩ => by cases h⟩

end Number

end SymbolicAlgebra
