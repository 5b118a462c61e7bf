import Mathlib.Algebra.Order.Ring.Rat
import Mathlib.Tactic.Common
import SymbolicAlgebra.Number.Power

/-!
# Proofs/Exact — arithmetic in the exact lane

Sums, products and opposites of exact numbers never fail and stay exact.  A number is *proper* if it
is exact and, when complex, has an imaginary part: the results of arithmetic are, and proper numbers
are the ones that zero and one are neutral for.
-/

namespace SymbolicAlgebra.Number

/-! ## Rationals -/

/-- A rational, exactly. -/
def ofRat (q : Rat) : Number := .real (.exact q)

/-- Whether a number is an exact rational. -/
def isRational : Number → Bool
  | .real (.exact _) => true
  | _ => false

@[simp] theorem isRational_ofRat (q : Rat) : (ofRat q).isRational = true := rfl

theorem zero_eq_ofRat : zero = ofRat 0 := rfl

theorem one_eq_ofRat : one = ofRat 1 := rfl

theorem ofInt_eq_ofRat (n : Int) : ofInt n = ofRat n := rfl

theorem eq_ofRat {v : Number} (h : v.isRational = true) : ∃ q, v = ofRat q := by
  match v, h with
  | .real (.exact q), _ => exact ⟨q, rfl⟩

theorem ofRat_injective : Function.Injective ofRat := by
  intro p q h
  injection h with h
  injection h

@[simp] theorem add_ofRat (p q : Rat) : (ofRat p).add (ofRat q) = .ok (ofRat (p + q)) := rfl

@[simp] theorem mul_ofRat (p q : Rat) : (ofRat p).mul (ofRat q) = .ok (ofRat (p * q)) := rfl

@[simp] theorem neg_ofRat (q : Rat) : (ofRat q).neg = .ok (ofRat (-q)) := rfl

@[simp] theorem isZero_ofRat (q : Rat) : (ofRat q).isZero = decide (q = 0) := rfl

@[simp] theorem isOne_ofRat (q : Rat) : (ofRat q).isOne = decide (q = 1) := rfl

@[simp] theorem isNegativeOne_ofRat (q : Rat) : (ofRat q).isNegativeOne = decide (q = -1) := rfl

@[simp] theorem isNaN_ofRat (q : Rat) : (ofRat q).isNaN = false := rfl

@[simp] theorem isZero_ofInt (n : Int) : (ofInt n).isZero = decide (n = 0) := by
  rw [ofInt_eq_ofRat, isZero_ofRat]
  simp

@[simp] theorem isOne_ofInt (n : Int) : (ofInt n).isOne = decide (n = 1) := by
  rw [ofInt_eq_ofRat, isOne_ofRat]
  simp

theorem add_ofInt (m n : Int) : (ofInt m).add (ofInt n) = .ok (ofInt (m + n)) := by
  rw [ofInt_eq_ofRat, ofInt_eq_ofRat, add_ofRat, ofInt_eq_ofRat, Int.cast_add]

theorem mul_ofInt (m n : Int) : (ofInt m).mul (ofInt n) = .ok (ofInt (m * n)) := by
  rw [ofInt_eq_ofRat, ofInt_eq_ofRat, mul_ofRat, ofInt_eq_ofRat, Int.cast_mul]

theorem neg_ofInt (n : Int) : (ofInt n).neg = .ok (ofInt (-n)) := by
  rw [ofInt_eq_ofRat, neg_ofRat, ofInt_eq_ofRat, Int.cast_neg]

theorem div_ofRat (p : Rat) {q : Rat} (hq : q ≠ 0) : (ofRat p).div (ofRat q) = .ok (ofRat (p / q)) := by
  simp [Number.div, binary, ofRat, Scalar.binary, Operation.divides, Scalar.isZero, hq,
    Operation.onRat, bind, Except.bind, pure, Except.pure]

theorem inv_ofRat {q : Rat} (hq : q ≠ 0) : (ofRat q).inv = .ok (ofRat q⁻¹) := by
  rw [Number.inv, one_eq_ofRat, div_ofRat 1 hq, one_div]

@[simp] theorem integer?_ofInt (n : Int) : (ofInt n).integer? = some n := by
  simp [ofInt, Scalar.ofInt, integer?]

theorem ratPow_eq {q : Rat} {n : Int} (h : n < 0 → q ≠ 0) : ratPow q n = .ok (q ^ n) := by
  rw [ratPow]
  split
  next hn =>
    obtain ⟨m, rfl⟩ := Int.eq_ofNat_of_zero_le hn
    simp
  next hn =>
    obtain ⟨m, hm⟩ := Int.eq_ofNat_of_zero_le (show 0 ≤ -n by omega)
    have hq : (q == 0) = false := by simpa using h (by omega)
    rw [hq, hm]
    obtain rfl : n = -(m : Int) := by omega
    simp

/-- **Whole powers of rationals are exact**, unless zero is to be inverted. -/
theorem pow_ofRat (precision : Nat) {q : Rat} {n : Int} (h : n < 0 → q ≠ 0) :
    (ofRat q).pow precision (ofInt n) = .ok (ofRat (q ^ n)) := by
  have hz : ((ofRat q).isZero && decide (n < 0)) = false := by
    by_cases hn : n < 0 <;> simp [hn, h]
  have hw : powWhole (ofRat q) n = .ok (ofRat (q ^ n)) := by
    unfold powWhole
    rw [hz]
    change (do return Number.real (.exact (← ratPow q n))) = _
    rw [ratPow_eq h]
    rfl
  unfold Number.pow powWith
  rw [integer?_ofInt]
  exact hw

/-! ## Proper numbers -/

/-- Whether a number is exact and, if it is complex, not real after all. -/
def isProper : Number → Bool
  | .real (.exact _) => true
  | .complex (.exact _) (.exact y) => y != 0
  | _ => false

theorem isExact_of_isProper {v : Number} (h : v.isProper = true) : v.isExact = true := by
  match v, h with
  | .real (.exact _), _ => rfl
  | .complex (.exact _) (.exact _), _ => rfl

theorem isProper_of_isRational {v : Number} (h : v.isRational = true) : v.isProper = true := by
  obtain ⟨q, rfl⟩ := eq_ofRat h
  rfl

@[simp] theorem isProper_ofRat (q : Rat) : (ofRat q).isProper = true := rfl

@[simp] theorem isProper_ofInt (n : Int) : (ofInt n).isProper = true := rfl

@[simp] theorem isProper_zero : zero.isProper = true := rfl

@[simp] theorem isProper_one : one.isProper = true := rfl

@[simp] theorem isProper_negativeOne : negativeOne.isProper = true := rfl

/-- Exact numbers are rationals and pairs of them. -/
theorem exact_cases {v : Number} (h : v.isExact = true) :
    (∃ q, v = ofRat q) ∨ ∃ x y, v = .complex (.exact x) (.exact y) := by
  rcases v with (x | _ | _) | ⟨x | _ | _, y | _ | _⟩ <;>
    simp_all [isExact, re, im, Scalar.isExact, ofRat]

/-- Exact numbers are the same only if they are equal. -/
theorem same_iff {v w : Number} (h : v.isExact = true) : v.same w = true ↔ v = w := by
  rcases exact_cases h with ⟨q, rfl⟩ | ⟨x, y, rfl⟩ <;>
    rcases w with (_ | _ | _) | ⟨_ | _ | _, _ | _ | _⟩ <;>
      simp [Number.same, Scalar.same, ofRat]

theorem isNaN_of_isExact {v : Number} (h : v.isExact = true) : v.isNaN = false := by
  rcases exact_cases h with ⟨q, rfl⟩ | ⟨x, y, rfl⟩ <;> rfl

theorem isProper_ofParts (x y : Rat) : (ofParts (.exact x) (.exact y)).isProper = true := by
  rw [ofParts, Scalar.isZero]
  split
  next => rfl
  next h => simpa [isProper] using h

theorem ofParts_of_ne (x : Rat) {y : Rat} (hy : y ≠ 0) :
    ofParts (.exact x) (.exact y) = .complex (.exact x) (.exact y) := by
  simp [ofParts, Scalar.isZero, hy]

/-- Exact sums are proper. -/
theorem add_isProper {a b : Number} (ha : a.isExact = true) (hb : b.isExact = true) :
    ∃ c, a.add b = .ok c ∧ c.isProper = true := by
  rcases exact_cases ha with ⟨p, rfl⟩ | ⟨x, y, rfl⟩ <;>
    rcases exact_cases hb with ⟨q, rfl⟩ | ⟨x', y', rfl⟩
  · exact ⟨_, rfl, rfl⟩
  all_goals exact ⟨_, rfl, isProper_ofParts _ _⟩

/-- Exact products are proper. -/
theorem mul_isProper {a b : Number} (ha : a.isExact = true) (hb : b.isExact = true) :
    ∃ c, a.mul b = .ok c ∧ c.isProper = true := by
  rcases exact_cases ha with ⟨p, rfl⟩ | ⟨x, y, rfl⟩ <;>
    rcases exact_cases hb with ⟨q, rfl⟩ | ⟨x', y', rfl⟩
  · exact ⟨_, rfl, rfl⟩
  all_goals exact ⟨_, rfl, isProper_ofParts _ _⟩

/-- Exact opposites are proper. -/
theorem neg_isProper {a : Number} (ha : a.isExact = true) :
    ∃ c, a.neg = .ok c ∧ c.isProper = true := by
  rcases exact_cases ha with ⟨p, rfl⟩ | ⟨x, y, rfl⟩
  · exact ⟨_, rfl, rfl⟩
  · exact ⟨_, rfl, isProper_ofParts _ _⟩

theorem zero_add_of_isProper {a : Number} (ha : a.isProper = true) : zero.add a = .ok a := by
  rcases exact_cases (isExact_of_isProper ha) with ⟨p, rfl⟩ | ⟨x, y, rfl⟩
  · simp [zero_eq_ofRat]
  · have hy : y ≠ 0 := by simpa [isProper] using ha
    change Except.ok (ofParts (.exact (0 + x)) (.exact (0 + y))) = _
    rw [zero_add, zero_add, ofParts_of_ne x hy]

theorem one_mul_of_isProper {a : Number} (ha : a.isProper = true) : one.mul a = .ok a := by
  rcases exact_cases (isExact_of_isProper ha) with ⟨p, rfl⟩ | ⟨x, y, rfl⟩
  · simp [one_eq_ofRat]
  · have hy : y ≠ 0 := by simpa [isProper] using ha
    change Except.ok (ofParts (.exact (1 * x - 0 * y)) (.exact (1 * y + 0 * x))) = _
    rw [one_mul, one_mul, zero_mul, zero_mul, sub_zero, add_zero, ofParts_of_ne x hy]

end SymbolicAlgebra.Number
