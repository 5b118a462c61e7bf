import SymbolicAlgebra.Proofs.Comparison
import SymbolicAlgebra.Proofs.Overflow

/-!
# Proofs/ExtendedOrder — the order of numbers and the order of the extended reals

A scalar that is a number denotes an extended real (`Scalar.extended`).  Two finite scalars compare by
their values, but as soon as one is infinite both are compared by their nearest doubles.  A finite
scalar beyond the overflow threshold then meets the infinity of its sign (`Scalar.Meets`); all other
pairs compare as the extended reals they denote (`Scalar.compare?_extended`).
-/

namespace SymbolicAlgebra

namespace Double

open Float.Model Float.Model.UnpackedFloat

/-- Finite doubles lie between the two infinities. -/
theorem place_between {u : UnpackedFloat} (h : u.isFinite = true) :
    place (.infinity .negative) < place u ∧ place u < place (.infinity .positive) := by
  rcases u with s | _ | s | ⟨s, m, e, hm⟩
  case infinity | notANumber => cases h
  all_goals cases s <;> simp [place, Sign.apply, Prod.Lex.toLex_lt_toLex]

theorem isNaN_signedInfinity (negative : Bool) : (signedInfinity negative).isNaN = false := by
  cases negative <;> rfl

theorem order_eq {x y : Float} (hx : x.isNaN = false) (hy : y.isNaN = false) :
    Scalar.order x y = Scalar.order (place (unpacked x)) (place (unpacked y)) := by
  simp only [Scalar.order, lt_iff hx hy, lt_iff hy hx]

/-- An infinity is on its side of all finite doubles. -/
theorem order_signedInfinity {x : Float} (h : x.isFinite = true) (negative : Bool) :
    Scalar.order (signedInfinity negative) x = if negative then -1 else 1 := by
  obtain ⟨hbelow, habove⟩ := place_between h
  rw [order_eq (isNaN_signedInfinity _) (isNaN_of_isFinite h), unpacked_signedInfinity]
  cases negative with
  | false => exact if_pos habove
  | true => exact (if_neg hbelow.not_gt).trans (if_pos hbelow)

/-- A double that is a number is finite or one of the infinities. -/
theorem isFinite_or_eq_signedInfinity {x : Float} (h : x.isNaN = false) :
    x.isFinite = true ∧ x.isInf = false ∨
      ∃ negative, x = signedInfinity negative := by
  change (unpacked x).isNaN = false at h
  change (unpacked x).isFinite = true ∧ (unpacked x).isInf = false ∨ _
  cases hu : unpacked x with
  | notANumber => rw [hu] at h; cases h
  | infinity sign =>
      right
      cases sign with
      | negative => exact ⟨true, eq_of_unpacked (hu.trans (unpacked_signedInfinity true).symm)⟩
      | positive => exact ⟨false, eq_of_unpacked (hu.trans (unpacked_signedInfinity false).symm)⟩
  | zero sign | finite sign m e hm => exact .inl ⟨rfl, rfl⟩

end Double

namespace Scalar

/-- The infinity of a sign. -/
noncomputable def signedTop (negative : Bool) : EReal := if negative then ⊥ else ⊤

theorem signedTop_eq_top {negative : Bool} : signedTop negative = ⊤ ↔ negative = false := by
  cases negative <;> simp [signedTop]

theorem signedTop_eq_bot {negative : Bool} : signedTop negative = ⊥ ↔ negative = true := by
  cases negative <;> simp [signedTop]

/-- The extended real that a number denotes. -/
noncomputable def extended : Scalar → EReal
  | exact q => ((q : ℝ) : EReal)
  | big (.infinite s) _ => signedTop s
  | big d _ => ((d.toRat : ℝ) : EReal)
  | machine x => if x.isInf then signedTop (Double.isSigned x) else ((Double.toRat x : ℝ) : EReal)

/-- A finite number that is compared with an infinity is taken for it from the threshold on. -/
def Meets (a b : Scalar) : Prop :=
  a.isFinite = true ∧ b.isFinite = false ∧
    (((Double.overflowThreshold : ℝ) : EReal) ≤ a.extended ∧ b.extended = ⊤ ∨
      a.extended ≤ ((-Double.overflowThreshold : ℝ) : EReal) ∧ b.extended = ⊥)

theorem Meets.isFinite {a b : Scalar} (h : Meets a b) : a.isFinite = true := h.1

theorem Meets.isFinite_right {a b : Scalar} (h : Meets a b) : b.isFinite = false := h.2.1

/-- Two numbers that are taken for one because the finite one overflows. -/
def Confused (a b : Scalar) : Prop := Meets a b ∨ Meets b a

/-- What a number is compared by. -/
theorem denotes {a : Scalar} (h : a.isNaN = false) :
    (a.isFinite = true ∧ a.extended = ((a.toRat : ℝ) : EReal) ∧
        Double.HasDouble a.toRat a.toFloat) ∨
      ∃ s, a.isFinite = false ∧ a.extended = signedTop s ∧ a.toFloat = Double.signedInfinity s := by
  cases a with
  | exact q => exact .inl ⟨rfl, rfl, Double.hasDouble_ofRat q⟩
  | big d p =>
      rcases d with ⟨s, c, e⟩ | s | ⟨s, n⟩
      · exact .inl ⟨rfl, rfl, Decimal.hasDouble (d := .finite s c e) rfl⟩
      · exact .inr ⟨s, rfl, rfl, rfl⟩
      · cases h
  | machine x =>
      rcases Double.isFinite_or_eq_signedInfinity h with ⟨hfinite, hinf⟩ | ⟨s, rfl⟩
      · exact .inl ⟨hfinite, if_neg (by simp [hinf]), Double.hasDouble_toRat hfinite⟩
      · exact .inr ⟨s, by cases s <;> rfl, by cases s <;> rfl, rfl⟩

section

open Classical

/-- Finite numbers compare by their values. -/
theorem order_toRat {a b : Scalar} (ha : a.extended = ((a.toRat : ℝ) : EReal))
    (hb : b.extended = ((b.toRat : ℝ) : EReal)) :
    order a.toRat b.toRat = order a.extended b.extended := by
  simp only [order, ha, hb, EReal.coe_lt_coe_iff, Rat.cast_lt]

theorem order_signedTop_coe (negative : Bool) (x : ℝ) :
    order (signedTop negative) (x : EReal) = if negative then -1 else 1 := by
  cases negative <;> simp [order, signedTop]

theorem order_signedInfinity (s t : Bool) :
    order (Double.signedInfinity s) (Double.signedInfinity t) =
      order (signedTop s) (signedTop t) := by
  rw [Double.order_eq (Double.isNaN_signedInfinity _) (Double.isNaN_signedInfinity _),
    Double.unpacked_signedInfinity, Double.unpacked_signedInfinity]
  cases s <;> cases t <;>
    simp [order, signedTop, Double.signOf, Double.place, Float.Model.UnpackedFloat.Sign.apply,
      Prod.Lex.toLex_lt_toLex]

/-- **An infinity is compared with the double of the other number.** -/
theorem order_toFloat {a b : Scalar} {s : Bool} (ha : a.isFinite = false)
    (hext : a.extended = signedTop s) (hfloat : a.toFloat = Double.signedInfinity s)
    (hb : b.isNaN = false) :
    order a.toFloat b.toFloat = if Meets b a then 0 else order a.extended b.extended := by
  have hpos : (0 : ℝ) < Double.overflowThreshold := by
    exact_mod_cast zero_lt_one.trans_le Decimal.one_le_overflowThreshold
  rcases denotes hb with ⟨hfin, hextb, hround⟩ | ⟨t, hinf, hextb, hfloatb⟩
  · have hmeets : Meets b a ↔ (Double.overflowThreshold : ℝ) ≤ (b.toRat : ℝ) ∧ s = false ∨
        (b.toRat : ℝ) ≤ -(Double.overflowThreshold : ℝ) ∧ s = true := by
      simp only [Meets, hfin, ha, hext, hextb, true_and, EReal.coe_le_coe_iff, signedTop_eq_top,
        signedTop_eq_bot]
    rw [hext, hextb, order_signedTop_coe, hfloat]
    cases hround with
    | inside hlt hx =>
        have hlt' : |(b.toRat : ℝ)| < Double.overflowThreshold := by exact_mod_cast hlt
        obtain ⟨hbelow, habove⟩ := abs_lt.1 hlt'
        rw [if_neg, Double.order_signedInfinity hx]
        rw [hmeets]
        rintro (⟨hle, -⟩ | ⟨hle, -⟩)
        · exact absurd hle habove.not_ge
        · exact absurd hle hbelow.not_ge
    | above hle hx =>
        have hle' : (Double.overflowThreshold : ℝ) ≤ b.toRat := by exact_mod_cast hle
        have hbelow : ¬(b.toRat : ℝ) ≤ -(Double.overflowThreshold : ℝ) := by linarith
        simp only [hmeets, hle', hbelow, true_and, false_and, or_false, hx, order_signedInfinity]
        cases s <;> simp [order, signedTop]
    | below hle hx =>
        have hle' : (b.toRat : ℝ) ≤ -(Double.overflowThreshold : ℝ) := by exact_mod_cast hle
        have habove : ¬(Double.overflowThreshold : ℝ) ≤ b.toRat := by linarith
        simp only [hmeets, hle', habove, true_and, false_and, false_or, hx, order_signedInfinity]
        cases s <;> simp [order, signedTop]
  · rw [hext, hextb, hfloat, hfloatb, order_signedInfinity, if_neg]
    rintro ⟨h, -⟩
    rw [hinf] at h
    cases h

theorem order_of_meets {a b : Scalar} (h : order b.toFloat a.toFloat =
    if Meets a b then 0 else order b.extended a.extended) :
    order a.toFloat b.toFloat = if Meets a b then 0 else order a.extended b.extended := by
  rw [Kernel.order_swap b.toFloat, h, Kernel.order_swap b.extended]
  split <;> simp

/-- **Numbers compare as the extended reals they denote**, unless one overflows. -/
theorem compare?_extended {a b : Scalar} (ha : a.isNaN = false) (hb : b.isNaN = false) :
    a.compare? b = some (if Confused a b then 0 else order a.extended b.extended) := by
  rw [compare?, ha, hb, Bool.or_self, if_neg Bool.false_ne_true]
  rcases denotes ha with ⟨hfa, hexta, -⟩ | ⟨s, hfa, hexta, hfloata⟩
  · have hconfused : Confused a b ↔ Meets a b :=
      or_iff_left fun h => absurd (h.isFinite_right.symm.trans hfa) Bool.false_ne_true
    rcases denotes hb with ⟨hfb, hextb, -⟩ | ⟨t, hfb, hextb, hfloatb⟩
    · have hmeets : ¬Meets a b := fun h =>
        absurd (h.isFinite_right.symm.trans hfb) Bool.false_ne_true
      rw [hfa, hfb, Bool.and_self, if_pos rfl, if_neg (hconfused.not.2 hmeets), order_toRat hexta hextb]
    · rw [hfb, Bool.and_false, if_neg Bool.false_ne_true, if_congr hconfused rfl rfl]
      exact congrArg some (order_of_meets (order_toFloat hfb hextb hfloatb ha))
  · have hconfused : Confused a b ↔ Meets b a :=
      or_iff_right fun h => absurd (h.isFinite.symm.trans hfa) Bool.false_ne_true.symm
    rw [hfa, Bool.false_and, if_neg Bool.false_ne_true, if_congr hconfused rfl rfl]
    exact congrArg some (order_toFloat hfa hexta hfloata hb)

end

section

variable {α : Type} [LinearOrder α] {x y : α}

theorem order_eq_neg_one_iff : order x y = -1 ↔ x < y := by
  rcases lt_trichotomy x y with h | rfl | h
  · simp [order, h, h.not_gt]
  · simp [order]
  · simp [order, h, h.not_gt]

theorem order_eq_zero_iff : order x y = 0 ↔ x = y := by
  rcases lt_trichotomy x y with h | rfl | h
  · simp [order, h, h.not_gt, h.ne]
  · simp [order]
  · simp [order, h, h.ne']

theorem order_eq_one_iff : order x y = 1 ↔ y < x := by
  rcases lt_trichotomy x y with h | rfl | h
  · simp [order, h, h.not_gt]
  · simp [order]
  · simp [order, h]

theorem order_le_zero_iff : order x y ≤ 0 ↔ x ≤ y := by
  rcases lt_trichotomy x y with h | rfl | h
  · simp [order, h, h.not_gt, h.le]
  · simp [order]
  · simp [order, h]

end

end Scalar

namespace Number

open Scalar

theorem compare?_real (a b : Scalar) : (real a).compare? (real b) = a.compare? b := by
  change (if (a.isNaN || false) || (b.isNaN || false) then none else a.compare? b) = _
  rw [Bool.or_false, Bool.or_false]
  split
  next h => rw [Scalar.compare?, if_pos h]
  next => rfl

/-- **The order of real numbers is the order of the extended reals**, as long as no finite number beyond
the range of the doubles is compared with the infinity of its sign, for which it is taken then. -/
theorem extended_order (a b c : Scalar) (ha : a.isNaN = false) (hb : b.isNaN = false)
    (hc : c.isNaN = false) :
    ((real a).compare? (real b) = some (-1) ↔ a.extended < b.extended ∧ ¬Confused a b) ∧
      ((real a).compare? (real b) = some 0 ↔ a.extended = b.extended ∨ Confused a b) ∧
      ((real a).compare? (real b) = some 1 ↔ b.extended < a.extended ∧ ¬Confused a b) ∧
      (real b).compare? (real a) = ((real a).compare? (real b)).map (-·) ∧
      (¬Confused a b → ¬Confused b c → ∀ x ≤ 0, ∀ y ≤ 0, (real a).compare? (real b) = some x →
        (real b).compare? (real c) = some y → ∃ z ≤ 0, (real a).compare? (real c) = some z) := by
  classical
  simp only [compare?_real]
  refine ⟨?_, ?_, ?_, Kernel.scalar_compare?_swap a b, fun hab hbc x hx y hy h h' => ?_⟩
  · rw [compare?_extended ha hb, Option.some_inj]
    split
    next h => simp [h]
    next h => simp [h, Scalar.order_eq_neg_one_iff]
  · rw [compare?_extended ha hb, Option.some_inj]
    split
    next h => simp [h]
    next h => simp [h, Scalar.order_eq_zero_iff]
  · rw [compare?_extended ha hb, Option.some_inj]
    split
    next h => simp [h]
    next h => simp [h, Scalar.order_eq_one_iff]
  · rw [compare?_extended ha hb, if_neg hab, Option.some_inj] at h
    rw [compare?_extended hb hc, if_neg hbc, Option.some_inj] at h'
    have hle : a.extended ≤ c.extended :=
      (Scalar.order_le_zero_iff.1 (h.trans_le hx)).trans (Scalar.order_le_zero_iff.1 (h'.trans_le hy))
    refine ⟨_, ?_, compare?_extended ha hc⟩
    split
    next => exact le_rfl
    next => exact Scalar.order_le_zero_iff.2 hle

theorem extended_infinity : (Scalar.machine Double.infinity).extended = ⊤ := by
  rw [Scalar.extended, if_pos (by decide), signedTop_eq_top]
  decide

theorem extended_order_half :
    (real (.exact (1 / 2))).compare? (real (.machine Double.infinity)) = some (-1) := by
  have hinside : (((1 / 2 : ℚ) : ℝ)) < Double.overflowThreshold := by
    have : (1 : ℝ) ≤ Double.overflowThreshold := by exact_mod_cast Decimal.one_le_overflowThreshold
    push_cast
    linarith
  refine (extended_order (.exact (1 / 2)) (.machine Double.infinity) (.big (.infinite true) 20)
    rfl (by decide) rfl).1.2 ⟨?_, ?_⟩
  · rw [extended_infinity]
    exact EReal.coe_lt_top _
  · rintro (⟨-, -, ⟨h, -⟩ | ⟨-, h⟩⟩ | ⟨h, -⟩)
    · exact absurd (EReal.coe_le_coe_iff.1 h) hinside.not_ge
    · rw [extended_infinity] at h
      exact absurd h (by simp)
    · exact absurd h (by decide)

/-- **Beyond the range of the doubles, a number is taken for infinity.** -/
theorem compare_of_overflow :
    (real (.exact (10 ^ 400))).compare? (real (.machine Double.infinity)) = some 0 ∧
      (Scalar.exact (10 ^ 400)).extended < (Scalar.machine Double.infinity).extended := by
  classical
  have hbeyond : (Double.overflowThreshold : ℝ) ≤ ((10 ^ 400 : ℚ) : ℝ) := by
    exact_mod_cast Decimal.overflowThreshold_le_ten_pow
  rw [compare?_real, compare?_extended rfl (by decide), extended_infinity]
  have hmeets : Meets (.exact (10 ^ 400)) (.machine Double.infinity) :=
    ⟨rfl, by decide, .inl ⟨EReal.coe_le_coe_iff.2 hbeyond, extended_infinity⟩⟩
  exact ⟨congrArg some (if_pos (.inl hmeets)), EReal.coe_lt_top _⟩

end Number

end SymbolicAlgebra
