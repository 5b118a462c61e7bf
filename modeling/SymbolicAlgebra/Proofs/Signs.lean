import SymbolicAlgebra.Proofs.DoubleOrder
import SymbolicAlgebra.Proofs.Pieces

/-!
# Proofs/Signs — sums of squares are not negative

A scalar is *unsigned* if it is a rational that is not negative, or a decimal or double without a sign,
or not a number.  Squares are unsigned in every lane, sums of unsigned scalars are, and what is unsigned
is not below zero; so the absolute value of a complex number is a real one.
-/

namespace SymbolicAlgebra

open Kernel (exists_of_bind_ok)

/-! ## Doubles -/

namespace Double

open Float.Model Float.Model.UnpackedFloat

/-- Whether an unpacked double has no sign, or is not a number. -/
def isPlain : UnpackedFloat → Bool
  | .notANumber => true
  | .infinity s | .zero s | .finite s _ _ _ => s == .positive

/-- Whether a double has no sign, or is not a number. -/
def isUnsigned (x : Float) : Bool := isPlain (unpacked x)

theorem isPlain_cases {u : UnpackedFloat} (h : isPlain u = true) :
    u = .notANumber ∨ u = .infinity .positive ∨ u = .zero .positive ∨
      ∃ m e hm, u = .finite .positive m e hm := by
  rcases u with s | _ | s | ⟨s, m, e, hm⟩
  · obtain rfl : s = .positive := beq_iff_eq.1 h
    exact .inr (.inl rfl)
  · exact .inl rfl
  · obtain rfl : s = .positive := beq_iff_eq.1 h
    exact .inr (.inr (.inl rfl))
  · obtain rfl : s = .positive := beq_iff_eq.1 h
    exact .inr (.inr (.inr ⟨m, e, hm, rfl⟩))

/-- What is unsigned is not a number or does not have its sign bit set. -/
theorem isPlain_unpack (b : BitVec 64) :
    isPlain (UnpackedFloat.unpack Format.binary64 b) = true ↔
      (UnpackedFloat.unpack Format.binary64 b).isNaN = true ∨ b.toNat < 2 ^ 63 := by
  have hsign : (Sign.ofBitVec (@unpackSign Format.binary64 b) == .positive) = true ↔
      false = true ∨ b.toNat < 2 ^ 63 := by
    rw [sign_unpackSign]
    split
    next h => exact iff_of_true rfl (.inr h)
    next h => exact iff_of_false Bool.false_ne_true (by simpa using h)
  unfold UnpackedFloat.unpack
  simp only
  split
  next =>
    split
    next => exact hsign
    next => exact iff_of_true rfl (.inl rfl)
  next =>
    split
    next =>
      split
      next => exact hsign
      next => exact hsign
    next => exact hsign

/-- The sign survives packing. -/
theorem isPlain_unpack_pack {u : UnpackedFloat} (h : isPlain u = true) :
    isPlain (Float.Model.pack u).unpack = true := by
  rcases isPlain_cases h with rfl | rfl | rfl | ⟨m, e, hm, rfl⟩
  · decide
  · decide
  · decide
  · have hsign : ∀ (e : BitVec 11) (m : BitVec 52),
        isPlain (UnpackedFloat.unpack Format.binary64
          (packComponents Format.binary64 .positive e m)) = true := fun e m => by
      have hs := sign_packComponents .positive e m
      rw [sign_unpackSign] at hs
      refine (isPlain_unpack _).2 (.inr (by_contra fun hge => ?_))
      rw [if_neg hge] at hs
      cases hs
    change isPlain (UnpackedFloat.unpack Format.binary64
      (UnpackedFloat.pack Format.binary64 (.finite .positive m e hm))) = true
    rw [pack_finite]
    split
    next => decide
    next =>
      split
      next => exact hsign _ _
      next => exact hsign _ _

theorem isPlain_roundWithAccuracy (m : ℕ) (e : ℤ) (a : Accuracy) :
    isPlain (UnpackedFloat.roundWithAccuracy Format.binary64 .positive m e a) = true := by
  unfold UnpackedFloat.roundWithAccuracy
  simp only
  split
  next => rfl
  next => rfl

/-- Squares have no sign. -/
theorem isUnsigned_mul_self (x : Float) : isUnsigned (x * x) = true := by
  change isPlain (Float.Model.pack
    (UnpackedFloat.mul Format.binary64 (unpacked x) (unpacked x))).unpack = true
  refine isPlain_unpack_pack ?_
  rcases unpacked x with s | _ | s | ⟨s, m, e, hm⟩
  · cases s <;> rfl
  · rfl
  · cases s <;> rfl
  · cases s <;> exact isPlain_roundWithAccuracy _ _ _

theorem isPlain_add {u v : UnpackedFloat} (hu : isPlain u = true) (hv : isPlain v = true) :
    isPlain (UnpackedFloat.add Format.binary64 u v) = true := by
  rcases isPlain_cases hu with rfl | rfl | rfl | ⟨m, e, hm, rfl⟩ <;>
    rcases isPlain_cases hv with rfl | rfl | rfl | ⟨n, f, hn, rfl⟩
  case inr.inr.inr.inr.inr.inr =>
    unfold UnpackedFloat.add UnpackedFloat.normalize
    simp only
    split
    next h =>
      -- the sum of two significands is not below zero
      rw [compare_lt_iff_lt] at h
      exact absurd h (by simp only [Sign.apply]; omega)
    next => rfl
    next => exact isPlain_roundWithAccuracy _ _ _
  all_goals rfl

/-- Sums of unsigned doubles have no sign. -/
theorem isUnsigned_add {x y : Float} (hx : isUnsigned x = true) (hy : isUnsigned y = true) :
    isUnsigned (x + y) = true :=
  isPlain_unpack_pack (isPlain_add hx hy)

/-- The nearest double of a rational that is not negative. -/
theorem isUnsigned_ofRat {q : Rat} (hq : 0 ≤ q) : isUnsigned (ofRat q) = true := by
  obtain ⟨m, e, hm, h⟩ := exists_encode (decide (q.num < 0)) q.num.natAbs q.den_nz
  have hnum : decide (q.num < 0) = false := decide_eq_false (not_lt.2 (Rat.num_nonneg.2 hq))
  rw [ofRat, h, hnum, encode_eq]
  refine isPlain_unpack_pack ((isPlain_unpack _).2 (.inr ?_))
  have hlt : magnitudeBits m e < 2 ^ 63 := by
    rcases magnitudeBits_cases e hm with h | ⟨field, fraction, hfield, hfraction, h⟩
    · omega
    · omega
  rw [toNat_signed hlt]
  simpa using hlt

theorem isSigned_of_isUnsigned {x : Float} (h : isUnsigned x = true) (hnan : x.isNaN = false) :
    isSigned x = false := by
  rcases (isPlain_unpack x.toBits.toBitVec).1 h with hnan' | hlt
  · have : x.isNaN = true := hnan'
    rw [hnan] at this
    cases this
  · exact decide_eq_false (not_le.2 hlt)

/-- An unsigned double is not below zero. -/
theorem not_lt_zero_of_isUnsigned {x : Float} (h : isUnsigned x = true) (hnan : x.isNaN = false) :
    ¬x < 0 := by
  rw [lt_iff hnan (by decide)]
  have hzero : place (unpacked 0) = toLex (0, toLex (0, 0)) := by decide
  rw [hzero]
  rcases isPlain_cases h with hx | hx | hx | ⟨m, e, hm, hx⟩
  · rw [hx]
    exact lt_irrefl _
  · rw [hx]
    simp [place, Sign.apply, Prod.Lex.toLex_lt_toLex]
  · rw [hx]
    exact lt_irrefl _
  · rw [hx]
    simp [place, Sign.apply, Prod.Lex.toLex_lt_toLex]

theorem toRat_nonneg {x : Float} (h : isUnsigned x = true) : 0 ≤ toRat x := by
  unfold toRat
  split
  next hfinite =>
    have hnan : x.isNaN = false := by
      change (unpacked x).isFinite = true at hfinite
      change (unpacked x).isNaN = false
      generalize unpacked x = u at hfinite
      cases u <;> first | rfl | cases hfinite
    rw [isSigned_of_isUnsigned h hnan, binary]
    split
    · exact Rat.intCast_nonneg.2 (mul_nonneg (by simp [Decimal.signed]) (Int.natCast_nonneg _))
    · exact Rat.mkRat_nonneg (by simp [Decimal.signed]) _
  next => exact le_rfl

end Double

/-! ## Decimals -/

namespace Decimal

/-- Whether a decimal has no sign, or is not a number. -/
def isUnsigned (d : Decimal) : Bool := d.isNaN || !d.isSigned

theorem isUnsigned_cases {d : Decimal} (h : d.isUnsigned = true) :
    (∃ s n, d = .nan s n) ∨ d = .infinite false ∨ ∃ c e, d = .finite false c e := by
  rcases d with ⟨s, c, e⟩ | s | ⟨s, n⟩
  · obtain rfl : s = false := by simpa [isUnsigned, isNaN, isSigned] using h
    exact .inr (.inr ⟨c, e, rfl⟩)
  · obtain rfl : s = false := by simpa [isUnsigned, isNaN, isSigned] using h
    exact .inr (.inl rfl)
  · exact .inl ⟨s, n, rfl⟩

theorem isUnsigned_round {precision c : Nat} {e : Int} {d : Decimal}
    (h : round precision false c e = .ok d) : d.isUnsigned = true := by
  have hfit : ∀ q : Nat × Int, (if maxExponent < q.2 + digitCount q.1 - 1 ∧ q.1 ≠ 0 then
      .error .overflow else .ok (.finite false q.1 q.2) : Except Signal Decimal) = .ok d →
        d.isUnsigned = true := by
    intro q hq
    split at hq
    · cases hq
    · cases hq
      rfl
  unfold round at h
  simp only at h
  split at h
  next =>
    cases h
    rfl
  next => exact hfit _ h

theorem isUnsigned_roundCut {precision c : Nat} {e : Int} {exact : Bool} {d : Decimal}
    (h : roundCut precision false c e exact = .ok d) : d.isUnsigned = true :=
  isUnsigned_round h

/-- Squares have no sign. -/
theorem isUnsigned_mul_self {precision : Nat} {x d : Decimal} (h : mul precision x x = .ok d) :
    d.isUnsigned = true := by
  rcases x with ⟨s, c, e⟩ | s | ⟨s, n⟩
  · rw [mul, bne_self_eq_false] at h
    exact isUnsigned_round h
  · have hinfinite : mul precision (.infinite s) (.infinite s) = .ok (.infinite (s != s)) := rfl
    rw [hinfinite] at h
    cases h
    simp [isUnsigned, isSigned]
  · cases h
    rfl

/-- Sums of unsigned decimals have no sign. -/
theorem isUnsigned_add {precision : Nat} {x y d : Decimal} (hx : x.isUnsigned = true)
    (hy : y.isUnsigned = true) (h : add precision x y = .ok d) : d.isUnsigned = true := by
  rcases isUnsigned_cases hx with ⟨s, n, rfl⟩ | rfl | ⟨c, e, rfl⟩
  · cases h
    rfl
  · rcases isUnsigned_cases hy with ⟨s, n, rfl⟩ | rfl | ⟨c, e, rfl⟩ <;> cases h <;> rfl
  · rcases isUnsigned_cases hy with ⟨s, n, rfl⟩ | rfl | ⟨c', e', rfl⟩
    · cases h
      rfl
    · cases h
      rfl
    · unfold add at h
      simp only at h
      split at h
      · exact isUnsigned_round h
      split at h
      · split at h <;> exact isUnsigned_round h
      split at h
      · split at h <;> exact isUnsigned_round h
      · -- the sum of two coefficients is not below zero
        have hsum : ∀ q : (Nat × Int) × (Nat × Int), ∀ total : Int, 0 ≤ total →
            round precision (decide (total < 0) || (total == 0 && false && false)) total.natAbs
              (min q.1.2 q.2.2) = .ok d → d.isUnsigned = true := by
          intro q total htotal hq
          rw [decide_eq_false (not_lt.2 htotal), Bool.and_false, Bool.or_false] at hq
          exact isUnsigned_round hq
        exact hsum _ _ (add_nonneg (by simp [signed]) (by simp [signed])) h

theorem toRat_nonneg {d : Decimal} (h : d.isUnsigned = true) : 0 ≤ d.toRat := by
  rcases isUnsigned_cases h with ⟨s, n, rfl⟩ | rfl | ⟨c, e, rfl⟩
  · exact le_rfl
  · exact le_rfl
  · rw [toRat, scale]
    split
    · exact Rat.intCast_nonneg.2 (mul_nonneg (by simp [signed]) (Int.natCast_nonneg _))
    · exact Rat.mkRat_nonneg (by simp [signed]) _

/-- An unsigned rational as a decimal. -/
theorem isUnsigned_div {precision : Nat} {q : Rat} (hq : 0 ≤ q) {d : Decimal}
    (h : div precision (.ofInt q.num) (.ofNat q.den) = .ok d) : d.isUnsigned = true := by
  have hnum : decide (q.num < 0) = false := decide_eq_false (not_lt.2 (Rat.num_nonneg.2 hq))
  rw [ofInt, ofNat, hnum, div] at h
  simp only [bne_self_eq_false] at h
  split at h
  · cases h
  split at h
  · exact isUnsigned_round h
  split at h
  · exact isUnsigned_round h
  · exact isUnsigned_roundCut h

end Decimal

/-! ## Scalars -/

theorem of_liftDecimal {α : Type} {x : Except Decimal.Signal α} {a : α} (h : liftDecimal x = .ok a) :
    x = .ok a := by
  cases x with
  | ok b => exact congrArg Except.ok (Except.ok.inj h)
  | error s => cases h

theorem of_liftDouble {α : Type} {x : Except Double.Fault α} {a : α} (h : liftDouble x = .ok a) :
    x = .ok a := by
  cases x with
  | ok b => exact congrArg Except.ok (Except.ok.inj h)
  | error s => cases h

namespace Scalar

/-- Whether a scalar has no sign, or is not a number. -/
def isUnsigned : Scalar → Bool
  | exact q => 0 ≤ q
  | big d _ => d.isUnsigned
  | machine x => Double.isUnsigned x

theorem isUnsigned_toDecimal {precision : Nat} {x : Scalar} (hx : x.isUnsigned = true) {d : Decimal}
    (h : x.toDecimal precision = .ok d) : d.isUnsigned = true := by
  cases x with
  | exact q =>
      exact Decimal.isUnsigned_div (of_decide_eq_true hx) (of_liftDecimal h)
  | big d p =>
      cases h
      exact hx
  | machine x =>
      cases h
      unfold Double.toDecimal
      split
      next => rfl
      next hnan =>
        have hsigned := Double.isSigned_of_isUnsigned hx (Bool.eq_false_iff.2 hnan)
        split
        next => rw [Decimal.isUnsigned, Decimal.isSigned, hsigned]; rfl
        next => rw [Decimal.isUnsigned, Decimal.isSigned, hsigned]; rfl

theorem isUnsigned_toFloat {x : Scalar} (hbig : ∀ d p, x ≠ .big d p) (hx : x.isUnsigned = true) :
    Double.isUnsigned x.toFloat = true := by
  cases x with
  | exact q => exact Double.isUnsigned_ofRat (of_decide_eq_true hx)
  | big d p => exact absurd rfl (hbig d p)
  | machine x => exact hx

/-- What is unsigned is not below zero. -/
theorem isNegative_of_isUnsigned {x : Scalar} (h : x.isUnsigned = true) : x.isNegative = false := by
  have horder : ∀ {α : Type} [LT α] [DecidableLT α] {a b : α}, ¬a < b →
      (some (decide (order a b < 0)) == some true) = false := by
    intro α _ _ a b hab
    rw [order, if_neg hab]
    split <;> rfl
  rw [isNegative, isNegative?, compare?]
  split
  next => rfl
  next hnan =>
    rw [Bool.or_eq_true, not_or] at hnan
    split
    next =>
      refine horder ?_
      have hnonneg : 0 ≤ x.toRat := by
        cases x with
        | exact q => exact of_decide_eq_true h
        | big d p => exact Decimal.toRat_nonneg h
        | machine x => exact Double.toRat_nonneg h
      exact not_lt.2 hnonneg
    next hfinite =>
      refine horder ?_
      have hzero : Scalar.zero.toFloat = 0 := by decide
      rw [hzero]
      cases x with
      | exact q => exact absurd rfl hfinite
      | big d p =>
          rcases Decimal.isUnsigned_cases h with ⟨s, n, rfl⟩ | rfl | ⟨c, e, rfl⟩
          · exact absurd rfl hnan.1
          · exact show ¬Double.signedInfinity false < 0 by decide
          · exact absurd rfl hfinite
      | machine x =>
          exact Double.not_lt_zero_of_isUnsigned h (Bool.eq_false_iff.2 hnan.1)

section Lanes

variable {x y z : Scalar}

/-- The lanes of an operation that does not divide. -/
theorem binary_cases {op : Operation} (hop : op.divides = false) (h : binary op x y = .ok z) :
    (∃ p q, x = .exact p ∧ y = .exact q ∧ z = .exact (op.onRat p q)) ∨
      (∃ precision a b c, x.toDecimal precision = .ok a ∧ y.toDecimal precision = .ok b ∧
        op.onDecimal precision a b = .ok c ∧ z = .big c precision) ∨
      ∃ c, (∀ d p, x ≠ .big d p) ∧ (∀ d p, y ≠ .big d p) ∧
        op.onFloat x.toFloat y.toFloat = .ok c ∧ z = .machine c := by
  have hdecimal : ∀ precision, (do
      let a ← x.toDecimal precision
      let b ← y.toDecimal precision
      return .big (← liftDecimal (op.onDecimal precision a b)) precision : Except NumberFault Scalar) =
        .ok z →
        ∃ precision a b c, x.toDecimal precision = .ok a ∧ y.toDecimal precision = .ok b ∧
          op.onDecimal precision a b = .ok c ∧ z = .big c precision := by
    intro precision h
    obtain ⟨a, ha, h⟩ := exists_of_bind_ok h
    obtain ⟨b, hb, h⟩ := exists_of_bind_ok h
    obtain ⟨c, hc, h⟩ := exists_of_bind_ok h
    cases h
    exact ⟨precision, a, b, c, ha, hb, of_liftDecimal hc, rfl⟩
  have hdouble : (do return .machine (← liftDouble (op.onFloat x.toFloat y.toFloat)) :
      Except NumberFault Scalar) = .ok z →
      ∃ c, op.onFloat x.toFloat y.toFloat = .ok c ∧ z = .machine c := by
    intro h
    obtain ⟨c, hc, h⟩ := exists_of_bind_ok h
    cases h
    exact ⟨c, of_liftDouble hc, rfl⟩
  unfold binary at h
  rw [hop, Bool.false_and, if_neg Bool.false_ne_true] at h
  cases x with
  | exact p =>
      cases y with
      | exact q =>
          cases h
          exact .inl ⟨p, q, rfl, rfl, rfl⟩
      | big d n => exact .inr (.inl (hdecimal n h))
      | machine y =>
          obtain ⟨c, hc⟩ := hdouble h
          exact .inr (.inr ⟨c, by simp, by simp, hc⟩)
  | big d m =>
      cases y with
      | exact q => exact .inr (.inl (hdecimal m h))
      | big d' n => exact .inr (.inl (hdecimal (max m n) h))
      | machine y => exact .inr (.inl (hdecimal m h))
  | machine x =>
      cases y with
      | exact q =>
          obtain ⟨c, hc⟩ := hdouble h
          exact .inr (.inr ⟨c, by simp, by simp, hc⟩)
      | big d n => exact .inr (.inl (hdecimal n h))
      | machine y =>
          obtain ⟨c, hc⟩ := hdouble h
          exact .inr (.inr ⟨c, by simp, by simp, hc⟩)

/-- **Squares are unsigned.** -/
theorem isUnsigned_mul_self (h : x.mul x = .ok z) : z.isUnsigned = true := by
  rcases binary_cases rfl h with ⟨p, q, rfl, hq, rfl⟩ | ⟨precision, a, b, c, ha, hb, hc, rfl⟩ |
    ⟨c, -, -, hc, rfl⟩
  · cases hq
    exact decide_eq_true (mul_self_nonneg p)
  · obtain rfl : a = b := Except.ok.inj (ha.symm.trans hb)
    exact Decimal.isUnsigned_mul_self hc
  · cases hc
    exact Double.isUnsigned_mul_self _

/-- **Sums of what is unsigned are unsigned.** -/
theorem isUnsigned_add (hx : x.isUnsigned = true) (hy : y.isUnsigned = true) (h : x.add y = .ok z) :
    z.isUnsigned = true := by
  rcases binary_cases rfl h with ⟨p, q, rfl, rfl, rfl⟩ | ⟨precision, a, b, c, ha, hb, hc, rfl⟩ |
    ⟨c, hbig, hbig', hc, rfl⟩
  · exact decide_eq_true (add_nonneg (of_decide_eq_true hx) (of_decide_eq_true hy))
  · exact Decimal.isUnsigned_add (isUnsigned_toDecimal hx ha) (isUnsigned_toDecimal hy hb) hc
  · cases hc
    exact Double.isUnsigned_add (isUnsigned_toFloat hbig hx) (isUnsigned_toFloat hbig' hy)

end Lanes

end Scalar

/-! ## Absolute values -/

namespace Number

theorem isComplex_of_bind {α : Type} {x : Except NumberFault α} {f : α → Scalar} {v : Number}
    (h : (do return .real (f (← x)) : Except NumberFault Number) = .ok v) : v.isComplex = false := by
  obtain ⟨a, -, ha⟩ := exists_of_bind_ok h
  cases ha
  rfl

/-- A power that is real if its base and its exponent are, and the base is not below zero or the
exponent whole. -/
theorem pow_isReal {precision : Nat} {b e : Scalar} (h : b.isNegative = false ∨ e.isInteger = true)
    {v : Number} (hv : pow precision (.real b) (.real e) = .ok v) : v.isComplex = false := by
  have hbranch : (b.isNegative && !e.isInteger && b.isFinite && e.isFinite) = false := by
    rcases h with h | h <;> simp [h]
  unfold pow powWith at hv
  split at hv
  next =>
    cases hv
    rfl
  next =>
    split at hv
    next n hn =>
      unfold powWhole at hv
      split at hv
      next =>
        cases hv
        rfl
      next => cases b <;> exact isComplex_of_bind hv
    next =>
      simp only [hbranch] at hv
      exact isComplex_of_bind hv

/-- **Absolute values are real.** -/
theorem abs_isReal {precision : Nat} {a v : Number} (h : a.abs precision = .ok v) :
    v.isComplex = false := by
  cases a with
  | real x =>
      unfold abs at h
      simp only at h
      split at h
      next => exact isComplex_of_bind h
      next =>
        cases h
        rfl
  | complex x y =>
      unfold abs at h
      obtain ⟨s, hs, h⟩ := exists_of_bind_ok h
      obtain ⟨t, ht, h⟩ := exists_of_bind_ok h
      obtain ⟨r, hr, h⟩ := exists_of_bind_ok h
      have hr := Scalar.isUnsigned_add (Scalar.isUnsigned_mul_self hs) (Scalar.isUnsigned_mul_self ht) hr
      exact pow_isReal (.inl (Scalar.isNegative_of_isUnsigned hr)) h

end Number

end SymbolicAlgebra
