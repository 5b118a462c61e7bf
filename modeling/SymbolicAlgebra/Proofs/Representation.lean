import SymbolicAlgebra.Proofs.Sameness
import SymbolicAlgebra.Proofs.Splicing

/-!
# Proofs/Representation — numbers that are written in one way only

`Number.same` compares values, so the two zeros of doubles are the same, and so are decimals with
trailing zeros.  All other doubles are told apart by their places (`Double.eq_of_place`), as there is only
one not-a-number.  A number without decimals, and without a double that is zero, is thus the only one of
its value (`Number.eq_of_same`).
-/

namespace SymbolicAlgebra

/-! ## Doubles -/

namespace Double

open Float.Model Float.Model.UnpackedFloat

/-- A bit pattern is put together from its three fields. -/
theorem eq_of_fields {b c : BitVec 64}
    (hsign : Sign.ofBitVec (@unpackSign Format.binary64 b) =
      Sign.ofBitVec (@unpackSign Format.binary64 c))
    (hexponent : (@unpackExponent Format.binary64 b).toNat =
      (@unpackExponent Format.binary64 c).toNat)
    (hmantissa : (@unpackMantissa Format.binary64 b).toNat =
      (@unpackMantissa Format.binary64 c).toNat) : b = c := by
  rw [toNat_unpackExponent, toNat_unpackExponent] at hexponent
  rw [toNat_unpackMantissa, toNat_unpackMantissa] at hmantissa
  rw [sign_unpackSign, sign_unpackSign] at hsign
  have hb := b.isLt
  have hc := c.isLt
  refine BitVec.eq_of_toNat_eq ?_
  split at hsign <;> split at hsign <;> first | (cases hsign; done) | omega

/-- What an unpacked double says of the fields of its bit pattern. -/
theorem unpack_cases (b : BitVec 64) :
    ((@unpackExponent Format.binary64 b).toNat = 2047 ∧
      ((@unpackMantissa Format.binary64 b).toNat = 0 ∧
          UnpackedFloat.unpack Format.binary64 b =
            .infinity (Sign.ofBitVec (@unpackSign Format.binary64 b)) ∨
        (@unpackMantissa Format.binary64 b).toNat ≠ 0 ∧
          UnpackedFloat.unpack Format.binary64 b = .notANumber)) ∨
    ((@unpackExponent Format.binary64 b).toNat = 0 ∧
      ((@unpackMantissa Format.binary64 b).toNat = 0 ∧
          UnpackedFloat.unpack Format.binary64 b =
            .zero (Sign.ofBitVec (@unpackSign Format.binary64 b)) ∨
        ∃ h, UnpackedFloat.unpack Format.binary64 b =
          .finite (Sign.ofBitVec (@unpackSign Format.binary64 b))
            (@unpackMantissa Format.binary64 b).toNat (-1074) h)) ∨
    ((@unpackExponent Format.binary64 b).toNat ≠ 0 ∧
      (@unpackExponent Format.binary64 b).toNat ≠ 2047 ∧ ∃ h, UnpackedFloat.unpack Format.binary64 b =
        .finite (Sign.ofBitVec (@unpackSign Format.binary64 b))
          (2 ^ 52 + (@unpackMantissa Format.binary64 b).toNat)
          ((@unpackExponent Format.binary64 b).toNat - 1075) h) := by
  have hbias : (Format.binary64.exponentBias : ℤ) = 1023 := rfl
  unfold UnpackedFloat.unpack
  simp only
  split
  next h =>
    left
    refine ⟨congrArg BitVec.toNat h, ?_⟩
    split
    next hm => exact .inl ⟨congrArg BitVec.toNat hm, rfl⟩
    next hm => exact .inr ⟨fun hz => hm (BitVec.eq_of_toNat_eq hz), rfl⟩
  next h =>
    right
    split
    next h0 =>
      left
      refine ⟨congrArg BitVec.toNat h0, ?_⟩
      split
      next hm => exact .inl ⟨congrArg BitVec.toNat hm, rfl⟩
      next hm =>
        refine .inr ⟨Nat.pos_of_ne_zero fun hz => hm (BitVec.eq_of_toNat_eq hz), ?_⟩
        simp only [h0, hbias]
        rfl
    next h0 =>
      right
      refine ⟨fun hz => h0 (BitVec.eq_of_toNat_eq hz), fun hz => h (BitVec.eq_of_toNat_eq hz),
        by omega, ?_⟩
      simp only [toNat_implicit, hbias]
      congr 1

theorem toNat_unpackMantissa_lt (b : BitVec 64) :
    (@unpackMantissa Format.binary64 b).toNat < 2 ^ 52 := (@unpackMantissa Format.binary64 b).isLt

/-- **A double is told apart by what it unpacks to**: there is only one not-a-number. -/
theorem eq_of_unpacked {x y : Float} (h : unpacked x = unpacked y) : x = y := by
  obtain ⟨⟨bx, hx⟩⟩ := x
  obtain ⟨⟨bY, hy⟩⟩ := y
  suffices hbits : bx.toBitVec = bY.toBitVec by
    obtain rfl : bx = bY := UInt64.toBitVec_inj.1 hbits
    rfl
  change UnpackedFloat.unpack Format.binary64 bx.toBitVec =
    UnpackedFloat.unpack Format.binary64 bY.toBitVec at h
  have hmx := toNat_unpackMantissa_lt bx.toBitVec
  have hmy := toNat_unpackMantissa_lt bY.toBitVec
  have hnan : ∀ {b : BitVec 64}, Format.binary64.Valid b →
      (@unpackExponent Format.binary64 b).toNat = 2047 →
      (@unpackMantissa Format.binary64 b).toNat ≠ 0 → b = packedNaN Format.binary64 :=
    fun hb he hm => hb.eq_packedNaN (BitVec.eq_of_toNat_eq he) fun hz => hm (congrArg BitVec.toNat hz)
  rcases unpack_cases bx.toBitVec with
      ⟨hex, ⟨hmx0, hux⟩ | ⟨hmx0, hux⟩⟩ | ⟨hex, ⟨hmx0, hux⟩ | ⟨hpx, hux⟩⟩ | ⟨hex, -, hpx, hux⟩ <;>
    rcases unpack_cases bY.toBitVec with
      ⟨hey, ⟨hmy0, huy⟩ | ⟨hmy0, huy⟩⟩ | ⟨hey, ⟨hmy0, huy⟩ | ⟨hpy, huy⟩⟩ | ⟨hey, -, hpy, huy⟩ <;>
    rw [hux, huy] at h <;> try (cases h; done)
  · exact eq_of_fields (by simpa using h) (by omega) (by omega)
  · rw [hnan hx hex hmx0, hnan hy hey hmy0]
  · exact eq_of_fields (by simpa using h) (by omega) (by omega)
  · simp only [finite.injEq] at h
    exact eq_of_fields h.1 (by omega) (by omega)
  · simp only [finite.injEq] at h
    omega
  · simp only [finite.injEq] at h
    omega
  · simp only [finite.injEq] at h
    exact eq_of_fields h.1 (by omega) (by omega)

/-- Away from zero and from the not-a-number, places tell unpacked doubles apart. -/
theorem eq_of_place {a b : UnpackedFloat} (ha : a.isNaN = false) (hb : b.isNaN = false)
    (hzero : place a ≠ place (.zero .positive)) (h : place a = place b) : a = b := by
  rcases a with s | _ | s | ⟨s, m, e, hm⟩
  case notANumber => cases ha
  case zero => exact absurd rfl hzero
  all_goals rcases b with s' | _ | s' | ⟨s', m', e', hm'⟩
  case infinity.notANumber | finite.notANumber => cases hb
  case infinity.zero | finite.zero => exact absurd h hzero
  all_goals cases s <;> cases s' <;> simp_all [place, Sign.apply, Prod.ext_iff]

/-- **A double that is not zero is the only one that it is the same as.** -/
theorem eq_of_same {x y : Float} (hzero : (x == 0) = false)
    (h : ((isNaN x && isNaN y) || x == y) = true) : x = y := by
  rw [same_iff, trace, trace] at h
  refine eq_of_unpacked ?_
  cases hx : x.isNaN with
  | true =>
      cases hy : y.isNaN with
      | true =>
          have hnotANumber : ∀ {a : UnpackedFloat}, a.isNaN = true → a = .notANumber := by
            intro a ha
            cases a <;> first | rfl | cases ha
          exact (hnotANumber hx).trans (hnotANumber hy).symm
      | false =>
          rw [hx, hy] at h
          cases h
  | false =>
      cases hy : y.isNaN with
      | true =>
          rw [hx, hy] at h
          cases h
      | false =>
          rw [hx, hy, if_neg Bool.false_ne_true, if_neg Bool.false_ne_true, Option.some.injEq] at h
          refine eq_of_place hx hy (fun hplace => ?_) h
          have := (beq_iff hx (y := 0) rfl).2 hplace
          rw [hzero] at this
          cases this

theorem beq_zero_iff {x : Float} (hx : x.isNaN = false) :
    (x == 0) = true ↔ ∃ s, unpacked x = .zero s := by
  rw [beq_iff (y := 0) hx rfl]
  constructor
  · intro h
    cases hu : unpacked x with
    | zero s => exact ⟨s, rfl⟩
    | notANumber =>
        change (unpacked x).isNaN = false at hx
        rw [hu] at hx
        cases hx
    | _ s =>
        rw [hu] at h
        cases s <;> cases h
  · rintro ⟨s, h⟩
    rw [h]
    rfl

/-- Packing gives no zero for what a finite double unpacks to. -/
theorem unpack_pack_ne_zero {s : Sign} {m : ℕ} {e : ℤ} {hm : 0 < m} (hlt : m < 2 ^ 53)
    (hle : 2 ^ 52 ≤ m ∧ e ≤ 971 ∨ e = -1074) (hge : -1074 ≤ e) (s' : Sign) :
    (Float.Model.pack (.finite s m e hm)).unpack ≠ .zero s' := by
  by_cases hnormal : 2 ^ 52 ≤ m
  · have h : IsNormal m e := ⟨hnormal, hlt, hge, by omega⟩
    rw [h.unpack_pack hm]
    exact fun h => by cases h
  · change UnpackedFloat.unpack Format.binary64
      (UnpackedFloat.pack Format.binary64 (.finite s m e hm)) ≠ _
    have hlog : m.log2 < 52 := (Nat.log2_lt hm.ne').2 (by omega)
    have hfraction : (BitVec.ofNat 52 m).toNat = m := Nat.mod_eq_of_lt (by omega)
    rw [pack_finite, if_neg (by omega), if_neg (by omega)]
    rcases unpack_cases (packComponents Format.binary64 s 0#11 (BitVec.ofNat 52 m)) with
      ⟨-, ⟨-, h⟩ | ⟨-, h⟩⟩ | ⟨-, ⟨hzero, -⟩ | ⟨h, hu⟩⟩ | ⟨-, -, h, hu⟩
    · exact h ▸ fun h => by cases h
    · exact h ▸ fun h => by cases h
    · rw [unpackMantissa_packComponents, hfraction] at hzero
      omega
    · exact hu ▸ fun h => by cases h
    · exact hu ▸ fun h => by cases h

/-- The opposite of a double is zero only if that is. -/
theorem beq_zero_of_neg {x : Float} (h : (-x == 0) = true) : (x == 0) = true := by
  have hnan : x.isNaN = false := by
    rw [← isNaN_neg]
    cases hx : (-x).isNaN with
    | false => rfl
    | true =>
        rw [beq_of_isNaN (by rw [hx]; rfl)] at h
        cases h
  obtain ⟨s, hs⟩ := (beq_zero_iff ((isNaN_neg x).trans hnan)).1 h
  rw [beq_zero_iff hnan]
  change (Float.Model.pack (unpacked x).neg).unpack = _ at hs
  rcases unpack_cases x.toModel.toBits.toBitVec with
    ⟨-, ⟨-, hu⟩ | ⟨-, hu⟩⟩ | ⟨-, ⟨-, hu⟩ | ⟨hpos, hu⟩⟩ | ⟨he, hlarge, hpos, hu⟩ <;>
    change unpacked x = _ at hu <;> rw [hu] at hs
  · have hinfinity : ∀ s', (Float.Model.pack (.infinity s')).unpack = .infinity s' := by
      intro s'
      cases s' <;> rfl
    exact absurd ((hinfinity _).symm.trans hs) (fun h => by cases h)
  · have hnotANumber : (Float.Model.pack .notANumber).unpack = .notANumber := rfl
    exact absurd (hnotANumber.symm.trans hs) (fun h => by cases h)
  · exact ⟨_, hu⟩
  · exact absurd hs (unpack_pack_ne_zero (by have := toNat_unpackMantissa_lt x.toModel.toBits.toBitVec; omega)
      (.inr rfl) le_rfl s)
  · have hm := toNat_unpackMantissa_lt x.toModel.toBits.toBitVec
    have hexponent := (@unpackExponent Format.binary64 x.toModel.toBits.toBitVec).isLt
    have hlt : (@unpackExponent Format.binary64 x.toModel.toBits.toBitVec).toNat < 2 ^ 11 := hexponent
    exact absurd hs (unpack_pack_ne_zero (by omega) (.inl ⟨by omega, by omega⟩) (by omega) s)

/-- Zeros are the same. -/
theorem same_of_beq_zero {x y : Float} (hx : (x == 0) = true) (hy : (y == 0) = true) :
    ((isNaN x && isNaN y) || x == y) = true := by
  have hnan : ∀ {z : Float}, (z == 0) = true → z.isNaN = false := by
    intro z hz
    refine Bool.eq_false_iff.2 fun hn => ?_
    rw [beq_of_isNaN (by rw [hn]; rfl)] at hz
    cases hz
  rw [(beq_iff (hnan hx) (hnan hy)).2, Bool.or_true]
  exact ((beq_iff (hnan hx) rfl).1 hx).trans ((beq_iff (hnan hy) rfl).1 hy).symm

theorem beq_zero_of_same {x y : Float} (h : ((isNaN x && isNaN y) || x == y) = true) :
    (y == 0) = (x == 0) := by
  cases hx : x == 0 with
  | false => rw [← eq_of_same hx h, hx]
  | true =>
      refine Bool.eq_false_imp_eq_true.1 fun hy => ?_
      rw [← hx]
      have h' := (same_iff y x).2 ((same_iff x y).1 h).symm
      rw [← eq_of_same hy h', hy]

end Double

/-! ## Numbers -/

namespace Scalar

/-- Whether a scalar is a double that is zero. -/
def isFloatingZero : Scalar → Bool
  | .machine x => x == 0
  | _ => false

/-- Whether a scalar is the only one of its value. -/
def hasOneForm (x : Scalar) : Bool := x.isNegatable && !x.isFloatingZero

theorem eq_of_same {x y : Scalar} (hx : x.hasOneForm = true) (h : x.same y = true) : x = y := by
  rw [hasOneForm, Bool.and_eq_true, Bool.not_eq_true'] at hx
  cases x with
  | exact p =>
      cases y with
      | exact q => rw [beq_iff_eq.1 h]
      | _ => cases h
  | big d p => cases hx.1
  | machine a =>
      cases y with
      | machine b => rw [Double.eq_of_same hx.2 h]
      | _ => cases h

theorem isFloatingZero_of_same {x y : Scalar} (h : x.same y = true) :
    y.isFloatingZero = x.isFloatingZero := by
  cases x with
  | machine a =>
      cases y with
      | machine b => exact Double.beq_zero_of_same h
      | _ => cases h
  | _ => cases y <;> first | rfl | cases h

theorem isZero_of_same {x y : Scalar} (hx : x.isNegatable = true) (h : x.same y = true) :
    y.isZero = x.isZero := by
  cases x with
  | exact p =>
      cases y with
      | exact q => rw [beq_iff_eq.1 h]
      | _ => cases h
  | big d p => cases hx
  | machine a =>
      cases y with
      | machine b => exact Double.beq_zero_of_same h
      | _ => cases h

theorem isZero_neg {x y : Scalar} (hx : x.isNegatable = true) (h : x.neg = .ok y)
    (hzero : x.isZero = false) : y.isZero = false := by
  cases x with
  | exact p =>
      cases h
      rw [isZero, beq_eq_false_iff_ne] at hzero ⊢
      exact neg_ne_zero.2 hzero
  | big d p => cases hx
  | machine a =>
      cases h
      rw [isZero, Bool.eq_false_iff] at hzero ⊢
      exact fun h => hzero (Double.beq_zero_of_neg h)

/-- An opposite that is a floating zero is the same as what it is the opposite of. -/
theorem same_of_neg {x y : Scalar} (h : x.neg = .ok y) (hzero : y.isFloatingZero = true) :
    x.same y = true := by
  cases x with
  | exact p =>
      cases h
      cases hzero
  | big d p =>
      cases hd : liftDecimal (d.negate defaultPrecision) with
      | error f =>
          rw [neg, hd] at h
          cases h
      | ok e =>
          rw [neg, hd] at h
          cases h
          cases hzero
  | machine a =>
      cases h
      exact Double.same_of_beq_zero (Double.beq_zero_of_neg hzero) hzero

end Scalar

namespace Number

/-- Whether a number is a double that is zero. -/
def isFloatingZero : Number → Bool
  | real x => x.isFloatingZero
  | complex _ _ => false

/-- Whether a number is the only one of its value. -/
def hasOneForm (v : Number) : Bool := v.re.hasOneForm && v.im.hasOneForm

/-- **A number without decimals and floating zeros is the only one that it is the same as.** -/
theorem eq_of_same {v w : Number} (hv : v.hasOneForm = true) (h : v.same w = true) : v = w := by
  rw [hasOneForm, Bool.and_eq_true] at hv
  cases v with
  | real x =>
      cases w with
      | real y => exact congrArg real (Scalar.eq_of_same hv.1 h)
      | complex _ _ => cases h
  | complex x x' =>
      cases w with
      | real _ => cases h
      | complex y y' =>
          rw [same, Bool.and_eq_true] at h
          exact congrArg₂ complex (Scalar.eq_of_same hv.1 h.1) (Scalar.eq_of_same hv.2 h.2)

/-- Whether the parts of a number have opposites, and a floating zero is not written as a complex
number. -/
def isTidy : Number → Bool
  | real x => x.isNegatable
  | complex x y => x.isNegatable && y.isNegatable && !(y.isZero && x.isFloatingZero)

theorem isTidy_ofParts {x y : Scalar} (hx : x.isNegatable = true) (hy : y.isNegatable = true) :
    (ofParts x y).isTidy = true ∧ ((ofParts x y).isFloatingZero = true → ofParts x y = real x) := by
  unfold ofParts
  split
  next => exact ⟨hx, fun _ => rfl⟩
  next h =>
    refine ⟨?_, fun h => by cases h⟩
    rw [isTidy, hx, hy, Bool.eq_false_iff.2 h]
    rfl

theorem isTidy_of_same {v w : Number} (h : v.same w = true) : w.isTidy = v.isTidy := by
  cases v with
  | real x =>
      cases w with
      | real y => exact Scalar.isNegatable_of_same h
      | complex _ _ => cases h
  | complex x x' =>
      cases w with
      | real _ => cases h
      | complex y y' =>
          rw [same, Bool.and_eq_true] at h
          rw [isTidy, isTidy, Scalar.isNegatable_of_same h.1, Scalar.isNegatable_of_same h.2,
            Scalar.isFloatingZero_of_same h.1]
          cases hneg : x'.isNegatable with
          | false => rw [Bool.and_false, Bool.false_and, Bool.false_and]
          | true => rw [Scalar.isZero_of_same hneg h.2]

theorem isFloatingZero_of_same {v w : Number} (h : v.same w = true) :
    w.isFloatingZero = v.isFloatingZero := by
  cases v with
  | real x =>
      cases w with
      | real y => exact Scalar.isFloatingZero_of_same h
      | complex _ _ => cases h
  | complex x x' =>
      cases w with
      | real _ => cases h
      | complex y y' => rfl

/-- The opposite of a number is tidy, and a floating zero only if it is the same as the number. -/
theorem neg_isTidy {v w : Number} (hv : v.isTidy = true) (h : v.neg = .ok w) :
    w.isTidy = true ∧ (w.isFloatingZero = true → v.same w = true) := by
  cases v with
  | real x =>
      obtain ⟨y, hy, hyn⟩ := Scalar.neg_isNegatable hv
      rw [neg, show x.neg = .ok y from hy] at h
      cases h
      exact ⟨hyn, fun hzero => Scalar.same_of_neg hy hzero⟩
  | complex x x' =>
      rw [isTidy, Bool.and_eq_true, Bool.and_eq_true, Bool.not_eq_true'] at hv
      obtain ⟨y, hy, hyn⟩ := Scalar.neg_isNegatable hv.1.1
      obtain ⟨y', hy', hyn'⟩ := Scalar.neg_isNegatable hv.1.2
      rw [neg, show x.neg = .ok y from hy, show x'.neg = .ok y' from hy'] at h
      cases h
      have hreal : x'.isZero = true → y.isFloatingZero = false := fun hzero => by
        rw [hzero, Bool.true_and] at hv
        refine Bool.eq_false_iff.2 fun hy0 => ?_
        rw [← Scalar.isFloatingZero_of_same (Scalar.same_of_neg hy hy0), hy0] at hv
        cases hv.2
      change (ofParts y y').isTidy = true ∧ ((ofParts y y').isFloatingZero = true → _)
      have htidy := isTidy_ofParts hyn hyn'
      refine ⟨htidy.1, fun hzero => ?_⟩
      have hparts := htidy.2 hzero
      rw [hparts] at hzero
      cases hzero' : y'.isZero with
      | true =>
          cases hx' : x'.isZero with
          | true => rw [isFloatingZero, hreal hx'] at hzero; cases hzero
          | false =>
              rw [Scalar.isZero_neg hv.1.2 hy' hx'] at hzero'
              cases hzero'
      | false =>
          rw [ofParts, hzero', if_neg Bool.false_ne_true] at hparts
          cases hparts

/-- A quotient of exact numbers is tidy, and no floating zero. -/
theorem div_isTidy {a b c : Number} (ha : a.isExact = true) (hb : b.isExact = true)
    (h : a.div b = .ok c) : c.isTidy = true ∧ c.isFloatingZero = false := by
  obtain ⟨d, hd, hcases⟩ := div_of_isExact ha hb
  rw [h] at hd
  cases hd
  obtain rfl | ⟨x, y, rfl⟩ := hcases
  · exact ⟨rfl, rfl⟩
  · have htidy := isTidy_ofParts (x := .exact x) (y := .exact y) rfl rfl
    refine ⟨htidy.1, Bool.eq_false_iff.2 fun hzero => ?_⟩
    rw [htidy.2 hzero] at hzero
    cases hzero

/-- Whether a number is no decimal and has no decimal part, and is real if a part of it is a floating
zero: it is then the only one of its value, or a floating zero. -/
def isDefinite : Number → Bool
  | real x => x.isNegatable
  | complex x y => x.hasOneForm && y.hasOneForm

theorem isTidy_of_isDefinite {v : Number} (h : v.isDefinite = true) : v.isTidy = true := by
  cases v with
  | real x => exact h
  | complex x y =>
      simp only [isDefinite, Scalar.hasOneForm, Bool.and_eq_true, Bool.not_eq_true'] at h
      rw [isTidy, h.1.1, h.1.2, h.2.1, Bool.and_false]
      rfl

theorem hasOneForm_of_isDefinite {v : Number} (h : v.isDefinite = true)
    (hzero : v.isFloatingZero = false) : v.hasOneForm = true := by
  cases v with
  | real x =>
      rw [isDefinite] at h
      rw [isFloatingZero] at hzero
      rw [hasOneForm, re, im, Scalar.hasOneForm, h, hzero]
      rfl
  | complex x y => exact h

end Number

end SymbolicAlgebra
