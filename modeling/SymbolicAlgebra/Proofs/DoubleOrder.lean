import Mathlib
import SymbolicAlgebra.Double.Basic

/-!
# Proofs/DoubleOrder — the order of doubles

Away from the not-a-number, doubles are ordered by their `place`, a triple of integers: sign and
size, then exponent, then significand.  The nearest double of a rational is always a number
(`isNaN_ofRat`), and whole numbers of at most 53 bits are told apart by their doubles
(`neg_ofRat_intCast_inj`).
-/

namespace SymbolicAlgebra.Double

open Float.Model Float.Model.UnpackedFloat

/-! ## Places -/

/-- The place of a double among the doubles: the two zeros share one. -/
def place : UnpackedFloat → ℤ ×ₗ ℤ ×ₗ ℤ
  | .infinity s => toLex (s.apply 2, toLex (0, 0))
  | .notANumber => toLex (0, toLex (0, 0))
  | .zero _ => toLex (0, toLex (0, 0))
  | .finite s m e _ => toLex (s.apply 1, toLex (s.apply e, s.apply m))

/-- Doubles compare as their places do. -/
theorem compare_place {a b : UnpackedFloat} (ha : a.isNaN = false) (hb : b.isNaN = false) :
    (a.compare b = some .lt ↔ place a < place b) ∧
      (a.compare b = some .eq ↔ place a = place b) := by
  rcases a with s | _ | s | ⟨s, m, e, h⟩
  case notANumber => cases ha
  all_goals rcases b with s' | _ | s' | ⟨s', m', e', h'⟩
  case finite.finite =>
    have hm : (m : ℤ) = m' ↔ m = m' := Int.ofNat_inj
    cases s <;> cases s' <;>
      simp [UnpackedFloat.compare, place, Sign.apply, Prod.Lex.toLex_lt_toLex, compare_lt_iff_lt,
        compare_gt_iff_gt, Ordering.then_eq_lt, Ordering.then_eq_gt, Ordering.then_eq_eq, hm]
  all_goals first
    | (cases hb; done)
    | (cases s <;> cases s' <;>
        simp [UnpackedFloat.compare, place, Sign.apply, Prod.Lex.toLex_lt_toLex, compare])

/-- What a double unpacks to. -/
abbrev unpacked (x : Float) : UnpackedFloat := x.toModel.unpack

theorem isNaN_of_isFinite {x : Float} (h : x.isFinite = true) : x.isNaN = false := by
  change (unpacked x).isFinite = true at h
  change (unpacked x).isNaN = false
  generalize unpacked x = u at h
  cases u <;> first | rfl | cases h

theorem lt_iff {x y : Float} (hx : x.isNaN = false) (hy : y.isNaN = false) :
    x < y ↔ place (unpacked x) < place (unpacked y) := by
  have h := (compare_place (a := unpacked x) (b := unpacked y) hx hy).1
  rw [← h]
  change decide (UnpackedFloat.lt _ _ = true) = true ↔ _
  rw [decide_eq_true_iff, UnpackedFloat.lt, beq_iff_eq]

theorem beq_iff {x y : Float} (hx : x.isNaN = false) (hy : y.isNaN = false) :
    (x == y) = true ↔ place (unpacked x) = place (unpacked y) := by
  have h := (compare_place (a := unpacked x) (b := unpacked y) hx hy).2
  rw [← h]
  change (UnpackedFloat.beq _ _ = true) ↔ _
  rw [UnpackedFloat.beq]
  exact beq_iff_eq

/-! ## Packing -/

theorem pack_finite (s : Sign) (m : ℕ) (e : ℤ) (h : 0 < m) :
    UnpackedFloat.pack Format.binary64 (.finite s m e h) =
      if 2047 ≤ (e + 1075).toNat then packedInfinity Format.binary64 s
      else if m.log2 + 1 = 53 then
        packComponents Format.binary64 s (BitVec.ofNat 11 (e + 1075).toNat) (BitVec.ofNat 52 m)
      else packComponents Format.binary64 s 0#11 (BitVec.ofNat 52 m) := by
  have hfield : e + (Format.binary64.exponentBias : ℤ) + (52 : ℕ) = e + 1075 := by
    change e + 1023 + 52 = e + 1075
    omega
  have hlarge : 2 ^ 11 ≤ (e + 1075).toNat + 1 ↔ 2047 ≤ (e + 1075).toNat := by omega
  change (if 2 ^ 11 ≤ (e + (Format.binary64.exponentBias : ℤ) + (52 : ℕ)).toNat + 1 then _
    else if m.log2 + 1 = 53 then packComponents Format.binary64 s (BitVec.ofNat 11
      (e + (Format.binary64.exponentBias : ℤ) + (52 : ℕ)).toNat) _ else _) = _
  rw [hfield]
  simp only [hlarge]

theorem isNaN_unpack (b : BitVec 64) :
    (UnpackedFloat.unpack Format.binary64 b).isNaN = true ↔
      @unpackExponent Format.binary64 b = -1#11 ∧
        @unpackMantissa Format.binary64 b ≠ 0#52 := by
  unfold UnpackedFloat.unpack
  simp only
  split
  next h =>
    split
    next hm => simp [UnpackedFloat.isNaN, hm]
    next hm => simp [UnpackedFloat.isNaN, h, hm]
  next h =>
    split
    next =>
      split
      next => exact iff_of_false (by simp [UnpackedFloat.isNaN]) fun hn => h hn.1
      next => exact iff_of_false (by simp [UnpackedFloat.isNaN]) fun hn => h hn.1
    next => exact iff_of_false (by simp [UnpackedFloat.isNaN]) fun hn => h hn.1

theorem isNaN_packComponents {s : Sign} {e : BitVec 11} {m : BitVec 52} (h : e ≠ -1#11) :
    (UnpackedFloat.unpack Format.binary64 (packComponents Format.binary64 s e m)).isNaN =
      false := by
  rw [← Bool.not_eq_true, isNaN_unpack, unpackExponent_packComponents]
  exact fun hn => h hn.1

theorem isNaN_unpack_pack (u : UnpackedFloat) : (Float.Model.pack u).unpack.isNaN = u.isNaN := by
  rcases u with s | _ | s | ⟨s, m, e, h⟩
  · cases s <;> decide
  · decide
  · cases s <;> decide
  · change (UnpackedFloat.unpack Format.binary64
      (UnpackedFloat.pack Format.binary64 (.finite s m e h))).isNaN = false
    rw [pack_finite]
    split
    next => cases s <;> decide
    next hsmall =>
      split
      next =>
        refine isNaN_packComponents fun hexp => ?_
        have hnat : (e + 1075).toNat % 2 ^ 11 = 2047 := congrArg BitVec.toNat hexp
        omega
      next => exact isNaN_packComponents (by decide)

theorem sign_packComponents (s : Sign) (e : BitVec 11) (m : BitVec 52) :
    Sign.ofBitVec (unpackSign (packComponents Format.binary64 s e m)) = s := by
  unfold unpackSign packComponents BitVec.extractLsb
  rw [BitVec.extractLsb'_append_eq_of_le (by decide),
    BitVec.extractLsb'_append_eq_of_le (by decide)]
  cases s <;> rfl

theorem toNat_implicit (m : BitVec 52) : (1#1 ++ m).toNat = 2 ^ 52 + m.toNat := by
  rw [BitVec.toNat_append, ← Nat.shiftLeft_add_eq_or_of_lt m.isLt]
  rfl

/-- The magnitude `m · 2 ^ e` of a normal double. -/
structure IsNormal (m : ℕ) (e : ℤ) : Prop where
  le : 2 ^ 52 ≤ m
  lt : m < 2 ^ 53
  exponent_ge : -1074 ≤ e
  exponent_le : e ≤ 971

/-- A field that is neither least nor greatest is one of a normal double. -/
theorem unpack_normal {b : BitVec 64} {s : Sign} {m : ℕ} {e : ℤ} (hm : 0 < m)
    (hs : Sign.ofBitVec (@unpackSign Format.binary64 b) = s)
    (hf : (@unpackMantissa Format.binary64 b).toNat + 2 ^ 52 = m)
    (he : ((@unpackExponent Format.binary64 b).toNat : ℤ) = e + 1075)
    (hn : IsNormal m e) : UnpackedFloat.unpack Format.binary64 b = .finite s m e hm := by
  have hone : @unpackExponent Format.binary64 b ≠ -1#11 := by
    intro h
    have hnat : (@unpackExponent Format.binary64 b).toNat = 2047 := congrArg BitVec.toNat h
    have := hn.exponent_le
    omega
  have hzero : @unpackExponent Format.binary64 b ≠ 0#11 := by
    intro h
    have hnat : (@unpackExponent Format.binary64 b).toNat = 0 := congrArg BitVec.toNat h
    have := hn.exponent_ge
    omega
  have he' : ((@unpackExponent Format.binary64 b).toNat : ℤ) - (1023 + 52) = e := by omega
  unfold UnpackedFloat.unpack
  simp only [toNat_implicit]
  rw [if_neg hone, if_neg hzero]
  congr 1
  omega

/-- Normal doubles survive packing. -/
theorem IsNormal.unpack_pack {s : Sign} {m : ℕ} {e : ℤ} (h : IsNormal m e) (hm : 0 < m) :
    (Float.Model.pack (.finite s m e hm)).unpack = .finite s m e hm := by
  obtain ⟨hle, hlt, hge, hle'⟩ := h
  have hlog : m.log2 + 1 = 53 := by
    have := (Nat.le_log2 hm.ne').2 hle
    have := (Nat.log2_lt hm.ne').2 hlt
    omega
  have hfield : (BitVec.ofNat 11 (e + 1075).toNat).toNat = (e + 1075).toNat :=
    Nat.mod_eq_of_lt (by omega)
  have hfraction : (BitVec.ofNat 52 m).toNat = m % 2 ^ 52 := rfl
  change UnpackedFloat.unpack Format.binary64
    (UnpackedFloat.pack Format.binary64 (.finite s m e hm)) = _
  rw [pack_finite, if_neg (by omega), if_pos hlog]
  refine unpack_normal hm (sign_packComponents s _ _) ?_ ?_ ⟨hle, hlt, hge, hle'⟩
  · rw [unpackMantissa_packComponents, hfraction]
    omega
  · rw [unpackExponent_packComponents, hfield]
    omega

/-! ## Bit patterns -/

theorem toNat_unpackExponent (b : BitVec 64) :
    (@unpackExponent Format.binary64 b).toNat = b.toNat / 2 ^ 52 % 2 ^ 11 := by
  unfold unpackExponent
  rw [BitVec.toNat_cast, BitVec.extractLsb_toNat, Nat.shiftRight_eq_div_pow]
  rfl

theorem toNat_unpackMantissa (b : BitVec 64) :
    (@unpackMantissa Format.binary64 b).toNat = b.toNat % 2 ^ 52 := by
  unfold unpackMantissa
  rw [BitVec.toNat_cast, BitVec.extractLsb_toNat, Nat.shiftRight_zero]
  rfl

theorem sign_unpackSign (b : BitVec 64) :
    Sign.ofBitVec (@unpackSign Format.binary64 b) =
      if b.toNat < 2 ^ 63 then .positive else .negative := by
  have hnat : (@unpackSign Format.binary64 b).toNat = b.toNat / 2 ^ 63 % 2 ^ 1 := by
    unfold unpackSign
    rw [BitVec.toNat_cast, BitVec.extractLsb_toNat, Nat.shiftRight_eq_div_pow]
    rfl
  have hzero : @unpackSign Format.binary64 b = 0#1 ↔ b.toNat < 2 ^ 63 := by
    rw [← BitVec.toNat_inj, hnat]
    have := b.isLt
    change _ = 0 ↔ _
    omega
  simp only [Sign.ofBitVec, hzero]

/-! ## Nearest doubles -/

/-- The sign of a signed magnitude. -/
def signOf (negative : Bool) : Sign := if negative then .negative else .positive

/-- The bits that `encode` gives to a magnitude. -/
def magnitudeBits (m : ℕ) (q : ℤ) : ℕ :=
  if m < 2 ^ 52 then m
  else if 2047 ≤ (q + 1075).toNat then 2047 * 2 ^ 52
  else (q + 1075).toNat * 2 ^ 52 + (m - 2 ^ 52)

theorem encode_eq (negative : Bool) (m : ℕ) (q : ℤ) :
    encode negative m q =
      Float.ofBits (UInt64.ofNat ((if negative then 2 ^ 63 else 0) + magnitudeBits m q)) := rfl

theorem isNaN_ofBits (b : UInt64) :
    (Float.ofBits b).isNaN = (UnpackedFloat.unpack Format.binary64 b.toBitVec).isNaN :=
  isNaN_unpack_pack _

/-- Below the range of the significand, the bits hold the field and the fraction. -/
theorem magnitudeBits_cases {m : ℕ} (q : ℤ) (hm : m < 2 ^ 53) :
    magnitudeBits m q = 2047 * 2 ^ 52 ∨
      ∃ field fraction, field < 2047 ∧ fraction < 2 ^ 52 ∧
        magnitudeBits m q = field * 2 ^ 52 + fraction := by
  unfold magnitudeBits
  split
  next h => exact .inr ⟨0, m, by omega, h, by omega⟩
  next h =>
    split
    next => exact .inl rfl
    next hq => exact .inr ⟨(q + 1075).toNat, m - 2 ^ 52, by omega, by omega, rfl⟩

theorem toNat_signed {negative : Bool} {n : ℕ} (hn : n < 2 ^ 63) :
    (UInt64.ofNat ((if negative then 2 ^ 63 else 0) + n)).toBitVec.toNat =
      (if negative then 2 ^ 63 else 0) + n := by
  change ((if negative then 2 ^ 63 else 0) + n) % 2 ^ 64 = _
  split
  next => omega
  next => omega

theorem isNaN_encode (negative : Bool) {m : ℕ} (q : ℤ) (hm : m < 2 ^ 53) :
    (encode negative m q).isNaN = false := by
  rw [encode_eq, isNaN_ofBits, ← Bool.not_eq_true, isNaN_unpack, ← BitVec.toNat_inj, Ne,
    ← BitVec.toNat_inj, toNat_unpackExponent, toNat_unpackMantissa]
  change ¬(_ = 2047 ∧ ¬_ = 0)
  rcases magnitudeBits_cases q hm with h | ⟨field, fraction, hfield, hfraction, h⟩
  · rw [h, toNat_signed (by omega)]
    split
    next => omega
    next => omega
  · rw [h, toNat_signed (by omega)]
    split
    next => omega
    next => omega

/-- **A normal double is the magnitude it encodes.** -/
theorem IsNormal.unpacked_encode {negative : Bool} {m : ℕ} {q : ℤ} (h : IsNormal m q)
    (hm : 0 < m) : unpacked (encode negative m q) = .finite (signOf negative) m q hm := by
  have ⟨hle, hm', hge, hle'⟩ := h
  have hbits : magnitudeBits m q = (q + 1075).toNat * 2 ^ 52 + (m - 2 ^ 52) := by
    rw [magnitudeBits, if_neg (by omega), if_neg (by omega)]
  have hlt : magnitudeBits m q < 2 ^ 63 := by omega
  have hunpack : UnpackedFloat.unpack Format.binary64
      (UInt64.ofNat ((if negative then 2 ^ 63 else 0) + magnitudeBits m q)).toBitVec =
        .finite (signOf negative) m q hm := by
    refine unpack_normal hm ?_ ?_ ?_ h
    · rw [sign_unpackSign, toNat_signed hlt, signOf]
      cases negative
      · exact if_pos (by simpa using hlt)
      · exact if_neg (by simp)
    · rw [toNat_unpackMantissa, toNat_signed hlt, hbits]
      split <;> omega
    · rw [toNat_unpackExponent, toNat_signed hlt, hbits]
      split <;> omega
  rw [encode_eq]
  change (Float.Model.pack (UnpackedFloat.unpack Format.binary64 _)).unpack = _
  rw [hunpack, h.unpack_pack]

theorem divHalfEven_le {n d : ℕ} : divHalfEven n d ≤ n / d + 1 := by
  unfold divHalfEven
  simp only
  split
  next => omega
  next =>
    split
    next => omega
    next => split <;> omega

/-- One step above the place of the leading bits, the quotient has at most 53 of them. -/
theorem scaled_lt {n d : ℕ} {q : ℤ} (hd : d ≠ 0) (hq : (n.log2 : ℤ) - d.log2 - 52 ≤ q) :
    n * 2 ^ (-q).toNat / (d * 2 ^ q.toNat) < 2 ^ 53 := by
  have hn : n < 2 ^ (n.log2 + 1) := Nat.lt_log2_self
  have hd' : 2 ^ d.log2 ≤ d := Nat.log2_self_le hd
  have hpow : 2 ^ (n.log2 + 1 + (-q).toNat) ≤ 2 ^ (53 + d.log2 + q.toNat) :=
    Nat.pow_le_pow_right (by decide) (by omega)
  refine Nat.div_lt_of_lt_mul ?_
  calc n * 2 ^ (-q).toNat < 2 ^ (n.log2 + 1) * 2 ^ (-q).toNat :=
        Nat.mul_lt_mul_of_pos_right hn (by positivity)
    _ = 2 ^ (n.log2 + 1 + (-q).toNat) := (pow_add _ _ _).symm
    _ ≤ 2 ^ (53 + d.log2 + q.toNat) := hpow
    _ = 2 ^ d.log2 * 2 ^ q.toNat * 2 ^ 53 := by ring
    _ ≤ d * 2 ^ q.toNat * 2 ^ 53 := by gcongr

/-- The significand of `n / d` at the exponent `q`. -/
def significand (n d : ℕ) (q : ℤ) : ℕ := divHalfEven (n * 2 ^ (-q).toNat) (d * 2 ^ q.toNat)

/-- A magnitude whose significand may have been rounded up to one bit more. -/
theorem ofRatio_eq (negative : Bool) {n d : ℕ} (hn : n ≠ 0) (hd : d ≠ 0) :
    ∃ q : ℤ, (q = max ((n.log2 : ℤ) - d.log2 - 53) (-1074) + 1 ∨
        q = max ((n.log2 : ℤ) - d.log2 - 53) (-1074) ∧
          n * 2 ^ (-q).toNat / (d * 2 ^ q.toNat) < 2 ^ 53) ∧
      ofRatio negative n d = if significand n d q = 2 ^ 53 then encode negative (2 ^ 52) (q + 1)
        else encode negative (significand n d q) q := by
  unfold ofRatio
  rw [if_neg (by simp [hn, hd])]
  simp only [Nat.pow_eq]
  split
  next => exact ⟨_, .inl rfl, rfl⟩
  next h => exact ⟨_, .inr ⟨rfl, not_le.1 h⟩, rfl⟩

/-- A significand of at most 53 bits is encoded. -/
theorem exists_encode (negative : Bool) (n : ℕ) {d : ℕ} (hd : d ≠ 0) :
    ∃ m q, m < 2 ^ 53 ∧ ofRatio negative n d = encode negative m q := by
  by_cases hn : n = 0
  · refine ⟨0, -1074, by decide, ?_⟩
    unfold ofRatio
    rw [if_pos (.inl hn)]
    rfl
  · obtain ⟨q, hq, h⟩ := ofRatio_eq negative hn hd
    rw [h]
    split
    next => exact ⟨2 ^ 52, q + 1, by decide, rfl⟩
    next hm =>
      have hlt : n * 2 ^ (-q).toNat / (d * 2 ^ q.toNat) < 2 ^ 53 := by
        rcases hq with hq | hq
        · exact scaled_lt hd (by omega)
        · exact hq.2
      exact ⟨significand n d q, q, lt_of_le_of_ne (divHalfEven_le.trans hlt) hm, rfl⟩

/-- **The nearest double of a rational is a number.** -/
theorem isNaN_ofRat (x : Rat) : (ofRat x).isNaN = false := by
  obtain ⟨m, q, hm, h⟩ := exists_encode (decide (x.num < 0)) x.num.natAbs x.den_nz
  rw [ofRat, h]
  exact isNaN_encode _ _ hm

/-! ## Whole numbers -/

theorem divHalfEven_one (m : ℕ) : divHalfEven m 1 = m := by simp [divHalfEven, Nat.mod_one]

/-- A whole number of at most 53 bits, moved to the place of the leading bit. -/
theorem significand_whole {a : ℕ} (ha : a ≠ 0) (hle : a ≤ 2 ^ 53) :
    ∃ m, m * 2 ^ a.log2 = a * 2 ^ 52 ∧ significand a 1 ((a.log2 : ℤ) - 52) = m := by
  have hlog : a.log2 ≤ 53 := by
    have := (Nat.log2_lt ha (k := 54)).2 (by omega)
    omega
  have hself : 2 ^ a.log2 ≤ a := Nat.log2_self_le ha
  rcases hlog.lt_or_eq with hlt | heq
  · refine ⟨a * 2 ^ (52 - a.log2), ?_, ?_⟩
    · rw [mul_assoc, ← pow_add, Nat.sub_add_cancel (by omega)]
    · have hneg : (-((a.log2 : ℤ) - 52)).toNat = 52 - a.log2 := by omega
      have hpos : ((a.log2 : ℤ) - 52).toNat = 0 := by omega
      rw [significand, hneg, hpos, pow_zero, mul_one, divHalfEven_one]
  · obtain rfl : a = 2 ^ 53 := le_antisymm hle (heq ▸ hself)
    exact ⟨2 ^ 52, by rw [heq]; ring, by rw [heq]; decide⟩

/-- **The nearest double of a whole number of at most 53 bits is that number.** -/
theorem unpacked_ofRat_intCast {n : ℤ} (hn : n ≠ 0) (hle : n.natAbs ≤ 2 ^ 53) :
    ∃ (m j : ℕ) (hm : 0 < m), IsNormal m ((j : ℤ) - 52) ∧ m * 2 ^ j = n.natAbs * 2 ^ 52 ∧
      unpacked (ofRat n) = .finite (signOf (decide (n < 0))) m ((j : ℤ) - 52) hm := by
  have ha : n.natAbs ≠ 0 := by omega
  have hself : 2 ^ n.natAbs.log2 ≤ n.natAbs := Nat.log2_self_le ha
  have hlt : n.natAbs < 2 ^ (n.natAbs.log2 + 1) := Nat.lt_log2_self
  have hlog : n.natAbs.log2 ≤ 53 := by
    have := (Nat.log2_lt ha (k := 54)).2 (by omega)
    omega
  obtain ⟨m, hm, hsig⟩ := significand_whole ha hle
  have hlow : 2 ^ 52 ≤ m := by
    refine Nat.le_of_mul_le_mul_right (c := 2 ^ n.natAbs.log2) ?_ (by positivity)
    rw [hm, mul_comm]
    exact Nat.mul_le_mul_right _ hself
  have hhigh : m < 2 ^ 53 := by
    refine Nat.lt_of_mul_lt_mul_right (a := 2 ^ n.natAbs.log2) ?_
    rw [hm, show 2 ^ 53 * 2 ^ n.natAbs.log2 = 2 ^ (n.natAbs.log2 + 1) * 2 ^ 52 by ring]
    exact Nat.mul_lt_mul_of_pos_right hlt (by positivity)
  have hnormal : IsNormal m ((n.natAbs.log2 : ℤ) - 52) := ⟨hlow, hhigh, by omega, by omega⟩
  refine ⟨m, n.natAbs.log2, by omega, hnormal, hm, ?_⟩
  unfold ofRat
  rw [Rat.num_intCast, Rat.den_intCast]
  obtain ⟨q, hq, h⟩ := ofRatio_eq (decide (n < 0)) ha one_ne_zero
  have hone : (1 : ℕ).log2 = 0 := rfl
  obtain rfl : q = (n.natAbs.log2 : ℤ) - 52 := by
    rcases hq with hq | ⟨rfl, hq⟩
    · omega
    · exfalso
      have hneg : (-max ((n.natAbs.log2 : ℤ) - Nat.log2 1 - 53) (-1074)).toNat =
          53 - n.natAbs.log2 := by omega
      have hpos : (max ((n.natAbs.log2 : ℤ) - Nat.log2 1 - 53) (-1074)).toNat = 0 := by omega
      rw [hneg, hpos, pow_zero, mul_one, Nat.div_one] at hq
      refine absurd hq (not_lt.2 ?_)
      calc 2 ^ 53 = 2 ^ n.natAbs.log2 * 2 ^ (53 - n.natAbs.log2) := by
            rw [← pow_add, Nat.add_sub_cancel' hlog]
        _ ≤ n.natAbs * 2 ^ (53 - n.natAbs.log2) := Nat.mul_le_mul_right _ hself
  rw [h, hsig, if_neg (by omega)]
  exact hnormal.unpacked_encode (by omega)

theorem isNaN_neg (x : Float) : (-x).isNaN = x.isNaN := by
  change (Float.Model.pack (unpacked x).neg).unpack.isNaN = (unpacked x).isNaN
  rw [isNaN_unpack_pack]
  cases unpacked x <;> rfl

theorem IsNormal.unpacked_neg {x : Float} {s : Sign} {m : ℕ} {e : ℤ} {hm : 0 < m}
    (h : IsNormal m e) (hx : unpacked x = .finite s m e hm) :
    unpacked (-x) = .finite (-s) m e hm := by
  change (Float.Model.pack (unpacked x).neg).unpack = _
  rw [hx]
  exact h.unpack_pack hm

/-- The place of the opposite of a whole number of at most 53 bits. -/
theorem place_neg_ofRat {n : ℤ} (hle : n.natAbs ≤ 2 ^ 53) :
    ∃ m j : ℕ, m * 2 ^ j = n.natAbs * 2 ^ 52 ∧
      place (unpacked (-ofRat n)) =
        toLex (-n.sign, toLex (-n.sign * ((j : ℤ) - 52), -n.sign * m)) := by
  rcases lt_trichotomy n 0 with hn | rfl | hn
  · obtain ⟨m, j, hm, hnormal, hmj, hx⟩ := unpacked_ofRat_intCast hn.ne hle
    refine ⟨m, j, hmj, ?_⟩
    rw [hnormal.unpacked_neg hx, Int.sign_eq_neg_one_of_neg hn, decide_eq_true hn]
    change toLex ((1 : ℤ), toLex ((j : ℤ) - 52, (m : ℤ))) = _
    rw [neg_neg, one_mul, one_mul]
  · exact ⟨0, 0, rfl, by decide⟩
  · obtain ⟨m, j, hm, hnormal, hmj, hx⟩ := unpacked_ofRat_intCast hn.ne' hle
    refine ⟨m, j, hmj, ?_⟩
    rw [hnormal.unpacked_neg hx, Int.sign_eq_one_of_pos hn, decide_eq_false hn.not_gt]
    change toLex ((-1 : ℤ), toLex (-((j : ℤ) - 52), -(m : ℤ))) = _
    rw [neg_one_mul, neg_one_mul]

/-- **Whole numbers of at most 53 bits are told apart by the opposites of their doubles.** -/
theorem neg_ofRat_intCast_inj {a b : ℤ} (ha : a.natAbs ≤ 2 ^ 53) (hb : b.natAbs ≤ 2 ^ 53)
    (h : (-ofRat a == -ofRat b) = true) : a = b := by
  obtain ⟨m, j, hm, hp⟩ := place_neg_ofRat ha
  obtain ⟨m', j', hm', hp'⟩ := place_neg_ofRat hb
  rw [beq_iff (by rw [isNaN_neg, isNaN_ofRat]) (by rw [isNaN_neg, isNaN_ofRat]), hp, hp'] at h
  simp only [toLex_inj, Prod.mk.injEq, neg_inj] at h
  obtain ⟨hsign, hj, hmm⟩ := h
  rw [hsign] at hj hmm
  by_cases hb0 : b = 0
  · subst hb0
    simpa using hsign
  · have hs : -b.sign ≠ 0 := by simpa using hb0
    have hjj : j = j' := by
      have := mul_left_cancel₀ hs hj
      omega
    have hmm' : m = m' := by exact_mod_cast mul_left_cancel₀ hs hmm
    have habs : a.natAbs = b.natAbs := by
      refine Nat.eq_of_mul_eq_mul_right (show 0 < 2 ^ 52 by decide) ?_
      rw [← hm, ← hm', hmm', hjj]
    rw [← Int.sign_mul_natAbs a, ← Int.sign_mul_natAbs b, hsign, habs]

theorem isFinite_ofRat_intCast {n : ℤ} (hle : n.natAbs ≤ 2 ^ 53) :
    (ofRat n).isFinite = true := by
  by_cases hn : n = 0
  · subst hn
    decide
  · obtain ⟨m, j, hm, -, -, hx⟩ := unpacked_ofRat_intCast hn hle
    change (unpacked (ofRat n)).isFinite = true
    rw [hx]
    rfl

theorem one_eq_ofRat : (1 : Float) = ofRat (1 : ℤ) := by decide

/-! ## Sums -/

/-- Adding finite doubles never leads to a not-a-number. -/
theorem isNaN_add {x y : Float} (hx : x.isNaN = false) (hy : y.isFinite = true) :
    (x + y).isNaN = false := by
  have hround : ∀ s m e, (UnpackedFloat.round Format.binary64 s m e).isNaN = false := by
    intro s m e
    unfold UnpackedFloat.round UnpackedFloat.roundWithAccuracy
    simp only
    split <;> rfl
  change (Float.Model.pack
    (UnpackedFloat.add Format.binary64 (unpacked x) (unpacked y))).unpack.isNaN = _
  have hx' : (unpacked x).isNaN = false := hx
  have hy' : (unpacked y).isFinite = true := hy
  rw [isNaN_unpack_pack]
  generalize unpacked x = u at hx'
  generalize unpacked y = v at hy'
  rcases u with s | _ | s | ⟨s, m, e, h⟩
  case notANumber => cases hx'
  all_goals rcases v with s' | _ | s' | ⟨s', m', e', h'⟩
  all_goals first
    | (cases hy'; done)
    | rfl
    | skip
  · cases s <;> cases s' <;> rfl
  · unfold UnpackedFloat.add UnpackedFloat.normalize
    simp only
    split
    · exact hround _ _ _
    · rfl
    · exact hround _ _ _

end SymbolicAlgebra.Double
