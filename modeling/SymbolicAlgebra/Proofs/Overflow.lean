import SymbolicAlgebra.Proofs.Representation

/-!
# Proofs/Overflow — which numbers have a double

Doubles end below the *overflow threshold*, the middle between the greatest double and the next
power of two.  A ratio below it has a finite nearest double, one from there on rounds to the infinity
of its sign (`isFinite_ofRatio`, `ofRatio_eq_signedInfinity`), and so does a decimal.
-/

namespace SymbolicAlgebra

namespace Double

open Float.Model Float.Model.UnpackedFloat

/-- The middle between the greatest double and the next power of two. -/
def overflowThreshold : ℕ := 2 ^ 1024 - 2 ^ 970

theorem overflowThreshold_eq : overflowThreshold = (2 * (2 ^ 53 - 1) + 1) * 2 ^ 970 := by
  rw [overflowThreshold, show 2 * (2 ^ 53 - 1) + 1 = 2 ^ 54 - 1 from rfl, Nat.sub_mul, one_mul,
    ← pow_add]

theorem overflowThreshold_le : overflowThreshold ≤ 2 ^ 1024 := Nat.sub_le _ _

/-! ## Finite and infinite bit patterns -/

theorem isFinite_unpack (b : BitVec 64) :
    (UnpackedFloat.unpack Format.binary64 b).isFinite = true ↔
      (@unpackExponent Format.binary64 b).toNat ≠ 2047 := by
  rcases unpack_cases b with ⟨he, ⟨-, hu⟩ | ⟨-, hu⟩⟩ | ⟨he, ⟨-, hu⟩ | ⟨_, hu⟩⟩ | ⟨-, he, _, hu⟩ <;>
    rw [hu] <;> simp [UnpackedFloat.isFinite, he]

/-- Bits that encode a number are kept. -/
theorem unpacked_encode (negative : Bool) {m : ℕ} (q : ℤ) (hm : m < 2 ^ 53) :
    unpacked (encode negative m q) = UnpackedFloat.unpack Format.binary64
      (UInt64.ofNat ((if negative then 2 ^ 63 else 0) + magnitudeBits m q)).toBitVec := by
  have hnan := isNaN_encode negative q hm
  rw [encode_eq, isNaN_ofBits, ← Bool.not_eq_true, isNaN_unpack] at hnan
  rw [encode_eq]
  change UnpackedFloat.unpack Format.binary64 (UnpackedFloat.pack Format.binary64
    (UnpackedFloat.unpack Format.binary64 _)) = _
  rw [pack_unpack _ (by decide), if_neg]
  simpa [isNaNBits] using hnan

theorem isFinite_encode (negative : Bool) {m : ℕ} {q : ℤ} (hm : m < 2 ^ 53) (hq : q ≤ 971) :
    (encode negative m q).isFinite = true := by
  change (unpacked _).isFinite = true
  rw [unpacked_encode negative q hm, isFinite_unpack, toNat_unpackExponent]
  have hbits : magnitudeBits m q < 2047 * 2 ^ 52 := by
    unfold magnitudeBits
    split
    next => omega
    next =>
      rw [if_neg (by omega)]
      omega
  rw [toNat_signed (by omega)]
  split <;> omega

/-- Above the range of the exponent, the magnitude does not matter. -/
theorem encode_eq_signedInfinity (negative : Bool) {m : ℕ} {q : ℤ} (hm : 2 ^ 52 ≤ m)
    (hq : 972 ≤ q) : encode negative m q = signedInfinity negative := by
  have hbits : ∀ {m : ℕ} {q : ℤ}, 2 ^ 52 ≤ m → 972 ≤ q → magnitudeBits m q = 2047 * 2 ^ 52 := by
    intro m q hm hq
    rw [magnitudeBits, if_neg (by omega), if_pos (by omega)]
  rw [signedInfinity, encode_eq, encode_eq, hbits hm hq, hbits (by norm_num) le_rfl]

theorem unpacked_signedInfinity (negative : Bool) :
    unpacked (signedInfinity negative) = .infinity (signOf negative) := by
  cases negative <;> rfl

/-! ## Ratios -/

theorem le_divHalfEven (n d : ℕ) : n / d ≤ divHalfEven n d := by
  unfold divHalfEven
  simp only
  split
  next => exact le_rfl
  next =>
    split
    next => omega
    next => split <;> omega

/-- A quotient just below an even number rounds to it from the middle on. -/
theorem divHalfEven_eq_iff {n d k : ℕ} (hd : 0 < d) (hk : k % 2 = 1) (hle : k * d ≤ n)
    (hlt : n < (k + 1) * d) : divHalfEven n d = k + 1 ↔ (2 * k + 1) * d ≤ 2 * n := by
  have hdiv : n / d = k := by
    rw [Nat.div_eq_iff hd]
    have : (k + 1) * d = k * d + d := by ring
    omega
  have hmod : n = k * d + n % d := by
    have := Nat.div_add_mod n d
    rw [hdiv] at this
    linarith [mul_comm d k]
  have hmiddle : (2 * k + 1) * d = 2 * (k * d) + d := by ring
  unfold divHalfEven
  simp only [hdiv]
  split
  next h => exact iff_of_false (by omega) (by omega)
  next h =>
    split
    next => exact iff_of_true rfl (by omega)
    next =>
      rw [if_neg (by omega)]
      exact iff_of_true rfl (by omega)

/-- The exponent at which the quotient of a ratio has 53 or 54 bits, unless it is very small. -/
def leastExponent (n d : ℕ) : ℤ := max ((n.log2 : ℤ) - d.log2 - 53) (-1074)

/-- The significand is rounded one place higher if the quotient has 54 bits. -/
theorem ofRatio_eq_encode (negative : Bool) {n d : ℕ} (hn : n ≠ 0) (hd : d ≠ 0) {q : ℤ}
    (hq : q = if 2 ^ 53 ≤ n * 2 ^ (-leastExponent n d).toNat / (d * 2 ^ (leastExponent n d).toNat)
      then leastExponent n d + 1 else leastExponent n d) :
    ofRatio negative n d = if significand n d q = 2 ^ 53 then encode negative (2 ^ 52) (q + 1)
      else encode negative (significand n d q) q := by
  unfold ofRatio
  rw [if_neg (by simp [hn, hd])]
  subst hq
  rfl

theorem significand_natCast (n d k : ℕ) : significand n d k = divHalfEven n (d * 2 ^ k) := by
  have hneg : (-(k : ℤ)).toNat = 0 := by omega
  rw [significand, hneg, pow_zero, mul_one, Int.toNat_natCast]

theorem log2_le_of_lt {n d k : ℕ} (hn : n ≠ 0) (h : n < 2 ^ k * d) : n.log2 ≤ d.log2 + k := by
  have hlt : 2 ^ n.log2 < 2 ^ (d.log2 + k + 1) := calc
    2 ^ n.log2 ≤ n := Nat.log2_self_le hn
    _ < 2 ^ k * d := h
    _ ≤ 2 ^ k * 2 ^ (d.log2 + 1) := Nat.mul_le_mul_left _ Nat.lt_log2_self.le
    _ = 2 ^ (d.log2 + k + 1) := by ring
  have := (Nat.pow_lt_pow_iff_right (by decide)).1 hlt
  omega

theorem le_log2_of_le {n d k : ℕ} (hd : d ≠ 0) (h : 2 ^ k * d ≤ n) : d.log2 + k ≤ n.log2 := by
  have hlt : 2 ^ (d.log2 + k) < 2 ^ (n.log2 + 1) := calc
    2 ^ (d.log2 + k) = 2 ^ k * 2 ^ d.log2 := by ring
    _ ≤ 2 ^ k * d := Nat.mul_le_mul_left _ (Nat.log2_self_le hd)
    _ ≤ n := h
    _ < 2 ^ (n.log2 + 1) := Nat.lt_log2_self
  have := (Nat.pow_lt_pow_iff_right (by decide)).1 hlt
  omega

variable {n d : ℕ} (negative : Bool)

theorem div_lt_two_pow {i j k : ℕ} (h : n < 2 ^ i * d) (hi : i = j + k) :
    n / (d * 2 ^ k) < 2 ^ j := by
  refine Nat.div_lt_of_lt_mul ?_
  rwa [mul_assoc, ← pow_add, mul_comm, Nat.add_comm, ← hi]

theorem two_pow_le_div {i j k : ℕ} (hd : d ≠ 0) (h : 2 ^ i * d ≤ n) (hi : i = j + k) :
    2 ^ j ≤ n / (d * 2 ^ k) := by
  rwa [Nat.le_div_iff_mul_le (by positivity), mul_left_comm, ← pow_add, mul_comm, ← hi]

/-- Ratios of the size of the greatest doubles are rounded at their exponent. -/
theorem ofRatio_of_greatest (hd : d ≠ 0) (hle : 2 ^ 1023 * d ≤ n) (hlt : n < 2 ^ 1024 * d) :
    ofRatio negative n d =
      if divHalfEven n (d * 2 ^ 971) = 2 ^ 53 then encode negative (2 ^ 52) 972
      else encode negative (divHalfEven n (d * 2 ^ 971)) 971 := by
  have hn : n ≠ 0 := by
    rintro rfl
    exact absurd (Nat.le_zero.1 hle) (Nat.mul_ne_zero (by positivity) hd)
  have hlog := log2_le_of_lt (k := 1024) hn hlt
  have hlog' := le_log2_of_le hd hle
  have h971 : n / (d * 2 ^ 971) < 2 ^ 53 := div_lt_two_pow hlt rfl
  have h970 : 2 ^ 53 ≤ n / (d * 2 ^ 970) := two_pow_le_div hd hle rfl
  rw [ofRatio_eq_encode negative hn hd (q := (971 : ℕ)), significand_natCast]
  · rfl
  · obtain h | h : leastExponent n d = (970 : ℕ) ∨ leastExponent n d = (971 : ℕ) := by
      unfold leastExponent
      omega
    · rw [h, if_pos]
      · rfl
      · simpa using h970
    · rw [h, if_neg]
      simpa using h971

/-- A quotient of at most 53 bits rounds to the next power of two from the middle on. -/
theorem divHalfEven_eq_two_pow_iff {t : ℕ} (ht : 0 < t) (hlt : n < 2 ^ 53 * (2 * t)) :
    divHalfEven n (2 * t) = 2 ^ 53 ↔ (2 * (2 ^ 53 - 1) + 1) * t ≤ n := by
  by_cases h : (2 ^ 53 - 1) * (2 * t) ≤ n
  · refine (divHalfEven_eq_iff (k := 2 ^ 53 - 1) (by omega) (by decide) h (by omega)).trans ?_
    omega
  · have hquotient : n / (2 * t) < 2 ^ 53 - 1 := (Nat.div_lt_iff_lt_mul (by omega)).2 (by omega)
    have := divHalfEven_le (n := n) (d := 2 * t)
    omega

theorem divHalfEven_eq_iff_overflowThreshold_le (hd : d ≠ 0) (hlt : n < 2 ^ 1024 * d) :
    divHalfEven n (d * 2 ^ 971) = 2 ^ 53 ↔ overflowThreshold * d ≤ n := by
  have hdouble : d * 2 ^ 971 = 2 * (d * 2 ^ 970) := by
    rw [show (971 : ℕ) = 970 + 1 from rfl, pow_succ, ← mul_assoc, mul_comm _ 2]
  have hquotient : n < 2 ^ 53 * (d * 2 ^ 971) := by
    rw [mul_left_comm, ← pow_add, mul_comm]
    exact hlt
  rw [hdouble] at hquotient ⊢
  rw [divHalfEven_eq_two_pow_iff (by positivity) hquotient, overflowThreshold_eq, mul_assoc,
    mul_comm d]

/-- **Below the threshold, the nearest double of a ratio is finite.** -/
theorem isFinite_ofRatio (hd : d ≠ 0) (h : n < overflowThreshold * d) :
    (ofRatio negative n d).isFinite = true := by
  by_cases hn : n = 0
  · subst hn
    exact isFinite_encode negative (by decide) (by decide)
  by_cases hsmall : n < 2 ^ 1023 * d
  · have hlog := log2_le_of_lt (k := 1023) hn hsmall
    obtain ⟨q, hq, heq⟩ := ofRatio_eq negative hn hd
    have hquotient : n * 2 ^ (-q).toNat / (d * 2 ^ q.toNat) < 2 ^ 53 := by
      rcases hq with hq | hq
      · exact scaled_lt hd (by omega)
      · exact hq.2
    have hle : significand n d q ≤ 2 ^ 53 := divHalfEven_le.trans hquotient
    rw [heq]
    split
    next hs =>
      refine isFinite_encode negative (by decide) ?_
      -- at the greatest exponent, the quotient has one bit less
      rcases (show q < 971 ∨ q = (971 : ℕ) by omega) with hlt | rfl
      · omega
      · rw [significand_natCast] at hs
        have hbits : n / (d * 2 ^ 971) < 2 ^ 52 := div_lt_two_pow hsmall rfl
        have := divHalfEven_le (n := n) (d := d * 2 ^ 971)
        omega
    next hs => exact isFinite_encode negative (lt_of_le_of_ne hle hs) (by omega)
  · rw [not_lt] at hsmall
    have hlt : n < 2 ^ 1024 * d := h.trans_le (Nat.mul_le_mul_right d overflowThreshold_le)
    have hround : divHalfEven n (d * 2 ^ 971) ≠ 2 ^ 53 := fun h' =>
      absurd ((divHalfEven_eq_iff_overflowThreshold_le hd hlt).1 h') (not_le.2 h)
    have hquotient : n / (d * 2 ^ 971) < 2 ^ 53 := div_lt_two_pow hlt rfl
    rw [ofRatio_of_greatest negative hd hsmall hlt, if_neg hround]
    exact isFinite_encode negative
      (lt_of_le_of_ne (divHalfEven_le.trans hquotient) hround) le_rfl

/-- From the next power of two on, ratios are beyond the range of the exponent. -/
theorem ofRatio_of_large (hd : d ≠ 0) (hle : 2 ^ 1024 * d ≤ n) :
    ofRatio negative n d = signedInfinity negative := by
  have hn : n ≠ 0 := by
    rintro rfl
    exact absurd (Nat.le_zero.1 hle) (Nat.mul_ne_zero (by positivity) hd)
  have hlog := le_log2_of_le hd hle
  -- the exponent is the natural number by which the quotient has 53 or 54 bits
  obtain ⟨k, hk, hk'⟩ : ∃ k : ℕ, leastExponent n d = k ∧ n.log2 = d.log2 + 53 + k :=
    ⟨n.log2 - d.log2 - 53, by unfold leastExponent; omega, by omega⟩
  have hfits : 2 ^ 52 * (d * 2 ^ k) ≤ n := calc
    2 ^ 52 * (d * 2 ^ k) ≤ 2 ^ 52 * (2 ^ (d.log2 + 1) * 2 ^ k) := by
      gcongr
      exact Nat.lt_log2_self.le
    _ = 2 ^ n.log2 := by rw [hk']; ring
    _ ≤ n := Nat.log2_self_le hn
  obtain ⟨l, hl, hq, hsig⟩ : ∃ l : ℕ, 972 ≤ l ∧
      (l : ℤ) = (if 2 ^ 53 ≤ n * 2 ^ (-leastExponent n d).toNat /
        (d * 2 ^ (leastExponent n d).toNat) then leastExponent n d + 1 else leastExponent n d) ∧
      2 ^ 52 * (d * 2 ^ l) ≤ n := by
    have hneg : (-(k : ℤ)).toNat = 0 := by omega
    simp only [hk, hneg, pow_zero, mul_one, Int.toNat_natCast]
    have hpos : 0 < d * 2 ^ k := by positivity
    split
    next h =>
      refine ⟨k + 1, by omega, by simp, ?_⟩
      rw [Nat.le_div_iff_mul_le hpos] at h
      calc 2 ^ 52 * (d * 2 ^ (k + 1)) = 2 ^ 53 * (d * 2 ^ k) := by ring
        _ ≤ n := h
    next h =>
      refine ⟨k, ?_, rfl, hfits⟩
      by_contra hlt
      obtain rfl : k = 971 := by omega
      exact h (two_pow_le_div hd hle rfl)
  have hle' : 2 ^ 52 ≤ divHalfEven n (d * 2 ^ l) :=
    ((Nat.le_div_iff_mul_le (by positivity)).2 hsig).trans (le_divHalfEven _ _)
  rw [ofRatio_eq_encode negative hn hd hq, significand_natCast]
  split
  next => exact encode_eq_signedInfinity negative le_rfl (by omega)
  next => exact encode_eq_signedInfinity negative hle' (by omega)

/-- **From the threshold on, the nearest double of a ratio is infinite.** -/
theorem ofRatio_eq_signedInfinity (hd : d ≠ 0) (h : overflowThreshold * d ≤ n) :
    ofRatio negative n d = signedInfinity negative := by
  by_cases hlt : n < 2 ^ 1024 * d
  · have hle : 2 ^ 1023 * d ≤ n := by
      refine le_trans (Nat.mul_le_mul_right d ?_) h
      rw [overflowThreshold_eq, show (1023 : ℕ) = 53 + 970 from rfl, pow_add]
      gcongr
      decide
    rw [ofRatio_of_greatest negative hd hle hlt,
      if_pos ((divHalfEven_eq_iff_overflowThreshold_le hd hlt).2 h)]
    exact encode_eq_signedInfinity negative le_rfl le_rfl
  · exact ofRatio_of_large negative hd (not_lt.1 hlt)

/-! ## Values -/

/-- The range of a value: below the threshold its double is finite, and infinite elsewhere. -/
inductive HasDouble (q : ℚ) (x : Float) : Prop
  | inside (hlt : |q| < overflowThreshold) (h : x.isFinite = true)
  | above (hle : (overflowThreshold : ℚ) ≤ q) (h : x = signedInfinity false)
  | below (hle : q ≤ -(overflowThreshold : ℚ)) (h : x = signedInfinity true)

theorem HasDouble.of_le {q : ℚ} (hle : (overflowThreshold : ℚ) ≤ |q|)
    (hsign : q = if negative then -|q| else |q|) : HasDouble q (signedInfinity negative) := by
  cases negative with
  | false => exact .above (hle.trans_eq hsign.symm) rfl
  | true => exact .below (hsign.trans_le (neg_le_neg hle)) rfl

theorem hasDouble_ofRatio {q : ℚ} (hd : d ≠ 0) (hsize : |q| = n / d)
    (hsign : q = if negative then -|q| else |q|) : HasDouble q (ofRatio negative n d) := by
  have hpos : (0 : ℚ) < d := by positivity
  by_cases h : n < overflowThreshold * d
  · refine .inside ?_ (isFinite_ofRatio negative hd h)
    rw [hsize, div_lt_iff₀ hpos]
    exact_mod_cast h
  · have hle : (overflowThreshold : ℚ) ≤ |q| := by
      rw [hsize, le_div_iff₀ hpos]
      exact_mod_cast not_lt.1 h
    rw [ofRatio_eq_signedInfinity negative hd (not_lt.1 h)]
    exact .of_le negative hle hsign

theorem hasDouble_ofRat (q : ℚ) : HasDouble q (ofRat q) := by
  refine hasDouble_ofRatio _ q.den_nz ?_ ?_
  · conv_lhs => rw [← Rat.num_div_den q]
    rw [abs_div, Nat.abs_cast, Nat.cast_natAbs, Int.cast_abs]
  · by_cases h : q.num < 0
    · simp [h, abs_of_neg (Rat.num_neg.1 h)]
    · simp [h, abs_of_nonneg (Rat.num_nonneg.1 (not_lt.1 h))]

/-- Multiples of powers, as integers and as quotients. -/
theorem scaled_eq (n e : ℤ) {b : ℕ} (hb : b ≠ 0) :
    (if 0 ≤ e then ((n * (Nat.pow b e.toNat : ℕ) : ℤ) : ℚ) else mkRat n (Nat.pow b (-e).toNat)) =
      n * (b : ℚ) ^ e := by
  have hpow : (b : ℚ) ≠ 0 := Nat.cast_ne_zero.2 hb
  split
  next h =>
    obtain ⟨k, rfl⟩ := Int.eq_ofNat_of_zero_le h
    simp
  next h =>
    obtain ⟨k, hk⟩ := Int.eq_ofNat_of_zero_le (show 0 ≤ -e by omega)
    obtain rfl : e = -k := by omega
    rw [Rat.mkRat_eq_div, neg_neg, Int.toNat_natCast, zpow_neg, zpow_natCast, div_eq_mul_inv,
      Nat.pow_eq]
    push_cast
    rfl

theorem abs_signed (negative : Bool) (m : ℕ) : |(Decimal.signed negative m : ℚ)| = m := by
  cases negative <;> simp [Decimal.signed]

/-- A finite double has a significand of 53 bits and an exponent in the range. -/
theorem decode_bounds {x : Float} (h : x.isFinite = true) :
    (decode x).1 < 2 ^ 53 ∧ (decode x).2 ≤ 971 := by
  change (UnpackedFloat.unpack Format.binary64 x.toBits.toBitVec).isFinite = true at h
  rw [isFinite_unpack, toNat_unpackExponent] at h
  change x.toBits.toNat / 2 ^ 52 % 2 ^ 11 ≠ 2047 at h
  have hlt := x.toBits.toNat_lt
  unfold decode
  simp only [Nat.pow_eq]
  split
  next => exact ⟨by omega, by omega⟩
  next => exact ⟨by omega, by omega⟩

/-- A finite double is its own nearest double. -/
theorem hasDouble_toRat {x : Float} (h : x.isFinite = true) : HasDouble (toRat x) x := by
  obtain ⟨hm, hq⟩ := decode_bounds h
  refine .inside ?_ h
  rw [toRat, if_pos (show isFinite x = true from h), binary, scaled_eq _ _ (by decide), abs_mul, abs_signed, abs_zpow,
    Nat.abs_cast]
  calc ((decode x).1 : ℚ) * 2 ^ (decode x).2 ≤ ((2 ^ 53 - 1 : ℕ) : ℚ) * 2 ^ (971 : ℤ) := by
        gcongr
        · exact Nat.le_pred_of_lt hm
        · norm_num
    _ < ((2 * (2 ^ 53 - 1) + 1 : ℕ) : ℚ) * 2 ^ (970 : ℤ) := by
        rw [show (971 : ℤ) = 970 + 1 from rfl, zpow_add_one₀ two_ne_zero, mul_comm _ (2 : ℚ),
          ← mul_assoc]
        refine mul_lt_mul_of_pos_right ?_ (by positivity)
        norm_num
    _ = overflowThreshold := by
        rw [overflowThreshold_eq]
        push_cast
        rfl

end Double

/-! ## Decimals -/

theorem countDigits_pos (n : ℕ) : 0 < countDigits n := by
  unfold countDigits
  split <;> omega

theorem countDigits_bounds (n : ℕ) :
    n < 10 ^ countDigits n ∧ (n ≠ 0 → 10 ^ (countDigits n - 1) ≤ n) := by
  induction n using countDigits.induct with
  | case1 n h =>
    rw [countDigits, if_pos h]
    exact ⟨by omega, fun hn => by omega⟩
  | case2 n h ih =>
    obtain ⟨k, hk⟩ := Nat.exists_eq_succ_of_ne_zero (countDigits_pos (n / 10)).ne'
    rw [hk] at ih
    rw [countDigits, if_neg h, hk]
    have hle := ih.2 (by omega)
    have hlt := ih.1
    rw [Nat.succ_sub_one] at hle
    exact ⟨by rw [pow_succ]; omega, fun _ => by rw [Nat.add_sub_cancel, pow_succ]; omega⟩

/-- The digits skipped by the binary logarithm are there: `10 ^ 59 ≤ 2 ^ 196`. -/
theorem ten_pow_le_two_pow (l : ℕ) : 10 ^ (l * 30102 / 100000) ≤ 2 ^ l := by
  have hk : 196 * (l * 30102 / 100000) ≤ 59 * l := by omega
  refine le_of_pow_le_pow_left₀ (n := 196) (by decide) (by positivity) ?_
  calc (10 ^ (l * 30102 / 100000)) ^ 196 = 10 ^ (196 * (l * 30102 / 100000)) := by
        rw [← pow_mul, mul_comm]
    _ ≤ 10 ^ (59 * l) := Nat.pow_le_pow_right (by decide) hk
    _ = (10 ^ 59) ^ l := pow_mul 10 59 l
    _ ≤ (2 ^ 196) ^ l := Nat.pow_le_pow_left (by norm_num) l
    _ = (2 ^ l) ^ 196 := by rw [← pow_mul, ← pow_mul, mul_comm]

/-- **A number that is not zero has as many digits as are counted.** -/
theorem digitCount_bounds {n : ℕ} (hn : n ≠ 0) :
    10 ^ (digitCount n - 1) ≤ n ∧ n < 10 ^ digitCount n := by
  have hskip : 10 ^ (n.log2 * 30102 / 100000) ≤ n :=
    (ten_pow_le_two_pow n.log2).trans (Nat.log2_self_le hn)
  unfold digitCount
  simp only [Nat.pow_eq]
  generalize n.log2 * 30102 / 100000 = s at hskip ⊢
  have hpos : 0 < 10 ^ s := by positivity
  obtain ⟨hlt, hle⟩ := countDigits_bounds (n / 10 ^ s)
  have hle := hle (Nat.div_pos hskip hpos).ne'
  have hcount := countDigits_pos (n / 10 ^ s)
  constructor
  · rw [Nat.add_sub_assoc hcount, pow_add, mul_comm]
    exact (Nat.le_div_iff_mul_le hpos).1 hle
  · rw [pow_add, mul_comm]
    exact (Nat.div_lt_iff_lt_mul hpos).1 hlt

namespace Decimal

theorem abs_toRat (negative : Bool) (c : ℕ) (e : ℤ) :
    |toRat (.finite negative c e)| = c * (10 : ℚ) ^ e := by
  rw [toRat, scale, Double.scaled_eq _ _ (by decide), abs_mul, Double.abs_signed, abs_zpow,
    Nat.abs_cast]
  rfl

theorem toRat_eq_abs (negative : Bool) (c : ℕ) (e : ℤ) :
    toRat (.finite negative c e) =
      if negative then -|toRat (.finite negative c e)| else |toRat (.finite negative c e)| := by
  rw [abs_toRat, toRat, scale, Double.scaled_eq _ _ (by decide)]
  cases negative <;> simp [signed]

/-- The leading digit bounds a decimal. -/
theorem abs_toRat_bounds (negative : Bool) {c : ℕ} (hc : c ≠ 0) (e : ℤ) :
    (10 : ℚ) ^ (e + digitCount c - 1) ≤ |toRat (.finite negative c e)| ∧
      |toRat (.finite negative c e)| < 10 ^ (e + digitCount c) := by
  obtain ⟨hle, hlt⟩ := digitCount_bounds hc
  have hpos : 0 < digitCount c := by
    by_contra h
    rw [Nat.eq_zero_of_not_pos h] at hlt
    omega
  have hpow : (0 : ℚ) < 10 ^ e := by positivity
  rw [abs_toRat]
  constructor
  · rw [show e + (digitCount c : ℤ) - 1 = ((digitCount c - 1 : ℕ) : ℤ) + e by omega,
      zpow_add₀ (by norm_num), zpow_natCast]
    exact mul_le_mul_of_nonneg_right (by exact_mod_cast hle) hpow.le
  · rw [add_comm, zpow_add₀ (by norm_num), zpow_natCast]
    exact mul_lt_mul_of_pos_right (by exact_mod_cast hlt) hpow

theorem overflowThreshold_le_ten_pow :
    (Double.overflowThreshold : ℚ) ≤ 10 ^ (400 : ℤ) := by
  have h : (2 : ℕ) ^ 1024 ≤ 10 ^ 400 := calc
    2 ^ 1024 ≤ 2 ^ 1200 := Nat.pow_le_pow_right (by decide) (by decide)
    _ = 8 ^ 400 := pow_mul 2 3 400
    _ ≤ 10 ^ 400 := Nat.pow_le_pow_left (by decide) 400
  exact_mod_cast Double.overflowThreshold_le.trans h

theorem one_le_overflowThreshold : (1 : ℚ) ≤ Double.overflowThreshold := by
  rw [Double.overflowThreshold_eq]
  exact_mod_cast Nat.mul_pos (by decide) (by positivity)

/-- The nearest double of a finite decimal. -/
theorem hasDouble {d : Decimal} (h : d.isFinite = true) :
    Double.HasDouble d.toRat (Double.ofDecimal d) := by
  rcases d with ⟨s, c, e⟩ | s | ⟨s, n⟩
  case infinite | nan => cases h
  have hsign := toRat_eq_abs s c e
  have hzero : |toRat (.finite s c e)| < 1 →
      Double.HasDouble (toRat (.finite s c e)) (Double.zero s) := fun hlt =>
    .inside (hlt.trans_le one_le_overflowThreshold)
      (Double.isFinite_encode s (by decide) (by decide))
  unfold Double.ofDecimal
  simp only
  split
  next hc =>
    refine hzero ?_
    rw [abs_toRat, hc]
    norm_num
  next hc =>
    obtain ⟨hle, hlt⟩ := abs_toRat_bounds s hc e
    split
    next htop =>
      have hlarge : (Double.overflowThreshold : ℚ) ≤ |toRat (.finite s c e)| := calc
        (Double.overflowThreshold : ℚ) ≤ 10 ^ (400 : ℤ) := overflowThreshold_le_ten_pow
        _ ≤ 10 ^ (e + digitCount c - 1) := zpow_le_zpow_right₀ (by norm_num) (by omega)
        _ ≤ _ := hle
      exact .of_le s hlarge hsign
    next =>
      split
      next htop =>
        refine hzero (hlt.trans_le ?_)
        exact zpow_le_one_of_nonpos₀ (by norm_num) (by omega)
      next =>
        refine Double.hasDouble_ofRatio s (pow_ne_zero _ (by decide)) ?_ hsign
        rw [abs_toRat]
        rcases le_total 0 e with he | he
        · obtain ⟨k, rfl⟩ := Int.eq_ofNat_of_zero_le he
          simp
        · obtain ⟨k, hk⟩ := Int.eq_ofNat_of_zero_le (Int.neg_nonneg_of_nonpos he)
          obtain rfl : e = -k := by omega
          simp [div_eq_mul_inv]

end Decimal

end SymbolicAlgebra
