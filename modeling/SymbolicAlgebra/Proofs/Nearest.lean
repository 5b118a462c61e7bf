import SymbolicAlgebra.Proofs.ExtendedOrder

/-!
# Proofs/Nearest — the interval of the numbers that round to a double

A significand of at most 53 bits and an exponent are *placed* when the significand has all 53 bits or the
exponent is the least.  The numbers that round to `m · 2 ^ q` are an interval around it, with its ends
exactly when `m` is even (`RoundsTo`).  Every ratio lies in one of these intervals (`exists_roundsTo`) and
in no other (`RoundsTo.unique`); so whatever lies in the interval of a double has that double as its
nearest (`RoundsTo.ofRatio_eq`, `RoundsTo.ofRatio_decode`).
-/

namespace SymbolicAlgebra

namespace Double

open Float.Model Float.Model.UnpackedFloat

/-! ## Rounding intervals -/

/-- Significand and exponent of a double: each magnitude in one way. -/
structure IsPlaced (m : ℕ) (q : ℤ) : Prop where
  lt : m < 2 ^ 53
  exponent_ge : -1074 ≤ q
  full : q = -1074 ∨ 2 ^ 52 ≤ m

/-- How far an interval reaches down, in quarters of a unit: below a power of two, doubles are twice as
dense. -/
def reach (m : ℕ) (q : ℤ) : ℕ := if m = 2 ^ 52 ∧ -1074 < q then 1 else 2

/-- The lower end of the interval of `m · 2 ^ q`. -/
def lowerEnd (m : ℕ) (q : ℤ) : ℚ := (4 * m - reach m q) * 2 ^ (q - 2)

/-- The upper end of the interval of `m · 2 ^ q`. -/
def upperEnd (m : ℕ) (q : ℤ) : ℚ := (4 * m + 2) * 2 ^ (q - 2)

/-- The number rounds to `m · 2 ^ q`; an end of the interval does when `m` is even. -/
structure RoundsTo (v : ℚ) (m : ℕ) (q : ℤ) : Prop where
  lower_le : lowerEnd m q ≤ v
  le_upper : v ≤ upperEnd m q
  odd : m % 2 = 1 → lowerEnd m q ≠ v ∧ v ≠ upperEnd m q

theorem reach_le (m : ℕ) (q : ℤ) : reach m q ≤ 2 := by
  unfold reach
  split <;> omega

variable {m m' : ℕ} {q q' : ℤ} {v : ℚ}

/-- Of two magnitudes with one exponent, the interval of the lesser ends first. -/
theorem upper_le_lower_of_lt (hlt : m < m') :
    upperEnd m q ≤ lowerEnd m' q ∧ (upperEnd m q = lowerEnd m' q → m % 2 = 1 ∨ m' % 2 = 1) := by
  have hpos : (0 : ℚ) < 2 ^ (q - 2) := by positivity
  have hreach : (reach m' q : ℚ) ≤ 2 := by exact_mod_cast reach_le m' q
  have hle : (m : ℚ) + 1 ≤ m' := by exact_mod_cast hlt
  refine ⟨mul_le_mul_of_nonneg_right (by linarith) hpos.le, fun heq => ?_⟩
  have hends : (4 * m + 2 : ℚ) = 4 * m' - reach m' q := mul_right_cancel₀ hpos.ne' heq
  have hnext : (m' : ℚ) = (m + 1 : ℕ) := by
    push_cast
    linarith
  rw [Nat.cast_inj] at hnext
  omega

/-- Of two magnitudes, the interval of the one with the lesser exponent ends first. -/
theorem upper_le_lower_of_exponent_lt (h : IsPlaced m q) (h' : IsPlaced m' q') (hlt : q < q') :
    upperEnd m q ≤ lowerEnd m' q' ∧ (upperEnd m q = lowerEnd m' q' → m % 2 = 1 ∨ m' % 2 = 1) := by
  have hpos : (0 : ℚ) < 2 ^ (q - 2) := by positivity
  have hdouble : 2 * (2 : ℚ) ^ (q - 2) ≤ 2 ^ (q' - 2) := by
    rw [← zpow_one_add₀ two_ne_zero]
    exact zpow_le_zpow_right₀ one_le_two (by omega)
  have hfull : 2 ^ 52 ≤ m' := h'.full.resolve_left fun hq => by
    have := h.exponent_ge
    omega
  have hgreat : (2 ^ 54 - 1 : ℚ) ≤ 4 * m' - reach m' q' := by
    have hnat : 2 ^ 54 - 1 + reach m' q' ≤ 4 * m' := by
      unfold reach
      have := h.exponent_ge
      split <;> omega
    have hcast : ((2 ^ 54 - 1 + reach m' q' : ℕ) : ℚ) ≤ (4 * m' : ℕ) := Nat.cast_le.2 hnat
    push_cast at hcast
    norm_num at hcast ⊢
    linarith
  have hlower : (2 ^ 55 - 2) * (2 : ℚ) ^ (q - 2) ≤ lowerEnd m' q' := calc
    (2 ^ 55 - 2) * (2 : ℚ) ^ (q - 2) = (2 ^ 54 - 1) * (2 * 2 ^ (q - 2)) := by ring
    _ ≤ (2 ^ 54 - 1) * 2 ^ (q' - 2) := mul_le_mul_of_nonneg_left hdouble (by norm_num)
    _ ≤ lowerEnd m' q' := mul_le_mul_of_nonneg_right hgreat (by positivity)
  have hm : (m : ℚ) ≤ 2 ^ 53 - 1 := by
    have hcast : ((m + 1 : ℕ) : ℚ) ≤ (2 ^ 53 : ℕ) := Nat.cast_le.2 h.lt
    push_cast at hcast
    linarith
  have hupper : upperEnd m q ≤ (2 ^ 55 - 2) * 2 ^ (q - 2) :=
    mul_le_mul_of_nonneg_right (by linarith) hpos.le
  refine ⟨hupper.trans hlower, fun heq => .inl ?_⟩
  have hends : (4 * m + 2 : ℚ) = 2 ^ 55 - 2 :=
    mul_right_cancel₀ hpos.ne' (le_antisymm hupper (hlower.trans_eq heq.symm))
  have hlast : (m : ℚ) = (2 ^ 53 - 1 : ℕ) := by
    norm_num at hends ⊢
    linarith
  rw [Nat.cast_inj] at hlast
  omega

/-- **A number rounds to one double only.** -/
theorem RoundsTo.unique (h : RoundsTo v m q) (h' : RoundsTo v m' q') (hp : IsPlaced m q)
    (hp' : IsPlaced m' q') : m = m' ∧ q = q' := by
  -- an interval that ends where another starts would have a common end of an odd significand
  have hapart : ∀ {m m' : ℕ} {q q' : ℤ}, RoundsTo v m q → RoundsTo v m' q' →
      ¬(upperEnd m q ≤ lowerEnd m' q' ∧ (upperEnd m q = lowerEnd m' q' → m % 2 = 1 ∨ m' % 2 = 1)) := by
    rintro m m' q q' h h' ⟨hle, hodd⟩
    have hends := le_antisymm hle (h'.lower_le.trans h.le_upper)
    rcases hodd hends with hm | hm
    · exact (h.odd hm).2 (le_antisymm h.le_upper (hle.trans h'.lower_le))
    · exact (h'.odd hm).1 (le_antisymm h'.lower_le (h.le_upper.trans hle))
  obtain hq | rfl | hq := lt_trichotomy q q'
  · exact absurd (upper_le_lower_of_exponent_lt hp hp' hq) (hapart h h')
  · obtain hm | rfl | hm := lt_trichotomy m m'
    · exact absurd (upper_le_lower_of_lt hm) (hapart h h')
    · exact ⟨rfl, rfl⟩
    · exact absurd (upper_le_lower_of_lt hm) (hapart h' h)
  · exact absurd (upper_le_lower_of_exponent_lt hp' hp hq) (hapart h' h)

/-! ## Rounding a ratio -/

/-- A quotient is rounded to the nearest number, and a middle to an even one. -/
theorem divHalfEven_spec (n : ℕ) {d : ℕ} (hd : 0 < d) :
    2 * (divHalfEven n d * d) ≤ 2 * n + d ∧ 2 * n ≤ 2 * (divHalfEven n d * d) + d ∧
      (divHalfEven n d % 2 = 1 → 2 * (divHalfEven n d * d) ≠ 2 * n + d ∧
        2 * n ≠ 2 * (divHalfEven n d * d) + d) := by
  have hsplit : n = n / d * d + n % d := (Nat.div_add_mod' n d).symm
  have hrest : n % d < d := Nat.mod_lt n hd
  have hnext : (n / d + 1) * d = n / d * d + d := by ring
  unfold divHalfEven
  simp only
  split
  next => exact ⟨by omega, by omega, fun _ => ⟨by omega, by omega⟩⟩
  next =>
    split
    next => exact ⟨by omega, by omega, fun _ => ⟨by omega, by omega⟩⟩
    next =>
      split
      next => exact ⟨by omega, by omega, fun hodd => absurd hodd (by omega)⟩
      next => exact ⟨by omega, by omega, fun hodd => absurd hodd (by omega)⟩

variable {n d : ℕ}

/-- Scaling numerator and denominator by powers of two scales their quotient. -/
theorem scaled_eq_mul (n : ℕ) (hd : d ≠ 0) (q : ℤ) : ∃ t : ℚ, 0 < t ∧
    ((n * 2 ^ (-q).toNat : ℕ) : ℚ) = n / d * t ∧ ((d * 2 ^ q.toNat : ℕ) : ℚ) = 2 ^ q * t := by
  refine ⟨d * 2 ^ (-q).toNat, by positivity, ?_, ?_⟩
  · have hd' : (d : ℚ) ≠ 0 := Nat.cast_ne_zero.2 hd
    push_cast
    field_simp
  · obtain ⟨k, rfl | rfl⟩ := Int.eq_nat_or_neg q
    · have hneg : (-(k : ℤ)).toNat = 0 := by omega
      simp [hneg, mul_comm]
    · have hneg : (-(k : ℤ)).toNat = 0 := by omega
      rw [neg_neg, Int.toNat_natCast, hneg, zpow_neg, zpow_natCast]
      push_cast
      field_simp

theorem scaled_lt_iff (n : ℕ) (hd : d ≠ 0) (q : ℤ) (k : ℕ) :
    n * 2 ^ (-q).toNat / (d * 2 ^ q.toNat) < k ↔ (n / d : ℚ) < k * 2 ^ q := by
  obtain ⟨t, ht, hn, hd'⟩ := scaled_eq_mul n hd q
  rw [Nat.div_lt_iff_lt_mul (by positivity), ← Nat.cast_lt (α := ℚ), Nat.cast_mul k, hn, hd', ← mul_assoc,
    mul_lt_mul_iff_left₀ ht]

theorem two_zpow_eq (q : ℤ) : (2 : ℚ) ^ q = 4 * 2 ^ (q - 2) := by
  rw [zpow_sub₀ two_ne_zero]
  norm_num
  ring

/-- The rounded significand is within half a unit of the ratio. -/
theorem significand_spec (n : ℕ) (hd : d ≠ 0) (q : ℤ) :
    (4 * significand n d q - 2 : ℚ) * 2 ^ (q - 2) ≤ n / d ∧
      (n / d : ℚ) ≤ upperEnd (significand n d q) q ∧
      (significand n d q % 2 = 1 → (4 * significand n d q - 2 : ℚ) * 2 ^ (q - 2) ≠ n / d ∧
        (n / d : ℚ) ≠ upperEnd (significand n d q) q) := by
  obtain ⟨t, ht, hn, hd'⟩ := scaled_eq_mul n hd q
  have hspec := divHalfEven_spec (n * 2 ^ (-q).toNat) (d := d * 2 ^ q.toNat) (by positivity)
  rw [two_zpow_eq] at hd'
  unfold significand upperEnd
  generalize n * 2 ^ (-q).toNat = N at *
  generalize d * 2 ^ q.toNat = D at *
  generalize divHalfEven N D = k at *
  generalize (n / d : ℚ) = x at *
  obtain ⟨hle, hge, hodd⟩ := hspec
  rw [← Nat.cast_le (α := ℚ)] at hle hge
  push_cast at hle hge
  rw [hn, hd'] at hle hge
  refine ⟨le_of_mul_le_mul_right (by linarith) ht, le_of_mul_le_mul_right (by linarith) ht,
    fun hk => ⟨fun heq => (hodd hk).1 ?_, fun heq => (hodd hk).2 ?_⟩⟩
  · rw [← Nat.cast_inj (R := ℚ)]
    push_cast
    rw [hn, hd', ← heq]
    ring
  · rw [← Nat.cast_inj (R := ℚ)]
    push_cast
    rw [hn, hd', heq]
    ring

/-- The leading bits bound a ratio from below. -/
theorem two_zpow_le_div (hn : n ≠ 0) (hd : d ≠ 0) :
    (2 : ℚ) ^ ((n.log2 : ℤ) - d.log2 - 1) ≤ n / d := by
  have hle : ((2 ^ n.log2 : ℕ) : ℚ) ≤ n := Nat.cast_le.2 (Nat.log2_self_le hn)
  have hlt : (d : ℚ) ≤ (2 ^ (d.log2 + 1) : ℕ) := Nat.cast_le.2 Nat.lt_log2_self.le
  have hpos : (0 : ℚ) < d := by positivity
  rw [show (n.log2 : ℤ) - d.log2 - 1 = n.log2 - (d.log2 + 1 : ℕ) by push_cast; ring,
    zpow_sub₀ two_ne_zero, zpow_natCast, zpow_natCast]
  push_cast at hle hlt
  gcongr

/-- The exponent at which a ratio is rounded is the one of its leading bits. -/
theorem exists_exponent (negative : Bool) (hn : n ≠ 0) (hd : d ≠ 0) : ∃ q : ℤ, -1074 ≤ q ∧
    (n / d : ℚ) < 2 ^ 53 * 2 ^ q ∧ (q = -1074 ∨ 2 ^ 52 * (2 : ℚ) ^ q ≤ n / d) ∧
    ofRatio negative n d = if significand n d q = 2 ^ 53 then encode negative (2 ^ 52) (q + 1)
      else encode negative (significand n d q) q := by
  have hleast : -1074 ≤ leastExponent n d := le_max_right _ _
  refine ⟨_, ?_, ?_, ?_, ofRatio_eq_encode negative hn hd rfl⟩
  · split <;> omega
  · split
    next =>
      have := (scaled_lt_iff n hd (leastExponent n d + 1) (2 ^ 53)).1 (scaled_lt hd (by
        unfold leastExponent
        omega))
      exact_mod_cast this
    next h =>
      have := (scaled_lt_iff n hd (leastExponent n d) (2 ^ 53)).1 (not_le.1 h)
      exact_mod_cast this
  · split
    next h =>
      right
      rw [← not_lt, scaled_lt_iff n hd, not_lt] at h
      rw [zpow_add_one₀ two_ne_zero]
      push_cast at h
      linarith
    next =>
      obtain h | h : leastExponent n d = -1074 ∨
          leastExponent n d = (n.log2 : ℤ) - d.log2 - 53 := by
        unfold leastExponent
        omega
      · exact .inl h
      · right
        have hle := two_zpow_le_div hn hd
        rwa [show (n.log2 : ℤ) - d.log2 - 1 = 52 + leastExponent n d by omega,
          zpow_add₀ two_ne_zero] at hle

/-- A ratio rounds to its significand, at an exponent that leaves it all 53 bits. -/
theorem roundsTo_significand (hd : d ≠ 0) {q : ℤ} (hfull : q = -1074 ∨ 2 ^ 52 * (2 : ℚ) ^ q ≤ n / d) :
    RoundsTo (n / d) (significand n d q) q := by
  obtain ⟨hle, hge, hodd⟩ := significand_spec n hd q
  by_cases h : significand n d q = 2 ^ 52 ∧ -1074 < q
  · have hlower := hfull.resolve_left (by omega)
    refine ⟨?_, hge, fun hk => absurd hk (by rw [h.1]; decide)⟩
    rw [lowerEnd, reach, if_pos h, h.1]
    rw [two_zpow_eq] at hlower
    have hpos : (0 : ℚ) < 2 ^ (q - 2) := by positivity
    push_cast
    linarith
  · have hlower : lowerEnd (significand n d q) q = (4 * significand n d q - 2 : ℚ) * 2 ^ (q - 2) := by
      rw [lowerEnd, reach, if_neg h]
      rfl
    exact ⟨hlower.trans_le hle, hge, by rwa [hlower]⟩

/-- A significand with one bit too many is rounded at the next exponent. -/
theorem roundsTo_carried (hd : d ≠ 0) {q : ℤ} (hq : -1074 ≤ q) (hlt : (n / d : ℚ) < 2 ^ 53 * 2 ^ q)
    (hk : significand n d q = 2 ^ 53) : RoundsTo (n / d) (2 ^ 52) (q + 1) := by
  have hle := (significand_spec n hd q).1
  have hpos : (0 : ℚ) < 2 ^ (q - 2) := by positivity
  have hnext : (2 : ℚ) ^ (q + 1 - 2) = 2 * 2 ^ (q - 2) := by
    rw [← zpow_one_add₀ two_ne_zero]
    congr 1
    ring
  rw [two_zpow_eq] at hlt
  rw [hk] at hle
  push_cast at hle
  refine ⟨?_, ?_, fun h => absurd h (by decide)⟩
  · rw [lowerEnd, reach, if_pos ⟨rfl, by omega⟩, hnext]
    push_cast
    linarith
  · rw [upperEnd, hnext]
    push_cast
    linarith

theorem significand_le (hd : d ≠ 0) {q : ℤ} (hlt : (n / d : ℚ) < 2 ^ 53 * 2 ^ q) :
    significand n d q ≤ 2 ^ 53 := by
  refine divHalfEven_le.trans ((scaled_lt_iff n hd q (2 ^ 53)).2 ?_)
  exact_mod_cast hlt

theorem le_significand (hd : d ≠ 0) {q : ℤ} (hle : 2 ^ 52 * (2 : ℚ) ^ q ≤ n / d) :
    2 ^ 52 ≤ significand n d q := by
  refine le_trans ?_ (le_divHalfEven _ _)
  rw [← not_lt, scaled_lt_iff n hd q (2 ^ 52), not_lt]
  exact_mod_cast hle

/-- **Every ratio rounds to its nearest double.** -/
theorem exists_roundsTo (negative : Bool) (n : ℕ) (hd : d ≠ 0) : ∃ m q, IsPlaced m q ∧
    RoundsTo (n / d) m q ∧ ofRatio negative n d = encode negative m q := by
  by_cases hn : n = 0
  · refine ⟨0, -1074, ⟨by decide, le_rfl, .inl rfl⟩, ⟨?_, ?_, fun h => absurd h (by decide)⟩, ?_⟩
    · rw [hn, lowerEnd, reach]
      norm_num
    · rw [hn, upperEnd]
      norm_num
    · unfold ofRatio
      rw [if_pos (.inl hn)]
      rfl
  obtain ⟨q, hq, hlt, hfull, heq⟩ := exists_exponent negative hn hd
  by_cases hk : significand n d q = 2 ^ 53
  · rw [if_pos hk] at heq
    exact ⟨2 ^ 52, q + 1, ⟨by decide, by omega, .inr le_rfl⟩, roundsTo_carried hd hq hlt hk, heq⟩
  · rw [if_neg hk] at heq
    exact ⟨_, q, ⟨lt_of_le_of_ne (significand_le hd hlt) hk, hq, hfull.imp_right (le_significand hd)⟩,
      roundsTo_significand hd hfull, heq⟩

/-- **A ratio in the interval of a magnitude has it as its nearest double.** -/
theorem RoundsTo.ofRatio_eq (h : RoundsTo (n / d) m q) (hp : IsPlaced m q) (hd : d ≠ 0)
    (negative : Bool) : ofRatio negative n d = encode negative m q := by
  obtain ⟨m', q', hp', h', heq⟩ := exists_roundsTo negative n hd
  obtain ⟨rfl, rfl⟩ := h.unique h' hp hp'
  exact heq

/-! ## Doubles as magnitudes -/

theorem isInf_of_isFinite {x : Float} (h : x.isFinite = true) : x.isInf = false := by
  change (unpacked x).isFinite = true at h
  change (unpacked x).isInf = false
  generalize unpacked x = u at h
  cases u <;> first | rfl | cases h

theorem magnitudeBits_of_lt (q : ℤ) (hm : m < 2 ^ 52) : magnitudeBits m q = m := if_pos hm

theorem magnitudeBits_of_le (hm : 2 ^ 52 ≤ m) (hq : q ≤ 971) :
    magnitudeBits m q = (q + 1075).toNat * 2 ^ 52 + (m - 2 ^ 52) := by
  rw [magnitudeBits, if_neg (by omega), if_neg (by omega)]

theorem decode_of_eq_zero {x : Float} (h : x.toBits.toNat % 2 ^ 63 / 2 ^ 52 = 0) :
    decode x = (x.toBits.toNat % 2 ^ 63 % 2 ^ 52, -1074) := if_pos h

theorem decode_of_ne_zero {x : Float} (h : x.toBits.toNat % 2 ^ 63 / 2 ^ 52 ≠ 0) :
    decode x = (x.toBits.toNat % 2 ^ 63 % 2 ^ 52 + 2 ^ 52,
      ((x.toBits.toNat % 2 ^ 63 / 2 ^ 52 : ℕ) : ℤ) - 1075) := if_neg h

theorem isSigned_iff (x : Float) : isSigned x = true ↔ 2 ^ 63 ≤ x.toBits.toNat := decide_eq_true_iff

/-- The bits of a finite double hold its sign, its exponent and its significand. -/
theorem bits_decode {x : Float} (h : x.isFinite = true) :
    (if isSigned x then 2 ^ 63 else 0) + magnitudeBits (decode x).1 (decode x).2 = x.toBits.toNat := by
  change (UnpackedFloat.unpack Format.binary64 x.toBits.toBitVec).isFinite = true at h
  rw [isFinite_unpack, toNat_unpackExponent] at h
  change x.toBits.toNat / 2 ^ 52 % 2 ^ 11 ≠ 2047 at h
  have hlt := x.toBits.toNat_lt
  have hsign : (if isSigned x then 2 ^ 63 else 0) = x.toBits.toNat / 2 ^ 63 * 2 ^ 63 := by
    simp only [isSigned_iff]
    split <;> omega
  rw [hsign]
  by_cases hfield : x.toBits.toNat % 2 ^ 63 / 2 ^ 52 = 0
  · rw [decode_of_eq_zero hfield, magnitudeBits_of_lt _ (by omega)]
    omega
  · rw [decode_of_ne_zero hfield, magnitudeBits_of_le (by omega) (by omega)]
    omega

/-- **A finite double is what its significand and exponent encode.** -/
theorem encode_decode {x : Float} (h : x.isFinite = true) :
    encode (isSigned x) (decode x).1 (decode x).2 = x := by
  refine eq_of_unpacked ?_
  rw [unpacked_encode _ _ (decode_bounds h).1, bits_decode h, UInt64.ofNat_toNat]
  rfl

theorem isPlaced_decode {x : Float} (h : x.isFinite = true) : IsPlaced (decode x).1 (decode x).2 := by
  refine ⟨(decode_bounds h).1, ?_, ?_⟩ <;> by_cases hfield : x.toBits.toNat % 2 ^ 63 / 2 ^ 52 = 0
  · rw [decode_of_eq_zero hfield]
  · rw [decode_of_ne_zero hfield]
    omega
  · rw [decode_of_eq_zero hfield]
    exact .inl rfl
  · rw [decode_of_ne_zero hfield]
    exact .inr (by omega)

theorem magnitudeBits_lt (q : ℤ) (hm : m < 2 ^ 53) : magnitudeBits m q < 2 ^ 63 := by
  obtain h | ⟨field, fraction, hfield, hfraction, h⟩ := magnitudeBits_cases q hm
  · rw [h]
    decide
  · omega

theorem toNat_encode (negative : Bool) (q : ℤ) (hm : m < 2 ^ 53) :
    (encode negative m q).toBits.toNat = (if negative then 2 ^ 63 else 0) + magnitudeBits m q := by
  have hnan := isNaN_encode negative q hm
  rw [encode_eq, isNaN_ofBits, ← Bool.not_eq_true, isNaN_unpack] at hnan
  rw [encode_eq]
  change (UnpackedFloat.pack Format.binary64 (UnpackedFloat.unpack Format.binary64 _)).toNat = _
  rw [pack_unpack _ (by decide), if_neg (by simpa [isNaNBits] using hnan)]
  exact toNat_signed (magnitudeBits_lt q hm)

theorem isSigned_encode (negative : Bool) (q : ℤ) (hm : m < 2 ^ 53) :
    isSigned (encode negative m q) = negative := by
  have hlt := magnitudeBits_lt q hm
  rw [Bool.eq_iff_iff, isSigned_iff, toNat_encode negative q hm]
  cases negative
  · exact iff_of_false (by simpa using hlt) (by decide)
  · exact iff_of_true (by simp) rfl

/-- **What is encoded is decoded**, if it is placed in the range of the exponent. -/
theorem decode_encode (negative : Bool) (h : IsPlaced m q) (hq : q ≤ 971) :
    decode (encode negative m q) = (m, q) := by
  have hge := h.exponent_ge
  have hlt := h.lt
  have hmod : (encode negative m q).toBits.toNat % 2 ^ 63 = magnitudeBits m q := by
    have := magnitudeBits_lt q hlt
    rw [toNat_encode negative q hlt]
    split <;> omega
  by_cases hm : m < 2 ^ 52
  · rw [magnitudeBits_of_lt q hm] at hmod
    rw [decode_of_eq_zero (by omega), hmod, h.full.resolve_right (by omega), Nat.mod_eq_of_lt hm]
  · rw [magnitudeBits_of_le (by omega) hq] at hmod
    rw [decode_of_ne_zero (by omega), hmod, Prod.mk.injEq]
    omega

theorem isSigned_ofRatio (negative : Bool) (n : ℕ) (hd : d ≠ 0) :
    isSigned (ofRatio negative n d) = negative := by
  obtain ⟨m, q, hp, -, heq⟩ := exists_roundsTo negative n hd
  rw [heq, isSigned_encode negative q hp.lt]

/-- The value of what is encoded. -/
theorem toRat_encode (negative : Bool) (h : IsPlaced m q) (hq : q ≤ 971) :
    toRat (encode negative m q) = Decimal.signed negative m * 2 ^ q := by
  have hfinite : isFinite (encode negative m q) = true := isFinite_encode negative h.lt hq
  rw [toRat, if_pos hfinite, isSigned_encode negative q h.lt, decode_encode negative h hq, binary,
    scaled_eq _ _ two_ne_zero]
  rfl

/-- **What lies in the interval of a double has that double as its nearest.** -/
theorem RoundsTo.ofRatio_decode {x : Float} (h : RoundsTo (n / d) (decode x).1 (decode x).2)
    (hx : x.isFinite = true) (hd : d ≠ 0) : ofRatio (isSigned x) n d = x :=
  (h.ofRatio_eq (isPlaced_decode hx) hd _).trans (encode_decode hx)

/-! ## Zeros -/

theorem unpacked_zero (negative : Bool) : unpacked (zero negative) = .zero (signOf negative) := by
  cases negative <;> rfl

/-- The two zeros are the only doubles that equal zero. -/
theorem exists_zero {x : Float} (hnan : x.isNaN = false) (h : (x == 0) = true) :
    ∃ negative, x = zero negative := by
  obtain ⟨s, hs⟩ := (beq_zero_iff hnan).1 h
  cases s
  · exact ⟨true, eq_of_unpacked (hs.trans (unpacked_zero true).symm)⟩
  · exact ⟨false, eq_of_unpacked (hs.trans (unpacked_zero false).symm)⟩

theorem zero_beq_zero (negative : Bool) : (zero negative == 0) = true := by
  cases negative <;> decide

/-- The zeros are the magnitudes with the significand zero. -/
theorem encode_beq_zero_iff (negative : Bool) (h : IsPlaced m q) :
    (encode negative m q == 0) = true ↔ m = 0 := by
  constructor
  · intro hzero
    obtain ⟨negative', heq⟩ := exists_zero (isNaN_encode negative q h.lt) hzero
    have hbits := toNat_encode negative q h.lt
    have hge := h.exponent_ge
    have hlt := h.lt
    rw [heq, zero, toNat_encode negative' (-1074) (by decide), magnitudeBits_of_lt _ (by decide)] at hbits
    by_contra hm
    have hpos : 0 < magnitudeBits m q := by
      unfold magnitudeBits
      split_ifs <;> omega
    have := magnitudeBits_lt q hlt
    split_ifs at hbits <;> omega
  · rintro rfl
    rw [h.full.resolve_right (by decide)]
    exact zero_beq_zero negative

theorem beq_zero_iff_decode {x : Float} (h : x.isFinite = true) :
    (x == 0) = true ↔ (decode x).1 = 0 := by
  rw [← encode_beq_zero_iff (isSigned x) (isPlaced_decode h), encode_decode h]

theorem abs_eq_div (v : ℚ) : |v| = (v.num.natAbs : ℚ) / v.den := by
  conv_lhs => rw [← Rat.num_div_den v]
  rw [abs_div, Nat.abs_cast, Nat.cast_natAbs, Int.cast_abs]

/-- **The nearest double is zero up to the middle between zero and the least double.** -/
theorem ofRat_beq_zero_iff (v : ℚ) : (ofRat v == 0) = true ↔ |v| ≤ 2 ^ (-1075 : ℤ) := by
  obtain ⟨m, q, hp, hto, heq⟩ := exists_roundsTo (decide (v.num < 0)) v.num.natAbs v.den_nz
  have hend : upperEnd 0 (-1074) = 2 ^ (-1075 : ℤ) := by
    rw [upperEnd, show (-1074 - 2 : ℤ) = -1075 - 1 from rfl, zpow_sub_one₀ two_ne_zero]
    generalize (2 : ℚ) ^ (-1075 : ℤ) = x
    push_cast
    ring
  rw [← abs_eq_div] at hto
  rw [ofRat, heq, encode_beq_zero_iff _ hp, ← hend]
  constructor
  · rintro rfl
    rw [← hp.full.resolve_right (by decide)]
    exact hto.le_upper
  · intro hle
    have hlower : lowerEnd 0 (-1074) ≤ 0 := by
      rw [lowerEnd, reach]
      norm_num
    exact (hto.unique ⟨hlower.trans (abs_nonneg v), hle, fun h => absurd h (by decide)⟩ hp
      ⟨by decide, le_rfl, .inl rfl⟩).1

end Double

end SymbolicAlgebra
