import SymbolicAlgebra.Double.Shortest
import SymbolicAlgebra.Proofs.Nearest
import SymbolicAlgebra.Proofs.Printing

/-!
# Proofs/Shortest — doubles are read back from their digits

The digits that a double is written with lie in its rounding interval (`shortest_roundsTo`), whichever of the
candidates they are.  They are laid out as a numeral, positionally or with an exponent
(`Layout.render_isNumeral`), so the text of a finite double is read as a decimal whose nearest double it is
(`exists_numeral`).
-/

namespace SymbolicAlgebra

/-! ## Zeros at the end -/

namespace Decimal

/-- Dropping zeros at the end keeps the value, and does not lower the exponent. -/
theorem dropZeros_spec {c : ℕ} (hc : c ≠ 0) (e ideal : ℤ) :
    (dropZeros c e ideal).1 ≠ 0 ∧ e ≤ (dropZeros c e ideal).2 ∧
      ((dropZeros c e ideal).1 : ℚ) * 10 ^ (dropZeros c e ideal).2 = c * 10 ^ e := by
  fun_induction dropZeros c e ideal with
  | case1 c e h ih =>
      obtain ⟨hpos, hle, hvalue⟩ := ih (by omega)
      refine ⟨hpos, by omega, hvalue.trans ?_⟩
      have hc : ((10 * (c / 10) : ℕ) : ℚ) = c := by rw [Nat.mul_div_cancel' (Nat.dvd_of_mod_eq_zero h.2.2)]
      push_cast at hc
      rw [zpow_add_one₀ (by norm_num), ← hc]
      ring
  | case2 c e h => exact ⟨hc, le_rfl, rfl⟩

end Decimal

namespace Double

/-! ## Digits in the interval -/

variable {m : ℕ} {q : ℤ}

/-- The interval of a magnitude on one decimal scale. -/
theorem interval_eq (m : ℕ) (q : ℤ) : ∃ factor : ℕ, 0 < factor ∧
    (factor : ℚ) * 10 ^ (interval m q).exponent = 2 ^ (q - 2) ∧
    (interval m q).value = 4 * m * factor ∧ (interval m q).low = (4 * m - reach m q) * factor ∧
    (interval m q).high = (4 * m + 2) * factor ∧ (interval m q).closed = decide (m % 2 = 0) := by
  refine ⟨if 0 ≤ q - 2 then 2 ^ (q - 2).toNat else 5 ^ (-(q - 2)).toNat, by split <;> positivity, ?_,
    rfl, rfl, rfl, rfl⟩
  have hexponent : (interval m q).exponent = if 0 ≤ q - 2 then 0 else q - 2 := rfl
  rw [hexponent]
  split
  next h =>
    obtain ⟨k, hk⟩ := Int.eq_ofNat_of_zero_le h
    simp [hk]
  next h =>
    obtain ⟨k, hk⟩ := Int.eq_ofNat_of_zero_le (show 0 ≤ -(q - 2) by omega)
    obtain hk' : q - 2 = -k := by omega
    rw [hk, hk', Int.toNat_natCast, zpow_neg, zpow_neg, zpow_natCast, zpow_natCast]
    push_cast
    rw [show (10 : ℚ) = 5 * 2 by norm_num, mul_pow]
    field_simp

/-- **What lies in the interval rounds to the double.** -/
theorem holds_iff (hm : m ≠ 0) (x : ℕ) : (interval m q).holds x = true ↔
    RoundsTo (x * 10 ^ (interval m q).exponent) m q := by
  obtain ⟨factor, hfactor, hscale, -, hlow, hhigh, hclosed⟩ := interval_eq m q
  have hpos : (0 : ℚ) < 10 ^ (interval m q).exponent := by positivity
  have hreach := reach_le m q
  have hlower : lowerEnd m q = (interval m q).low * 10 ^ (interval m q).exponent := by
    rw [lowerEnd, ← hscale, hlow, Nat.cast_mul, Nat.cast_sub (by omega)]
    push_cast
    ring
  have hupper : upperEnd m q = (interval m q).high * 10 ^ (interval m q).exponent := by
    rw [upperEnd, ← hscale, hhigh]
    push_cast
    ring
  have hbounds : RoundsTo (x * 10 ^ (interval m q).exponent) m q ↔
      (interval m q).low ≤ x ∧ x ≤ (interval m q).high ∧
        (m % 2 = 1 → (interval m q).low ≠ x ∧ x ≠ (interval m q).high) := by
    constructor
    · rintro ⟨hle, hge, hodd⟩
      rw [hlower, mul_le_mul_iff_left₀ hpos, Nat.cast_le] at hle
      rw [hupper, mul_le_mul_iff_left₀ hpos, Nat.cast_le] at hge
      refine ⟨hle, hge, fun h => ⟨?_, ?_⟩⟩
      · rintro heq
        exact (hodd h).1 (by rw [hlower, heq])
      · rintro heq
        exact (hodd h).2 (by rw [hupper, heq])
    · rintro ⟨hle, hge, hodd⟩
      refine ⟨?_, ?_, fun h => ?_⟩
      · rwa [hlower, mul_le_mul_iff_left₀ hpos, Nat.cast_le]
      · rwa [hupper, mul_le_mul_iff_left₀ hpos, Nat.cast_le]
      · rw [hlower, hupper, Ne, Ne, mul_left_inj' hpos.ne', mul_left_inj' hpos.ne', Nat.cast_inj,
          Nat.cast_inj]
        exact hodd h
  rw [hbounds, Interval.holds, hclosed]
  by_cases hodd : m % 2 = 1
  · simp [hodd]
    omega
  · simp [show m % 2 = 0 by omega]

theorem withDigits_spec {i : Interval} {digits c : ℕ} {e : ℤ} (h : i.withDigits digits = some (c, e)) :
    ∃ k : ℕ, i.holds (c * 10 ^ k) = true ∧ e = i.exponent + k := by
  unfold Interval.withDigits at h
  simp only [Nat.pow_eq] at h
  refine ⟨digitCount i.value - digits, ?_⟩
  split at h
  next hboth =>
    rw [Bool.and_eq_true] at hboth
    simp only [Option.some.injEq, Prod.mk.injEq] at h
    obtain ⟨rfl, rfl⟩ := h
    refine ⟨?_, rfl⟩
    split
    · exact hboth.1
    · exact hboth.2
  next =>
    split at h
    next hdown =>
      simp only [Option.some.injEq, Prod.mk.injEq] at h
      obtain ⟨rfl, rfl⟩ := h
      exact ⟨hdown, rfl⟩
    next =>
      split at h
      next hup =>
        simp only [Option.some.injEq, Prod.mk.injEq] at h
        obtain ⟨rfl, rfl⟩ := h
        exact ⟨hup, rfl⟩
      next => cases h

/-- A magnitude lies in its own interval. -/
theorem holds_value (hm : m ≠ 0) : (interval m q).holds (interval m q).value = true := by
  obtain ⟨factor, hfactor, -, hvalue, hlow, hhigh, -⟩ := interval_eq m q
  have hreach : 0 < reach m q := by
    unfold reach
    split <;> omega
  have hlt : (interval m q).low < (interval m q).value ∧ (interval m q).value < (interval m q).high := by
    rw [hlow, hvalue, hhigh]
    exact ⟨Nat.mul_lt_mul_of_pos_right (by omega) hfactor, Nat.mul_lt_mul_of_pos_right (by omega) hfactor⟩
  unfold Interval.holds
  split <;> simp [hlt.1, hlt.2, hlt.1.le, hlt.2.le]

/-- The candidate that is chosen lies in the interval. -/
theorem candidate_holds (hm : m ≠ 0) : ∃ k : ℕ, ∃ c e,
    ((List.range 17).findSome? fun n => (interval m q).withDigits (n + 1)).getD
      ((interval m q).value, (interval m q).exponent) = (c, e) ∧
    (interval m q).holds (c * 10 ^ k) = true ∧ e = (interval m q).exponent + k := by
  cases hfind : (List.range 17).findSome? fun n => (interval m q).withDigits (n + 1) with
  | none =>
      refine ⟨0, _, _, rfl, ?_, by simp⟩
      rw [pow_zero, mul_one]
      exact holds_value hm
  | some p =>
      obtain ⟨n, -, hn⟩ := List.exists_of_findSome?_eq_some hfind
      obtain ⟨k, hholds, he⟩ := withDigits_spec (c := p.1) (e := p.2) hn
      exact ⟨k, p.1, p.2, rfl, hholds, he⟩

theorem RoundsTo.pos {v : ℚ} (h : RoundsTo v m q) (hm : m ≠ 0) : 0 < v := by
  have hreach : (reach m q : ℚ) ≤ 2 := by exact_mod_cast reach_le m q
  have hone : (1 : ℚ) ≤ m := by exact_mod_cast Nat.one_le_iff_ne_zero.2 hm
  exact (mul_pos (by linarith) (by positivity)).trans_le h.lower_le

/-- **The digits of a double round to it.** -/
theorem shortest_roundsTo (hm : m ≠ 0) (hq : -1074 ≤ q) :
    (shortest m q).1 ≠ 0 ∧ -1076 ≤ (shortest m q).2 ∧
      RoundsTo ((shortest m q).1 * 10 ^ (shortest m q).2) m q := by
  obtain ⟨k, c, e, hcandidate, hholds, rfl⟩ := candidate_holds (q := q) hm
  have hshortest : shortest m q = Decimal.dropZeros c ((interval m q).exponent + k)
      ((interval m q).exponent + k + digitCount c) := by
    rw [shortest, hcandidate]
  have hexponent : (interval m q).exponent = if 0 ≤ q - 2 then 0 else q - 2 := rfl
  have hto := (holds_iff hm _).1 hholds
  have hc : c ≠ 0 := by
    rintro rfl
    exact (hto.pos hm).ne' (by simp)
  obtain ⟨hpos, hle, hvalue⟩ := Decimal.dropZeros_spec hc ((interval m q).exponent + k)
    ((interval m q).exponent + k + digitCount c)
  rw [hshortest]
  refine ⟨hpos, ?_, ?_⟩
  · split at hexponent <;> omega
  · rw [hvalue, add_comm, zpow_add₀ (by norm_num), zpow_natCast, ← mul_assoc]
    exact_mod_cast hto

/-! ## The layout of the digits -/

open Decimal Text

theorem natOfDigits_append_zeros (s : List Char) (k : ℕ) :
    natOfDigits (s ++ List.replicate k '0') = natOfDigits s * 10 ^ k := by
  induction k with
  | zero => simp
  | succ k ih =>
      have hstep : natOfDigits (s ++ List.replicate k '0' ++ ['0']) =
          10 * natOfDigits (s ++ List.replicate k '0') := by
        rw [natOfDigits, List.foldl_append]
        rfl
      rw [List.replicate_succ', ← List.append_assoc, hstep, ih, pow_succ]
      ring

/-- **Whole numbers are written with a zero behind the point.** -/
theorem whole_isNumeral (c zeros : ℕ) : IsNumeral
    (digitChars c ++ List.replicate zeros '0' ++ ['.', '0']) (c * 10 ^ (zeros + 1)) (-1) := by
  have hzeros : digitChars c ++ List.replicate zeros '0' ++ ['0'] =
      digitChars c ++ List.replicate (zeros + 1) '0' := by
    rw [List.replicate_succ', List.append_assoc]
  refine Spells.isNumeral (p := ⟨digitChars c ++ List.replicate zeros '0', ['0'], none⟩)
    ⟨by simp [digitChars_ne_nil], ?_, ?_, rfl⟩
  · intro d hd
    rw [hzeros, List.mem_append] at hd
    rcases hd with hd | hd
    · exact isDigit_digitChars d hd
    · rw [List.eq_of_mem_replicate hd]
      rfl
  · rw [hzeros, natOfDigits_append_zeros, natOfDigits_digitChars]

/-- Digits behind a point, if there are any. -/
def pointed : List Char → List Char
  | [] => []
  | d :: rest => '.' :: d :: rest

/-- An exponent with its sign, filled up with zeros. -/
def powerChars (x : ℤ) (pad : ℕ) : List Char :=
  'e' :: (if x < 0 then '-' else '+') :: (List.replicate pad '0' ++ digitChars x.natAbs)

theorem isDigit_padded {pad n : ℕ} : ∀ d ∈ List.replicate pad '0' ++ digitChars n, d.isDigit = true := by
  intro d hd
  rcases List.mem_append.1 hd with hd | hd
  · rw [List.eq_of_mem_replicate hd]
    rfl
  · exact isDigit_digitChars d hd

theorem readExponent?_powerChars (x : ℤ) (pad : ℕ) : readExponent? (powerChars x pad) = some x := by
  have hempty : (List.replicate pad '0' ++ digitChars x.natAbs).isEmpty = false :=
    List.isEmpty_eq_false_iff.2 (by simp [digitChars_ne_nil])
  have hall : (List.replicate pad '0' ++ digitChars x.natAbs).all isDigit = true :=
    List.all_eq_true.2 fun d hd => isDigit_of_isDigit (isDigit_padded d hd)
  simp only [powerChars, readExponent?]
  by_cases hx : x < 0
  · simp only [hx, ↓reduceIte, takeSign, hempty, hall, natOfDigits_zeros, natOfDigits_digitChars,
      beq_self_eq_true, Bool.true_or, Bool.not_true, Bool.or_self, Bool.false_eq_true, Option.some.injEq]
    omega
  · simp only [hx, ↓reduceIte, takeSign, hempty, hall, natOfDigits_zeros, natOfDigits_digitChars,
      beq_self_eq_true, Bool.true_or, Bool.not_true, Bool.or_self, Bool.false_eq_true, Option.some.injEq]
    omega

theorem takeMantissa_power {d : Char} {fraction : List Char} (hd : d.isDigit = true)
    (hfraction : ∀ x ∈ fraction, x.isDigit = true) (x : ℤ) (pad : ℕ) :
    takeMantissa (d :: pointed fraction ++ powerChars x pad) = ([d], fraction, powerChars x pad) := by
  have hd' : isDigit d = true := isDigit_of_isDigit hd
  have hmarks : isDigit '.' = false ∧ isDigit 'e' = false := by decide
  cases fraction with
  | nil => simp [takeMantissa, pointed, powerChars, hd', hmarks]
  | cons y rest =>
      have hall : ∀ x ∈ y :: rest, isDigit x = true := fun x hx => isDigit_of_isDigit (hfraction x hx)
      simp only [takeMantissa, pointed, List.cons_append, List.takeWhile_cons_of_pos hd',
        List.dropWhile_cons_of_pos hd', List.takeWhile_cons_of_neg (by simp [hmarks] : ¬isDigit '.' = true),
        List.dropWhile_cons_of_neg (by simp [hmarks] : ¬isDigit '.' = true)]
      rw [← List.cons_append, List.takeWhile_append_of_pos hall, List.dropWhile_append_of_pos hall]
      simp [powerChars, hmarks]

/-- **Digits with an exponent** are a numeral, with or without a point. -/
theorem power_isNumeral {d : Char} {fraction : List Char} (hd : d.isDigit = true)
    (hfraction : ∀ x ∈ fraction, x.isDigit = true) (x : ℤ) (pad : ℕ) :
    IsNumeral (d :: pointed fraction ++ powerChars x pad) (natOfDigits (d :: fraction))
      (x - fraction.length) where
  head := ⟨d, pointed fraction ++ powerChars x pad, rfl, hd⟩
  mem y hy := by
    have hpointed : ∀ y ∈ pointed fraction, y.isDigit = true ∨ y = '.' := by
      cases fraction with
      | nil => simp [pointed]
      | cons z rest =>
          intro y hy
          exact (List.mem_cons.1 hy).symm.imp_left (hfraction y)
    rw [List.cons_append, List.mem_cons, List.mem_append, powerChars, List.mem_cons, List.mem_cons] at hy
    rcases hy with rfl | hy | rfl | rfl | hy
    · exact .inl hd
    · exact (hpointed y hy).imp_right (by rintro rfl; simp)
    · exact .inr (by simp)
    · exact .inr (by split <;> simp)
    · exact .inl (isDigit_padded y hy)
  broken := ⟨'e', by simp [powerChars], by decide⟩
  read := by
    simp only [readUnsigned?, takeMantissa_power hd hfraction, readExponent?_powerChars, List.isEmpty_cons,
      Bool.false_and, Bool.false_eq_true, ↓reduceIte, Option.map_some, List.singleton_append]

/-- **A layout writes a numeral** of the value, with at least one place behind the point. -/
theorem Layout.render_isNumeral (l : Layout) (c : ℕ) (e : ℤ) : ∃ (c' : ℕ) (e' : ℤ),
    (c' : ℚ) * 10 ^ e' = c * 10 ^ e ∧ min e (-1) ≤ e' ∧ IsNumeral (l.render c e).toList c' e' := by
  unfold Layout.render
  simp only
  split
  next =>
    split
    next he =>
      obtain ⟨p, hp, hspells⟩ := positional_spells c (show (-e).toNat ≠ 0 by omega)
      rw [show -(((-e).toNat : ℕ) : ℤ) = e by omega] at hspells
      exact ⟨c, e, rfl, min_le_left _ _, hp ▸ hspells.isNumeral⟩
    next he =>
      obtain ⟨k, rfl⟩ := Int.eq_ofNat_of_zero_le (not_lt.1 he)
      refine ⟨c * 10 ^ (k + 1), -1, ?_, min_le_right _ _, ?_⟩
      · rw [zpow_natCast, zpow_neg_one, pow_succ]
        push_cast
        field_simp
      · simpa using whole_isNumeral c k
  next =>
    obtain ⟨d, rest, hdigits⟩ := List.exists_cons_of_ne_nil (digitChars_ne_nil c)
    have hall : ∀ x ∈ d :: rest, x.isDigit = true := hdigits ▸ isDigit_digitChars
    rw [List.forall_mem_cons] at hall
    have hnumeral := power_isNumeral hall.1 hall.2 (e + rest.length)
      (l.exponentDigits - (digitChars (e + rest.length).natAbs).length)
    rw [← hdigits, natOfDigits_digitChars, add_sub_cancel_right] at hnumeral
    refine ⟨c, e, rfl, min_le_left _ _, ?_⟩
    have htop : e + ((digitChars c).length : ℤ) - 1 = e + rest.length := by
      rw [hdigits, List.length_cons]
      push_cast
      ring
    rw [htop, hdigits]
    cases rest <;> simpa [pointed, powerChars] using hnumeral

/-! ## The nearest double of a decimal -/

variable {x : Float}

theorem two_pow_lt_ten_pow {k : ℕ} (hk : k < 1200) : (2 : ℚ) ^ k < 10 ^ 400 := by
  have h : (2 : ℕ) ^ k < 10 ^ 400 := calc
    2 ^ k < 2 ^ 1200 := Nat.pow_lt_pow_right (by decide) hk
    _ = 8 ^ 400 := pow_mul 2 3 400
    _ ≤ 10 ^ 400 := Nat.pow_le_pow_left (by decide) 400
  rw [← Nat.cast_lt (α := ℚ), Nat.cast_pow, Nat.cast_pow] at h
  exact h

/-- What rounds to a finite double is within the powers of ten that are read. -/
theorem RoundsTo.lt_ten_pow {v : ℚ} (h : RoundsTo v m q) (hm : m < 2 ^ 53) (hq : q ≤ 971) :
    v < 10 ^ (400 : ℤ) := by
  have hle : (4 * m + 2 : ℚ) ≤ 2 ^ 55 := by
    have : ((4 * m + 2 : ℕ) : ℚ) ≤ (2 ^ 55 : ℕ) := Nat.cast_le.2 (by omega)
    exact_mod_cast this
  calc v ≤ (4 * m + 2) * 2 ^ (q - 2) := h.le_upper
    _ ≤ 2 ^ 55 * 2 ^ (969 : ℤ) := by
        gcongr
        · exact one_le_two
        · omega
    _ = 2 ^ 1024 := by rw [zpow_ofNat, ← pow_add]
    _ < 10 ^ (400 : ℤ) := two_pow_lt_ten_pow (by decide)

theorem RoundsTo.ten_pow_lt {v : ℚ} (h : RoundsTo v m q) (hm : m ≠ 0) (hq : -1074 ≤ q) :
    10 ^ (-400 : ℤ) < v := by
  have hreach : (reach m q : ℚ) ≤ 2 := by exact_mod_cast reach_le m q
  have hone : (1 : ℚ) ≤ m := by exact_mod_cast Nat.one_le_iff_ne_zero.2 hm
  calc (10 : ℚ) ^ (-400 : ℤ) = (10 ^ 400)⁻¹ := by rw [zpow_neg, zpow_ofNat]
    _ < (2 ^ 1076)⁻¹ := inv_strictAnti₀ (by positivity) (two_pow_lt_ten_pow (by decide))
    _ = 1 * 2 ^ (-1076 : ℤ) := by rw [one_mul, zpow_neg, zpow_ofNat]
    _ ≤ (4 * m - reach m q) * 2 ^ (q - 2) := by
        exact mul_le_mul (by linarith) (zpow_le_zpow_right₀ one_le_two (by omega)) (by positivity)
          (by linarith)
    _ ≤ v := h.lower_le

theorem scaled_ten_eq (c : ℕ) (e : ℤ) :
    ((c * 10 ^ e.toNat : ℕ) : ℚ) / (10 ^ (-e).toNat : ℕ) = c * 10 ^ e := by
  obtain ⟨k, rfl | rfl⟩ := Int.eq_nat_or_neg e
  · have hneg : (-(k : ℤ)).toNat = 0 := by omega
    simp [hneg]
  · have hneg : (-(k : ℤ)).toNat = 0 := by omega
    simp [hneg, div_eq_mul_inv]

/-- **A decimal that rounds to a double has it as its nearest double**, and is within the range that is
read. -/
theorem ofDecimal_of_roundsTo (hx : x.isFinite = true) {c : ℕ} (hc : c ≠ 0) {e : ℤ}
    (hm : (decode x).1 ≠ 0) (h : RoundsTo (c * 10 ^ e) (decode x).1 (decode x).2) :
    e + digitCount c ≤ 400 ∧ ofDecimal (.finite (isSigned x) c e) = x := by
  obtain ⟨hle, hlt⟩ := abs_toRat_bounds (isSigned x) hc e
  rw [abs_toRat] at hle hlt
  have htop : e + (digitCount c : ℤ) - 1 < 400 := (zpow_lt_zpow_iff_right₀ (by norm_num)).1
    (hle.trans_lt (h.lt_ten_pow (decode_bounds hx).1 (decode_bounds hx).2))
  have hbottom : -400 < e + (digitCount c : ℤ) := (zpow_lt_zpow_iff_right₀ (by norm_num)).1
    ((h.ten_pow_lt hm (isPlaced_decode hx).exponent_ge).trans hlt)
  refine ⟨by omega, ?_⟩
  simp only [ofDecimal, if_neg hc, if_neg (show ¬400 < e + (digitCount c : ℤ) by omega),
    if_neg (show ¬e + (digitCount c : ℤ) < -400 by omega), Nat.pow_eq]
  refine RoundsTo.ofRatio_decode ?_ hx (by positivity)
  rwa [scaled_ten_eq]

theorem zero_isNumeral : IsNumeral "0.0".toList 0 (-1) := whole_isNumeral 0 0

/-- **The text of a finite double is a numeral**, with its sign in front, whose nearest double it is. -/
theorem exists_numeral (hx : x.isFinite = true) : ∃ (c : ℕ) (e : ℤ) (body : List Char),
    (toText x).toList = signChars (isSigned x) ++ body ∧ IsNumeral body c e ∧ -1076 ≤ e ∧
      ((decode x).1 ≠ 0 → c ≠ 0 ∧ e + digitCount c ≤ 400) ∧
      ofDecimal (.finite (isSigned x) c e) = x := by
  have hnan : isNaN x = false := isNaN_of_isFinite hx
  have hinf : isInfinite x = false := isInf_of_isFinite hx
  have hsign : ∀ body : String, ((if isSigned x then "-" else "") ++ body).toList =
      signChars (isSigned x) ++ body.toList := by cases isSigned x <;> simp [signChars]
  simp only [toText, hnan, hinf, Bool.false_eq_true, ↓reduceIte]
  by_cases hm : (decode x).1 = 0
  · refine ⟨0, -1, "0.0".toList, ?_, zero_isNumeral, by decide, fun h => absurd hm h, ?_⟩
    · rw [if_pos hm, hsign]
    · have hq := (isPlaced_decode hx).full.resolve_right (by omega)
      calc ofDecimal (.finite (isSigned x) 0 (-1)) = encode (isSigned x) 0 (-1074) := rfl
        _ = x := by rw [← hm, ← hq, encode_decode hx]
  · obtain ⟨hpos, hle, hto⟩ := shortest_roundsTo hm (isPlaced_decode hx).exponent_ge
    obtain ⟨c, e, hvalue, he, hnumeral⟩ :=
      layout.render_isNumeral (shortest (decode x).1 (decode x).2).1 (shortest (decode x).1 (decode x).2).2
    rw [← hvalue] at hto
    have hc : c ≠ 0 := by
      rintro rfl
      exact (hto.pos hm).ne' (by simp)
    obtain ⟨htop, hdecimal⟩ := ofDecimal_of_roundsTo hx hc hm hto
    refine ⟨c, e, _, ?_, hnumeral, by omega, fun _ => ⟨hc, htop⟩, hdecimal⟩
    rw [if_neg hm, hsign]

end Double

end SymbolicAlgebra
