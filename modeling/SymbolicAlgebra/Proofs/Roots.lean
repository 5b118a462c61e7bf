import Mathlib
import SymbolicAlgebra.Proofs.Division
import SymbolicAlgebra.Proofs.NumberText
import SymbolicAlgebra.Proofs.Pieces
import SymbolicAlgebra.Proofs.ZeroPower

/-!
# Proofs/Roots — exact roots

The root of a whole number is searched at the double of its power with the reciprocal of the exponent, and
next to it.  That double carries three errors, of the number, of the reciprocal and of the power; below
`2 ^ 48` they add up to less than one and a half (`Double.abs_sub_lt_of_accurate`), so that the root is met.
Whatever is found is a root (`Number.pow_eq_of_natRoot`), but numbers from `2 ^ 999` on are not searched.
Powers of rationals with a denominator in the exponent are exact where the roots are found
(`Number.exact_roots`).
-/

namespace SymbolicAlgebra

namespace Double

/-! ## The error of a root -/

/-- The logarithm of a number near one is near zero. -/
theorem abs_log_le {x u : ℝ} (hu : u ≤ 1 / 2) (hx : |x - 1| ≤ u) : |Real.log x| ≤ 2 * u := by
  rw [abs_le] at hx
  have hpos : 0 < x := by linarith
  have hupper : Real.log x ≤ x - 1 := Real.log_le_sub_one_of_pos hpos
  have hlower : 1 - x⁻¹ ≤ Real.log x := Real.one_sub_inv_le_log_of_pos hpos
  have hinv : x⁻¹ ≤ 1 + 2 * u := by
    rw [inv_le_iff_one_le_mul₀ hpos]
    nlinarith
  rw [abs_le]
  constructor <;> linarith

/-- **A power of a number near `r ^ n`, with an exponent near `1 / n`, is near `r`.** -/
theorem abs_rpow_sub_le {r x y u : ℝ} {n : ℕ} (hr : 1 ≤ r) (hn : 2 ≤ n) (hx : 0 < x)
    (hxr : |x - r ^ n| ≤ u * x) (hy : |y * n - 1| ≤ u) (hu : u * (Real.log r + 2) ≤ 1 / 2) :
    |x ^ y - r| ≤ r * (u * (Real.log r + 2) + (u * (Real.log r + 2)) ^ 2) := by
  have hrpos : 0 < r := by linarith
  have hlog : 0 ≤ Real.log r := Real.log_nonneg hr
  have hu0 : 0 ≤ u := (abs_nonneg _).trans hy
  have hn' : (2 : ℝ) ≤ n := by exact_mod_cast hn
  -- the error of the logarithm of the base
  obtain ⟨d, hd, hlogx⟩ : ∃ d : ℝ, |d| ≤ 2 * u ∧ Real.log x = n * Real.log r - d := by
    refine ⟨Real.log (r ^ n / x), abs_log_le (by nlinarith) ?_, ?_⟩
    · rw [div_sub_one hx.ne', abs_div, abs_of_pos hx, div_le_iff₀ hx, abs_sub_comm]
      exact hxr
    · rw [Real.log_div (by positivity) hx.ne', Real.log_pow]
      ring
  -- the error of the logarithm of the power
  have ht : |y * Real.log x - Real.log r| ≤ u * (Real.log r + 2) := by
    have hsplit : y * Real.log x - Real.log r = (y * n - 1) * Real.log r - y * d := by
      rw [hlogx]
      ring
    have hy' : |y| ≤ 1 := by
      have hu4 : u ≤ 1 / 4 := by nlinarith
      rw [abs_le] at hy ⊢
      constructor <;> nlinarith
    calc |y * Real.log x - Real.log r| ≤ |(y * n - 1) * Real.log r| + |y * d| := by
          rw [hsplit]
          exact abs_sub _ _
      _ ≤ u * Real.log r + 1 * (2 * u) := by
          rw [abs_mul, abs_mul, abs_of_nonneg hlog]
          gcongr
      _ = u * (Real.log r + 2) := by ring
  have hpower : x ^ y - r = r * (Real.exp (y * Real.log x - Real.log r) - 1) := by
    rw [Real.rpow_def_of_pos hx, Real.exp_sub, Real.exp_log hrpos, mul_comm y]
    field_simp
  generalize y * Real.log x - Real.log r = t at ht hpower
  have hexp : |Real.exp t - 1 - t| ≤ t ^ 2 := Real.abs_exp_sub_one_sub_id_le (by linarith)
  calc |x ^ y - r| = r * |(Real.exp t - 1 - t) + t| := by
        rw [hpower, abs_mul, abs_of_pos hrpos, sub_add_cancel]
    _ ≤ r * (t ^ 2 + |t|) := by
        gcongr
        exact (abs_add_le _ _).trans (by gcongr)
    _ ≤ r * (u * (Real.log r + 2) + (u * (Real.log r + 2)) ^ 2) := by
        rw [add_comm, ← sq_abs t]
        gcongr

/-- **A power that is accurate is near the root**, with less than half a unit to spare. -/
theorem abs_sub_lt_of_accurate {r x y p : ℝ} {n : ℕ} (hr : 1 ≤ r) (hlt : r < 2 ^ 48) (hn : 2 ≤ n)
    (hx : 0 < x) (hxr : |x - r ^ n| ≤ 2 ^ (-53 : ℤ) * x) (hy : |y * n - 1| ≤ 2 ^ (-53 : ℤ))
    (hp : |p - x ^ y| ≤ 2 ^ (-50 : ℤ) * x ^ y) : |p - r| < 3 / 2 := by
  have hrpos : 0 < r := by linarith
  have hlog : Real.log r ≤ 34 := calc
    Real.log r ≤ Real.log (2 ^ 48) := Real.log_le_log hrpos hlt.le
    _ = 48 * Real.log 2 := by rw [Real.log_pow]; norm_num
    _ ≤ 34 := by linarith [Real.log_two_lt_d9]
  have hlog' : 0 ≤ Real.log r := Real.log_nonneg hr
  obtain ⟨u, hu⟩ : ∃ u : ℝ, u = 2 ^ (-53 : ℤ) := ⟨_, rfl⟩
  have hu' : u = 1 / 2 ^ 53 := by rw [hu]; norm_num
  have hupos : 0 < u := by rw [hu]; positivity
  have height : (2 : ℝ) ^ (-50 : ℤ) = 8 * u := by rw [hu]; norm_num
  rw [← hu] at hxr hy
  rw [height] at hp
  obtain ⟨t, ht⟩ : ∃ t, t = u * (Real.log r + 2) := ⟨_, rfl⟩
  have htnonneg : 0 ≤ t := by rw [ht]; positivity
  have htle : t ≤ 36 * u := by rw [ht]; nlinarith
  have hroot := abs_rpow_sub_le hr hn hx hxr hy (by rw [← ht]; linarith)
  rw [← ht] at hroot
  have hrest : t + t ^ 2 ≤ 36.5 * u := by nlinarith
  have hroot' : |x ^ y - r| ≤ r * (36.5 * u) := hroot.trans (by gcongr)
  have hvalue : x ^ y ≤ r * (1 + 36.5 * u) := by linarith [(abs_le.1 hroot').2]
  calc |p - r| ≤ |p - x ^ y| + |x ^ y - r| := abs_sub_le _ _ _
    _ ≤ 8 * u * (r * (1 + 36.5 * u)) + r * (36.5 * u) := by gcongr; exact hp.trans (by gcongr)
    _ ≤ r * (45 * u) := by rw [hu']; nlinarith
    _ < 3 / 2 := by rw [hu']; linarith

/-! ## Doubles of whole numbers -/

variable {v : ℚ} {m : ℕ} {q : ℤ}

/-- **A number is near the double it rounds to**: the error is at most half a unit in the last of 53
places. -/
theorem RoundsTo.abs_sub_le (h : RoundsTo v m q) (hm : 2 ^ 52 ≤ m) :
    |(m * 2 ^ q : ℚ) - v| ≤ 2 ^ (-53 : ℤ) * (m * 2 ^ q) := by
  have hpos : (0 : ℚ) < 2 ^ (q - 2) := by positivity
  have hreach : (reach m q : ℚ) ≤ 2 := by exact_mod_cast reach_le m q
  have hfull : (2 ^ 52 : ℚ) ≤ m := by exact_mod_cast hm
  have hlower := h.lower_le
  have hupper := h.le_upper
  rw [lowerEnd] at hlower
  rw [upperEnd] at hupper
  have hhalf : 2 * (2 : ℚ) ^ (q - 2) ≤ 2 ^ (-53 : ℤ) * (m * 2 ^ q) := by
    rw [two_zpow_eq q, show (2 : ℚ) ^ (-53 : ℤ) = (2 ^ 53)⁻¹ by norm_num, inv_mul_eq_div,
      le_div_iff₀ (by positivity)]
    nlinarith
  rw [two_zpow_eq q] at hhalf ⊢
  rw [abs_le]
  constructor <;> nlinarith

/-- A number from one on rounds to a significand with all its bits. -/
theorem RoundsTo.full_of_one_le (h : RoundsTo v m q) (hp : IsPlaced m q) (hv : 1 ≤ v) :
    2 ^ 52 ≤ m := by
  by_contra hlt
  obtain rfl := hp.full.resolve_right hlt
  have hm : (m : ℚ) < 2 ^ 52 := by exact_mod_cast not_le.1 hlt
  have hsmall : (2 : ℚ) ^ (-1074 - 2 : ℤ) ≤ 2 ^ (-55 : ℤ) := zpow_le_zpow_right₀ one_le_two (by decide)
  have hupper : (1 : ℚ) ≤ (4 * m + 2) * 2 ^ (-55 : ℤ) := calc
    (1 : ℚ) ≤ upperEnd m (-1074) := hv.trans h.le_upper
    _ ≤ (4 * m + 2) * 2 ^ (-55 : ℤ) := mul_le_mul_of_nonneg_left hsmall (by positivity)
  norm_num at hupper
  linarith

/-- The exponent of a significand with all its bits is bounded as the number is. -/
theorem RoundsTo.exponent_lt (h : RoundsTo v m q) (hm : 2 ^ 52 ≤ m) {b : ℤ} (hv : v < 2 ^ b) :
    q < b - 51 := by
  have hreach : (reach m q : ℚ) ≤ 2 := by exact_mod_cast reach_le m q
  have hfull : (2 ^ 52 : ℚ) ≤ m := by exact_mod_cast hm
  have hlower : (2 : ℚ) ^ (53 + (q - 2)) < 2 ^ b := calc
    (2 : ℚ) ^ (53 + (q - 2)) = 2 ^ 53 * 2 ^ (q - 2) := zpow_add₀ two_ne_zero 53 (q - 2)
    _ ≤ lowerEnd m q := mul_le_mul_of_nonneg_right (by linarith) (by positivity)
    _ ≤ v := h.lower_le
    _ < 2 ^ b := hv
  have := (zpow_lt_zpow_iff_right₀ one_lt_two).1 hlower
  omega

/-- **A whole number within the range is near its double.** -/
theorem abs_toRat_ofInt_sub_le {k : ℕ} (hk : 0 < k) {b : ℤ} (hb : b ≤ 1000) (hlt : (k : ℚ) < 2 ^ b) :
    0 < toRat (ofInt k) ∧ |toRat (ofInt k) - k| ≤ 2 ^ (-53 : ℤ) * toRat (ofInt k) := by
  obtain ⟨m, q, hp, hround, heq⟩ := exists_roundsTo false k one_ne_zero
  rw [Nat.cast_one, div_one] at hround
  have hm : 2 ^ 52 ≤ m := hround.full_of_one_le hp (by exact_mod_cast hk)
  have hq : q < b - 51 := hround.exponent_lt hm hlt
  have hvalue : toRat (ofInt k) = m * 2 ^ q := by
    rw [ofInt, Int.natAbs_natCast, decide_eq_false (Int.natCast_nonneg k).not_gt, heq,
      toRat_encode false hp (by omega)]
    rfl
  rw [hvalue]
  exact ⟨by positivity, hround.abs_sub_le hm⟩

/-- A double that is not negative is rounded to a whole number next to it. -/
theorem abs_nearestInt_sub_le {x : Float} (hx : 0 ≤ toRat x) :
    |(nearestInt x : ℚ) - toRat x| ≤ 1 / 2 := by
  obtain ⟨hle, hge, -⟩ := divHalfEven_spec (toRat x).num.natAbs (toRat x).pos
  have hnum : ((toRat x).num.natAbs : ℤ) = (toRat x).num := Int.natAbs_of_nonneg (Rat.num_nonneg.2 hx)
  have hvalue : nearestInt x = divHalfEven (toRat x).num.natAbs (toRat x).den := by
    rw [nearestInt, decide_eq_false (not_lt.2 (Rat.num_nonneg.2 hx))]
    rfl
  have hden : (0 : ℚ) < (toRat x).den := by exact_mod_cast (toRat x).pos
  have hratio : ((toRat x).num.natAbs : ℚ) = toRat x * (toRat x).den := by
    rw [← Int.cast_natCast, hnum, Rat.mul_den_eq_num]
  rw [hvalue, Int.cast_natCast]
  generalize divHalfEven (toRat x).num.natAbs (toRat x).den = k at hle hge ⊢
  rw [← Nat.cast_le (α := ℚ)] at hle hge
  push_cast at hle hge
  rw [hratio] at hle hge
  rw [abs_le]
  constructor <;> nlinarith

theorem isInfinite_ofInt {n : ℕ} (hle : n ≤ 2 ^ 53) : isInfinite (ofInt n) = false := by
  obtain rfl | hn := Nat.eq_zero_or_pos n
  · rfl
  · obtain ⟨m, j, hm, hnormal, hmj, hunpacked⟩ :=
      unpacked_ofRat_intCast (n := n) (by omega) (by rwa [Int.natAbs_natCast])
    have hofInt : ofInt n = ofRat (n : ℤ) := by rw [ofInt, ofRat, Rat.num_intCast, Rat.den_intCast]
    change (unpacked (ofInt n)).isInf = false
    rw [hofInt, hunpacked]
    rfl

/-! ## Accurate powers -/

/-- A power of doubles is accurate to 50 binary places, less than mathematical libraries promise. -/
def IsAccurateAt (power : Float → Float → Float) (x y : Float) : Prop :=
  |(toRat (power x y) : ℝ) - (toRat x : ℝ) ^ (toRat y : ℝ)| ≤
    2 ^ (-50 : ℤ) * (toRat x : ℝ) ^ (toRat y : ℝ)

/-- A root without an error is accurate. -/
theorem isAccurateAt_of_exact {power : Float → Float → Float} {x y : Float} {r : ℚ} {n : ℕ} (hn : n ≠ 0)
    (hr : 0 ≤ r) (hx : toRat x = r ^ n) (hy : toRat y = 1 / n) (hp : toRat (power x y) = r) :
    IsAccurateAt power x y := by
  have hroot : (toRat x : ℝ) ^ (toRat y : ℝ) = r := by
    rw [hx, hy]
    push_cast
    rw [one_div]
    exact Real.pow_rpow_inv_natCast (by exact_mod_cast hr) hn
  rw [IsAccurateAt, hroot, hp, sub_self, abs_zero]
  have : (0 : ℝ) ≤ r := by exact_mod_cast hr
  positivity

/-- **An accurate power rounds to a number next to the root.** -/
theorem abs_nearestInt_power_sub_le {power : Float → Float → Float} {n r : ℕ} (hn : 2 ≤ n)
    (hle : n ≤ 2 ^ 53) (hr : 2 ≤ r) (hsmall : r < 2 ^ 48) {b : ℤ} (hb : b ≤ 1000)
    (hlt : (r ^ n : ℚ) < 2 ^ b) (hpower : IsAccurateAt power (ofInt (r ^ n : ℕ)) (1 / ofInt n)) :
    |nearestInt (power (ofInt (r ^ n : ℕ)) (1 / ofInt n)) - r| ≤ 1 := by
  obtain ⟨hx, hxr⟩ := abs_toRat_ofInt_sub_le (k := r ^ n) (by positivity) hb (by exact_mod_cast hlt)
  have hy := toRat_reciprocal_near (by omega : 0 < n) hle
  generalize hguess : power (ofInt (r ^ n : ℕ)) (1 / ofInt n) = guess at hpower
  have hnear : |(toRat guess : ℝ) - r| < 3 / 2 := by
    refine abs_sub_lt_of_accurate (by exact_mod_cast one_le_two.trans hr) (by exact_mod_cast hsmall) hn
      (x := (toRat (ofInt (r ^ n : ℕ)) : ℝ)) (y := (toRat (1 / ofInt n) : ℝ)) ?_ ?_ ?_ ?_
    · exact_mod_cast hx
    · have := (Rat.cast_le (K := ℝ)).2 hxr
      simpa only [Rat.cast_abs, Rat.cast_sub, Rat.cast_mul, Rat.cast_zpow, Rat.cast_ofNat,
        Rat.cast_natCast, Nat.cast_pow, Rat.cast_pow] using this
    · have := (Rat.cast_le (K := ℝ)).2 hy
      simpa only [Rat.cast_abs, Rat.cast_sub, Rat.cast_mul, Rat.cast_zpow, Rat.cast_ofNat,
        Rat.cast_natCast, Rat.cast_one] using this
    · rw [IsAccurateAt, hguess] at hpower
      exact hpower
  have hnear' : |toRat guess - r| < 3 / 2 := by
    rw [← Rat.cast_lt (K := ℝ)]
    simpa only [Rat.cast_abs, Rat.cast_sub, Rat.cast_natCast, Rat.cast_div, Rat.cast_ofNat] using hnear
  have hr' : (2 : ℚ) ≤ r := by exact_mod_cast hr
  have hrounded := abs_nearestInt_sub_le (x := guess) (by linarith [(abs_lt.1 hnear').1])
  have hclose : |((nearestInt guess - r : ℤ) : ℚ)| < (2 : ℤ) := by
    push_cast
    linarith [abs_sub_le (nearestInt guess : ℚ) (toRat guess) r]
  exact Int.lt_add_one_iff.1 (by exact_mod_cast hclose)

end Double

namespace Number

variable {power : Float → Float → Float} {n k r : ℕ} {q : ℚ}

/-! ## Roots of whole numbers -/

/-- **A root that is found is one.** -/
theorem pow_eq_of_natRoot (hn : n ≠ 0) (h : natRoot? power n k = .ok (some r)) : r ^ n = k := by
  unfold natRoot? at h
  split at h
  next hsmall =>
    obtain rfl : k = r := Option.some.inj (Except.ok.inj h)
    obtain rfl | rfl : k = 0 ∨ k = 1 := by omega
    · exact zero_pow hn
    · exact one_pow n
  next =>
    split at h
    next => cases h
    next =>
      split at h
      next => cases h
      next =>
        have hroot := List.find?_some (Except.ok.inj h)
        rw [Bool.and_eq_true, beq_iff_eq] at hroot
        exact hroot.2

/-- Zero and one are their own roots. -/
theorem natRoot?_pow_of_lt_two (hn : n ≠ 0) (hr : r < 2) : natRoot? power n (r ^ n) = .ok (some r) := by
  have hpow : r ^ n = r := by
    obtain rfl | rfl : r = 0 ∨ r = 1 := by omega
    · exact zero_pow hn
    · exact one_pow n
  rw [hpow]
  exact if_pos hr

/-- From the cut-off on there is no search. -/
theorem natRoot?_of_le (h : 2 ^ 999 ≤ k) : natRoot? power n k = .ok none := by
  have hk : ¬k < 2 := by
    have : 2 ^ 1 ≤ 2 ^ 999 := Nat.pow_le_pow_right two_pos (by decide)
    generalize 2 ^ 999 = b at h this
    omega
  rw [natRoot?, if_neg hk]
  exact if_pos h

/-- The exponent of a number below the cut-off is small. -/
theorem exponent_lt {b : ℕ} (hr : 2 ≤ r) (hlt : r ^ n < 2 ^ b) : n < b :=
  (Nat.pow_lt_pow_iff_right one_lt_two).1 ((Nat.pow_le_pow_left hr n).trans_lt hlt)

/-- Below the cut-off the root of a power is searched at the guess and next to it. -/
theorem natRoot?_pow_eq (power : Float → Float → Float) (hn : n ≠ 0) (hr : 2 ≤ r)
    (hlt : r ^ n < 2 ^ 999) {guess : ℕ} (hguess :
      (Double.nearestInt (power (Double.ofInt (r ^ n : ℕ)) (1 / Double.ofInt n))).toNat = guess) :
    natRoot? power n (r ^ n) = .ok ([guess - 1, guess, guess + 1].find? fun c =>
      (decide (c < 2) || decide (n ≤ (r ^ n).log2)) && Nat.pow c n == r ^ n) := by
  have hk : ¬r ^ n < 2 := not_lt.2 (hr.trans (Nat.le_self_pow hn r))
  have hfinite : Double.isInfinite (Double.ofInt n) = false :=
    Double.isInfinite_ofInt ((exponent_lt hr hlt).le.trans (by decide))
  rw [natRoot?, if_neg hk, if_neg (show ¬Nat.pow 2 999 ≤ r ^ n from not_le.2 hlt), hfinite]
  simp only [hguess]
  rfl

/-- **A root that is the guess or next to it is found.** -/
theorem natRoot?_of_near (hn : n ≠ 0) (hr : 2 ≤ r) (hlt : r ^ n < 2 ^ 999)
    (hnear : |Double.nearestInt (power (Double.ofInt (r ^ n : ℕ)) (1 / Double.ofInt n)) - r| ≤ 1) :
    natRoot? power n (r ^ n) = .ok (some r) := by
  obtain ⟨guess, hguess⟩ : ∃ g : ℕ,
    (Double.nearestInt (power (Double.ofInt (r ^ n : ℕ)) (1 / Double.ofInt n))).toNat = g := ⟨_, rfl⟩
  have hmem : r ∈ [guess - 1, guess, guess + 1] := by
    rw [abs_le] at hnear
    simp only [List.mem_cons, List.not_mem_nil, or_false]
    omega
  have hlog : n ≤ (r ^ n).log2 := (Nat.le_log2 (by positivity)).2 (Nat.pow_le_pow_left hr n)
  have hsearch := natRoot?_pow_eq power hn hr hlt hguess
  obtain ⟨s, hs⟩ := Option.isSome_iff_exists.1 (List.find?_isSome
    (p := fun c => (decide (c < 2) || decide (n ≤ (r ^ n).log2)) && Nat.pow c n == r ^ n).2
      ⟨r, hmem, by simp [hlog]⟩)
  rw [hs] at hsearch
  -- whatever is found first is a root, and there is only one
  rw [hsearch, Nat.pow_left_injective hn (pow_eq_of_natRoot hn hsearch)]

/-- **The root of a power is found**, if it is small and the power below the cut-off. -/
theorem natRoot?_pow (hn : 2 ≤ n) (hsmall : r < 2 ^ 48) (hlt : r ^ n < 2 ^ 999)
    (hpower : 2 ≤ r ^ n → Double.IsAccurateAt power (Double.ofInt (r ^ n : ℕ)) (1 / Double.ofInt n)) :
    natRoot? power n (r ^ n) = .ok (some r) := by
  obtain hr | hr := Nat.lt_or_ge r 2
  · exact natRoot?_pow_of_lt_two (by omega) hr
  · have hn' : n ≤ 2 ^ 53 := (exponent_lt hr hlt).le.trans (by decide)
    have hlt' : (r ^ n : ℚ) < 2 ^ (999 : ℤ) := by
      have : ((r ^ n : ℕ) : ℚ) < ((2 ^ 999 : ℕ) : ℚ) := Nat.cast_lt.2 hlt
      rw [Nat.cast_pow, Nat.cast_pow] at this
      exact this
    have haccurate := hpower (hr.trans (Nat.le_self_pow (by omega) r))
    exact natRoot?_of_near (by omega) hr hlt
      (Double.abs_nearestInt_power_sub_le hn hn' hr hsmall (by decide) hlt' haccurate)

/-- A search for the root of a power does not fail. -/
theorem exists_natRoot_pow (power : Float → Float → Float) (hn : n ≠ 0) (r : ℕ) :
    ∃ o, natRoot? power n (r ^ n) = .ok o := by
  obtain hr | hr := Nat.lt_or_ge r 2
  · exact ⟨_, natRoot?_pow_of_lt_two hn hr⟩
  · obtain hle | hlt := le_or_gt (2 ^ 999) (r ^ n)
    · exact ⟨_, natRoot?_of_le hle⟩
    · exact ⟨_, natRoot?_pow_eq power hn hr hlt rfl⟩

/-! ## Roots of rationals -/

open Kernel (exists_of_bind_ok)

theorem ratRoot?_of_natRoot {a b : ℕ} (hnum : natRoot? power n q.num.natAbs = .ok (some a))
    (hden : natRoot? power n q.den = .ok (some b)) : ratRoot? power n q = .ok (some (mkRat a b)) := by
  rw [ratRoot?, hnum]
  simp only [bind, Except.bind, hden]
  rfl

/-- **A rational root that is found is one.** -/
theorem pow_eq_of_ratRoot {s : ℚ} (hn : n ≠ 0) (hq : 0 ≤ q) (h : ratRoot? power n q = .ok (some s)) :
    0 ≤ s ∧ s ^ n = q := by
  obtain ⟨a, b, ha, hb, rfl⟩ : ∃ a b : ℕ, natRoot? power n q.num.natAbs = .ok (some a) ∧
      natRoot? power n q.den = .ok (some b) ∧ mkRat a b = s := by
    unfold ratRoot? at h
    obtain ⟨_ | a, ha, h⟩ := exists_of_bind_ok h
    · cases h
    · obtain ⟨_ | b, hb, h⟩ := exists_of_bind_ok h
      · cases h
      · cases h
        exact ⟨a, b, ha, hb, rfl⟩
  have hnum := pow_eq_of_natRoot hn ha
  have hden := pow_eq_of_natRoot hn hb
  rw [Rat.mkRat_eq_div]
  refine ⟨by positivity, ?_⟩
  have hcast : (q.num.natAbs : ℚ) = q.num := by
    rw [← Int.cast_natCast, Int.natAbs_of_nonneg (Rat.num_nonneg.2 hq)]
  rw [div_pow, Int.cast_natCast, ← Nat.cast_pow, ← Nat.cast_pow, hnum, hden, hcast, Rat.num_div_den]

/-- A root is within reach of the search: it is small, its power is below the cut-off, and the power of
doubles that the search starts from is accurate. -/
structure IsInReach (power : Float → Float → Float) (n : ℕ) (q : ℚ) : Prop where
  num_lt : q.num < 2 ^ 48
  den_lt : q.den < 2 ^ 48
  num_pow_lt : (q ^ n).num < 2 ^ 999
  den_pow_lt : (q ^ n).den < 2 ^ 999
  accurate : ∀ k : ℕ, 2 ≤ k → ((k : ℤ) = (q ^ n).num ∨ k = (q ^ n).den) →
    Double.IsAccurateAt power (Double.ofInt k) (1 / Double.ofInt n)

/-- **A root within reach is found.** -/
theorem IsInReach.ratRoot?_pow (h : IsInReach power n q) (hn : 2 ≤ n) (hq : 0 ≤ q) :
    ratRoot? power n (q ^ n) = .ok (some q) := by
  have hnatAbs : (q.num.natAbs : ℤ) = q.num := Int.natAbs_of_nonneg (Rat.num_nonneg.2 hq)
  have hnumpow : (q ^ n).num = (q.num.natAbs ^ n : ℕ) := by rw [Rat.num_pow, Nat.cast_pow, hnatAbs]
  have hnum := h.num_lt
  have hpow := h.num_pow_lt
  rw [hnumpow] at hpow
  have hroot : natRoot? power n (q ^ n).num.natAbs = .ok (some q.num.natAbs) := by
    rw [hnumpow, Int.natAbs_natCast]
    exact natRoot?_pow hn (by omega) (by exact_mod_cast hpow) fun hk =>
      h.accurate _ hk (.inl hnumpow.symm)
  have hroot' : natRoot? power n (q ^ n).den = .ok (some q.den) := by
    rw [Rat.den_pow]
    exact natRoot?_pow hn h.den_lt (by rw [← Rat.den_pow]; exact h.den_pow_lt) fun hk =>
      h.accurate _ hk (.inr (Rat.den_pow q n).symm)
  rw [ratRoot?_of_natRoot hroot hroot', hnatAbs, Rat.mkRat_self]

/-- The power of a root is beyond the cut-off of the search. -/
def IsBeyond (n : ℕ) (q : ℚ) : Prop := 2 ^ 999 ≤ (q ^ n).num ∨ 2 ^ 999 ≤ (q ^ n).den

/-- Both searches for the root of a power end. -/
theorem exists_ratRoot_pow (power : Float → Float → Float) (hn : n ≠ 0) (q : ℚ) :
    ∃ a b, natRoot? power n (q ^ n).num.natAbs = .ok a ∧ natRoot? power n (q ^ n).den = .ok b ∧
      ratRoot? power n (q ^ n) = .ok (a.bind fun a => b.map fun b => mkRat a b) := by
  obtain ⟨a, ha⟩ := exists_natRoot_pow power hn q.num.natAbs
  obtain ⟨b, hb⟩ := exists_natRoot_pow power hn q.den
  rw [← Int.natAbs_pow, ← Rat.num_pow] at ha
  rw [← Rat.den_pow] at hb
  refine ⟨a, b, ha, hb, ?_⟩
  rw [ratRoot?, ha]
  simp only [bind, Except.bind, hb]
  cases a with
  | none => rfl
  | some a => cases b <;> rfl

/-- **Beyond the cut-off no root is found.** -/
theorem IsBeyond.ratRoot?_pow (h : IsBeyond n q) (power : Float → Float → Float) (hn : n ≠ 0)
    (hq : 0 ≤ q) : ratRoot? power n (q ^ n) = .ok none := by
  obtain ⟨a, b, ha, hb, hroot⟩ := exists_ratRoot_pow power hn q
  rw [hroot]
  obtain hle | hle := h
  · have hnatAbs : ((q ^ n).num.natAbs : ℤ) = (q ^ n).num :=
      Int.natAbs_of_nonneg (Rat.num_nonneg.2 (pow_nonneg hq n))
    rw [natRoot?_of_le (by rw [← hnatAbs] at hle; exact_mod_cast hle)] at ha
    cases ha
    rfl
  · rw [natRoot?_of_le hle] at hb
    cases hb
    cases a <;> rfl

/-- **The search for a rational root finds it or nothing.** -/
theorem ratRoot?_pow_cases (power : Float → Float → Float) (hn : n ≠ 0) (hq : 0 ≤ q) :
    ratRoot? power n (q ^ n) = .ok (some q) ∨ ratRoot? power n (q ^ n) = .ok none := by
  obtain ⟨a, b, -, -, hroot⟩ := exists_ratRoot_pow power hn q
  cases ho : a.bind fun a => b.map fun b => mkRat a b with
  | none => exact .inr (hroot.trans (congrArg _ ho))
  | some s =>
      rw [ho] at hroot
      obtain ⟨hs, hpow⟩ := pow_eq_of_ratRoot hn (pow_nonneg hq n) hroot
      rw [hroot, (pow_left_inj₀ hs hq hn).1 hpow]
      exact .inl rfl

/-! ## Powers -/

/-- The approximate lane has no exact values. -/
theorem isExact_powApproximate {precision : ℕ} {a b v : Scalar}
    (h : powApproximate precision a b = .ok v) : v.isExact = false := by
  have hdouble : ∀ {x : Except NumberFault Float}, (do return Scalar.machine (← x)) = .ok v →
      v.isExact = false := fun hx => by
    obtain ⟨x, -, hx⟩ := exists_of_bind_ok hx
    cases hx
    rfl
  unfold powApproximate at h
  simp only at h
  split at h
  next lane =>
    obtain ⟨x, -, h⟩ := exists_of_bind_ok h
    obtain ⟨y, -, h⟩ := exists_of_bind_ok h
    obtain ⟨d, -, h⟩ := exists_of_bind_ok h
    cases h
    rfl
  next =>
    split at h
    next =>
      cases h
      rfl
    next => exact hdouble h

variable {precision : ℕ} {v e : ℚ}

theorem powWith_ofRat (power : Float → Float → Float) (precision : ℕ) (hv : 0 ≤ v) (he : e.den ≠ 1) :
    powWith power precision (.ofRat v) (.ofRat e) =
      (do return .real (← powReal power precision (.exact v) (.exact e))) :=
  powWith_broken power precision rfl
    (by rw [isNegative_exact, decide_eq_false (not_lt.2 hv)]) he

/-- **A power is exact if the root of its base is found.** -/
theorem powWith_of_ratRoot (precision : ℕ) {s : ℚ} (hv : 0 ≤ v) (he : e.den ≠ 1)
    (hroot : ratRoot? power e.den v = .ok (some s)) (hs : s = 0 → 0 < e) :
    powWith power precision (.ofRat v) (.ofRat e) = .ok (.ofRat (s ^ e.num)) := by
  have hpow : ratPow s e.num = .ok (s ^ e.num) :=
    ratPow_eq fun hneg hzero => (Rat.num_neg.1 hneg).not_gt (hs hzero)
  rw [powWith_ofRat power precision hv he]
  simp only [powReal, hroot, bind, Except.bind, hpow]
  rfl

/-- **A power is not exact if no root of its base is found.** -/
theorem isExact_powWith_of_none (hv : 0 ≤ v) (he : e.den ≠ 1)
    (hroot : ratRoot? power e.den v = .ok none) {x : Number}
    (hx : powWith power precision (.ofRat v) (.ofRat e) = .ok x) : x.isExact = false := by
  rw [powWith_ofRat power precision hv he] at hx
  obtain ⟨y, happrox, hx⟩ := exists_of_bind_ok hx
  simp only [powReal, hroot, bind, Except.bind] at happrox
  cases hx
  change (y.isExact && _) = false
  rw [isExact_powApproximate happrox, Bool.false_and]

theorem IsBeyond.isExact_powWith (h : IsBeyond n q) (hn : 2 ≤ n) (hq : 0 ≤ q) (he : e.den = n)
    {x : Number} (hx : powWith power precision (.ofRat (q ^ n)) (.ofRat e) = .ok x) : x.isExact = false := by
  have hroot := h.ratRoot?_pow power (by omega) hq
  rw [← he] at hroot hx hn
  exact isExact_powWith_of_none (pow_nonneg hq _) (by omega) hroot hx

/-- **Exact roots.**  For a rational `q` that is not negative and a whole number `n` from two on, and for
any power of doubles that the search starts from: within reach, the root of `q ^ n` is found, and every
power of it with the denominator `n` is exact, unless zero is to be inverted; beyond the cut-off no root
is found, and no such power is exact; and the search never finds anything else. -/
theorem exact_roots (power : Float → Float → Float) (hq : 0 ≤ q) (hn : 2 ≤ n) :
    (IsInReach power n q → ratRoot? power n (q ^ n) = .ok (some q) ∧
      ∀ (precision : ℕ) (e : ℚ), e.den = n → (q = 0 → 0 < e) →
        powWith power precision (.ofRat (q ^ n)) (.ofRat e) = .ok (.ofRat (q ^ e.num))) ∧
    (IsBeyond n q → ratRoot? power n (q ^ n) = .ok none ∧
      ∀ (precision : ℕ) (e : ℚ) (x : Number), e.den = n →
        powWith power precision (.ofRat (q ^ n)) (.ofRat e) = .ok x → x.isExact = false) ∧
    (ratRoot? power n (q ^ n) = .ok (some q) ∨ ratRoot? power n (q ^ n) = .ok none) := by
  have hpow : 0 ≤ q ^ n := pow_nonneg hq n
  refine ⟨fun hreach => ?_, fun hbeyond => ?_, ratRoot?_pow_cases power (by omega) hq⟩
  · have hroot := hreach.ratRoot?_pow hn hq
    refine ⟨hroot, fun precision e he hzero => powWith_of_ratRoot precision hpow (by omega) ?_ hzero⟩
    rw [he]
    exact hroot
  · have hroot := hbeyond.ratRoot?_pow power (by omega) hq
    exact ⟨hroot, fun precision e x he hx => hbeyond.isExact_powWith hn hq he hx⟩

/-- `9 / 4` is the square of `3 / 2`, if square roots are started from square roots of doubles. -/
theorem exact_roots_three_halves :
    ((0 : ℚ) ≤ 3 / 2 ∧ IsInReach (fun x _ => x.sqrt) 2 (3 / 2)) ∧
      ratRoot? (fun x _ => x.sqrt) 2 ((3 / 2) ^ 2) = .ok (some (3 / 2)) ∧
      powWith (fun x _ => x.sqrt) machinePrecision (.ofRat ((3 / 2) ^ 2)) (.ofRat (-3 / 2)) =
        .ok (.ofRat ((3 / 2) ^ (-3 : ℤ))) := by
  have hq : (0 : ℚ) ≤ 3 / 2 := by norm_num
  have hnum : ((3 / 2 : ℚ) ^ 2).num = 9 := by decide +kernel
  have hden : ((3 / 2 : ℚ) ^ 2).den = 4 := by decide +kernel
  have hreach : IsInReach (fun x _ => x.sqrt) 2 (3 / 2) := by
    refine ⟨by decide +kernel, by decide +kernel, ?_, ?_, ?_⟩
    · rw [hnum]
      decide +kernel
    · rw [hden]
      decide +kernel
    · rw [hnum, hden]
      rintro k - (hk | rfl)
      · obtain rfl : k = 9 := by exact_mod_cast hk
        exact Double.isAccurateAt_of_exact (r := 3) two_ne_zero (by norm_num) (by decide +kernel)
          (by decide +kernel) (by decide +kernel)
      · exact Double.isAccurateAt_of_exact (r := 2) two_ne_zero (by norm_num) (by decide +kernel)
          (by decide +kernel) (by decide +kernel)
  obtain ⟨hroot, hpower⟩ := (exact_roots (fun x _ => x.sqrt) hq le_rfl).1 hreach
  have he : (-3 / 2 : ℚ).num = -3 ∧ (-3 / 2 : ℚ).den = 2 := by decide +kernel
  have hexact := hpower machinePrecision (-3 / 2) he.2 fun hzero => absurd hzero (by norm_num)
  rw [he.1] at hexact
  exact ⟨⟨hq, hreach⟩, hroot, hexact⟩

/-- **A root can be missed**: the square root of `2 ^ 1000`. -/
theorem large_root_is_missed :
    ratRoot? Float.pow 2 ((2 ^ 500) ^ 2) ≠ .ok (some (2 ^ 500)) ∧
      pow machinePrecision (.ofRat ((2 ^ 500) ^ 2)) (.ofRat (1 / 2)) ≠ .ok (.ofRat (2 ^ 500)) := by
  have hq : (0 : ℚ) ≤ 2 ^ 500 := by positivity
  have hbeyond : IsBeyond 2 (2 ^ 500) := by
    refine .inl ?_
    rw [Rat.num_pow, Rat.num_pow, Rat.num_ofNat, ← pow_mul]
    exact pow_le_pow_right₀ one_le_two (by decide)
  have he : (1 / 2 : ℚ).den = 2 := by decide +kernel
  have hroot := hbeyond.ratRoot?_pow Float.pow two_ne_zero hq
  constructor
  · rw [hroot]
    exact fun h => by cases h
  · intro h
    have hexact : isExact (.ofRat (2 ^ 500)) = false := hbeyond.isExact_powWith le_rfl hq he h
    cases hexact

end Number

end SymbolicAlgebra
