import SymbolicAlgebra.Definition.Record
import SymbolicAlgebra.Proofs.Balance
import SymbolicAlgebra.Proofs.Printing
import SymbolicAlgebra.Proofs.Splicing

/-!
# Proofs/Moderation — numbers in range

The opposite of a decimal is rounded, and a decimal beyond the greatest exponent has none.  A decimal is
*moderate* if it is at most `10 ^ maxExponent`: then rounding signals nothing and gives a moderate decimal
again (`Decimal.exists_round`).  The other numbers are moderate as they are.  Shapes, expressions and texts
are moderate if all their numbers are; reading moderate texts fails for their parentheses only.
-/

namespace SymbolicAlgebra

/-! ## Decimals -/

namespace Decimal

/-- Whether a decimal is at most `10 ^ maxExponent` in magnitude, or no finite number. -/
def isModerate : Decimal → Bool
  | .finite _ c e => compareMagnitude c e 1 maxExponent != .gt
  | _ => true

/-- A magnitude lies between the powers of ten that its number of digits tells. -/
theorem magnitude_bounds {c : ℕ} (hc : c ≠ 0) (e : ℤ) :
    (10 : ℚ) ^ (e + digitCount c - 1) ≤ (c : ℚ) * 10 ^ e ∧
      (c : ℚ) * 10 ^ e < 10 ^ (e + digitCount c) := by
  obtain ⟨hle, hlt⟩ := digitCount_bounds hc
  have hpos : (0 : ℚ) < 10 ^ e := by positivity
  have hdigits := digitCount_pos hc
  constructor
  · rw [show e + (digitCount c : ℤ) - 1 = ((digitCount c - 1 : ℕ) : ℤ) + e by omega,
      zpow_add₀ (by norm_num), zpow_natCast]
    exact mul_le_mul_of_nonneg_right (by exact_mod_cast hle) hpos.le
  · rw [add_comm, zpow_add₀ (by norm_num), zpow_natCast]
    exact mul_lt_mul_of_pos_right (by exact_mod_cast hlt) hpos

/-- A magnitude up to a power of ten has no leading digit above it. -/
theorem lead_le {c : ℕ} (hc : c ≠ 0) {e m : ℤ} (h : (c : ℚ) * 10 ^ e ≤ 10 ^ m) :
    e + digitCount c - 1 ≤ m :=
  (zpow_le_zpow_iff_right₀ (by norm_num)).1 ((magnitude_bounds hc e).1.trans h)

/-- A magnitude up to a power of ten, in units of its last digit. -/
theorem magnitude_le_iff {c : ℕ} {e m : ℤ} (h : e ≤ m) :
    (c : ℚ) * 10 ^ e ≤ 10 ^ m ↔ c ≤ 10 ^ (m - e).toNat := by
  obtain ⟨n, hn⟩ := Int.eq_ofNat_of_zero_le (show 0 ≤ m - e by omega)
  rw [hn, Int.toNat_natCast, show m = (n : ℤ) + e by omega, zpow_add₀ (by norm_num), zpow_natCast,
    mul_le_mul_iff_of_pos_right (by positivity)]
  exact_mod_cast Iff.rfl

/-- Moderate decimals are those up to the greatest power of ten. -/
theorem isModerate_iff (s : Bool) (c : ℕ) (e : ℤ) :
    (finite s c e).isModerate = true ↔ (c : ℚ) * 10 ^ e ≤ 10 ^ maxExponent := by
  rw [isModerate, bne_iff_ne]
  by_cases hc : c = 0
  · subst hc
    rw [compareMagnitude, if_pos rfl, if_neg one_ne_zero, Nat.cast_zero, zero_mul]
    exact iff_of_true (by decide) (by positivity)
  · have hdigits := digitCount_pos hc
    have hone : digitCount 1 = 1 := digitCount_eq (k := 0) (by norm_num) (by norm_num)
    rw [compareMagnitude, if_neg hc, if_neg one_ne_zero, hone]
    simp only
    split
    next hlt =>
      refine iff_of_true (by decide) ((magnitude_bounds hc e).2.le.trans ?_)
      exact (zpow_le_zpow_iff_right₀ (by norm_num)).2 (by omega)
    next =>
      split
      next hgt =>
        refine iff_of_false (by decide) fun hle => ?_
        have := lead_le hc hle
        omega
      next =>
        rw [if_pos (by omega), one_mul, magnitude_le_iff (by omega), ← compare_le_iff_le]
        rfl

theorem isModerate_of_trace {x y : Decimal} (h : x.trace = y.trace) :
    y.isModerate = x.isModerate := by
  rcases x with ⟨s, c, e⟩ | s | ⟨s, m⟩ <;> rcases y with ⟨t, d, f⟩ | t | ⟨t, n⟩
  case finite.finite =>
    rw [Bool.eq_iff_iff, isModerate_iff, isModerate_iff]
    simp only [trace, sizeTrace, Option.some.injEq, Sum.inr.injEq] at h
    by_cases hc : c = 0 <;> by_cases hd : d = 0 <;> simp_all
  all_goals simp_all [trace, isModerate]

/-! ### Rounding -/

/-- Rounding a quotient does not pass a whole number. -/
theorem divHalfEven_le {n d m : ℕ} (hd : 0 < d) (h : n ≤ m * d) : divHalfEven n d ≤ m := by
  have hq : n / d ≤ m := Nat.div_le_of_le_mul (by rwa [mul_comm])
  rcases hq.lt_or_eq with hlt | heq
  · unfold divHalfEven
    simp only
    split_ifs <;> omega
  · -- nothing is left over if the quotient is the bound itself
    have hmod : n % d = 0 := by
      have := Nat.div_add_mod n d
      rw [heq, mul_comm] at this
      omega
    unfold divHalfEven
    simp only
    rw [hmod, if_pos (by omega)]
    exact hq

/-- What is left of a coefficient when its last `n` digits are rounded off. -/
theorem kept_le {c m n : ℕ} (h : c ≤ 10 ^ m * 10 ^ n) :
    (if digitCount c < n then 0 else divHalfEven c (Nat.pow 10 n)) ≤ 10 ^ m := by
  split
  · exact Nat.zero_le _
  · exact divHalfEven_le (Nat.pow_pos (by decide)) h

/-- A carry is given up with the last digit. -/
theorem carried_le {c : ℕ} {e m : ℤ} (h : (c : ℚ) * 10 ^ e ≤ 10 ^ m) :
    ((c / 10 : ℕ) : ℚ) * 10 ^ (e + 1) ≤ 10 ^ m :=
  have hten : ((c / 10 : ℕ) : ℚ) * 10 ≤ c := by exact_mod_cast Nat.div_mul_le_self c 10
  calc ((c / 10 : ℕ) : ℚ) * 10 ^ (e + 1)
      = ((c / 10 : ℕ) : ℚ) * 10 * 10 ^ e := by rw [zpow_add₀ (by norm_num), zpow_one]; ring
    _ ≤ c * 10 ^ e := mul_le_mul_of_nonneg_right hten (by positivity)
    _ ≤ 10 ^ m := h

/-- **A moderate value is rounded to a moderate one.** -/
theorem exists_round {p : ℕ} (hp : 0 < p) (s : Bool) {c : ℕ} {e : ℤ}
    (h : (c : ℚ) * 10 ^ e ≤ 10 ^ maxExponent) :
    ∃ d, round p s c e = .ok d ∧ d.isModerate = true := by
  by_cases hc : c = 0
  · refine ⟨_, if_pos hc, ?_⟩
    rw [isModerate_iff, Nat.cast_zero, zero_mul]
    positivity
  have hend : ∀ {c' : ℕ} {e' : ℤ}, (c' : ℚ) * 10 ^ e' ≤ 10 ^ maxExponent →
      ∃ d, (if maxExponent < e' + digitCount c' - 1 ∧ c' ≠ 0 then Except.error Signal.overflow
        else Except.ok (finite s c' e')) = .ok d ∧ d.isModerate = true := fun {c' e'} h' => by
    refine ⟨_, if_neg fun hover => ?_, (isModerate_iff s c' e').2 h'⟩
    have := lead_le hover.2 h'
    omega
  unfold round
  simp only
  rw [if_neg hc]
  split
  next hlt =>
    have hlead := lead_le hc h
    generalize hleast : max (e + (digitCount c : ℤ) - p) (tinyExponent p) = least at hlt ⊢
    have hle : least ≤ maxExponent := by
      rw [tinyExponent] at hleast
      simp only [maxExponent] at hleast hlead ⊢
      omega
    rw [magnitude_le_iff (by omega),
      show (maxExponent - e).toNat = (maxExponent - least).toNat + (least - e).toNat by omega,
      pow_add] at h
    have hkept := (magnitude_le_iff hle).2 (kept_le h)
    generalize (if digitCount c < (least - e).toNat then 0
      else divHalfEven c (Nat.pow 10 (least - e).toNat)) = c' at hkept ⊢
    split
    · exact hend (carried_le hkept)
    · exact hend hkept
  next => exact hend h

/-- **A moderate decimal has an opposite**, which is moderate. -/
theorem exists_negate {p : ℕ} (hp : 0 < p) {d : Decimal} (h : d.isModerate = true) :
    ∃ d', d.negate p = .ok d' ∧ d'.isModerate = true := by
  cases d with
  | finite s c e => exact exists_round hp _ ((isModerate_iff s c e).1 h)
  | infinite s => exact ⟨_, rfl, rfl⟩
  | nan s m => exact ⟨_, rfl, rfl⟩

end Decimal

/-! ## Numbers -/

/-- Whether a scalar is no decimal beyond the greatest power of ten. -/
def Scalar.isModerate : Scalar → Bool
  | .big d _ => d.isModerate
  | _ => true

theorem Scalar.negatable_isModerate : Negatable isModerate where
  exact _ := rfl
  machine _ := rfl
  same {a b} h := by
    rw [same_iff_trace] at h
    cases a <;> cases b <;> simp only [trace, Trace.big.injEq, reduceCtorEq] at h
    case big.big => exact Decimal.isModerate_of_trace h
    all_goals rfl
  neg {a} h := by
    cases a with
    | exact q => exact ⟨_, rfl, rfl⟩
    | machine x => exact ⟨_, rfl, rfl⟩
    | big d p =>
        obtain ⟨d', hd', hmoderate⟩ := Decimal.exists_negate (p := defaultPrecision) (by decide) h
        refine ⟨.big d' p, ?_, hmoderate⟩
        rw [neg, hd']
        rfl

/-- Whether both parts of a number are moderate. -/
abbrev Number.isModerate (v : Number) : Bool := v.isOf Scalar.isModerate

/-! ## Shapes -/

namespace Raw

mutual

/-- Whether all numbers of a shape are moderate. -/
def isModerate : Raw → Bool
  | decimal d => d.isModerate
  | value v => v.isModerate
  | list items => allModerate items
  | map _ items => allModerate items
  | _ => true

def allModerate : List Raw → Bool
  | [] => true
  | r :: rest => isModerate r && allModerate rest

end

theorem allModerate_iff {rs : List Raw} : allModerate rs = true ↔ ∀ r ∈ rs, r.isModerate = true := by
  induction rs with
  | nil => simp [allModerate]
  | cons r rest ih => simp [allModerate, ih]

mutual

/-- Names are no numbers, by whatever other names they go. -/
theorem isModerate_rename (f : String → String) : ∀ r : Raw, (r.rename f).isModerate = r.isModerate
  | name _ | int _ | double _ | decimal _ | fraction _ | complex _ _ | value _ | bool _ | null => rfl
  | list items => allModerate_renameAll f items
  | map _ _ => rfl

theorem allModerate_renameAll (f : String → String) : ∀ rs : List Raw,
    allModerate (renameAll f rs) = allModerate rs
  | [] => rfl
  | r :: rest => by
      rw [renameAll, allModerate, isModerate_rename f r, allModerate_renameAll f rest, allModerate]

end

end Raw

/-- **The number that a moderate shape stands for is moderate**; a shape that stands for none is of a wrong
type. -/
theorem Definition.numberOf_cases {r : Raw} (hr : r.isModerate = true) (p : Nat) :
    (∃ v, numberOf p r = .ok v ∧ v.isModerate = true) ∨
      ∃ f, numberOf p r = .error f ∧ f.kind = .type := by
  have hp := Scalar.negatable_isModerate
  cases r with
  | int n => exact .inl ⟨_, rfl, Number.isOf_real hp _⟩
  | fraction q => exact .inl ⟨_, rfl, Number.isOf_real hp _⟩
  | double x => exact .inl ⟨_, rfl, Number.isOf_real hp _⟩
  | decimal d => exact .inl ⟨_, rfl, (Number.isOf_real hp _).trans hr⟩
  | complex x y => exact .inl ⟨_, rfl, Number.isOf_ofParts hp rfl rfl⟩
  | value v => exact .inl ⟨_, rfl, hr⟩
  | _ => exact .inr ⟨_, rfl, rfl⟩

/-! ## Expressions -/

namespace Expr

mutual

/-- Whether all numbers of an expression are moderate; what an error holds is never taken out of it. -/
def isModerate : Expr → Bool
  | number v => v.isModerate
  | application _ ops _ _ => allModerate ops
  | _ => true

def allModerate : List Expr → Bool
  | [] => true
  | e :: rest => isModerate e && allModerate rest

end

theorem allModerate_iff {es : List Expr} :
    allModerate es = true ↔ ∀ e ∈ es, e.isModerate = true := by
  induction es with
  | nil => simp [allModerate]
  | cons e rest ih => simp [allModerate, ih]

theorem isModerate_application {f : String} {ops : List Expr} {d : Option Nat} {c : Bool} :
    (application f ops d c).isModerate = true ↔ ∀ e ∈ ops, e.isModerate = true := allModerate_iff

theorem isModerate_of_isError {e : Expr} (h : e.isError = true) : e.isModerate = true := by
  cases e with
  | error a b x => rfl
  | _ => cases h

theorem congruence_isModerate :
    Congruence (fun e x => x.isModerate = e.isModerate)
      fun xs ys => allModerate ys = allModerate xs where
  number h := Number.isOf_of_same Scalar.negatable_isModerate h
  symbol := rfl
  application _ h := h
  error _ := rfl
  nil := rfl
  cons _ hx hxs := by rw [allModerate, allModerate, hx, hxs]

theorem isModerate_of_same {e x : Expr} (h : e.same x = true) : x.isModerate = e.isModerate :=
  congruence_isModerate.of_same h

theorem isModerate_flatten {a : Option String} {es : List Expr}
    (hes : ∀ e ∈ es, e.isModerate = true) : ∀ e ∈ flatten a es, e.isModerate = true :=
  forall_flatten (fun _ _ _ _ _ h => isModerate_application.1 h) hes

end Expr

/-! ## Texts -/

namespace Sexpr

/-- Whether an atom is read, as a moderate number if as a number at all. -/
def Token.isModerate : Token → Bool
  | .atom s =>
      match Sexpr.atom s with
      | .ok r => r.isModerate
      | .error _ => false
  | _ => true

/-- Whether all numbers of a text are moderate. -/
def isModerate (text : String) : Bool := (tokenize text).all Token.isModerate

section Texts

variable {text : String} (htext : isModerate text = true)

include htext

theorem atom_of_isModerate (s : String) (hs : .atom s ∈ tokenize text) :
    ∃ r, atom s = .ok r ∧ r.isModerate = true := by
  have h := List.all_eq_true.1 htext _ hs
  simp only [Token.isModerate] at h
  split at h
  next r hr => exact ⟨r, hr, h⟩
  next => cases h

/-- **What is read from a moderate text is moderate.** -/
theorem isModerate_of_parse {r : Raw} (h : parse text = .ok (some r)) : r.isModerate = true := by
  refine parse_induction (fun s hs r hr => ?_) (fun items hitems => Raw.allModerate_iff.2 hitems) h
  obtain ⟨r', hr', hmoderate⟩ := atom_of_isModerate htext s hs
  rw [hr] at hr'
  cases hr'
  exact hmoderate

/-- A moderate text that cannot be read is of a wrong value. -/
theorem fault_of_parse {f : Fault} (h : parse text = .error f) : f.kind = .value := by
  have hstops := readOne_outcome [] fun s hs =>
    (atom_of_isModerate htext s hs).imp fun _ h => h.1
  unfold parse at h
  split at h
  next => cases h
  next =>
    cases hread : readOne [] (tokenize text) with
    | error e =>
        rw [hread] at h hstops
        cases h
        rcases hstops with ⟨rfl, -⟩ | ⟨rfl, -⟩ <;> rfl
    | ok p =>
        rw [hread] at h
        simp only [bind, Except.bind] at h
        split at h <;> cases h
        rfl

theorem fault_of_parseAll {f : Fault} (h : parseAll text = .error f) : f.kind = .value := by
  have htells := readAll_outcome fun s hs =>
    (atom_of_isModerate htext s hs).imp fun _ h => h.1
  rw [parseAll] at h
  rw [h] at htells
  rcases htells with ⟨rfl, -⟩ | ⟨rfl, -⟩ <;> rfl

end Texts

end Sexpr

end SymbolicAlgebra
