import SymbolicAlgebra.Arithmetic
import SymbolicAlgebra.Proofs.Nearest
import SymbolicAlgebra.Proofs.Undefined

/-!
# Proofs/ZeroPower — negative powers of zero

A negative whole power of zero is not a number, in every lane.  A negative power with a denominator takes
other ways: an exact zero is its own root, which is then inverted, and a double zero is raised to the nearest
double of the exponent.  Neither is guarded, so both fail (`Number.pow_zero_negative`); only where the
nearest double of the exponent is zero or infinite there is a result.  Evaluating and building a power ends
the same way (`Kernel.negative_power_of_zero`).
-/

namespace SymbolicAlgebra

/-! ## Doubles -/

namespace Double

open Float.Model Float.Model.UnpackedFloat

/-- A double with its sign set is below zero, unless it is zero. -/
theorem lt_zero_of_isSigned {x : Float} (hnan : x.isNaN = false) (hsign : isSigned x = true)
    (hzero : (x == 0) = false) : x < 0 := by
  have hsigned : Sign.ofBitVec (@unpackSign Format.binary64 x.toBits.toBitVec) = .negative := by
    rw [sign_unpackSign, if_neg]
    exact not_lt.2 ((isSigned_iff x).1 hsign)
  have hplace : place (unpacked 0) = toLex (0, toLex (0, 0)) := rfl
  rw [lt_iff hnan rfl, hplace]
  have hunpacked : unpacked x = UnpackedFloat.unpack Format.binary64 x.toBits.toBitVec := rfl
  obtain ⟨-, ⟨-, hu⟩ | ⟨-, hu⟩⟩ | ⟨-, ⟨-, hu⟩ | ⟨_, hu⟩⟩ | ⟨-, -, _, hu⟩ := unpack_cases x.toBits.toBitVec
  · rw [hunpacked, hu, hsigned]
    simp [place, Sign.apply, Prod.Lex.toLex_lt_toLex]
  · change (unpacked x).isNaN = false at hnan
    rw [hunpacked, hu] at hnan
    cases hnan
  · rw [(beq_zero_iff hnan).2 ⟨_, hunpacked.trans hu⟩] at hzero
    cases hzero
  · rw [hunpacked, hu, hsigned]
    simp [place, Sign.apply, Prod.Lex.toLex_lt_toLex]
  · rw [hunpacked, hu, hsigned]
    simp [place, Sign.apply, Prod.Lex.toLex_lt_toLex]

theorem pow_zero_infinity (negative : Bool) :
    pow (zero negative) (signedInfinity true) = .ok infinity := by
  cases negative <;> rfl

theorem pow_zero_of_beq_zero (negative : Bool) {y : Float} (h : (y == 0) = true) :
    pow (zero negative) y = .ok 1 := if_pos h

theorem pow_zero_of_isSigned (negative : Bool) {y : Float} (hy : y.isFinite = true)
    (hsign : isSigned y = true) (hzero : (y == 0) = false) :
    pow (zero negative) y = .error .zeroPower := by
  have hnan : isNaN y = false := isNaN_of_isFinite hy
  have hinf : isInfinite y = false := isInf_of_isFinite hy
  have hbase : isNaN (zero negative) = false ∧ isInfinite (zero negative) = false := by
    cases negative <;> decide
  simp [pow, hzero, hnan, hinf, hbase, zero_beq_zero, lt_zero_of_isSigned hnan hsign hzero]

/-- **A double zero to the power of a negative rational**: there is a result only where the nearest double
of the exponent is zero or infinite. -/
theorem pow_zero_ofRat (negative : Bool) {e : ℚ} (he : e < 0) :
    pow (zero negative) (ofRat e) =
      if |e| ≤ 2 ^ (-1075 : ℤ) then .ok 1
      else if |e| < overflowThreshold then .error .zeroPower
      else .ok infinity := by
  split
  next h => exact pow_zero_of_beq_zero negative ((ofRat_beq_zero_iff e).2 h)
  next h =>
    rw [← ofRat_beq_zero_iff, Bool.not_eq_true] at h
    have hthreshold : (1 : ℚ) ≤ overflowThreshold := Decimal.one_le_overflowThreshold
    obtain ⟨hlt, hfinite⟩ | ⟨hle, -⟩ | ⟨hle, heq⟩ := hasDouble_ofRat e
    · have hsign : isSigned (ofRat e) = true := by
        rw [ofRat, isSigned_ofRatio _ _ e.den_nz, decide_eq_true_iff]
        exact Rat.num_neg.2 he
      rw [if_pos hlt]
      exact pow_zero_of_isSigned negative hfinite hsign h
    · linarith
    · rw [if_neg (by rw [abs_of_neg he]; linarith), heq]
      exact pow_zero_infinity negative

end Double

/-! ## Numbers -/

/-- Whether a number is an exact zero or a double zero. -/
def Scalar.isPlainZero : Scalar → Bool
  | .exact q => q == 0
  | .machine x => x == 0
  | .big _ _ => false

/-- What a negative power of such a zero comes to: with a whole exponent not a number; else a fault, but
for double zeros only if the exponent has a finite nearest double other than zero. -/
def Scalar.negativePower (base : Scalar) (e : ℚ) : Except NumberFault Number :=
  if e.den = 1 then .ok .notANumber
  else if base.isExact then .error .zeroRational
  else if |e| ≤ 2 ^ (-1075 : ℤ) then .ok (.real (.machine 1))
  else if |e| < Double.overflowThreshold then .error (.double .zeroPower)
  else .ok (.real (.machine Double.infinity))

theorem Scalar.isPlainZero_cases {base : Scalar} (h : base.isPlainZero = true) :
    base = .exact 0 ∨ ∃ negative, base = .machine (Double.zero negative) := by
  cases base with
  | exact q => exact .inl (congrArg _ (beq_iff_eq.1 h))
  | big d p => cases h
  | machine x =>
      change (x == 0) = true at h
      have hnan : x.isNaN = false := by
        by_contra hnan
        rw [Double.beq_zero_of_isNaN (Bool.not_eq_false _ ▸ hnan)] at h
        cases h
      obtain ⟨negative, rfl⟩ := Double.exists_zero hnan h
      exact .inr ⟨negative, rfl⟩

namespace Number

variable {e : ℚ}

section Routes

variable (power : Float → Float → Float)

/-- The root of zero is zero, and has no inverse. -/
theorem powReal_exact_zero (precision : ℕ) (he : e < 0) :
    powReal power precision (.exact 0) (.exact e) = .error .zeroRational := by
  have hroot : ratRoot? power e.den 0 = .ok (some 0) := rfl
  have hnum : ¬0 ≤ e.num := by
    rw [Rat.num_nonneg]
    exact not_le.2 he
  have hpow : ratPow 0 e.num = .error .zeroRational := by
    rw [ratPow, if_neg hnum]
    rfl
  simp only [powReal, hroot, bind, Except.bind, hpow]

theorem powReal_double_zero (precision : ℕ) (negative : Bool) (he : e < 0) :
    powReal power precision (.machine (Double.zero negative)) (.exact e) =
      if |e| ≤ 2 ^ (-1075 : ℤ) then .ok (.machine 1)
      else if |e| < Double.overflowThreshold then .error (.double .zeroPower)
      else .ok (.machine Double.infinity) := by
  have hlane : powReal power precision (.machine (Double.zero negative)) (.exact e) =
      powApproximate precision (.machine (Double.zero negative)) (.exact e) := rfl
  simp only [hlane, powApproximate, Scalar.bigLane?, Scalar.isExact, Bool.false_and, Scalar.toFloat,
    Double.pow_zero_ofRat negative he, Bool.false_eq_true, ↓reduceIte]
  split_ifs <;> rfl

theorem powWith_whole (precision : ℕ) {base : Scalar} (hnan : base.isNaN = false)
    (hzero : base.isZero = true) (he : e < 0) (hwhole : e.den = 1) :
    powWith power precision (.real base) (.ofRat e) = .ok notANumber := by
  have hinteger : integer? (.ofRat e) = some e.num := if_pos hwhole
  have hnumber : (isNaN (.real base) || isNaN (.ofRat e)) = false := by
    change ((base.isNaN || false) || false) = false
    rw [hnan]
    rfl
  have hnegative : (isZero (.real base) && decide (e.num < 0)) = true := by
    change (base.isZero && _) = true
    rw [hzero, decide_eq_true (Rat.num_neg.2 he)]
    rfl
  simp only [powWith, hnumber, hinteger, powWhole, hnegative, Bool.false_eq_true, ↓reduceIte]

theorem powWith_broken (precision : ℕ) {base : Scalar} (hnan : base.isNaN = false)
    (hnegative : base.isNegative = false) (hbroken : e.den ≠ 1) :
    powWith power precision (.real base) (.ofRat e) =
      (do return .real (← powReal power precision base (.exact e))) := by
  have hinteger : integer? (.ofRat e) = none := if_neg hbroken
  have hnumber : (isNaN (.real base) || isNaN (.ofRat e)) = false := by
    change ((base.isNaN || false) || false) = false
    rw [hnan]
    rfl
  simp only [powWith, hnumber, hinteger, Bool.false_eq_true, ↓reduceIte]
  simp only [ofRat, hnegative, Bool.false_and, Bool.false_eq_true, ↓reduceIte]

end Routes

/-- **Negative powers of zero, in every case.** -/
theorem pow_zero_negative (precision : ℕ) {base : Scalar} (hbase : base.isPlainZero = true) (he : e < 0) :
    pow precision (.real base) (.ofRat e) = base.negativePower e := by
  unfold pow Scalar.negativePower
  split
  next hwhole =>
    obtain rfl | ⟨negative, rfl⟩ := Scalar.isPlainZero_cases hbase
    · exact powWith_whole _ precision rfl rfl he hwhole
    · exact powWith_whole _ precision (by cases negative <;> rfl) (Double.zero_beq_zero negative) he hwhole
  next hbroken =>
    obtain rfl | ⟨negative, rfl⟩ := Scalar.isPlainZero_cases hbase
    · rw [powWith_broken _ precision rfl (by decide) hbroken, powReal_exact_zero _ precision he]
      rfl
    · have hnegative : (Scalar.machine (Double.zero negative)).isNegative = false := by
        cases negative <;> decide +kernel
      rw [powWith_broken _ precision (by cases negative <;> rfl) hnegative hbroken,
        powReal_double_zero _ precision negative he]
      simp only [Scalar.isExact, Bool.false_eq_true, ↓reduceIte]
      split_ifs <;> rfl

end Number

/-! ## Expressions -/

namespace Kernel

variable {k : Kernel} {b v x : Number} {f : NumberFault}

/-- The operator of powers is evaluated as one. -/
def EvaluatesPowers (k : Kernel) : Prop := (k.table.find? "Power").any (·.follows .power) = true

/-- The power of two literals, with the definition of the operator. -/
def powerOfLiterals (k : Kernel) (b x : Number) (canonical : Bool) : Expr :=
  .application "Power" [.number b, .number x] (k.table.functionNumber? "Power") canonical

section Literals

variable {E : Fault → Prop} (hfault : ∀ f, b.pow k.settings.precision x = .error f → E (.number f))

include hfault

/-- A power of literals is evaluated as the power of the numbers. -/
theorem yields_evaluate_powerOfLiterals {P : Option Number → Kernel → Prop} (hk : k.EvaluatesPowers)
    (canonical : Bool) (hok : ∀ v, b.pow k.settings.precision x = .ok v → P (some v) k) :
    Yields E (evaluate (k.powerOfLiterals b x canonical) false) k P := by
  obtain ⟨d, hd, hfollows⟩ := (Option.any_eq_true _ _).1 hk
  cases d with
  | symbol d => cases hfollows
  | function g =>
      have hg : (k.table.functionNumber? "Power").bind k.table.get? = some (.function g) := by
        rw [DefinitionTable.functionNumber?, hd]
        exact hd
      have happly : Evaluation.power.apply k.settings.precision [b, x] =
          (b.pow k.settings.precision x).map some := by
        cases hv : b.pow k.settings.precision x <;> simp [Evaluation.apply, Evaluation.binary, hv] <;> rfl
      refine yields_evaluateWith_application hg hfollows rfl ?_
      refine Yields.bind (P := fun o k' => o = some [b, x] ∧ k = k') ⟨rfl, rfl⟩ ?_
      rintro _ _ ⟨rfl, rfl⟩
      refine Yields.bind (P := P) ?_ fun o k' ho => by cases o <;> exact ho
      refine Yields.bind (P := fun p k' => p = k.settings.precision ∧ k = k') ⟨rfl, rfl⟩ ?_
      rintro _ _ ⟨rfl, rfl⟩
      rw [happly]
      cases hv : b.pow k.settings.precision x with
      | error f => exact hfault f hv
      | ok v => exact hok v hv

/-- A power of literals other than zero and one is built if the power of the numbers is there. -/
theorem yields_pow_literals {P : Expr → Kernel → Prop} (hzero : x.isZero = false)
    (hone : x.isOne = false) (hb : b.isOne = false)
    (hok : ∀ v, b.pow k.settings.precision x = .ok v → ∀ e k', P e k') :
    Yields E (pow (.number b) (.number x)) k P := by
  unfold pow
  simp only [Expr.isValid, Expr.literal?, Option.any_some, hzero, hone, hb, Bool.and_self, Bool.not_true,
    Bool.false_eq_true, ↓reduceIte]
  refine Yields.bind (P := fun p k' => p = k.settings.precision ∧ k = k') ⟨rfl, rfl⟩ ?_
  rintro _ _ ⟨rfl, rfl⟩
  unfold exactPower?
  cases hv : b.pow k.settings.precision x with
  | error f => exact hfault f hv
  | ok v =>
      refine Yields.bind (P := fun _ k' => k = k') rfl ?_
      rintro (_ | v') _ rfl
      · exact yields_apply (yields_intern (fun _ _ _ => hok v hv _ _) (hok v hv _ _))
      · exact yields_intern (fun _ _ _ => hok v hv _ _) (hok v hv _ _)

end Literals

/-- A power has a value: of the numbers, and of its expression in any kernel; and the expression can be
built. -/
structure PowersTo (b x v : Number) : Prop where
  value : ∀ precision, b.pow precision x = .ok v
  evaluation : ∀ (k : Kernel) (canonical : Bool), k.EvaluatesPowers →
    (evaluate (k.powerOfLiterals b x canonical) false).run.run k = (.ok (some v), k)
  construction : ∀ k : Kernel, ∃ e k', (pow (.number b) (.number x)).run.run k = (.ok e, k')

/-- A power fails: of the numbers, when its expression is evaluated, and when it is built. -/
structure PowerFails (b x : Number) (f : NumberFault) : Prop where
  value : ∀ precision, b.pow precision x = .error f
  evaluation : ∀ (k : Kernel) (canonical : Bool), k.EvaluatesPowers →
    ∃ k', (evaluate (k.powerOfLiterals b x canonical) false).run.run k = (.error (.number f), k')
  construction : ∀ k : Kernel,
    ∃ k', (pow (.number b) (.number x)).run.run k = (.error (.number f), k')

section Outcomes

variable (hzero : x.isZero = false) (hone : x.isOne = false) (hb : b.isOne = false)

include hzero hone hb

theorem powersTo_of_pow (h : ∀ precision, b.pow precision x = .ok v) : PowersTo b x v := by
  have hnever : ∀ (k : Kernel) f, b.pow k.settings.precision x = .error f → False := fun k f hf => by
    rw [h] at hf
    cases hf
  refine ⟨h, fun k canonical hk => ?_, fun k => ?_⟩
  · have hvalue : ∀ w, b.pow k.settings.precision x = .ok w → some w = some v ∧ k = k := fun w hw => by
      rw [h, Except.ok.injEq] at hw
      exact ⟨congrArg some hw.symm, rfl⟩
    obtain ⟨o, k', hrun, rfl, rfl⟩ := (yields_evaluate_powerOfLiterals (E := Never)
      (P := fun o k' => o = some v ∧ k' = k) (hnever k) hk canonical hvalue).exists_run
    exact hrun
  · obtain ⟨e, k', hrun, -⟩ := (yields_pow_literals (E := Never) (P := fun _ _ => True)
      (hnever k) hzero hone hb fun _ _ _ _ => trivial).exists_run
    exact ⟨e, k', hrun⟩

theorem powerFails_of_pow (h : ∀ precision, b.pow precision x = .error f) : PowerFails b x f := by
  have hfault : ∀ (k : Kernel) g, b.pow k.settings.precision x = .error g → Fault.number g = .number f :=
    fun k g hg => by
      rw [h, Except.error.injEq] at hg
      rw [hg]
  have hnever : ∀ (k : Kernel) w, b.pow k.settings.precision x = .ok w → False := fun k w hw => by
    rw [h] at hw
    cases hw
  refine ⟨h, fun k canonical hk => ?_, fun k => ?_⟩
  · obtain ⟨o, k', -, hfalse⟩ | ⟨g, k', hrun, rfl⟩ := (yields_evaluate_powerOfLiterals
      (E := (· = .number f)) (P := fun _ _ => False) (hfault k) hk canonical (hnever k)).ok_or_fault
    · exact absurd hfalse not_false
    · exact ⟨k', hrun⟩
  · obtain ⟨e, k', -, hfalse⟩ | ⟨g, k', hrun, rfl⟩ := (yields_pow_literals (E := (· = .number f))
      (P := fun _ _ => False) (hfault k) hzero hone hb fun w hw _ _ => hnever k w hw).ok_or_fault
    · exact absurd hfalse not_false
    · exact ⟨k', hrun⟩

end Outcomes

variable {base : Scalar} {e : ℚ}

theorem literal_zero_power (hbase : base.isPlainZero = true) (he : e < 0) :
    (Number.ofRat e).isZero = false ∧ (Number.ofRat e).isOne = false ∧
      (Number.real base).isOne = false := by
  have hone : e ≠ 1 := by
    rintro rfl
    exact absurd he (by decide)
  refine ⟨beq_eq_false_iff_ne.2 he.ne, beq_eq_false_iff_ne.2 hone, ?_⟩
  obtain rfl | ⟨negative, rfl⟩ := Scalar.isPlainZero_cases hbase
  · rfl
  · cases negative <;> decide

/-- **Negative powers of zero.**  For an exact zero or a double zero and a negative rational, in numbers, in
evaluation and in construction, at every precision: with a whole exponent there is no number; with any other
an exact zero cannot be inverted, and a double zero cannot be raised to the nearest double of the exponent,
unless that is zero or infinite. -/
theorem negative_power_of_zero (hbase : base.isPlainZero = true) (he : e < 0) :
    (e.den = 1 → PowersTo (.real base) (.ofRat e) .notANumber) ∧
    (e.den ≠ 1 → base.isExact = true → PowerFails (.real base) (.ofRat e) .zeroRational) ∧
    (e.den ≠ 1 → base.isExact = false →
      (2 ^ (-1075 : ℤ) < |e| → |e| < Double.overflowThreshold →
        PowerFails (.real base) (.ofRat e) (.double .zeroPower)) ∧
      (|e| ≤ 2 ^ (-1075 : ℤ) → PowersTo (.real base) (.ofRat e) (.real (.machine 1))) ∧
      (Double.overflowThreshold ≤ |e| →
        PowersTo (.real base) (.ofRat e) (.real (.machine Double.infinity)))) := by
  obtain ⟨hzero, hone, hb⟩ := literal_zero_power hbase he
  have hpow := fun precision => Number.pow_zero_negative precision hbase he
  have hvalue : ∀ {v}, base.negativePower e = .ok v → PowersTo (.real base) (.ofRat e) v :=
    fun hv => powersTo_of_pow hzero hone hb fun precision => (hpow precision).trans hv
  have hfault : ∀ {f}, base.negativePower e = .error f → PowerFails (.real base) (.ofRat e) f :=
    fun hf => powerFails_of_pow hzero hone hb fun precision => (hpow precision).trans hf
  have hthreshold : (2 : ℚ) ^ (-1075 : ℤ) < Double.overflowThreshold :=
    (zpow_lt_one_of_neg₀ one_lt_two (by decide)).trans_le Decimal.one_le_overflowThreshold
  unfold Scalar.negativePower at hvalue hfault
  refine ⟨fun hwhole => hvalue (if_pos hwhole), fun hbroken hexact => hfault ?_, fun hbroken hexact =>
    ⟨fun hlow hhigh => hfault ?_, fun hlow => hvalue ?_, fun hhigh => hvalue ?_⟩⟩
  · rw [if_neg hbroken, if_pos hexact]
  · rw [if_neg hbroken, if_neg (by simp [hexact]), if_neg (not_le.2 hlow), if_pos hhigh]
  · rw [if_neg hbroken, if_neg (by simp [hexact]), if_pos hlow]
  · rw [if_neg hbroken, if_neg (by simp [hexact]), 
      if_neg (not_le.2 (hthreshold.trans_le hhigh)), if_neg (not_lt.2 hhigh)]

/-- With the standard definitions, powers are evaluated as powers, whatever is called. -/
theorem evaluatesPowers_after (run : List Call) : (standard.after run).EvaluatesPowers :=
  isExact_after run "Power" .power rfl

/-- `0 ^ -3` is not a number, and `0.0 ^ (-1 / 2)` fails. -/
theorem negative_power_of_zero_double :
    (Scalar.isPlainZero (.exact 0) = true ∧ (-3 : ℚ) < 0) ∧
      (Scalar.isPlainZero (.machine 0) = true ∧ (-1 / 2 : ℚ) < 0) ∧
      PowersTo (.real (.exact 0)) (.ofRat (-3)) .notANumber ∧
      PowerFails (.real (.machine 0)) (.ofRat (-1 / 2)) (.double .zeroPower) := by
  have hexact : Scalar.isPlainZero (.exact 0) = true ∧ (-3 : ℚ) < 0 := ⟨rfl, by norm_num⟩
  have hdouble : Scalar.isPlainZero (.machine 0) = true ∧ (-1 / 2 : ℚ) < 0 := ⟨by decide, by norm_num⟩
  have hhalf : |(-1 / 2 : ℚ)| = 2 ^ (-1 : ℤ) := by
    rw [abs_of_neg hdouble.2]
    norm_num
  have hlow : (2 : ℚ) ^ (-1075 : ℤ) < |(-1 / 2 : ℚ)| :=
    (zpow_lt_zpow_right₀ one_lt_two (by decide)).trans_eq hhalf.symm
  have hhigh : |(-1 / 2 : ℚ)| < Double.overflowThreshold :=
    (hhalf.trans_lt (zpow_lt_one_of_neg₀ one_lt_two (by decide))).trans_le
      Decimal.one_le_overflowThreshold
  exact ⟨hexact, hdouble, (negative_power_of_zero hexact.1 hexact.2).1 (by decide +kernel),
    ((negative_power_of_zero hdouble.1 hdouble.2).2.2 (by decide +kernel) rfl).1 hlow hhigh⟩

/-- **A negative power of zero can fail**: `0 ^ (-1 / 2)`, as a number at machine precision, and when its
expression is evaluated or built in the standard kernel. -/
theorem zero_power_fails :
    Number.pow machinePrecision .zero (.ofRat (-1 / 2)) = .error .zeroRational ∧
      (∃ k, (evaluate (standard.powerOfLiterals .zero (.ofRat (-1 / 2)) true) false).run.run standard =
        (.error (.number .zeroRational), k)) ∧
      ∃ k, (pow (.number .zero) (.number (.ofRat (-1 / 2)))).run.run standard =
        (.error (.number .zeroRational), k) := by
  have hneg : (-1 / 2 : ℚ) < 0 := by norm_num
  have hfault : Scalar.negativePower (.exact 0) (-1 / 2) = .error .zeroRational := by
    rw [Scalar.negativePower, if_neg (by decide +kernel)]
    exact if_pos rfl
  have hzero : (Scalar.exact 0).isPlainZero = true := rfl
  obtain ⟨hne, hone, hb⟩ := literal_zero_power hzero hneg
  have hfails : PowerFails (.real (.exact 0)) (.ofRat (-1 / 2)) .zeroRational :=
    powerFails_of_pow hne hone hb fun precision => (Number.pow_zero_negative precision hzero hneg).trans hfault
  exact ⟨hfails.value machinePrecision, hfails.evaluation standard true (evaluatesPowers_after []),
    hfails.construction standard⟩

end Kernel

end SymbolicAlgebra
