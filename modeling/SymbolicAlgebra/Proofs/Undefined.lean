import SymbolicAlgebra.Proofs.Persistence
import SymbolicAlgebra.Proofs.Truth

/-!
# Proofs/Undefined — exact arithmetic that divides by zero

Closed arithmetic of whole literals is evaluated exactly.  A quotient by zero and a negative power of
zero have no value, and neither has anything that they are part of: `Expr.exactly` is the rational that
an expression stands for, if there is one, and evaluation gives that rational, or a double that is not a
number (`exact_evaluation`).  The one exception is an undefined dividend over a divisor that is not zero
and whose nearest double is: there doubles are divided by zero, which is a fault (`Expr.underflows`,
`lostDivisor_fails`).
-/

namespace SymbolicAlgebra

/-! ## What is not a number spreads -/

namespace Double

open Float.Model Float.Model.UnpackedFloat

theorem isNaN_iff (x : Float) : x.isNaN = true ↔ unpacked x = .notANumber := by
  change (unpacked x).isNaN = true ↔ _
  cases unpacked x <;> simp [UnpackedFloat.isNaN]

/-- An operation on doubles that what is not a number goes through. -/
theorem isNaN_of_operand {f : UnpackedFloat → UnpackedFloat → UnpackedFloat}
    (hleft : ∀ v, f .notANumber v = .notANumber) (hright : ∀ u, f u .notANumber = .notANumber)
    {x y : Float} (h : x.isNaN = true ∨ y.isNaN = true) :
    (Float.Model.pack (f (unpacked x) (unpacked y))).unpack.isNaN = true := by
  rw [isNaN_unpack_pack]
  rcases h with h | h
  · rw [(isNaN_iff x).1 h, hleft]
    rfl
  · rw [(isNaN_iff y).1 h, hright]
    rfl

variable {x y : Float}

theorem isNaN_add_of (h : x.isNaN = true ∨ y.isNaN = true) : (x + y).isNaN = true :=
  isNaN_of_operand (f := UnpackedFloat.add Format.binary64) (fun _ => rfl)
    (fun u => by cases u <;> rfl) h

theorem isNaN_sub_of (h : x.isNaN = true ∨ y.isNaN = true) : (x - y).isNaN = true :=
  isNaN_of_operand (f := UnpackedFloat.sub Format.binary64) (fun _ => rfl)
    (fun u => by cases u <;> rfl) h

theorem isNaN_mul_of (h : x.isNaN = true ∨ y.isNaN = true) : (x * y).isNaN = true :=
  isNaN_of_operand (f := UnpackedFloat.mul Format.binary64) (fun _ => rfl)
    (fun u => by cases u <;> rfl) h

theorem isNaN_div_of (h : x.isNaN = true ∨ y.isNaN = true) : (x / y).isNaN = true :=
  isNaN_of_operand (f := UnpackedFloat.div Format.binary64) (fun _ => rfl)
    (fun u => by cases u <;> rfl) h

theorem beq_zero_of_isNaN (h : x.isNaN = true) : (x == 0) = false := by
  change UnpackedFloat.beq (unpacked x) (unpacked 0) = false
  rw [(isNaN_iff x).1 h]
  rfl

end Double

/-! ## Numbers that stand for a rational or for none -/

namespace Number

/-- Whether a number is a double that is not a number. -/
def isUndefined : Number → Bool
  | .real (.machine x) => x.isNaN
  | _ => false

/-- The number is a rational, exactly, or it is not a number because there is none. -/
def Denotes (v : Number) : Option ℚ → Prop
  | some q => v = .ofRat q
  | none => v.isUndefined = true

/-- The rational that a number stands for. -/
def rational? : Number → Option ℚ
  | .real (.exact q) => some q
  | _ => none

theorem isNaN_of_isUndefined {v : Number} (h : v.isUndefined = true) : v.isNaN = true := by
  match v, h with
  | .real (.machine x), h =>
      change (x.isNaN || false) = true
      rw [Bool.or_false]
      exact h

theorem isUndefined_notANumber : notANumber.isUndefined = true := by decide

theorem denotes_rational? {v : Number} (h : (v.isRational || v.isUndefined) = true) :
    v.Denotes v.rational? := by
  match v, h with
  | .real (.exact _), _ => rfl
  | .real (.machine _), h => exact h

variable {a b : Number} {o p : Option ℚ}

/-- A number that stands for none is a double; a defined one has a nearest double. -/
theorem Denotes.cases (h : a.Denotes o) :
    (∃ q, o = some q ∧ a = .ofRat q) ∨ ∃ x : Float, o = none ∧ a = .real (.machine x) ∧
      x.isNaN = true := by
  cases o with
  | some q => exact .inl ⟨q, rfl, h⟩
  | none =>
      match a, h with
      | .real (.machine x), h => exact .inr ⟨x, rfl, rfl, h⟩

/-- **Operations that do not divide are strict**, in exact numbers as in doubles. -/
theorem denotes_binary (op : Operation) {f : ℚ → ℚ → ℚ} {g : Float → Float → Float}
    (hdivides : op.divides = false) (hf : ∀ x y, op.onRat x y = f x y)
    (hg : ∀ x y, op.onFloat x y = .ok (g x y))
    (hnan : ∀ {x y : Float}, x.isNaN = true ∨ y.isNaN = true → (g x y).isNaN = true)
    (ha : a.Denotes o) (hb : b.Denotes p) :
    ∃ c, binary op a b = .ok c ∧ c.Denotes (Option.map₂ f o p) := by
  rcases ha.cases with ⟨q, rfl, rfl⟩ | ⟨x, rfl, rfl, hx⟩ <;>
    rcases hb.cases with ⟨r, rfl, rfl⟩ | ⟨y, rfl, rfl, hy⟩
  · refine ⟨.ofRat (f q r), ?_, rfl⟩
    simp [binary, ofRat, Scalar.binary, hdivides, hf, bind, Except.bind, pure, Except.pure]
  · refine ⟨.real (.machine (g (Double.ofRat q) y)), ?_, hnan (.inr hy)⟩
    simp [binary, ofRat, Scalar.binary, hdivides, Scalar.bigLane?, Scalar.toFloat, hg, liftDouble,
      bind, Except.bind, pure, Except.pure]
  · refine ⟨.real (.machine (g x (Double.ofRat r))), ?_, hnan (.inl hx)⟩
    simp [binary, ofRat, Scalar.binary, hdivides, Scalar.bigLane?, Scalar.toFloat, hg, liftDouble,
      bind, Except.bind, pure, Except.pure]
  · refine ⟨.real (.machine (g x y)), ?_, hnan (.inl hx)⟩
    simp [binary, Scalar.binary, hdivides, Scalar.bigLane?, Scalar.toFloat, hg, liftDouble,
      bind, Except.bind, pure, Except.pure]

theorem add_denotes (ha : a.Denotes o) (hb : b.Denotes p) :
    ∃ c, a.add b = .ok c ∧ c.Denotes (Option.map₂ (· + ·) o p) :=
  denotes_binary .add rfl (fun _ _ => rfl) (fun _ _ => rfl) Double.isNaN_add_of ha hb

theorem sub_denotes (ha : a.Denotes o) (hb : b.Denotes p) :
    ∃ c, a.sub b = .ok c ∧ c.Denotes (Option.map₂ (· - ·) o p) :=
  denotes_binary .sub rfl (fun _ _ => rfl) (fun _ _ => rfl) Double.isNaN_sub_of ha hb

theorem mul_denotes (ha : a.Denotes o) (hb : b.Denotes p) :
    ∃ c, a.mul b = .ok c ∧ c.Denotes (Option.map₂ (· * ·) o p) :=
  denotes_binary .mul rfl (fun _ _ => rfl) (fun _ _ => rfl) Double.isNaN_mul_of ha hb

theorem neg_denotes (ha : a.Denotes o) : ∃ c, a.neg = .ok c ∧ c.Denotes (o.map (-·)) := by
  rcases ha.cases with ⟨q, rfl, rfl⟩ | ⟨x, rfl, rfl, hx⟩
  · exact ⟨.ofRat (-q), rfl, rfl⟩
  · exact ⟨.real (.machine (-x)), rfl, (Double.isNaN_neg x).trans hx⟩

end Number

/-- The quotient of rationals that may be undefined. -/
def exactQuotient (o p : Option ℚ) : Option ℚ := do
  let x ← o
  let y ← p
  if y = 0 then none else some (x / y)

/-- The power of rationals that may be undefined, the exponent being whole. -/
def exactPower (o p : Option ℚ) : Option ℚ := do
  let x ← o
  let n ← p
  if x = 0 ∧ n < 0 then none else some (x ^ n.num)

/-- Whether an undefined dividend meets a divisor that is not zero and whose nearest double is. -/
def quotientUnderflows (o p : Option ℚ) : Bool :=
  o.isNone && p.any fun y => y ≠ 0 && Double.ofRat y == 0

namespace Number

variable {a b : Number} {o p : Option ℚ}

/-- **Division is strict**, but for a divisor that is lost among the doubles. -/
theorem div_denotes (ha : a.Denotes o) (hb : b.Denotes p) (h : quotientUnderflows o p = false) :
    ∃ c, a.div b = .ok c ∧ c.Denotes (exactQuotient o p) := by
  rcases ha.cases with ⟨q, rfl, rfl⟩ | ⟨x, rfl, rfl, hx⟩ <;>
    rcases hb.cases with ⟨r, rfl, rfl⟩ | ⟨y, rfl, rfl, hy⟩
  · by_cases hr : r = 0
    · subst hr
      exact ⟨notANumber, rfl, isUndefined_notANumber⟩
    · exact ⟨.ofRat (q / r), div_ofRat q hr, by simp [exactQuotient, hr, Denotes]⟩
  · refine ⟨.real (.machine (Double.ofRat q / y)), ?_, Double.isNaN_div_of (.inr hy)⟩
    simp [Number.div, binary, ofRat, Scalar.binary, Scalar.isZero, Double.beq_zero_of_isNaN hy,
      Scalar.bigLane?, Scalar.toFloat, Operation.onFloat, Double.div, liftDouble, bind, Except.bind,
      pure, Except.pure]
  · by_cases hr : r = 0
    · subst hr
      exact ⟨notANumber, rfl, isUndefined_notANumber⟩
    · have hdouble : (Double.ofRat r == 0) = false := by simpa [quotientUnderflows, hr] using h
      refine ⟨.real (.machine (x / Double.ofRat r)), ?_, Double.isNaN_div_of (.inl hx)⟩
      simp [Number.div, binary, ofRat, Scalar.binary, Scalar.isZero, hr, hdouble,
        Scalar.bigLane?, Scalar.toFloat, Operation.onFloat, Double.div, liftDouble, bind,
        Except.bind, pure, Except.pure]
  · refine ⟨.real (.machine (x / y)), ?_, Double.isNaN_div_of (.inl hx)⟩
    simp [Number.div, binary, Scalar.binary, Scalar.isZero, Double.beq_zero_of_isNaN hy,
      Scalar.bigLane?, Scalar.toFloat, Operation.onFloat, Double.div, liftDouble, bind, Except.bind,
      pure, Except.pure]

/-- **Doubles are divided by zero** where the divisor is lost among them. -/
theorem div_underflows (ha : a.Denotes o) (hb : b.Denotes p) (h : quotientUnderflows o p = true) :
    a.div b = .error (.double .zeroDivision) := by
  rw [quotientUnderflows, Bool.and_eq_true, Option.isNone_iff_eq_none] at h
  obtain ⟨rfl, h⟩ := h
  obtain ⟨r, rfl, hr⟩ := (Option.any_eq_true _ _).1 h
  obtain ⟨x, -, rfl, -⟩ := ha.cases.resolve_left (by simp)
  obtain rfl : b = .ofRat r := hb
  rw [Bool.and_eq_true, decide_eq_true_eq] at hr
  obtain ⟨hne, hdouble⟩ := hr
  simp [Number.div, binary, ofRat, Scalar.binary, Scalar.isZero, hne, hdouble, Scalar.bigLane?,
    Scalar.toFloat, Operation.onFloat, Double.div, liftDouble, bind, Except.bind]

/-- **Whole powers are strict**, the power zero included. -/
theorem pow_denotes (precision : Nat) (ha : a.Denotes o) (n : Int) :
    ∃ c, a.pow precision (.ofInt n) = .ok c ∧ c.Denotes (exactPower o (some n)) := by
  rcases ha.cases with ⟨q, rfl, rfl⟩ | ⟨x, rfl, rfl, hx⟩
  · by_cases h : q = 0 ∧ n < 0
    · obtain ⟨rfl, hn⟩ := h
      refine ⟨notANumber, ?_, by simp [exactPower, hn, Denotes, isUndefined_notANumber]⟩
      unfold pow powWith powWhole
      rw [integer?_ofInt]
      simp [ofInt, Scalar.ofInt, isNaN, re, im, Scalar.isNaN, ofRat, Scalar.zero, isZero,
        Scalar.isZero, hn]
    · refine ⟨.ofRat (q ^ n), pow_ofRat precision fun hn hq => h ⟨hq, hn⟩, ?_⟩
      simp [exactPower, h, Denotes]
  · refine ⟨notANumber, ?_, by simp [exactPower, Denotes, isUndefined_notANumber]⟩
    have hnan : (Number.real (.machine x)).isNaN = true := isNaN_of_isUndefined hx
    unfold pow powWith
    rw [hnan, Bool.true_or, if_pos rfl]

end Number

/-! ## Rules of evaluation -/

namespace Evaluation

/-- The rational that a rule of exact arithmetic gives: none if an operand has none, a divisor is zero,
or a negative power of zero is asked for. -/
def exactly : Evaluation → List (Option ℚ) → Option ℚ
  | sum, os => os.foldl (Option.map₂ (· + ·)) (some 0)
  | product, os => os.foldl (Option.map₂ (· * ·)) (some 1)
  | negation, [o] => o.map (-·)
  | difference, [o, p] => Option.map₂ (· - ·) o p
  | quotient, [o, p] => exactQuotient o p
  | power, [o, p] => exactPower o p
  | _, _ => Option.none

/-- Whether a rule divides doubles by zero. -/
def underflows : Evaluation → List (Option ℚ) → Bool
  | quotient, [o, p] => quotientUnderflows o p
  | _, _ => false

/-- Whether a rule of exact arithmetic takes operands; an exponent is a whole literal. -/
def takes : Evaluation → List Expr → Bool
  | sum, _ | product, _ => true
  | negation, [_] | difference, [_, _] | quotient, [_, _] => true
  | power, [_, .number v] => v.integer?.isSome
  | _, _ => false

/-- A fold of operations that are strict. -/
theorem foldlM_denotes {f : Number → Number → Except NumberFault Number} {g : ℚ → ℚ → ℚ}
    (hf : ∀ {a b o p}, Number.Denotes a o → Number.Denotes b p →
      ∃ c, f a b = .ok c ∧ c.Denotes (Option.map₂ g o p))
    {os : List (Option ℚ)} {vs : List Number} (h : List.Forall₂ Number.Denotes vs os) {a : Number}
    {o : Option ℚ} (ha : a.Denotes o) :
    ∃ c, vs.foldlM f a = .ok c ∧ c.Denotes (os.foldl (Option.map₂ g) o) := by
  induction h generalizing a o with
  | nil => exact ⟨a, rfl, ha⟩
  | cons hb _ ih =>
      obtain ⟨c, hc, hdenotes⟩ := hf ha hb
      obtain ⟨d, hd, hd'⟩ := ih hdenotes
      refine ⟨d, ?_, hd'⟩
      rw [List.foldlM_cons, hc]
      exact hd

end Evaluation

/-- How an operator of exact arithmetic is evaluated: quotients can be written in two ways. -/
def exactRule? (f : String) : Option Evaluation :=
  if f = "Rational" then some .quotient else evaluationOf? f

namespace Expr

mutual

/-- The rational that an expression stands for, if there is one. -/
def exactly : Expr → Option ℚ
  | number v => v.rational?
  | application f ops _ _ => (exactRule? f).bind fun r => r.exactly (eachExactly ops)
  | _ => none

def eachExactly : List Expr → List (Option ℚ)
  | [] => []
  | e :: rest => exactly e :: eachExactly rest

end

mutual

/-- Whether a quotient in an expression divides doubles by zero. -/
def underflows : Expr → Bool
  | application f ops _ _ =>
      anyUnderflows ops || (exactRule? f).any fun r => r.underflows (eachExactly ops)
  | _ => false

def anyUnderflows : List Expr → Bool
  | [] => false
  | e :: rest => underflows e || anyUnderflows rest

end

mutual

/-- Whether an expression is closed arithmetic: literals are rationals or quotients that have no value,
operators are what their names stand for in a table, and exponents are whole literals. -/
def isExactArithmetic (t : DefinitionTable) : Expr → Bool
  | number v => v.isRational || v.isUndefined
  | application f ops d _ =>
      (d == t.functionNumber? f && (exactRule? f).any (·.takes ops)) && allExactArithmetic t ops
  | _ => false

def allExactArithmetic (t : DefinitionTable) : List Expr → Bool
  | [] => true
  | e :: rest => isExactArithmetic t e && allExactArithmetic t rest

end

mutual

/-- Closed arithmetic has no errors in it. -/
theorem isValid_of_isExactArithmetic {t : DefinitionTable} : ∀ {e : Expr},
    e.isExactArithmetic t = true → e.isValid = true
  | number _, _ => rfl
  | application f ops d c, h => by
      rw [isExactArithmetic, Bool.and_eq_true] at h
      exact allValid_of_allExactArithmetic h.2

theorem allValid_of_allExactArithmetic {t : DefinitionTable} : ∀ {es : List Expr},
    allExactArithmetic t es = true → allValid es = true
  | [], _ => rfl
  | e :: rest, h => by
      rw [allExactArithmetic, Bool.and_eq_true] at h
      rw [allValid, isValid_of_isExactArithmetic h.1, allValid_of_allExactArithmetic h.2]
      rfl

end

end Expr

namespace Number

/-- A whole literal is an integer. -/
theorem eq_ofInt_of_integer? {v : Number} {n : Int} (h : v.integer? = some n) : v = .ofInt n := by
  unfold integer? at h
  split at h
  next q =>
    rw [Option.ite_none_right_eq_some] at h
    obtain ⟨hden, hn⟩ := h
    rw [Option.some.injEq] at hn
    rw [← hn, ofInt_eq_ofRat, Rat.coe_int_num_of_den_eq_one hden]
    rfl
  next => cases h

end Number

namespace Evaluation

variable {r : Evaluation} {ops : List Expr}

/-- The operands that a rule of exact arithmetic takes. -/
theorem takes_cases (h : r.takes ops = true) :
    r = sum ∨ r = product ∨ (r = negation ∧ ∃ a, ops = [a]) ∨
      (r = difference ∧ ∃ a b, ops = [a, b]) ∨ (r = quotient ∧ ∃ a b, ops = [a, b]) ∨
        (r = power ∧ ∃ a n, ops = [a, .number (.ofInt n)]) := by
  unfold takes at h
  split at h
  · exact .inl rfl
  · exact .inr (.inl rfl)
  · exact .inr (.inr (.inl ⟨rfl, _, rfl⟩))
  · exact .inr (.inr (.inr (.inl ⟨rfl, _, _, rfl⟩)))
  · exact .inr (.inr (.inr (.inr (.inl ⟨rfl, _, _, rfl⟩))))
  next a v =>
    obtain ⟨n, hn⟩ := Option.isSome_iff_exists.1 h
    obtain rfl := Number.eq_ofInt_of_integer? hn
    exact .inr (.inr (.inr (.inr (.inr ⟨rfl, a, n, rfl⟩))))
  · cases h

/-- **Rules calculate what operators stand for**, unless a divisor is lost among the doubles. -/
theorem apply_denotes (precision : Nat) (htakes : r.takes ops = true) {vs : List Number}
    (h : List.Forall₂ Number.Denotes vs (Expr.eachExactly ops))
    (hunderflows : r.underflows (Expr.eachExactly ops) = false) :
    ∃ v, r.apply precision vs = .ok (some v) ∧ v.Denotes (r.exactly (Expr.eachExactly ops)) := by
  have hsome : ∀ {x : Except NumberFault Number} {o : Option ℚ},
      (∃ c, x = .ok c ∧ c.Denotes o) →
        ∃ v, (do return some (← x) : Except NumberFault (Option Number)) = .ok (some v) ∧
          v.Denotes o := by
    rintro _ o ⟨c, rfl, hc⟩
    exact ⟨c, rfl, hc⟩
  rcases takes_cases htakes with rfl | rfl | ⟨rfl, a, rfl⟩ | ⟨rfl, a, b, rfl⟩ | ⟨rfl, a, b, rfl⟩ |
    ⟨rfl, a, n, rfl⟩
  · exact hsome (foldlM_denotes Number.add_denotes h rfl)
  · exact hsome (foldlM_denotes Number.mul_denotes h rfl)
  · rcases h with _ | ⟨ha, _ | _⟩
    exact hsome (Number.neg_denotes ha)
  · rcases h with _ | ⟨ha, _ | ⟨hb, _ | _⟩⟩
    exact hsome (Number.sub_denotes ha hb)
  · rcases h with _ | ⟨ha, _ | ⟨hb, _ | _⟩⟩
    exact hsome (Number.div_denotes ha hb hunderflows)
  · rcases h with _ | ⟨ha, _ | ⟨hn, _ | _⟩⟩
    obtain rfl := hn
    exact hsome (Number.pow_denotes precision ha n)

/-- A rule fails where it divides doubles by zero. -/
theorem apply_underflows (precision : Nat) {os : List (Option ℚ)} {vs : List Number}
    (h : List.Forall₂ Number.Denotes vs os) (hunderflows : r.underflows os = true) :
    r.apply precision vs = .error (.double .zeroDivision) := by
  unfold underflows at hunderflows
  split at hunderflows
  next o p =>
    rcases h with _ | ⟨ha, _ | ⟨hb, _ | _⟩⟩
    have hdiv := Number.div_underflows ha hb hunderflows
    simp [apply, binary, hdiv, bind, Except.bind]
  next => cases hunderflows

end Evaluation

/-! ## Where a value is missing -/

/-- A division by zero or a negative power of zero occurs in an expression, or a literal that came from
one. -/
inductive Expr.Breaks : Expr → Prop
  | literal {v : Number} : v.isUndefined = true → Breaks (.number v)
  | quotient {f : String} {a b : Expr} {d : Option Nat} {c : Bool} :
      exactRule? f = some .quotient → b.exactly = some 0 → Breaks (.application f [a, b] d c)
  | power {f : String} {a : Expr} {n : Int} {d : Option Nat} {c : Bool} :
      exactRule? f = some .power → a.exactly = some 0 → n < 0 →
        Breaks (.application f [a, .number (.ofInt n)] d c)
  | operand {f : String} {ops : List Expr} {d : Option Nat} {c : Bool} {e : Expr} :
      e ∈ ops → Breaks e → Breaks (.application f ops d c)

theorem exactQuotient_eq_none {o p : Option ℚ} :
    exactQuotient o p = none ↔ o = none ∨ p = none ∨ p = some 0 := by
  cases o <;> cases p <;> simp [exactQuotient]

theorem exactPower_eq_none {o : Option ℚ} {n : Int} :
    exactPower o (some n) = none ↔ o = none ∨ (o = some 0 ∧ n < 0) := by
  cases o <;> simp [exactPower]

theorem foldl_map₂_eq_none {g : ℚ → ℚ → ℚ} {os : List (Option ℚ)} {o : Option ℚ} :
    os.foldl (Option.map₂ g) o = none ↔ o = none ∨ none ∈ os := by
  induction os generalizing o with
  | nil => simp
  | cons p rest ih => rw [List.foldl_cons, ih, Option.map₂_eq_none_iff, List.mem_cons, or_assoc,
      eq_comm (a := p)]

namespace Expr

theorem eachExactly_eq_map (es : List Expr) : eachExactly es = es.map exactly := by
  induction es with
  | nil => rfl
  | cons e rest ih => rw [eachExactly, ih, List.map_cons]

/-- An application has no value just where an operand has none, or where it breaks itself. -/
theorem exactly_application {f : String} {r : Evaluation} {ops : List Expr} {d : Option Nat}
    {c : Bool} (hr : exactRule? f = some r) (htakes : r.takes ops = true) :
    (application f ops d c).exactly = none ↔
      (∃ e ∈ ops, e.exactly = none) ∨
        (r = .quotient ∧ ∃ a b, ops = [a, b] ∧ b.exactly = some 0) ∨
          (r = .power ∧ ∃ a n, ops = [a, number (.ofInt n)] ∧ a.exactly = some 0 ∧ n < 0) := by
  have hliteral : ∀ n : Int, (number (.ofInt n)).exactly = some (n : ℚ) := fun _ => rfl
  have hinj : ∀ m n : Int, Number.ofInt m = Number.ofInt n ↔ m = n := fun m n => by
    simp [Number.ofInt, Scalar.ofInt]
  rw [exactly, hr, Option.bind_some, eachExactly_eq_map]
  rcases Evaluation.takes_cases htakes with rfl | rfl | ⟨rfl, a, rfl⟩ | ⟨rfl, a, b, rfl⟩ |
    ⟨rfl, a, b, rfl⟩ | ⟨rfl, a, n, rfl⟩
  · simp [Evaluation.exactly, foldl_map₂_eq_none]
  · simp [Evaluation.exactly, foldl_map₂_eq_none]
  · simp [Evaluation.exactly]
  · simp [Evaluation.exactly, Option.map₂_eq_none_iff]
  · simp [Evaluation.exactly, exactQuotient_eq_none, or_assoc]
  · simp [Evaluation.exactly, exactPower_eq_none, hliteral, hinj]

mutual

/-- **A value is missing just where a division by zero or a negative power of zero occurs.** -/
theorem exactly_eq_none_iff {t : DefinitionTable} : ∀ {e : Expr}, e.isExactArithmetic t = true →
    (e.exactly = none ↔ e.Breaks)
  | number v, h => by
      constructor
      · intro hnone
        refine .literal ?_
        have hv := Number.denotes_rational? h
        rwa [show v.rational? = none from hnone] at hv
      · rintro (hv | _ | _ | _)
        match v, hv with
        | .real (.machine x), _ => rfl
  | application f ops d c, h => by
      rw [isExactArithmetic, Bool.and_eq_true, Bool.and_eq_true] at h
      obtain ⟨⟨-, h⟩, hops⟩ := h
      obtain ⟨r, hr, htakes⟩ := (Option.any_eq_true _ _).1 h
      rw [exactly_application hr htakes]
      constructor
      · rintro (⟨e, he, hnone⟩ | ⟨rfl, a, b, rfl, hb⟩ | ⟨rfl, a, n, rfl, ha, hn⟩)
        · exact .operand he ((each_exactly_eq_none_iff hops e he).1 hnone)
        · exact .quotient hr hb
        · exact .power hr ha hn
      · rintro (_ | ⟨hr', hb⟩ | ⟨hr', ha, hn⟩ | ⟨he, hbreaks⟩)
        · rw [hr, Option.some.injEq] at hr'
          exact .inr (.inl ⟨hr', _, _, rfl, hb⟩)
        · rw [hr, Option.some.injEq] at hr'
          exact .inr (.inr ⟨hr', _, _, rfl, ha, hn⟩)
        · exact .inl ⟨_, he, (each_exactly_eq_none_iff hops _ he).2 hbreaks⟩

theorem each_exactly_eq_none_iff {t : DefinitionTable} : ∀ {es : List Expr},
    allExactArithmetic t es = true → ∀ e ∈ es, e.exactly = none ↔ e.Breaks
  | [], _ => by simp
  | e :: rest, h => by
      rw [allExactArithmetic, Bool.and_eq_true] at h
      rw [List.forall_mem_cons]
      exact ⟨exactly_eq_none_iff h.1, each_exactly_eq_none_iff h.2⟩

end

mutual

/-- Doubles are divided by zero only where a value is missing. -/
theorem exactly_of_underflows {t : DefinitionTable} : ∀ {e : Expr}, e.isExactArithmetic t = true →
    e.underflows = true → e.exactly = none
  | application f ops d c, h, hunderflows => by
      rw [isExactArithmetic, Bool.and_eq_true, Bool.and_eq_true] at h
      obtain ⟨⟨-, h⟩, hops⟩ := h
      obtain ⟨r, hr, htakes⟩ := (Option.any_eq_true _ _).1 h
      rw [underflows, hr, Option.any_some, Bool.or_eq_true] at hunderflows
      rcases hunderflows with hunderflows | hunderflows
      · exact (exactly_application hr htakes).2 (.inl (exists_of_anyUnderflows hops hunderflows))
      · rw [exactly, hr, Option.bind_some]
        unfold Evaluation.underflows at hunderflows
        split at hunderflows
        next o p hos =>
          rw [quotientUnderflows, Bool.and_eq_true, Option.isNone_iff_eq_none] at hunderflows
          rw [hos, hunderflows.1]
          rfl
        next => cases hunderflows

theorem exists_of_anyUnderflows {t : DefinitionTable} : ∀ {es : List Expr},
    allExactArithmetic t es = true → anyUnderflows es = true → ∃ e ∈ es, e.exactly = none
  | e :: rest, h, hunderflows => by
      rw [allExactArithmetic, Bool.and_eq_true] at h
      rw [anyUnderflows, Bool.or_eq_true] at hunderflows
      rcases hunderflows with hunderflows | hunderflows
      · exact ⟨e, List.mem_cons_self, exactly_of_underflows h.1 hunderflows⟩
      · obtain ⟨x, hx, hnone⟩ := exists_of_anyUnderflows h.2 hunderflows
        exact ⟨x, List.mem_cons_of_mem _ hx, hnone⟩

end

end Expr

/-! ## Evaluation -/

/-- Whether a definition is that of a function evaluated by a rule. -/
def Definition.follows (r : Evaluation) : Definition → Bool
  | .function d => d.isEvaluatedBy r
  | .symbol _ => false

/-- The operators of exact arithmetic. -/
def exactOperators : List String :=
  ["Add", "Multiply", "Negate", "Subtract", "Divide", "Power", "Rational"]

theorem mem_exactOperators {f : String} {r : Evaluation} (h : exactRule? f = some r) :
    f ∈ exactOperators := by
  unfold exactRule? at h
  split at h
  next hf => simp [exactOperators, hf]
  next =>
    unfold evaluationOf? at h
    split at h
    all_goals first
      | (simp [exactOperators]; done)
      | cases h

namespace Kernel

variable {k : Kernel}

/-- A kernel in which the operators of exact arithmetic are evaluated as their names say. -/
def IsExact (k : Kernel) : Prop :=
  ∀ f r, exactRule? f = some r → (k.table.find? f).any (·.follows r) = true

theorem IsExact.get? (hk : k.IsExact) {f : String} {r : Evaluation} (hr : exactRule? f = some r) :
    ∃ g, (k.table.functionNumber? f).bind k.table.get? = some (.function g) ∧
      g.isEvaluatedBy r = true := by
  obtain ⟨d, hd, hfollows⟩ := (Option.any_eq_true _ _).1 (hk f r hr)
  cases d with
  | symbol d => cases hfollows
  | function g =>
      refine ⟨g, ?_, hfollows⟩
      rw [DefinitionTable.functionNumber?, hd]
      exact hd

/-- Division by zero among doubles. -/
abbrev DividesByZero (f : Fault) : Prop := f = .number (.double .zeroDivision)

mutual

/-- **Evaluation of closed arithmetic ends with what the expression stands for**, or where doubles are
divided by zero. -/
theorem IsExact.yields_evaluateWith (hk : k.IsExact) : ∀ {e : Expr},
    e.isExactArithmetic k.table = true →
    Yields (fun f => DividesByZero f ∧ e.underflows = true) (evaluateWith constant false e) k
      fun o k' => k = k' ∧ e.underflows = false ∧ ∃ v, o = some v ∧ v.Denotes e.exactly
  | .number v, h => Yields.pure ⟨rfl, rfl, v, rfl, Number.denotes_rational? h⟩
  | .application f ops d c, h => by
      have hvalid := Expr.isValid_of_isExactArithmetic h
      rw [Expr.isExactArithmetic, Bool.and_eq_true, Bool.and_eq_true, beq_iff_eq] at h
      obtain ⟨⟨rfl, h⟩, hops⟩ := h
      obtain ⟨r, hr, htakes⟩ := (Option.any_eq_true _ _).1 h
      obtain ⟨g, hg, hrule⟩ := hk.get? hr
      refine yields_evaluateWith_application hg hrule hvalid ?_
      rw [Expr.underflows, Expr.exactly, hr, Option.any_some, Option.bind_some]
      have hfault : ∀ f, DividesByZero f ∧ Expr.anyUnderflows ops = true → DividesByZero f ∧
          (Expr.anyUnderflows ops || r.underflows (Expr.eachExactly ops)) = true :=
        fun f hf => ⟨hf.1, by rw [hf.2, Bool.true_or]⟩
      refine ((hk.yields_evaluateEach hops).imp hfault fun _ _ h => h).bind ?_
      rintro _ _ ⟨rfl, hnone, vs, rfl, hvs⟩
      rw [hnone, Bool.false_or]
      refine Yields.bind (P := fun o k' => k = k' ∧ r.underflows (Expr.eachExactly ops) = false ∧
        ∃ v, o = some v ∧ v.Denotes (r.exactly (Expr.eachExactly ops))) ?_ ?_
      · refine Yields.bind (P := fun u k' => u = k.settings.precision ∧ k = k') ⟨rfl, rfl⟩ ?_
        rintro _ _ ⟨rfl, rfl⟩
        cases hunderflows : r.underflows (Expr.eachExactly ops) with
        | false =>
            obtain ⟨v, hv, hdenotes⟩ := Evaluation.apply_denotes _ htakes hvs hunderflows
            exact yields_number_ok hv ⟨rfl, rfl, v, rfl, hdenotes⟩
        | true =>
            rw [Evaluation.apply_underflows _ hvs hunderflows]
            exact ⟨rfl, rfl⟩
      · rintro _ _ ⟨rfl, hunderflows, v, rfl, hv⟩
        exact Yields.pure ⟨rfl, hunderflows, v, rfl, hv⟩

theorem IsExact.yields_evaluateEach (hk : k.IsExact) : ∀ {es : List Expr},
    Expr.allExactArithmetic k.table es = true →
    Yields (fun f => DividesByZero f ∧ Expr.anyUnderflows es = true)
      (evaluateEach constant false es) k fun o k' => k = k' ∧ Expr.anyUnderflows es = false ∧
        ∃ vs, o = some vs ∧ List.Forall₂ Number.Denotes vs (Expr.eachExactly es)
  | [], _ => Yields.pure ⟨rfl, rfl, [], rfl, .nil⟩
  | e :: rest, h => by
      rw [Expr.allExactArithmetic, Bool.and_eq_true] at h
      rw [Expr.anyUnderflows, Expr.eachExactly]
      unfold evaluateEach
      have hfault : ∀ f, DividesByZero f ∧ e.underflows = true →
          DividesByZero f ∧ (e.underflows || Expr.anyUnderflows rest) = true :=
        fun f hf => ⟨hf.1, by rw [hf.2, Bool.true_or]⟩
      refine ((hk.yields_evaluateWith h.1).imp hfault fun _ _ h => h).bind ?_
      rintro _ _ ⟨rfl, hfirst, v, rfl, hv⟩
      rw [hfirst, Bool.false_or]
      refine (hk.yields_evaluateEach h.2).bind ?_
      rintro _ _ ⟨rfl, hrest, vs, rfl, hvs⟩
      exact Yields.pure ⟨rfl, hrest, v :: vs, rfl, .cons hv hvs⟩

end

theorem standard_exactOperators : exactOperators.all (fun f =>
    (standard.table.find? f).any fun d =>
      !d.isInferred && (exactRule? f).any d.follows) = true := by
  rw [standard_eq]
  decide +kernel

/-- The operators of exact arithmetic stay what they are in any run: their definitions are not
inferred. -/
theorem isExact_after (run : List Call) : (standard.after run).IsExact := by
  intro f r hr
  have hstandard := List.all_eq_true.1 standard_exactOperators f (mem_exactOperators hr)
  obtain ⟨d, hd, h⟩ := (Option.any_eq_true _ _).1 hstandard
  rw [Bool.and_eq_true, Bool.not_eq_true', hr, Option.any_some] at h
  obtain ⟨d', hd', hpersists⟩ := (persists_after standard run).definition f d hd
  rw [hd', hpersists.fixed h.1, Option.any_some, h.2]

/-! ## The main result -/

/-- **Closed arithmetic is evaluated exactly, and is strict in what has no value.**  In any kernel with
the standard definitions, at any precision: where no division by zero and no negative power of zero
occurs, the value is the rational that the expression stands for; where one does, the value is not a
number, unless the expression has an undefined dividend over a divisor whose nearest double is zero, and
then there is no value but a fault. -/
theorem exact_evaluation (run : List Call) (e : Expr)
    (h : e.isExactArithmetic (standard.after run).table = true) :
    (¬e.Breaks → ∃ q, e.exactly = some q ∧
      (evaluate e false).run.run (standard.after run) =
        (.ok (some (.ofRat q)), standard.after run)) ∧
    (e.Breaks → e.underflows = false → ∃ v, v.isNaN = true ∧
      (evaluate e false).run.run (standard.after run) = (.ok (some v), standard.after run)) ∧
    (e.underflows = true → ∃ k', (evaluate e false).run.run (standard.after run) =
      (.error (.number (.double .zeroDivision)), k')) := by
  rw [← Expr.exactly_eq_none_iff h]
  obtain ⟨o, k', hrun, rfl, hnone, v, rfl, hv⟩ | ⟨f, k', hrun, rfl, hunderflows⟩ :=
    ((isExact_after run).yields_evaluateWith h).ok_or_fault
  · refine ⟨fun hsome => ?_, fun hbreaks _ => ?_, fun hunderflows => ?_⟩
    · obtain ⟨q, hq⟩ := Option.ne_none_iff_exists'.1 hsome
      rw [hq] at hv
      obtain rfl := hv
      exact ⟨q, hq, hrun⟩
    · rw [hbreaks] at hv
      exact ⟨v, Number.isNaN_of_isUndefined hv, hrun⟩
    · rw [hnone] at hunderflows
      cases hunderflows
  · refine ⟨fun hsome => ?_, fun _ hnone => ?_, fun _ => ⟨k', hrun⟩⟩
    · exact absurd (Expr.exactly_of_underflows h hunderflows) hsome
    · rw [hunderflows] at hnone
      cases hnone

theorem after_box {r : Raw} {k k' : Kernel} {e : Expr} (h : (box r).run.run k = (.ok e, k')) :
    k.after [.box r] = k' := by
  have hrun : (perform (.box r)).run.run k = (.ok (), k') := by
    rw [perform, run_bind, h]
    rfl
  change ((perform (.box r)).run.run k).2 = k'
  rw [hrun]

/-- `1 / 3 + (2 / 3) ^ -2`. -/
def definedSum : Expr :=
  .application "Add"
    [.application "Divide" [.number .one, .number (.ofInt 3)] (some 10) true,
      .application "Power" [.number (.ofRat (2 / 3)), .number (.ofInt (-2))] (some 11) true]
    (some 6) true

/-- `(0 * 0 ^ -1) ^ 0`. -/
def undefinedPower : Expr :=
  .application "Power"
    [.application "Multiply" [.number .zero,
      .application "Power" [.number .zero, .number (.ofInt (-1))] (some 11) true] (some 7) true,
      .number .zero] (some 11) true

/-- Both are evaluated in a new kernel. -/
theorem exact_evaluation_definedSum :
    (definedSum.isExactArithmetic standard.table = true ∧ ¬definedSum.Breaks ∧
      (evaluate definedSum false).run.run standard = (.ok (some (.ofRat (31 / 12))), standard)) ∧
    (undefinedPower.isExactArithmetic standard.table = true ∧ undefinedPower.Breaks ∧
      undefinedPower.underflows = false ∧ ∃ v, v.isNaN = true ∧
        (evaluate undefinedPower false).run.run standard = (.ok (some v), standard)) := by
  have hsum : definedSum.isExactArithmetic standard.table = true := by
    rw [standard_eq]
    decide +kernel
  have hpower : undefinedPower.isExactArithmetic standard.table = true := by
    rw [standard_eq]
    decide +kernel
  have hvalue : definedSum.exactly = some (31 / 12) := by decide +kernel
  have hdefined : ¬definedSum.Breaks := by
    rw [← Expr.exactly_eq_none_iff hsum, hvalue]
    exact Option.some_ne_none _
  have hbreaks : undefinedPower.Breaks :=
    (Expr.exactly_eq_none_iff hpower).1 (by decide +kernel)
  have hunderflows : undefinedPower.underflows = false := by decide +kernel
  have h := exact_evaluation []
  rw [after_nil] at h
  obtain ⟨q, hq, hrun⟩ := (h definedSum hsum).1 hdefined
  rw [hvalue, Option.some.injEq] at hq
  subst hq
  exact ⟨⟨hsum, hdefined, hrun⟩, hpower, hbreaks, hunderflows,
    (h undefinedPower hpower).2.1 hbreaks hunderflows⟩

/-- `(1 / 0) / (1 / 10 ^ 400)`. -/
def lostDivisor : Expr :=
  .application "Divide"
    [.application "Divide" [.number .one, .number .zero] (some 10) true,
      .application "Divide" [.number .one,
        .application "Power" [.number (.ofInt 10), .number (.ofInt 400)] (some 11) true] (some 10) true]
    (some 10) true

/-- The shape that it is built of. -/
def lostDivisorShape : Raw :=
  .list [.name "Divide", .list [.name "Divide", .int 1, .int 0],
    .list [.name "Divide", .int 1, .list [.name "Power", .int 10, .int 400]]]

/-- **What has no value can fail instead of being no number**: what is not a number is divided by the
nearest double of a divisor that is not zero, and that double is. -/
theorem lostDivisor_fails :
    (∃ k, (box lostDivisorShape).run.run standard = (.ok lostDivisor, k) ∧
      ∃ k', (evaluate lostDivisor false).run.run k =
        (.error (.number (.double .zeroDivision)), k')) ∧
      lostDivisor.isValid = true ∧ lostDivisor.Breaks := by
  obtain ⟨k, hbox⟩ := run_eq (x := box lostDivisorShape) (k := standard) (e := lostDivisor) (by decide)
    (by rw [standard_eq]; decide +kernel)
  have harithmetic : lostDivisor.isExactArithmetic (standard.after [.box lostDivisorShape]).table =
      true := by
    rw [standard_eq]
    decide +kernel
  have hunderflows : lostDivisor.underflows = true := by decide +kernel
  refine ⟨⟨k, hbox, ?_⟩, Expr.isValid_of_isExactArithmetic harithmetic,
    (Expr.exactly_eq_none_iff harithmetic).1 (Expr.exactly_of_underflows harithmetic hunderflows)⟩
  rw [← after_box hbox]
  obtain ⟨o, k', -, -, hnone, -⟩ | ⟨f, k', hrun, rfl, -⟩ :=
    ((isExact_after [.box lostDivisorShape]).yields_evaluateWith harithmetic).ok_or_fault
  · rw [hunderflows] at hnone
    cases hnone
  · exact ⟨k', hrun⟩

end Kernel

end SymbolicAlgebra
