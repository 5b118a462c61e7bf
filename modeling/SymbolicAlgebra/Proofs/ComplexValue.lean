import Mathlib.Algebra.Algebra.Rat
import SymbolicAlgebra.Proofs.Gaussian
import SymbolicAlgebra.Proofs.Value

/-!
# Proofs/ComplexValue — the value of an expression where minus one has a root

`ComplexInterpretation` is an interpretation that gives `ImaginaryUnit` a square root of minus one.  It
embeds the Gaussian rationals, so every exact number has a value, `Complex` pairs have one, and whatever
the exact lane computes has the value of the same computation in the field (`Number.HasValue`).
`Valued` describes the expressions that arithmetic then is about: numbers are exact, exponents are whole,
and nothing is divided by zero.
-/

namespace SymbolicAlgebra

variable {K : Type*} [Field K]

/-- An interpretation in which the imaginary unit squares to minus one. -/
structure ComplexInterpretation (K : Type*) [Field K] extends Interpretation K where
  unit_sq : symbol "ImaginaryUnit" ^ 2 = -1

namespace ComplexInterpretation

variable (I : ComplexInterpretation K)

/-- The value of the imaginary unit. -/
def unit : K := I.symbol "ImaginaryUnit"

theorem unit_mul_unit : I.unit * I.unit = -1 := by rw [← sq, unit, I.unit_sq]

variable [CharZero K]

/-- The Gaussian rationals in the field. -/
def embed : Gaussian →+* K :=
  (QuadraticAlgebra.lift ⟨I.unit, by rw [I.unit_mul_unit, neg_smul, one_smul, zero_smul, add_zero]⟩ :
    Gaussian →ₐ[ℚ] K).toRingHom

theorem embed_mk (x y : ℚ) : I.embed ⟨x, y⟩ = x + y * I.unit := by
  change x • (1 : K) + y • I.unit = _
  rw [Rat.smul_one_eq_cast, Rat.smul_def]

end ComplexInterpretation

/-! ## Numbers -/

namespace Number

variable (I : ComplexInterpretation K) {a b : Number} {r : Except NumberFault Number} {z : Gaussian}
  {x : K}

/-- The value of an exact number. -/
def complexValue (v : Number) : K := v.re.toRat + v.im.toRat * I.unit

theorem complexValue_ofRat (q : Rat) : (ofRat q).complexValue I = q := by
  change (q : K) + ((0 : Rat) : K) * I.unit = q
  rw [Rat.cast_zero, zero_mul, add_zero]

@[simp] theorem complexValue_ofInt (n : Int) : (ofInt n).complexValue I = n := by
  rw [ofInt_eq_ofRat, complexValue_ofRat, Rat.cast_intCast]

@[simp] theorem complexValue_zero : zero.complexValue I = 0 := by
  rw [zero_eq_ofRat, complexValue_ofRat, Rat.cast_zero]

@[simp] theorem complexValue_one : one.complexValue I = 1 := by
  rw [one_eq_ofRat, complexValue_ofRat, Rat.cast_one]

@[simp] theorem complexValue_negativeOne : negativeOne.complexValue I = -1 := by
  change (ofInt (-1)).complexValue I = -1
  rw [complexValue_ofInt, Int.cast_neg, Int.cast_one]

theorem complexValue_of_isZero (ha : a.isExact = true) (h : a.isZero = true) :
    a.complexValue I = 0 := by
  rcases exact_cases ha with ⟨q, rfl⟩ | ⟨x, y, rfl⟩
  · obtain rfl : q = 0 := by simpa using h
    rw [complexValue_ofRat, Rat.cast_zero]
  · cases h

theorem complexValue_of_isOne (ha : a.isExact = true) (h : a.isOne = true) :
    a.complexValue I = 1 := by
  rcases exact_cases ha with ⟨q, rfl⟩ | ⟨x, y, rfl⟩
  · obtain rfl : q = 1 := by simpa using h
    rw [complexValue_ofRat, Rat.cast_one]
  · cases h

theorem complexValue_of_isNegativeOne (ha : a.isExact = true) (h : a.isNegativeOne = true) :
    a.complexValue I = -1 := by
  rcases exact_cases ha with ⟨q, rfl⟩ | ⟨x, y, rfl⟩
  · obtain rfl : q = -1 := by simpa using h
    rw [complexValue_ofRat, Rat.cast_neg, Rat.cast_one]
  · cases h

/-- A purely imaginary number is its imaginary part times the unit. -/
theorem complexValue_of_isPurelyImaginary (ha : a.isExact = true) (h : a.isPurelyImaginary = true) :
    (Number.real a.im).isExact = true ∧
      a.complexValue I = (Number.real a.im).complexValue I * I.unit := by
  rcases exact_cases ha with ⟨q, rfl⟩ | ⟨x, y, rfl⟩
  · cases h
  · obtain ⟨rfl, -⟩ : x = 0 ∧ y ≠ 0 := by simpa [isPurelyImaginary, Scalar.isZero] using h
    refine ⟨rfl, ?_⟩
    change ((0 : Rat) : K) + y * I.unit = (ofRat y).complexValue I * I.unit
    rw [complexValue_ofRat, Rat.cast_zero, zero_add]

/-- The computation gives an exact number with a value. -/
def HasValue (r : Except NumberFault Number) (x : K) : Prop :=
  ∃ c, r = .ok c ∧ c.isExact = true ∧ c.complexValue I = x

variable [CharZero K] {I}

theorem complexValue_eq (v : Number) : v.complexValue I = I.embed v.gaussian :=
  (I.embed_mk _ _).symm

theorem gaussian_ne_zero (h : a.complexValue I ≠ 0) : a.gaussian ≠ 0 := by
  rintro hz
  rw [complexValue_eq, hz, map_zero] at h
  exact h rfl

/-- **The exact lane computes in the field.** -/
theorem Computes.hasValue (h : Computes r z) (hx : I.embed z = x) : HasValue I r x := by
  obtain ⟨c, hc, hz⟩ := h
  exact ⟨c, hc, hz.isExact, by rw [complexValue_eq, hz.gaussian_eq, hx]⟩

theorem hasValue_add (ha : a.isExact = true) (hb : b.isExact = true) :
    HasValue I (a.add b) (a.complexValue I + b.complexValue I) :=
  (computes_add ha hb).hasValue (by rw [map_add, complexValue_eq, complexValue_eq])

theorem hasValue_mul (ha : a.isExact = true) (hb : b.isExact = true) :
    HasValue I (a.mul b) (a.complexValue I * b.complexValue I) :=
  (computes_mul ha hb).hasValue (by rw [map_mul, complexValue_eq, complexValue_eq])

theorem hasValue_neg (ha : a.isExact = true) : HasValue I a.neg (-a.complexValue I) :=
  (computes_neg ha).hasValue (by rw [map_neg, complexValue_eq])

theorem hasValue_div (ha : a.isExact = true) (hb : b.isExact = true) (h : b.complexValue I ≠ 0) :
    HasValue I (a.div b) (a.complexValue I / b.complexValue I) :=
  (computes_div ha hb (gaussian_ne_zero h)).hasValue
    (by rw [map_div₀, complexValue_eq, complexValue_eq])

theorem hasValue_inv (ha : a.isExact = true) (h : a.complexValue I ≠ 0) :
    HasValue I a.inv (a.complexValue I)⁻¹ :=
  (computes_inv ha (gaussian_ne_zero h)).hasValue (by rw [map_inv₀, complexValue_eq])

theorem hasValue_pow (precision : ℕ) (ha : a.isExact = true) (n : ℤ)
    (h : n < 0 → a.complexValue I ≠ 0) :
    HasValue I (a.pow precision (ofInt n)) (a.complexValue I ^ n) :=
  (computes_pow precision ha n fun hn => gaussian_ne_zero (h hn)).hasValue
    (by rw [map_zpow₀, complexValue_eq])

end Number

/-! ## Expressions -/

namespace Expr

/-- The value of an operator on values; a pair has its second part times the imaginary unit. -/
def combineComplex (I : ComplexInterpretation K) : String → Option Int → List K → K
  | "Complex", _, [a, b] => a + b * I.unit
  | f, n, vs => combine I.toInterpretation f n vs

mutual

/-- The value of an expression. -/
def complexValue (I : ComplexInterpretation K) : Expr → K
  | number v => v.complexValue I
  | symbol n _ _ => I.symbol n
  | application f ops _ _ => combineComplex I f (exponent? ops) (complexValues I ops)
  | error _ _ _ => 0

def complexValues (I : ComplexInterpretation K) : List Expr → List K
  | [] => []
  | e :: rest => complexValue I e :: complexValues I rest

end

variable (I : ComplexInterpretation K)

theorem complexValues_eq_map (es : List Expr) : complexValues I es = es.map (complexValue I) := by
  induction es with
  | nil => rfl
  | cons e rest ih => rw [complexValues, ih, List.map_cons]

@[simp] theorem complexValue_number (v : Number) : (number v).complexValue I = v.complexValue I := rfl

@[simp] theorem complexValue_symbol (n : String) (d : Option Nat) (c : Bool) :
    (symbol n d c).complexValue I = I.symbol n := rfl

theorem complexValue_application (f : String) (ops : List Expr) (d : Option Nat) (c : Bool) :
    (application f ops d c).complexValue I =
      combineComplex I f (exponent? ops) (ops.map (complexValue I)) := by
  rw [complexValue, complexValues_eq_map]

@[simp] theorem complexValue_sum (ops : List Expr) (d : Option Nat) (c : Bool) :
    (application "Add" ops d c).complexValue I = (ops.map (complexValue I)).sum :=
  complexValue_application I "Add" ops d c

@[simp] theorem complexValue_product (ops : List Expr) (d : Option Nat) (c : Bool) :
    (application "Multiply" ops d c).complexValue I = (ops.map (complexValue I)).prod :=
  complexValue_application I "Multiply" ops d c

@[simp] theorem complexValue_pair (a b : Expr) (d : Option Nat) (c : Bool) :
    (application "Complex" [a, b] d c).complexValue I = a.complexValue I + b.complexValue I * I.unit :=
  complexValue_application I "Complex" [a, b] d c

@[simp] theorem complexValue_negation (a : Expr) (d : Option Nat) (c : Bool) :
    (application "Negate" [a] d c).complexValue I = -a.complexValue I :=
  complexValue_application I "Negate" [a] d c

@[simp] theorem complexValue_quotient (a b : Expr) (d : Option Nat) (c : Bool) :
    (application "Divide" [a, b] d c).complexValue I = a.complexValue I / b.complexValue I :=
  complexValue_application I "Divide" [a, b] d c

@[simp] theorem complexValue_power (b : Expr) (n : Int) (d : Option Nat) (c : Bool) :
    (application "Power" [b, number (.ofInt n)] d c).complexValue I = b.complexValue I ^ n := by
  rw [complexValue_application, exponent?, Number.integer?_ofInt]
  rfl

mutual

/-- The value does not depend on definitions and flags. -/
theorem complexValue_bare : ∀ e : Expr, e.bare.complexValue I = e.complexValue I
  | number _ => rfl
  | symbol _ _ _ => rfl
  | error _ _ _ => rfl
  | application f ops d c => by
      rw [bare, complexValue, complexValue, complexValues_bareAll ops, bareAll_eq_map,
        exponent?_map_bare]

theorem complexValues_bareAll : ∀ es : List Expr,
    complexValues I (bareAll es) = complexValues I es
  | [] => rfl
  | e :: rest => by
      rw [bareAll, complexValues, complexValue_bare e, complexValues_bareAll rest, complexValues]

end

theorem complexValue_of_bare {e x : Expr} (h : e.bare = x.bare) :
    e.complexValue I = x.complexValue I := by
  rw [← complexValue_bare, h, complexValue_bare]

/-- What has the structure of an application is one. -/
theorem exists_of_bare_application {f : String} {ops : List Expr} {d : Option Nat} {c : Bool}
    {x : Expr} (h : (application f ops d c).bare = x.bare) :
    ∃ ops' d' c', x = application f ops' d' c' ∧ ops.map bare = ops'.map bare := by
  cases x with
  | application g ops' d' c' =>
      rw [bare_application, bare_application, application.injEq] at h
      exact ⟨ops', d', c', by rw [h.1], h.2.1⟩
  | _ => simp [bare] at h

end Expr

/-! ## Expressions that have a value -/

section Valued

variable (I : ComplexInterpretation K)

/-- The operands for which an operator of arithmetic has a value: exponents are whole literals, and no
denominator and no base of a negative power is zero. -/
def ComplexInterpretation.Admits : String → List Expr → Prop
  | "Add", _ | "Multiply", _ => True
  | "Complex", ops => ∃ a b, ops = [a, b]
  | "Negate", ops => ∃ a, ops = [a]
  | "Divide", ops => ∃ a b, ops = [a, b] ∧ b.complexValue I ≠ 0
  | "Power", ops => ∃ b n, ops = [b, .number (.ofInt n)] ∧ (n < 0 → b.complexValue I ≠ 0)
  | _, _ => False

/-- **Expressions that have a value**: all numbers are exact, and every operator of arithmetic has
operands that it admits, at every depth down to the operators outside arithmetic. -/
inductive Valued : Expr → Prop
  | number {v : Number} : v.isExact = true → Valued (.number v)
  | symbol (n : String) (d : Option Nat) (c : Bool) : Valued (.symbol n d c)
  | arithmetic {f : String} {ops : List Expr} (d : Option Nat) (c : Bool) :
      I.Admits f ops → (∀ x ∈ ops, Valued x) → Valued (.application f ops d c)
  | foreign {f : String} {ops : List Expr} (d : Option Nat) (c : Bool) :
      f ∉ ["Add", "Multiply", "Complex", "Negate", "Divide", "Power", "Sequence"] →
      (∀ x ∈ ops, x.isExact = true) → Valued (.application f ops d c)

variable {I}

theorem ComplexInterpretation.Admits.of_bare {f : String} {ops ops' : List Expr} (h : I.Admits f ops)
    (heq : ops.map Expr.bare = ops'.map Expr.bare) : I.Admits f ops' := by
  unfold Admits at h ⊢
  split at h
  · trivial
  · trivial
  · obtain ⟨a, b, rfl⟩ := h
    obtain ⟨a', _, rfl, -, hrest⟩ := List.map_eq_cons_iff.1 heq.symm
    obtain ⟨b', rfl, -⟩ := List.map_eq_singleton_iff.1 hrest
    exact ⟨a', b', rfl⟩
  · obtain ⟨a, rfl⟩ := h
    obtain ⟨a', rfl, -⟩ := List.map_eq_singleton_iff.1 heq.symm
    exact ⟨a', rfl⟩
  · obtain ⟨a, b, rfl, hb⟩ := h
    obtain ⟨a', _, rfl, -, hrest⟩ := List.map_eq_cons_iff.1 heq.symm
    obtain ⟨b', rfl, hb'⟩ := List.map_eq_singleton_iff.1 hrest
    exact ⟨a', b', rfl, by rwa [Expr.complexValue_of_bare I hb']⟩
  · obtain ⟨b, n, rfl, hb⟩ := h
    obtain ⟨b', _, rfl, hb', hrest⟩ := List.map_eq_cons_iff.1 heq.symm
    obtain ⟨x, rfl, hx⟩ := List.map_eq_singleton_iff.1 hrest
    obtain rfl : x = .number (.ofInt n) := by
      cases x <;> simp_all [Expr.bare]
    exact ⟨b', n, rfl, by rwa [Expr.complexValue_of_bare I hb']⟩
  · exact h.elim

namespace Valued

theorem exact {e : Expr} (h : Valued I e) : e.isExact = true := by
  induction h with
  | number h => exact h
  | symbol n d c => rfl
  | arithmetic d c _ _ ih => exact Expr.allOver_iff.2 ih
  | foreign d c _ h => exact Expr.allOver_iff.2 h

theorem ofInt (n : Int) : Valued I (.number (.ofInt n)) := .number rfl

/-- An application of an operator of arithmetic. -/
theorem application_inv {f : String} {ops : List Expr} {d : Option Nat} {c : Bool}
    (h : Valued I (.application f ops d c))
    (hf : f ∈ ["Add", "Multiply", "Complex", "Negate", "Divide", "Power", "Sequence"]) :
    I.Admits f ops ∧ ∀ x ∈ ops, Valued I x := by
  cases h with
  | arithmetic _ _ hadmits hops => exact ⟨hadmits, hops⟩
  | foreign _ _ hforeign _ => exact absurd hf hforeign

/-- **What has the structure of an expression with a value has one too.** -/
theorem of_bare {e x : Expr} (h : Valued I e) (heq : e.bare = x.bare) : Valued I x := by
  induction h generalizing x with
  | number h =>
      cases x <;> simp_all [Expr.bare]
      exact .number h
  | symbol n d c =>
      cases x <;> simp_all [Expr.bare]
      exact .symbol _ _ _
  | arithmetic d c hadmits _ ih =>
      obtain ⟨ops, d', c', rfl, hops⟩ := Expr.exists_of_bare_application heq
      refine .arithmetic d' c' (hadmits.of_bare hops) fun y hy => ?_
      obtain ⟨z, hz, hzy⟩ := List.mem_map.1 (hops ▸ List.mem_map_of_mem hy)
      exact ih z hz hzy
  | foreign d c hf hexact =>
      obtain ⟨ops, d', c', rfl, hops⟩ := Expr.exists_of_bare_application heq
      refine .foreign d' c' hf fun y hy => ?_
      obtain ⟨z, hz, hzy⟩ := List.mem_map.1 (hops ▸ List.mem_map_of_mem hy)
      rw [Expr.isExact, ← Expr.isOver_bare, ← hzy, Expr.isOver_bare]
      exact hexact z hz

/-- The value and having one are matters of structure. -/
theorem of_same {e x : Expr} (h : Valued I e) (hsame : e.same x = true) :
    Valued I x ∧ x.complexValue I = e.complexValue I :=
  have heq := (Expr.same_iff h.exact).1 hsame
  ⟨h.of_bare heq, (Expr.complexValue_of_bare I heq).symm⟩

end Valued

end Valued

end SymbolicAlgebra
