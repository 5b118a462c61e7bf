import SymbolicAlgebra.Angle
import SymbolicAlgebra.Proofs.ComplexSum
import SymbolicAlgebra.Proofs.Family
import SymbolicAlgebra.Proofs.Marking
import SymbolicAlgebra.Proofs.Standard

/-!
# Proofs/ImaginaryFactor — the factor of the imaginary unit

`imaginaryFactor` reads the factor of `i` off an expression, through negations, pairs, products and
quotients.  What it finds, times `i`, has the value of the expression (`imaginaryFactor_value`).  It
brings what it computes with into canonical form first; that changes nothing, because factors of an
expression in canonical form are in canonical form as well, which arithmetic keeps (`soundFamily`).
-/

namespace SymbolicAlgebra.Kernel

open Expr

/-- Operators whose operands neither arithmetic nor the search for a factor looks at. -/
def isRemote (f : String) : Bool := !isTransparent f && f != "Complex"

/-- **Arithmetic keeps expressions in canonical form**, down to the operands of remote operators. -/
def soundFamily : Family where
  Fits := IsSound isRemote
  Holds k := ∀ x ∈ k.pool, IsSound isRemote x
  number := isSound_number
  operand hf h := h.operand (by rw [isRemote, hf]; rfl)
  node _ _ _ _ hops := isSound_application _ _ hops
  pooled hk _ hx _ := hk _ hx
  pooling hk he := List.forall_mem_cons.2 ⟨he, hk⟩
  pooling_product hk := List.forall_mem_cons.2 ⟨isSound_application _ _ (by simp), hk⟩

instance : soundFamily.Free where
  power _ ha hb := isSound_application _ _ (by simpa using ⟨ha, hb⟩)

variable {K : Type*} [Field K] {I : ComplexInterpretation K} {k : Kernel} {x y : K}

/-- An expression with a value, in canonical form. -/
structure Suited (I : ComplexInterpretation K) (e : Expr) : Prop where
  sound : IsSound isRemote e
  valued : Valued I e

/-- The operators that the search looks through. -/
theorem Suited.operand {f : String} {ops : List Expr} {d : Option Nat} {c : Bool}
    (h : Suited I (.application f ops d c)) (hf : f ∈ ["Negate", "Complex", "Multiply", "Divide"]) :
    ∀ e ∈ ops, Suited I e := fun e he =>
  have hops := h.valued.application_inv (by simp only [List.mem_cons] at hf ⊢; tauto)
  have hremote : isRemote f = false := by
    simp only [List.mem_cons, List.not_mem_nil, or_false] at hf
    rcases hf with rfl | rfl | rfl | rfl <;> decide
  ⟨h.sound.operand hremote e he, hops.2 e he⟩

/-- The expression `f` is the factor of the imaginary unit in an expression of value `x`. -/
structure IsImaginaryFactor (I : ComplexInterpretation K) (x : K) (f : Expr) : Prop extends Suited I f where
  value : x = f.complexValue I * I.unit

/-- What the search finds, if anything, is the factor in an expression of value `x`. -/
def Finds (I : ComplexInterpretation K) (a : Action (Option Expr)) (k : Kernel) (x : K) : Prop :=
  Yields Anyhow a k fun o k' => soundFamily.Holds k' ∧ ∀ f, o = some f → IsImaginaryFactor I x f

theorem finds_none (hk : soundFamily.Holds k) : Finds I (pure none) k x :=
  Yields.pure ⟨hk, by simp⟩

theorem finds_some {f : Expr} (hk : soundFamily.Holds k) (hf : Suited I f)
    (hx : x = f.complexValue I * I.unit) : Finds I (pure (some f)) k x := by
  refine Yields.pure ⟨hk, ?_⟩
  rintro _ ⟨⟩
  exact ⟨hf, hx⟩

/-- A factor that arithmetic computes. -/
theorem finds_computed {a : Action Expr} (ha : soundFamily.Makes Bounded a k) (hv : Denotes I a k y)
    (hx : x = y * I.unit) : Finds I (do return some (← a)) k x :=
  Yields.bind (hv.and ha) fun _ _ h => finds_some h.2.1 ⟨h.2.2, h.1.1⟩ (by rw [h.1.2, hx])

/-- A factor that is computed from the factor in an operand. -/
theorem Finds.through {a : Action (Option Expr)} {g : Expr → Action Expr} (ha : Finds I a k y)
    (hg : ∀ f k, soundFamily.Holds k → IsImaginaryFactor I y f → Finds I (do return some (← g f)) k x) :
    Finds I (do match ← a with | some f => return some (← g f) | none => return none) k x := by
  refine Yields.bind ha fun o k' ho => ?_
  cases o with
  | some f => exact hg f k' ho.1 (ho.2 f rfl)
  | none => exact finds_none ho.1

/-! ## What is read off -/

theorem eq_number_of_filter {e : Expr} {v : Number} {p : Number → Bool}
    (h : e.literal?.filter p = some v) : e = .number v ∧ p v = true := by
  obtain ⟨hv, hp⟩ := Option.filter_eq_some_iff.1 h
  cases e with
  | number w =>
      cases hv
      exact ⟨rfl, hp⟩
  | _ => cases hv

theorem value_of_symbol {e : Expr} (h : (e.symbol? == some "ImaginaryUnit") = true) :
    e.complexValue I = I.unit := by
  cases e with
  | symbol n d c =>
      obtain rfl : n = "ImaginaryUnit" := by simpa [Expr.symbol?] using h
      rfl
  | _ => cases h

/-- Of a literal, a purely imaginary one has a factor. -/
theorem finds_literal {v : Number} (hk : soundFamily.Holds k) (he : Suited I (.number v)) :
    Finds I (imaginaryFactor (.number v)) k ((Expr.number v).complexValue I) := by
  unfold imaginaryFactor
  split
  next him =>
    obtain ⟨hexact, hvalue⟩ := Number.complexValue_of_isPurelyImaginary I he.valued.exact him
    exact finds_computed (Family.makes_makeNumber hk) (denotes_makeNumber hexact) hvalue
  next => exact finds_none hk

/-- Of the symbols, the imaginary unit has a factor. -/
theorem finds_symbol {n : String} {d : Option Nat} {c : Bool} (hk : soundFamily.Holds k) :
    Finds I (imaginaryFactor (.symbol n d c)) k ((Expr.symbol n d c).complexValue I) := by
  unfold imaginaryFactor
  split
  next hn =>
    refine finds_computed (Family.makes_makeNumber hk) (denotes_makeNumber rfl) ?_
    rw [Number.complexValue_one, one_mul]
    exact value_of_symbol (by simpa [Expr.symbol?] using hn)
  next => exact finds_none hk

/-- A pair without a real part has its imaginary part for a factor. -/
theorem finds_pair {a b : Expr} {d : Option Nat} {c : Bool} (hk : soundFamily.Holds k)
    (he : Suited I (.application "Complex" [a, b] d c)) :
    Finds I (pure (if a.literal?.any (·.isZero) then some b else none)) k
      ((Expr.application "Complex" [a, b] d c).complexValue I) := by
  split
  next h0 =>
    obtain ⟨v, rfl, h0⟩ := eq_number_of_literal h0
    refine finds_some hk (he.operand (by simp) b (by simp)) ?_
    have hv := (he.operand (by simp) (.number v) (by simp)).valued
    rw [Expr.complexValue_pair, Expr.complexValue_number,
      Number.complexValue_of_isZero I hv.exact h0, zero_add]
  next => exact finds_none hk

variable [CharZero K]

/-- A factor scaled by the imaginary part of a literal. -/
theorem finds_scaled {a : Expr} {v : Number} (hk : soundFamily.Holds k) (ha : Suited I a)
    (hv : v.isExact = true) (him : v.isPurelyImaginary = true)
    (hx : x = a.complexValue I * v.complexValue I) :
    Finds I (do return some (← mulOf [a, ← makeNumber (.real v.im)])) k x := by
  obtain ⟨hexact, hvalue⟩ := Number.complexValue_of_isPurelyImaginary I hv him
  refine Yields.bind ((yields_makeNumber (E := Anyhow) hexact).and
    (Family.makes_makeNumber (F := soundFamily) (E := Anyhow) hk)) fun n k₁ hn => ?_
  obtain ⟨rfl, hk₁, hsound⟩ := hn
  have hops : ∀ e ∈ [a, .number (.real v.im)], Suited I e := by simpa using ⟨ha, hsound, .number hexact⟩
  rw [mulOf, canonicalizeAll_of_isCanonical fun e he => (hops e he).sound.canonical, pure_bind]
  refine finds_computed (Family.makes_mul hk₁ fun e he => (hops e he).sound)
    (denotes_mul fun e he => (hops e he).valued) ?_
  rw [hx, hvalue]
  simp [mul_assoc]

/-- A product of two operands: one is the imaginary unit, or a literal without a real part. -/
theorem finds_product {a b : Expr} {d : Option Nat} {c : Bool} (hk : soundFamily.Holds k)
    (he : Suited I (.application "Multiply" [a, b] d c)) :
    Finds I (imaginaryFactor (.application "Multiply" [a, b] d c)) k
      ((Expr.application "Multiply" [a, b] d c).complexValue I) := by
  have ha := he.operand (by simp) a (by simp)
  have hb := he.operand (by simp) b (by simp)
  have hprod : (Expr.application "Multiply" [a, b] d c).complexValue I =
      a.complexValue I * b.complexValue I := by simp
  rw [hprod]
  unfold imaginaryFactor
  rw [if_neg (by decide)]
  simp only
  split
  next hunit => exact finds_some hk hb (by rw [value_of_symbol hunit, mul_comm])
  next =>
    split
    next hunit => exact finds_some hk ha (by rw [value_of_symbol hunit])
    next =>
      split
      next v hv =>
        obtain ⟨rfl, him⟩ := eq_number_of_filter hv
        exact finds_scaled hk ha hb.valued.exact him rfl
      next =>
        split
        next v hv =>
          obtain ⟨rfl, him⟩ := eq_number_of_filter hv
          exact finds_scaled hk hb ha.valued.exact him (mul_comm _ _)
        next => exact finds_none hk

/-- **What is found, times the imaginary unit, has the value of the expression.** -/
theorem finds_imaginaryFactor : ∀ {e : Expr} {k : Kernel}, soundFamily.Holds k → Suited I e →
    Finds I (imaginaryFactor e) k (e.complexValue I)
  | .number _, _, hk, he => finds_literal hk he
  | .symbol _ _ _, _, hk, _ => finds_symbol hk
  | .error _ _ _, k, _, he => by cases he.valued
  | .application f ops d c, k, hk, he => by
      by_cases hproduct : ∃ a b, f = "Multiply" ∧ ops = [a, b]
      · obtain ⟨a, b, rfl, rfl⟩ := hproduct
        exact finds_product hk he
      unfold imaginaryFactor
      split
      next hf =>
        obtain rfl : f = "Negate" := by simpa using hf
        obtain ⟨a, rfl, -⟩ := he.valued.negation_inv
        refine (finds_imaginaryFactor hk (he.operand (by simp) a (by simp))).through fun r k₁ hk₁ hr => ?_
        -- the factor is in canonical form, so that `negOf` negates it as it is
        rw [negOf, canonicalize_of_isCanonical hr.sound.canonical, pure_bind]
        refine finds_computed (Family.makes_neg hk₁ hr.sound) (denotes_neg hr.valued) ?_
        rw [Expr.complexValue_negation, hr.value, neg_mul]
      next =>
        split
        next a b _ => exact finds_pair hk he
        next a b _ => exact absurd ⟨a, b, rfl, rfl⟩ hproduct
        next a b _ =>
          split
          next => exact finds_none hk
          next =>
            have hb := he.operand (by simp) b (by simp)
            obtain ⟨_, _, hab, -, -, hne⟩ := he.valued.quotient_inv
            obtain ⟨rfl, rfl⟩ : a = _ ∧ b = _ := by simpa using hab
            refine (finds_imaginaryFactor hk (he.operand (by simp) a (by simp))).through
              fun r k₁ hk₁ hr => ?_
            rw [divOf, canonicalize_of_isCanonical hr.sound.canonical, pure_bind,
              canonicalize_of_isCanonical hb.sound.canonical, pure_bind]
            refine finds_computed (Family.makes_div hk₁ hr.sound hb.sound)
              (denotes_div hr.valued hb.valued hne) ?_
            rw [Expr.complexValue_quotient, hr.value, mul_div_right_comm]
        next => exact finds_none hk

/-- **The imaginary factor is correct.**  Let an expression be in canonical form, its numbers exact and
its exponents whole, and let an interpretation in a field of characteristic zero, with a root of minus
one for the imaginary unit, not divide by zero in it.  The factor that is found then has a value as
well, and that value times the imaginary unit is the value of the expression. -/
theorem imaginaryFactor_value (I : ComplexInterpretation K) {k k' : Kernel} {e f : Expr}
    (hk : ∀ x ∈ k.pool, IsSound isRemote x) (he : IsSound isRemote e) (hv : Valued I e)
    (hrun : (imaginaryFactor e).run.run k = (.ok (some f), k')) :
    Valued I f ∧ e.complexValue I = f.complexValue I * I.unit :=
  have hf := ((finds_imaginaryFactor hk ⟨he, hv⟩).of_run hrun).2 f rfl
  ⟨hf.valued, hf.value⟩

/-- The Gaussian rationals, in which all symbols but the imaginary unit are two. -/
def gaussianInterpretation : ComplexInterpretation Gaussian where
  symbol n := if n = "ImaginaryUnit" then ⟨0, 1⟩ else ⟨2, 0⟩
  operator _ _ := 0
  unit_sq := by
    rw [if_pos rfl, sq]
    ext <;> simp [QuadraticAlgebra.re_one, QuadraticAlgebra.im_one]

/-- The expression `-(6 · i) / x`. -/
def imaginaryQuotient : Expr :=
  .node "Divide" [.node "Negate" [.node "Multiply" [.number (.ofInt 6), .symbol "ImaginaryUnit" none true]],
    .symbol "x" none true]

theorem valued_imaginaryQuotient : Valued gaussianInterpretation imaginaryQuotient := by
  refine .quotient _ _ (.negation _ _ (.product _ _ ?_)) (.symbol _ _ _) ?_
  · simpa using ⟨.ofInt 6, .symbol _ _ _⟩
  · change (⟨2, 0⟩ : Gaussian) ≠ 0
    exact fun h => two_ne_zero (congrArg QuadraticAlgebra.re h)

/-- Its factor is `-6 / x`. -/
theorem imaginaryFactor_value_quotient : ∃ f k',
    (imaginaryFactor imaginaryQuotient).run.run standard = (.ok (some f), k') ∧
      f.same (.node "Divide" [.number (.ofInt (-6)), .symbol "x" none true]) = true ∧
      Valued gaussianInterpretation f ∧
      imaginaryQuotient.complexValue gaussianInterpretation =
        f.complexValue gaussianInterpretation * gaussianInterpretation.unit := by
  obtain ⟨o, k', hrun, ho⟩ := run_of_any (x := imaginaryFactor imaginaryQuotient) (k := standard)
    (p := Option.any (·.same (.node "Divide" [.number (.ofInt (-6)), .symbol "x" none true])))
    (by rw [standard_eq]; decide +kernel)
  obtain ⟨f, rfl, hf⟩ := (Option.any_eq_true _ _).1 ho
  have hsound : IsSound isRemote imaginaryQuotient := ⟨by decide +kernel, by decide +kernel⟩
  exact ⟨f, k', hrun, hf, imaginaryFactor_value gaussianInterpretation (by simp [standard_pool]) hsound
    valued_imaginaryQuotient hrun⟩

end SymbolicAlgebra.Kernel
