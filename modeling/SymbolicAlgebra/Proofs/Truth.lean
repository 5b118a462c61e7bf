import SymbolicAlgebra.Proofs.Comparison
import SymbolicAlgebra.Proofs.Standard
import SymbolicAlgebra.Proofs.Value
import SymbolicAlgebra.Truth

/-!
# Proofs/Truth — what a verdict says

A verdict on a relation comes from the exact values of its sides, if they have any, or from their
being the same.  The one other source is the place of the operands, when the sides are two
arrangements of the same operands: that is an order for sorting and says nothing about values
(`truth_of_arrangement`).  Where it is not asked, verdicts are sound for every assignment of
rationals to the free symbols, through all connectives (`truth_sound`).
-/

namespace SymbolicAlgebra

/-! ## Truth under an assignment -/

/-- Rational values of symbols, with differences. -/
def Interpretation.rational (ρ : String → ℚ) : Interpretation ℚ where
  symbol := ρ
  operator
    | "Subtract", [a, b] => a - b
    | _, _ => 0

/-- Differences have two operands. -/
def Shape.differences : Shape where
  Allows := fun f ops => f = "Subtract" → ops.length = 2
  bare := by simp
  sum := fun _ h => by simp at h
  product := fun _ h => by simp at h
  negation := fun h => by simp at h
  quotient := fun h => by simp at h
  power := fun _ h => by simp at h
  power_again := fun _ h => by simp at h

/-- Whether a relation holds between two rationals. -/
def Relation.between : Relation → ℚ → ℚ → Bool
  | .equal, x, y => x == y
  | .notEqual, x, y => x != y
  | .less, x, y => x < y
  | .lessEqual, x, y => x ≤ y
  | .greater, x, y => y < x
  | .greaterEqual, x, y => y ≤ x

/-- A relation is read off a comparison. -/
theorem Relation.holds_order (r : Relation) (x y : ℚ) :
    r.holds (Scalar.order x y) = r.between x y := by
  rcases lt_trichotomy x y with h | rfl | h
  · cases r <;> simp [holds, between, Scalar.order, h, h.not_gt, h.le, h.ne]
  · cases r <;> simp [holds, between, Scalar.order]
  · cases r <;> simp [holds, between, Scalar.order, h, h.not_gt, h.le, h.ne']

namespace Expr

mutual

/-- The truth of a predicate. -/
def truth (I : Interpretation ℚ) : Expr → Bool
  | symbol n _ _ => n == "True"
  | application f ops _ _ =>
      match Kernel.relation? f ops with
      | some (r, a, b) => r.between (a.value I) (b.value I)
      | none => if f == "Not" then !allTrue I ops else if f == "Or" then anyTrue I ops else allTrue I ops
  | _ => false

def allTrue (I : Interpretation ℚ) : List Expr → Bool
  | [] => true
  | e :: rest => truth I e && allTrue I rest

def anyTrue (I : Interpretation ℚ) : List Expr → Bool
  | [] => false
  | e :: rest => truth I e || anyTrue I rest

end

mutual

/-- Both sides of every relation in a predicate have a value. -/
def SidesDefined (I : Interpretation ℚ) : Expr → Prop
  | application f ops _ _ =>
      match Kernel.relation? f ops with
      | some (_, a, b) => Defined I .differences a ∧ Defined I .differences b
      | none => AllSidesDefined I ops
  | _ => True

def AllSidesDefined (I : Interpretation ℚ) : List Expr → Prop
  | [] => True
  | e :: rest => SidesDefined I e ∧ AllSidesDefined I rest

end

mutual

/-- Whether no symbol occurs in an expression. -/
def isClosed : Expr → Bool
  | number _ => true
  | application _ ops _ _ => allClosed ops
  | _ => false

def allClosed : List Expr → Bool
  | [] => true
  | e :: rest => isClosed e && allClosed rest

end

mutual

/-- Whether no symbol occurs on a side of a relation in a predicate. -/
def sidesClosed : Expr → Bool
  | application f ops _ _ =>
      match Kernel.relation? f ops with
      | some (_, a, b) => a.isClosed && b.isClosed
      | none => allSidesClosed ops
  | _ => true

def allSidesClosed : List Expr → Bool
  | [] => true
  | e :: rest => sidesClosed e && allSidesClosed rest

end

end Expr

/-! ## Exact arithmetic -/

/-- How an operator of arithmetic is evaluated. -/
def evaluationOf? : String → Option Evaluation
  | "Add" => some .sum
  | "Multiply" => some .product
  | "Negate" => some .negation
  | "Subtract" => some .difference
  | "Divide" => some .quotient
  | "Power" => some .power
  | _ => none

namespace FunctionDefinition

/-- Whether a function is pure, not lazy, and evaluated by a rule. -/
def isEvaluatedBy (d : FunctionDefinition) (r : Evaluation) : Bool :=
  !d.isLazy.truthy && d.isPure.truthy &&
    match d.evaluate with
    | some (.evaluation r') => r = r'
    | _ => false

theorem evaluate_of_isEvaluatedBy {d : FunctionDefinition} {r : Evaluation}
    (h : d.isEvaluatedBy r = true) :
    d.isLazy.truthy = false ∧ d.isPure.truthy = true ∧ d.evaluate = some (.evaluation r) := by
  simp only [isEvaluatedBy, Bool.and_eq_true, Bool.not_eq_true'] at h
  obtain ⟨⟨hlazy, hpure⟩, hrule⟩ := h
  refine ⟨hlazy, hpure, ?_⟩
  split at hrule
  next r' hr' =>
    obtain rfl := of_decide_eq_true hrule
    exact hr'
  next => cases hrule

end FunctionDefinition

namespace Kernel

/-- Whether a symbol has no value. -/
def isFree (k : Kernel) (n : String) : Bool :=
  match k.constants.lookup n with
  | some v => v.isNone
  | none => (k.table.symbol? n).all fun d => d.value.isNull

end Kernel

mutual

/-- Whether an expression is built of rationals and free symbols by operators that are evaluated as
their names say. -/
def Expr.isArithmetic (k : Kernel) : Expr → Bool
  | .number v => v.isRational
  | .symbol n _ _ => k.isFree n
  | .application f ops d _ =>
      (match evaluationOf? f, d.bind k.table.get? with
        | some r, some (.function g) => g.isEvaluatedBy r
        | _, _ => false) && allArithmetic k ops
  | .error _ _ _ => false

def Expr.allArithmetic (k : Kernel) : List Expr → Bool
  | [] => true
  | e :: rest => isArithmetic k e && allArithmetic k rest

end

/-- Whether two expressions are different arrangements of the same operands. -/
def Expr.isRearranged (a b : Expr) : Bool :=
  !a.same b && a.isApplication && b.isApplication && a.operator == b.operator &&
    Kernel.sameMultiset a.operands b.operands

/-- Whether two expressions can be the sides of a relation: canonical arithmetic, and no different
arrangements of the same operands unless there are values to compare. -/
def Expr.areSides (k : Kernel) (a b : Expr) : Bool :=
  a.isCanonical && b.isCanonical && a.isArithmetic k && b.isArithmetic k &&
    (!a.isRearranged b || (a.isClosed && b.isClosed))

mutual

/-- Whether an expression is made of relations and truth values by connectives. -/
def Expr.isPredicate (k : Kernel) : Expr → Bool
  | .symbol n _ _ => n == "True" || n == "False"
  | .application f ops _ _ =>
      match Kernel.relation? f ops with
      | some (_, a, b) => a.areSides k b
      | none => (f == "Not" && ops.length == 1 || f == "And" || f == "Or") && arePredicates k ops
  | _ => false

def Expr.arePredicates (k : Kernel) : List Expr → Bool
  | [] => true
  | e :: rest => isPredicate k e && arePredicates k rest

end

namespace Expr

theorem isArithmetic_application {k : Kernel} {f : String} {ops : List Expr} {d : Option Nat}
    {c : Bool} (h : (application f ops d c).isArithmetic k = true) :
    ∃ r g, evaluationOf? f = some r ∧ d.bind k.table.get? = some (.function g) ∧
      g.isEvaluatedBy r = true ∧ allArithmetic k ops = true := by
  rw [isArithmetic, Bool.and_eq_true] at h
  obtain ⟨h, hops⟩ := h
  split at h
  next r g hr hg => exact ⟨r, g, hr, hg, h, hops⟩
  next => cases h

mutual

theorem isPure_of_isArithmetic {k : Kernel} : ∀ {e : Expr}, e.isArithmetic k = true →
    k.table.isPure e = true
  | number _, _ => rfl
  | symbol _ _ _, _ => rfl
  | error _ _ _, _ => rfl
  | application f ops d c, h => by
      obtain ⟨r, g, -, hg, hrule, hops⟩ := isArithmetic_application h
      have hpure := (FunctionDefinition.evaluate_of_isEvaluatedBy hrule).2.1
      rw [DefinitionTable.isPure, hg, allPure_of_allArithmetic hops]
      simpa using hpure

theorem allPure_of_allArithmetic {k : Kernel} : ∀ {es : List Expr}, allArithmetic k es = true →
    k.table.allPure es = true
  | [], _ => rfl
  | e :: rest, h => by
      rw [allArithmetic, Bool.and_eq_true] at h
      rw [DefinitionTable.allPure, isPure_of_isArithmetic h.1, allPure_of_allArithmetic h.2]
      rfl

end

end Expr

/-! ## Evaluation -/

namespace Evaluation

variable {I : Interpretation ℚ}

theorem foldlM_add (q : ℚ) : ∀ qs : List ℚ,
    (qs.map Number.ofRat).foldlM Number.add (.ofRat q) = .ok (.ofRat (q + qs.sum))
  | [] => by simp [pure, Except.pure]
  | p :: qs => by
      rw [List.map_cons, List.foldlM_cons, Number.add_ofRat, List.sum_cons, ← add_assoc]
      exact foldlM_add (q + p) qs

theorem foldlM_mul (q : ℚ) : ∀ qs : List ℚ,
    (qs.map Number.ofRat).foldlM Number.mul (.ofRat q) = .ok (.ofRat (q * qs.prod))
  | [] => by simp [pure, Except.pure]
  | p :: qs => by
      rw [List.map_cons, List.foldlM_cons, Number.mul_ofRat, List.prod_cons, ← mul_assoc]
      exact foldlM_mul (q * p) qs

/-- **Rules calculate what operators stand for**, exactly. -/
theorem apply_values {ρ : String → ℚ} {f : String} {r : Evaluation} {ops : List Expr} {d : Option Nat}
    {c : Bool} (precision : Nat) (hr : evaluationOf? f = some r)
    (h : Defined (.rational ρ) .differences (.application f ops d c)) :
    r.apply precision (ops.map fun e => .ofRat (e.value (.rational ρ))) =
      .ok (some (.ofRat ((Expr.application f ops d c).value (.rational ρ)))) := by
  have hmap : ops.map (fun e => Number.ofRat (e.value (.rational ρ))) =
      (ops.map (Expr.value (.rational ρ))).map .ofRat := by
    rw [List.map_map]
    rfl
  rcases h.application_cases with ⟨hf, hS⟩ | ⟨rfl, a, rfl⟩ | ⟨rfl, a, b, rfl, hb⟩ |
    ⟨rfl, b, n, rfl, hb, -⟩
  · unfold evaluationOf? at hr
    split at hr
    · cases hr
      rw [hmap, Evaluation.apply, Expr.value_sum, Number.zero_eq_ofRat, foldlM_add, zero_add]
      rfl
    · cases hr
      rw [hmap, Evaluation.apply, Expr.value_product, Number.one_eq_ofRat, foldlM_mul, one_mul]
      rfl
    · exact absurd hf (by decide)
    · cases hr
      obtain ⟨a, b, rfl⟩ := List.length_eq_two.1 (hS rfl)
      rfl
    · exact absurd hf (by decide)
    · exact absurd hf (by decide)
    · cases hr
  · cases hr
    rw [Expr.value_negation]
    rfl
  · cases hr
    rw [Expr.value_quotient]
    simp [Evaluation.apply, binary, Number.div_ofRat _ hb, bind, Except.bind, pure, Except.pure]
  · cases hr
    have hpow := Number.pow_ofRat precision hb
    rw [Number.ofInt_eq_ofRat] at hpow
    rw [Expr.value_power]
    simp [Evaluation.apply, binary, hpow, bind, Except.bind, pure, Except.pure, Number.ofInt_eq_ofRat]

end Evaluation

namespace Kernel

variable {E : Fault → Prop} {k : Kernel} {ρ : String → ℚ}

theorem yields_constant {n : String} (h : k.isFree n = true) :
    Yields E (constant n) k fun o k' => o = none ∧ k = k' := by
  refine Yields.bind (P := fun u k' => u = k.table ∧ k = k') ⟨rfl, rfl⟩ ?_
  rintro _ _ ⟨rfl, rfl⟩
  rw [isFree] at h
  refine Yields.bind (P := fun u k' => k = u ∧ k = k') ⟨rfl, rfl⟩ ?_
  rintro _ _ ⟨rfl, rfl⟩
  cases hc : k.constants.lookup n with
  | some v =>
      rw [hc] at h
      exact Yields.pure ⟨Option.isNone_iff_eq_none.1 h, rfl⟩
  | none =>
      rw [hc] at h
      refine Yields.bind (P := fun u k' => u = k.table ∧ k = k') ⟨rfl, rfl⟩ ?_
      rintro _ _ ⟨rfl, rfl⟩
      cases hs : k.table.symbol? n with
      | none => exact Yields.pure ⟨rfl, rfl⟩
      | some d =>
          have hnull : d.value.isNull = true := by simpa [hs] using h
          simp only [hnull, if_true]
          exact Yields.pure ⟨rfl, rfl⟩

/-- The exact value of an expression in which no symbol occurs. -/
def exactValue? (ρ : String → ℚ) (e : Expr) : Option Number :=
  if e.isClosed then some (.ofRat (e.value (.rational ρ))) else none

/-- An application of arithmetic is evaluated by its rule. -/
theorem yields_evaluateWith_application {numeric : Bool} {f : String} {ops : List Expr}
    {d : Option Nat} {c : Bool} {r : Evaluation} {g : FunctionDefinition}
    {P : Option Number → Kernel → Prop} (hg : d.bind k.table.get? = some (.function g))
    (hrule : g.isEvaluatedBy r = true) (hvalid : Expr.allValid ops = true)
    (h : Yields E (do
      match ← evaluateEach constant numeric ops with
      | none => return none
      | some vs => approximateIf numeric (← evaluateCall (.evaluation r) vs)) k P) :
    Yields E (evaluateWith constant numeric (.application f ops d c)) k P := by
  obtain ⟨hlazy, -, hevaluate⟩ := FunctionDefinition.evaluate_of_isEvaluatedBy hrule
  have hfunction : k.table.functionOf (.application f ops d c) = some g := by
    rw [DefinitionTable.functionOf, DefinitionTable.definitionOf, Expr.definition?, hg]
    rfl
  unfold evaluateWith
  rw [hvalid]
  refine Yields.bind (P := fun u k' => u = k.table ∧ k = k') ⟨rfl, rfl⟩ ?_
  rintro _ _ ⟨rfl, rfl⟩
  rw [hfunction]
  obtain ⟨⟩ := g
  simp only at hevaluate hlazy
  subst hevaluate
  simp only [hlazy]
  exact h

theorem isValid_of_defined {e : Expr} (h : Defined (.rational ρ) .differences e) :
    e.isValid = true := Expr.isValid_of_isOver h.proper

mutual

/-- **Evaluation gives the exact value of what has no symbols**, and nothing otherwise. -/
theorem yields_evaluateWith : ∀ {e : Expr}, e.isArithmetic k = true →
    Defined (.rational ρ) .differences e →
    Yields E (evaluateWith constant false e) k fun o k' => o = exactValue? ρ e ∧ k = k'
  | .number v, _, hd => by
      obtain ⟨q, rfl⟩ := Number.eq_ofRat hd.rational
      exact Yields.pure ⟨rfl, rfl⟩
  | .symbol n d c, h, _ => by
      refine (yields_constant h).bind ?_
      rintro _ _ ⟨rfl, rfl⟩
      exact Yields.pure ⟨rfl, rfl⟩
  | .error _ _ _, h, _ => by cases h
  | .application f ops d c, h, hd => by
      obtain ⟨r, g, hr, hg, hrule, hops⟩ := Expr.isArithmetic_application h
      refine yields_evaluateWith_application hg hrule (isValid_of_defined hd) ?_
      refine (yields_evaluateEach hops hd.operand).bind ?_
      rintro _ _ ⟨rfl, rfl⟩
      rw [exactValue?, Expr.isClosed]
      cases Expr.allClosed ops with
      | false => exact Yields.pure ⟨rfl, rfl⟩
      | true =>
          refine Yields.bind (P := fun o k' =>
            o = some (.ofRat ((Expr.application f ops d c).value (.rational ρ))) ∧ k = k') ?_ ?_
          · refine Yields.bind (P := fun u k' => u = k.settings.precision ∧ k = k') ⟨rfl, rfl⟩ ?_
            rintro _ _ ⟨rfl, rfl⟩
            exact yields_number_ok (Evaluation.apply_values _ hr hd) ⟨rfl, rfl⟩
          · rintro _ _ ⟨rfl, rfl⟩
            exact Yields.pure ⟨rfl, rfl⟩

theorem yields_evaluateEach : ∀ {es : List Expr}, Expr.allArithmetic k es = true →
    (∀ e ∈ es, Defined (.rational ρ) .differences e) →
    Yields E (evaluateEach constant false es) k fun o k' =>
      o = (if Expr.allClosed es then
        some (es.map fun e => .ofRat (e.value (.rational ρ))) else none) ∧ k = k'
  | [], _, _ => Yields.pure ⟨rfl, rfl⟩
  | e :: rest, h, hd => by
      rw [Expr.allArithmetic, Bool.and_eq_true] at h
      rw [List.forall_mem_cons] at hd
      unfold evaluateEach
      refine (yields_evaluateWith h.1 hd.1).bind ?_
      rintro _ _ ⟨rfl, rfl⟩
      rw [exactValue?, Expr.allClosed]
      cases e.isClosed with
      | false => exact Yields.pure ⟨rfl, rfl⟩
      | true =>
          refine (yields_evaluateEach h.2 hd.2).bind ?_
          rintro _ _ ⟨rfl, rfl⟩
          cases Expr.allClosed rest <;> exact Yields.pure ⟨rfl, rfl⟩

end

theorem yields_approximateIf {numeric : Bool} {o : Option Number} :
    Yields Anyhow (approximateIf numeric o) k fun o' k' => k = k' ∧ (o = none → o' = none) := by
  cases o with
  | none => exact Yields.pure ⟨rfl, fun _ => rfl⟩
  | some v =>
      cases numeric with
      | false => exact Yields.pure ⟨rfl, by simp⟩
      | true =>
          refine Yields.bind (P := fun _ k' => k = k') rfl fun p k₁ hk₁ => ?_
          refine Yields.bind (P := fun _ k' => k = k')
            (yields_number (fun _ _ => trivial) fun _ _ => hk₁) fun w k₂ hk₂ => ?_
          exact Yields.pure ⟨hk₂, by simp⟩

mutual

/-- In any lane there is no value where a symbol occurs. -/
theorem yields_evaluateWith_open {numeric : Bool} : ∀ {e : Expr}, e.isArithmetic k = true →
    e.isValid = true → Yields Anyhow (evaluateWith constant numeric e) k fun o k' =>
      k = k' ∧ (e.isClosed = false → o = none)
  | .number v, _, _ => by
      unfold evaluateWith
      exact yields_approximateIf.mono fun _ _ h => ⟨h.1, by simp [Expr.isClosed]⟩
  | .symbol n d c, h, _ => by
      refine (yields_constant h).bind ?_
      rintro _ _ ⟨rfl, rfl⟩
      exact yields_approximateIf.mono fun _ _ h => ⟨h.1, fun _ => h.2 rfl⟩
  | .error _ _ _, h, _ => by cases h
  | .application f ops d c, h, hvalid => by
      obtain ⟨r, g, hr, hg, hrule, hops⟩ := Expr.isArithmetic_application h
      refine yields_evaluateWith_application hg hrule hvalid ?_
      refine (yields_evaluateEach_open hops hvalid).bind ?_
      rintro o k' ⟨rfl, ho⟩
      cases o with
      | none => exact Yields.pure ⟨rfl, fun _ => rfl⟩
      | some vs =>
          have hclosed : (Expr.application f ops d c).isClosed ≠ false := fun hc => by cases ho hc
          refine Yields.bind (P := fun _ k' => k = k') ?_ fun o k₁ hk₁ => ?_
          · refine Yields.bind (P := fun _ k' => k = k') rfl fun p k₁ hk₁ => ?_
            exact yields_number (fun _ _ => trivial) fun _ _ => hk₁
          · subst hk₁
            exact yields_approximateIf.mono fun _ _ h => ⟨h.1, fun hc => absurd hc hclosed⟩

theorem yields_evaluateEach_open {numeric : Bool} : ∀ {es : List Expr},
    Expr.allArithmetic k es = true → Expr.allValid es = true →
    Yields Anyhow (evaluateEach constant numeric es) k fun o k' =>
      k = k' ∧ (Expr.allClosed es = false → o = none)
  | [], _, _ => Yields.pure ⟨rfl, by simp [Expr.allClosed]⟩
  | e :: rest, h, hvalid => by
      rw [Expr.allArithmetic, Bool.and_eq_true] at h
      rw [Expr.allValid, Bool.and_eq_true] at hvalid
      unfold evaluateEach
      refine (yields_evaluateWith_open h.1 hvalid.1).bind ?_
      rintro o k' ⟨rfl, ho⟩
      cases o with
      | none => exact Yields.pure ⟨rfl, fun _ => rfl⟩
      | some v =>
          refine (yields_evaluateEach_open h.2 hvalid.2).bind ?_
          rintro o k' ⟨rfl, hrest⟩
          cases o with
          | none => exact Yields.pure ⟨rfl, fun _ => rfl⟩
          | some vs =>
              refine Yields.pure ⟨rfl, fun hc => ?_⟩
              rw [Expr.allClosed, Bool.and_eq_false_iff] at hc
              rcases hc with hc | hc
              · cases ho hc
              · cases hrest hc

end

/-! ## Comparison -/

/-- The real value of a side. -/
theorem yields_realValue {e : Expr} (hc : e.isCanonical = true) (h : e.isArithmetic k = true)
    (hd : Defined (.rational ρ) .differences e) :
    Yields E (realValue e) k fun o k' =>
      o = (if e.isClosed then some (.exact (e.value (.rational ρ))) else none) ∧ k = k' := by
  -- Whatever gives the exact value of a closed expression, the real part of it is that value.
  have hreal : ∀ {x : Action (Option Number)} {real? : Option Number → Option Scalar},
      (Yields E x k fun o k' => o = exactValue? ρ e ∧ k = k') →
      (∀ q, real? (some (.real q)) = some q) → real? none = none →
      Yields E (do return real? (← x)) k fun o k' =>
        o = (if e.isClosed then some (.exact (e.value (.rational ρ))) else none) ∧ k = k' := by
    intro x real? hx hsome hnone
    refine hx.bind ?_
    rintro _ _ ⟨rfl, rfl⟩
    refine Yields.pure ⟨?_, rfl⟩
    rw [exactValue?]
    cases e.isClosed with
    | true => exact hsome _
    | false => exact hnone
  unfold realValue
  cases e with
  | number v =>
      obtain ⟨q, rfl⟩ := Number.eq_ofRat hd.rational
      exact hreal (Yields.pure ⟨rfl, rfl⟩) (fun _ => rfl) rfl
  | symbol n d c =>
      refine Yields.bind (P := fun _ k' => k = k') rfl ?_
      rintro t _ rfl
      split
      next => exact hreal (yields_constant h) (fun _ => rfl) rfl
      next => exact hreal (Yields.pure ⟨rfl, rfl⟩) (fun _ => rfl) rfl
  | application f ops d c =>
      refine Yields.bind (P := fun u k' => u = k.table ∧ k = k') ⟨rfl, rfl⟩ ?_
      rintro _ _ ⟨rfl, rfl⟩
      rw [if_pos (Expr.isPure_of_isArithmetic h), canonicalize_of_isCanonical hc, pure_bind]
      exact hreal (yields_evaluateWith h hd) (fun _ => rfl) rfl
  | error a b x => cases h

/-- What the structure of sides says is true of their values. -/
theorem order_of_compareStructure {t : DefinitionTable} {a b : Expr} {c : Int}
    (ha : Defined (.rational ρ) .differences a) (harrange : a.isRearranged b = false)
    (h : compareStructure t a b = some c) :
    c = Scalar.order (a.value (.rational ρ)) (b.value (.rational ρ)) := by
  rw [compareStructure] at h
  split at h
  next hsame =>
    cases h
    rw [Expr.value_of_same _ ha.exact hsame, Scalar.order, if_neg (lt_irrefl _),
      if_neg (lt_irrefl _)]
  next hsame =>
    rw [Expr.isRearranged, Bool.eq_false_iff.2 hsame, Bool.not_false, Bool.true_and] at harrange
    rw [harrange] at h
    cases h

/-- **A comparison of sides says how their values compare**, for every assignment that gives them
values; and there is one if they have no symbols. -/
theorem yields_compare? {a b : Expr} (h : a.areSides k b = true)
    (ha : Defined (.rational ρ) .differences a) (hb : Defined (.rational ρ) .differences b) :
    Yields E (compare? a b) k fun o k' => k = k' ∧
      (∀ c, o = some c → c = Scalar.order (a.value (.rational ρ)) (b.value (.rational ρ))) ∧
      (o = none → (a.isClosed && b.isClosed) = false) := by
  simp only [Expr.areSides, Bool.and_eq_true] at h
  obtain ⟨⟨⟨⟨hca, hcb⟩, hka⟩, hkb⟩, harrange⟩ := h
  rw [compare?_eq]
  refine (yields_realValue hca hka ha).bind ?_
  rintro _ _ ⟨rfl, rfl⟩
  refine (yields_realValue hcb hkb hb).bind ?_
  rintro _ _ ⟨rfl, rfl⟩
  refine Yields.bind (P := fun _ k' => k = k') rfl ?_
  rintro t _ rfl
  refine Yields.pure ⟨rfl, ?_⟩
  cases hab : a.isClosed && b.isClosed with
  | true =>
      rw [Bool.and_eq_true] at hab
      rw [hab.1, hab.2]
      exact ⟨fun c hc => (Option.some.inj hc).symm, fun hc => by cases hc⟩
  | false =>
      rw [hab, Bool.or_false, Bool.not_eq_true'] at harrange
      have hwith : compareWith t a b
          (if a.isClosed then some (.exact (a.value (.rational ρ))) else none)
          (if b.isClosed then some (.exact (b.value (.rational ρ))) else none) =
            compareStructure t a b := by
        rcases Bool.and_eq_false_iff.1 hab with h | h
        · rw [h]
          rfl
        · rw [h]
          cases a.isClosed <;> rfl
      rw [hwith]
      exact ⟨fun c => order_of_compareStructure ha harrange, fun _ => rfl⟩

theorem yields_compareValues {a b : Expr} (h : a.areSides k b = true)
    (ha : Defined (.rational ρ) .differences a) (hb : Defined (.rational ρ) .differences b) :
    Yields Anyhow (compareValues a b) k fun o k' => k = k' ∧ ∀ c, o = some c →
      c = Scalar.order (a.value (.rational ρ)) (b.value (.rational ρ)) := by
  unfold compareValues
  refine (yields_compare? h ha hb).bind ?_
  simp only [Expr.areSides, Bool.and_eq_true] at h
  obtain ⟨⟨⟨-, hka⟩, hkb⟩, -⟩ := h
  rintro o _ ⟨rfl, hsome, hnone⟩
  cases o with
  | some c => exact Yields.pure ⟨rfl, hsome⟩
  | none =>
      -- the approximate values are asked for in vain: one of the sides has a symbol
      refine (yields_evaluateWith_open hka (isValid_of_defined ha)).bind ?_
      rintro x _ ⟨rfl, hx⟩
      refine (yields_evaluateWith_open hkb (isValid_of_defined hb)).bind ?_
      rintro y _ ⟨rfl, hy⟩
      rcases Bool.and_eq_false_iff.1 (hnone rfl) with hopen | hopen
      · rw [hx hopen]
        exact Yields.pure ⟨rfl, by simp⟩
      · rw [hy hopen]
        cases x <;> exact Yields.pure ⟨rfl, by simp⟩

/-- There is a verdict on sides that have no symbols. -/
theorem yields_compareValues_closed {a b : Expr} (h : a.areSides k b = true)
    (ha : Defined (.rational ρ) .differences a) (hb : Defined (.rational ρ) .differences b)
    (hclosed : (a.isClosed && b.isClosed) = true) :
    Yields E (compareValues a b) k fun o k' => k = k' ∧ o.isSome = true := by
  unfold compareValues
  refine (yields_compare? h ha hb).bind ?_
  rintro o _ ⟨rfl, -, hnone⟩
  cases o with
  | some c => exact Yields.pure ⟨rfl, rfl⟩
  | none =>
      rw [hnone rfl] at hclosed
      cases hclosed

/-! ## Connectives -/

/-- **Three-valued connectives are sound**: what is known of the parts decides the whole. -/
theorem decideAmong_sound {decisive v : Bool} {vs : List (Option Bool)} {bs : List Bool}
    (h : List.Forall₂ (fun v b => ∀ w, v = some w → b = w) vs bs)
    (hv : decideAmong decisive vs = some v) :
    v = if decisive then bs.any id else bs.all id := by
  rw [decideAmong] at hv
  split at hv
  next hmem =>
    cases hv
    rw [List.contains_iff_mem] at hmem
    have hb : decisive ∈ bs := by
      induction h with
      | nil => cases hmem
      | cons hab _ ih =>
          rcases List.mem_cons.1 hmem with hd | hd
          · rw [hab _ hd.symm]
            exact List.mem_cons_self
          · exact List.mem_cons_of_mem _ (ih hd)
    cases decisive with
    | true => simpa using hb
    | false => simpa using hb
  next hmem =>
    split at hv
    next => cases hv
    next hnone =>
      cases hv
      rw [List.contains_iff_mem] at hmem hnone
      have hall : ∀ b ∈ bs, b = !decisive := by
        induction h with
        | nil => simp
        | @cons v b vs bs hvb _ ih =>
            rw [List.mem_cons, not_or] at hmem hnone
            refine List.forall_mem_cons.2 ⟨?_, ih hmem.2 hnone.2⟩
            cases v with
            | none => exact absurd rfl hnone.1
            | some w =>
                rw [hvb w rfl]
                cases w <;> cases decisive <;> simp_all
      cases decisive with
      | true => simpa using hall
      | false => simpa using hall

theorem allTrue_eq (I : Interpretation ℚ) (es : List Expr) :
    Expr.allTrue I es = (es.map (Expr.truth I)).all id := by
  induction es with
  | nil => rfl
  | cons e rest ih => rw [Expr.allTrue, ih, List.map_cons, List.all_cons]; rfl

theorem anyTrue_eq (I : Interpretation ℚ) (es : List Expr) :
    Expr.anyTrue I es = (es.map (Expr.truth I)).any id := by
  induction es with
  | nil => rfl
  | cons e rest ih => rw [Expr.anyTrue, ih, List.map_cons, List.any_cons]; rfl

/-- The connectives. -/
theorem isConnective_cases {f : String} {ops : List Expr}
    (h : (f == "Not" && ops.length == 1 || f == "And" || f == "Or") = true) :
    (f = "Not" ∧ ∃ a, ops = [a]) ∨ f = "And" ∨ f = "Or" := by
  simp only [Bool.or_eq_true, Bool.and_eq_true, beq_iff_eq] at h
  rcases h with (⟨rfl, h⟩ | h) | h
  · exact .inl ⟨rfl, List.length_eq_one_iff.1 h⟩
  · exact .inr (.inl h)
  · exact .inr (.inr h)

mutual

/-- **Verdicts are sound.** -/
theorem yields_isTrue : ∀ {e : Expr}, e.isPredicate k = true → e.SidesDefined (.rational ρ) →
    Yields Anyhow (isTrue e) k fun o k' =>
      k = k' ∧ ∀ v, o = some v → e.truth (.rational ρ) = v
  | .number _, h, _ => by cases h
  | .error _ _ _, h, _ => by cases h
  | .symbol n d c, h, _ => by
      unfold isTrue
      refine Yields.pure ⟨rfl, fun v hv => ?_⟩
      rw [Expr.truth]
      rw [Expr.isPredicate, Bool.or_eq_true, beq_iff_eq, beq_iff_eq] at h
      rcases h with rfl | rfl <;> cases hv <;> rfl
  | .application f ops d c, h, hd => by
      rw [Expr.isPredicate] at h
      rw [Expr.SidesDefined] at hd
      unfold isTrue
      rw [Expr.truth]
      cases hrel : relation? f ops with
      | some s =>
          obtain ⟨r, a, b⟩ := s
          rw [hrel] at h hd
          refine (yields_compareValues h hd.1 hd.2).bind ?_
          rintro o _ ⟨rfl, ho⟩
          refine Yields.pure ⟨rfl, fun v hv => ?_⟩
          obtain ⟨c, hc, rfl⟩ := Option.map_eq_some_iff.1 hv
          rw [ho c hc, Relation.holds_order]
      | none =>
          rw [hrel] at h hd
          simp only [Bool.and_eq_true] at h hd ⊢
          rcases isConnective_cases h.1 with ⟨rfl, a, rfl⟩ | hf
          · rw [Expr.arePredicates, Bool.and_eq_true] at h
            rw [Expr.AllSidesDefined] at hd
            refine (yields_isTrue (e := a) h.2.1 hd.1).bind ?_
            rintro o _ ⟨rfl, ho⟩
            refine Yields.pure ⟨rfl, fun v hv => ?_⟩
            obtain ⟨w, hw, rfl⟩ := Option.map_eq_some_iff.1 hv
            simp [Expr.allTrue, ho w hw]
          · have hnot : (f == "Not") = false := by rcases hf with rfl | rfl <;> rfl
            have hor : (f == "And" || f == "Or") = true := by rcases hf with rfl | rfl <;> rfl
            rw [hnot, hor]
            refine (yields_areTrue h.2 hd).bind ?_
            rintro vs _ ⟨rfl, hvs⟩
            refine Yields.pure ⟨rfl, fun v hv => ?_⟩
            rw [decideAmong_sound hvs hv, allTrue_eq, anyTrue_eq]
            rfl

theorem yields_areTrue : ∀ {es : List Expr}, Expr.arePredicates k es = true →
    Expr.AllSidesDefined (.rational ρ) es →
    Yields Anyhow (areTrue es) k fun vs k' => k = k' ∧
      List.Forall₂ (fun v b => ∀ w, v = some w → b = w) vs (es.map (Expr.truth (.rational ρ)))
  | [], _, _ => Yields.pure ⟨rfl, .nil⟩
  | e :: rest, h, hd => by
      rw [Expr.arePredicates, Bool.and_eq_true] at h
      rw [Expr.AllSidesDefined] at hd
      unfold areTrue
      refine (yields_isTrue h.1 hd.1).bind ?_
      rintro v _ ⟨rfl, hv⟩
      refine (yields_areTrue h.2 hd.2).bind ?_
      rintro vs _ ⟨rfl, hvs⟩
      exact Yields.pure ⟨rfl, .cons hv hvs⟩

end

theorem decideAmong_isSome {decisive : Bool} {vs : List (Option Bool)}
    (h : ∀ v ∈ vs, v.isSome = true) : (decideAmong decisive vs).isSome = true := by
  have hnone : vs.contains none = false := by
    rw [Bool.eq_false_iff, ne_eq, List.contains_iff_mem]
    exact fun hmem => absurd (h none hmem) (by decide)
  rw [decideAmong, hnone]
  split <;> rfl

mutual

/-- **A predicate without free symbols gets a verdict.** -/
theorem yields_isTrue_closed : ∀ {e : Expr}, e.isPredicate k = true →
    e.SidesDefined (.rational ρ) → e.sidesClosed = true →
    Yields E (isTrue e) k fun o k' => k = k' ∧ o.isSome = true
  | .number _, h, _, _ => by cases h
  | .error _ _ _, h, _, _ => by cases h
  | .symbol n d c, h, _, _ => by
      unfold isTrue
      rw [Expr.isPredicate, Bool.or_eq_true, beq_iff_eq, beq_iff_eq] at h
      rcases h with rfl | rfl <;> exact Yields.pure ⟨rfl, rfl⟩
  | .application f ops d c, h, hd, hc => by
      rw [Expr.isPredicate] at h
      rw [Expr.SidesDefined] at hd
      rw [Expr.sidesClosed] at hc
      unfold isTrue
      cases hrel : relation? f ops with
      | some s =>
          obtain ⟨r, a, b⟩ := s
          rw [hrel] at h hd hc
          refine (yields_compareValues_closed h hd.1 hd.2 hc).bind ?_
          rintro o _ ⟨rfl, ho⟩
          exact Yields.pure ⟨rfl, by simpa using ho⟩
      | none =>
          rw [hrel] at h hd hc
          simp only [Bool.and_eq_true] at h hd hc ⊢
          rcases isConnective_cases h.1 with ⟨rfl, a, rfl⟩ | hf
          · rw [Expr.arePredicates, Bool.and_eq_true] at h
            rw [Expr.AllSidesDefined] at hd
            rw [Expr.allSidesClosed, Bool.and_eq_true] at hc
            refine (yields_isTrue_closed (e := a) h.2.1 hd.1 hc.1).bind ?_
            rintro o _ ⟨rfl, ho⟩
            exact Yields.pure ⟨rfl, by simpa using ho⟩
          · have hnot : (f == "Not") = false := by rcases hf with rfl | rfl <;> rfl
            have hor : (f == "And" || f == "Or") = true := by rcases hf with rfl | rfl <;> rfl
            rw [hnot, hor]
            refine (yields_areTrue_closed h.2 hd hc).bind ?_
            rintro vs _ ⟨rfl, hvs⟩
            exact Yields.pure ⟨rfl, decideAmong_isSome hvs⟩

theorem yields_areTrue_closed : ∀ {es : List Expr}, Expr.arePredicates k es = true →
    Expr.AllSidesDefined (.rational ρ) es → Expr.allSidesClosed es = true →
    Yields E (areTrue es) k fun vs k' => k = k' ∧ ∀ v ∈ vs, v.isSome = true
  | [], _, _, _ => Yields.pure ⟨rfl, by simp⟩
  | e :: rest, h, hd, hc => by
      rw [Expr.arePredicates, Bool.and_eq_true] at h
      rw [Expr.AllSidesDefined] at hd
      rw [Expr.allSidesClosed, Bool.and_eq_true] at hc
      unfold areTrue
      refine (yields_isTrue_closed h.1 hd.1 hc.1).bind ?_
      rintro v _ ⟨rfl, hv⟩
      refine (yields_areTrue_closed h.2 hd.2 hc.2).bind ?_
      rintro vs _ ⟨rfl, hvs⟩
      exact Yields.pure ⟨rfl, List.forall_mem_cons.2 ⟨hv, hvs⟩⟩

end

/-! ## The main result -/

/-- **A verdict holds for every assignment of rationals under which both sides of every relation are
defined**, and a predicate without free symbols gets one if they are. -/
theorem truth_sound (k : Kernel) (e : Expr) (h : e.isPredicate k = true) :
    (∀ v k', (isTrue e).run.run k = (.ok (some v), k') →
      ∀ ρ : String → ℚ, e.SidesDefined (.rational ρ) → e.truth (.rational ρ) = v) ∧
    ((∃ ρ : String → ℚ, e.SidesDefined (.rational ρ)) → e.sidesClosed = true →
      ∃ v, (isTrue e).run.run k = (.ok (some v), k)) := by
  constructor
  · intro v k' hr ρ hd
    exact ((yields_isTrue h hd).of_run hr).2 v rfl
  · rintro ⟨ρ, hd⟩ hc
    obtain ⟨o, k', hr, rfl, ho⟩ := (yields_isTrue_closed (E := Never) h hd hc).exists_run
    obtain ⟨v, rfl⟩ := Option.isSome_iff_exists.1 ho
    exact ⟨v, hr⟩

/-- `1 / 3 < 2 ^ 3`. -/
def closedRelation : Expr :=
  let third := .application "Divide" [.number .one, .number (.ofInt 3)] (some 10) true
  let eight := .application "Power" [.number (.ofInt 2), .number (.ofInt 3)] (some 11) true
  .application "Less" [third, eight] (some 26) true

/-- `x + 1 = x + 1` and `1 / 3 < 2 ^ 3`. -/
def soundConjunction : Expr :=
  let side := .application "Add" [.symbol "x" none true, .number .one] (some 6) true
  .application "And" [.application "Equal" [side, side] (some 24) true, closedRelation] (some 30) true

theorem closedRelation_defined (ρ : String → ℚ) : closedRelation.SidesDefined (.rational ρ) :=
  ⟨.quotient (some 10) true (.number 1) (.ofInt 3) (by simp),
    .power (some 11) true (.ofInt 2) (by simp) (fun h => by simp at h)⟩

theorem soundConjunction_defined (ρ : String → ℚ) :
    soundConjunction.SidesDefined (.rational ρ) := by
  have hside : Defined (.rational ρ) .differences
      (.application "Add" [.symbol "x" none true, .number .one] (some 6) true) :=
    .plain (some 6) true (by decide) (fun h => by simp at h)
      (by simpa using ⟨.symbol "x" none true, .number 1⟩)
  exact ⟨⟨hside, hside⟩, closedRelation_defined ρ, trivial⟩

theorem truth_sound_conjunction :
    soundConjunction.truth (.rational fun _ => 2) = true ∧
      ∃ v, (isTrue closedRelation).run.run standard = (.ok (some v), standard) := by
  obtain ⟨v, k', hr, hv⟩ := run_of_any (x := isTrue soundConjunction) (k := standard)
    (p := (· == some true)) (by rw [standard_eq]; decide +kernel)
  rw [beq_iff_eq.1 hv] at hr
  exact ⟨(truth_sound standard soundConjunction
      (by rw [standard_eq]; decide +kernel)).1 true k' hr _
      (soundConjunction_defined _),
    (truth_sound standard closedRelation (by rw [standard_eq]; decide +kernel)).2
      ⟨fun _ => 0, closedRelation_defined _⟩ (by decide)⟩

/-- `1 + x < x + 1`, as it is built. -/
def arrangement : Expr :=
  let x := .symbol "x" (some 34) true
  .application "Less" [.application "Add" [.number .one, x] (some 6) true,
    .application "Add" [x, .number .one] (some 6) true] (some 26) true

/-- **The place of operands is taken for a difference of values.** -/
theorem truth_of_arrangement :
    ∃ k, (box (.list [.name "Less", .list [.name "Add", .int 1, .name "x"],
        .list [.name "Add", .name "x", .int 1]])).run.run standard = (.ok arrangement, k) ∧
      (∃ k', (isTrue arrangement).run.run k = (.ok (some true), k')) ∧
      ∀ ρ : String → ℚ, arrangement.SidesDefined (.rational ρ) ∧
        arrangement.truth (.rational ρ) = false := by
  obtain ⟨k, hbox⟩ := run_eq (x := box (.list [.name "Less",
    .list [.name "Add", .int 1, .name "x"], .list [.name "Add", .name "x", .int 1]]))
    (k := standard) (e := arrangement) (by decide) (by rw [standard_eq]; decide +kernel)
  refine ⟨k, hbox, ?_, fun ρ => ⟨⟨?_, ?_⟩, ?_⟩⟩
  · obtain ⟨v, k', hr, hv⟩ := run_of_any (k := standard) (p := (· == some true))
      (x := do isTrue (← box (.list [.name "Less", .list [.name "Add", .int 1, .name "x"],
        .list [.name "Add", .name "x", .int 1]]))) (by rw [standard_eq]; decide +kernel)
    rw [run_bind, hbox, beq_iff_eq.1 hv] at hr
    exact ⟨k', hr⟩
  · exact .plain (some 6) true (by decide) (fun h => by simp at h)
      (by simpa using ⟨.number 1, .symbol "x" (some 34) true⟩)
  · exact .plain (some 6) true (by decide) (fun h => by simp at h)
      (by simpa using ⟨.symbol "x" (some 34) true, .number 1⟩)
  · have hvalue : arrangement.truth (.rational ρ) =
        Relation.between .less (1 + (ρ "x" + 0)) (ρ "x" + (1 + 0)) := rfl
    rw [hvalue, Relation.between, add_zero, add_zero, add_comm, decide_eq_false_iff_not]
    exact lt_irrefl _

end Kernel

end SymbolicAlgebra
