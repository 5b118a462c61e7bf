import SymbolicAlgebra.Proofs.ArithmeticValue
import SymbolicAlgebra.Proofs.Standard

/-!
# Proofs/Calculation — arithmetic preserves meaning

A `Calculation` is a sum, product, opposite, difference, quotient, inverse or whole power of
canonical expressions that have a value.  `calculation_value` says when it gives an expression of the
right value: always, unless a sum is formed with a summand that multiplies out to the empty product
(`sum_of_unitPower`); then it gives nothing.
-/

namespace SymbolicAlgebra

variable {K : Type*} [Field K]

/-! ## Powers of the empty product -/

/-- Whether operator and operands are a power of the empty product. -/
def isEmptyPower (f : String) (ops : List Expr) : Bool :=
  f == "Power" && ops.head?.any Expr.isEmptyProduct

mutual

/-- Whether a power of the empty product occurs in an expression. -/
def Expr.hasEmptyPower : Expr → Bool
  | .application f ops _ _ => isEmptyPower f ops || anyEmptyPower ops
  | _ => false

def Expr.anyEmptyPower : List Expr → Bool
  | [] => false
  | e :: rest => hasEmptyPower e || anyEmptyPower rest

end

theorem Expr.anyEmptyPower_eq_false {es : List Expr} :
    anyEmptyPower es = false ↔ ∀ e ∈ es, e.hasEmptyPower = false := by
  induction es with
  | nil => simp [anyEmptyPower]
  | cons e rest ih => simp [anyEmptyPower, ih]

/-- No power of the empty product. -/
def Shape.noEmptyPower : Shape where
  Allows := fun f ops => isEmptyPower f ops = false
  bare := by
    intro f ops
    rw [isEmptyPower, isEmptyPower, List.head?_map]
    cases ops.head? <;> simp
  sum := fun _ => rfl
  product := fun _ => rfl
  negation := rfl
  quotient := rfl
  power := by
    intro b n hb
    cases b with
    | application f ops d c =>
        have hf : f ≠ "Multiply" := hb
        simp [isEmptyPower, Expr.isEmptyProduct, Expr.isApplicationOf, hf]
    | _ => rfl
  power_again := fun h => h

theorem Defined.noEmptyPower {I : Interpretation K} {e : Expr} (h : Defined I .any e)
    (he : e.hasEmptyPower = false) : Defined I .noEmptyPower e := by
  induction h with
  | number q => exact .number q
  | symbol n d c => exact .symbol n d c
  | plain d c hf _ _ ih =>
      rw [Expr.hasEmptyPower, Bool.or_eq_false_iff, Expr.anyEmptyPower_eq_false] at he
      exact .plain d c hf he.1 fun x hx => ih x hx (he.2 x hx)
  | negation d c _ ih =>
      rw [Expr.hasEmptyPower, Bool.or_eq_false_iff, Expr.anyEmptyPower_eq_false] at he
      exact .negation d c (ih (he.2 _ (by simp)))
  | quotient d c _ _ hb iha ihb =>
      rw [Expr.hasEmptyPower, Bool.or_eq_false_iff, Expr.anyEmptyPower_eq_false] at he
      exact .quotient d c (iha (he.2 _ (by simp))) (ihb (he.2 _ (by simp))) hb
  | power d c _ hb _ ih =>
      rw [Expr.hasEmptyPower, Bool.or_eq_false_iff, Expr.anyEmptyPower_eq_false] at he
      exact .power d c (ih (he.2 _ (by simp))) hb he.1

namespace Kernel

/-! ## The realm of all proper expressions -/

/-- All expressions over proper numbers, in any arrangement. -/
def Realm.free (k : Kernel) : Realm where
  table := k.table
  settings := k.settings
  Good := fun e => e.isOver Number.isProper = true
  Arranged := List.Perm
  ArrangedTerms := List.Perm
  proper := fun h => h
  good_number := fun h => h
  good_node := fun _ hops => Expr.allOver_iff.2 hops
  good_operand := fun h => Expr.allOver_iff.1 h
  arranged := fun _ => (sortPowers_perm k.table _).map _
  arranged_perm := fun h => h
  arrangedTerms := fun _ h => (sortTerms_perm h).map _
  arrangedTerms_perm := fun h => h

/-- Every kernel is one of its free realm. -/
theorem Realm.free_holds (k : Kernel) : (Realm.free k).Holds k where
  table := rfl
  settings := rfl
  pool := fun _ _ _ he hsame =>
    (Expr.isOver_of_same (Realm.exact (R := Realm.free k) he) hsame).trans he

theorem Realm.not_collapses {R : Realm} {I : Interpretation K} {e : Expr}
    (he : Defined I .noEmptyPower e) : ¬R.Collapses e := by
  rintro ⟨r, hr, hempty⟩
  obtain ⟨b, _, ⟨m, rfl, -, -, hS⟩, hb⟩ := Realm.exists_of_collapses
    (Defined.flatten (a := some "Multiply") (List.forall_mem_singleton.2 he)) hr hempty
  have hS' : isEmptyPower "Power" [b, .number (.ofInt m)] = false := hS
  simp [isEmptyPower, hb] at hS'

/-! ## Calculations -/

/-- An operation of arithmetic on operands. -/
inductive Calculation
  | sum (ops : List Expr)
  | product (ops : List Expr)
  | opposite (e : Expr)
  | difference (a b : Expr)
  | quotient (a b : Expr)
  | inverse (e : Expr)
  | power (base : Expr) (exponent : Int)

namespace Calculation

/-- The action that carries a calculation out. -/
def action : Calculation → Action Expr
  | sum ops => addOf ops
  | product ops => mulOf ops
  | opposite e => negOf e
  | difference a b => subOf a b
  | quotient a b => divOf a b
  | inverse e => invOf e
  | power base n => powOf base (.number (.ofInt n))

def operands : Calculation → List Expr
  | sum ops => ops
  | product ops => ops
  | opposite e => [e]
  | difference a b => [a, b]
  | quotient a b => [a, b]
  | inverse e => [e]
  | power base _ => [base]

/-- The value a calculation should have. -/
def result (I : Interpretation K) : Calculation → K
  | sum ops => (ops.map (Expr.value I)).sum
  | product ops => (ops.map (Expr.value I)).prod
  | opposite e => -e.value I
  | difference a b => a.value I - b.value I
  | quotient a b => a.value I / b.value I
  | inverse e => (e.value I)⁻¹
  | power base n => base.value I ^ n

/-- What is divided by is not zero. -/
def Divides (I : Interpretation K) : Calculation → Prop
  | quotient _ b => b.value I ≠ 0
  | inverse e => e.value I ≠ 0
  | power base n => n < 0 → base.value I ≠ 0
  | _ => True

/-- The operands are canonical and have values, and nothing is divided by zero. -/
structure Admissible (I : Interpretation K) (c : Calculation) : Prop where
  canonical : ∀ e ∈ c.operands, e.isCanonical = true
  defined : ∀ e ∈ c.operands, Defined I .any e
  divides : c.Divides I

/-- The calculation gives an expression of the right value. -/
def Returns (I : Interpretation K) (k : Kernel) (c : Calculation) : Prop :=
  ∃ r k', c.action.run.run k = (.ok r, k') ∧ r.value I = c.result I

/-- The expression multiplies out to the empty product. -/
def Vanishes (k : Kernel) (e : Expr) : Prop :=
  ∃ r k', (mul [e]).run.run k = (.ok r, k') ∧ r.isEmptyProduct = true

/-- The calculation ends with a missing operand. -/
def Breaks (k : Kernel) (c : Calculation) : Prop :=
  ∃ k', c.action.run.run k = (.error .missingOperand, k')

variable {I : Interpretation K} {S : Shape} {E : Fault → Prop} {k : Kernel} {c : Calculation}

variable [CharZero K]

/-- Each calculation has the right value, or ends with a fault that its sums tolerate. -/
theorem gives (hE : (Realm.free k).Safe I S E) (hc : ∀ e ∈ c.operands, e.isCanonical = true)
    (hd : ∀ e ∈ c.operands, Defined I S e) (hdiv : c.Divides I) :
    (Realm.free k).Gives I S E c.action k (c.result I) := by
  have hk := Realm.free_holds k
  have hgood : ∀ e ∈ c.operands, (Realm.free k).Good e := fun e he => (hd e he).proper
  cases c with
  | sum ops =>
      have hall : canonicalizeAll ops = pure ops := canonicalizeAll_of_isCanonical hc
      rw [action, addOf, hall, pure_bind]
      exact Realm.gives_add hE hk hgood hd
  | product ops =>
      have hall : canonicalizeAll ops = pure ops := canonicalizeAll_of_isCanonical hc
      rw [action, mulOf, hall, pure_bind]
      exact Realm.gives_mul hk hgood hd
  | opposite e =>
      simp only [operands, List.forall_mem_singleton] at hc hd hgood
      rw [action, negOf, canonicalize_of_isCanonical hc, pure_bind]
      exact Realm.gives_neg hE hk hgood hd
  | difference a b =>
      rw [operands, List.forall_mem_cons, List.forall_mem_singleton] at hc hd hgood
      rw [action, subOf, canonicalize_of_isCanonical hc.1, canonicalize_of_isCanonical hc.2,
        pure_bind, pure_bind]
      exact Realm.gives_sub hE hk hgood.1 hd.1 hgood.2 hd.2
  | quotient a b =>
      rw [operands, List.forall_mem_cons, List.forall_mem_singleton] at hc hd hgood
      rw [action, divOf, canonicalize_of_isCanonical hc.1, canonicalize_of_isCanonical hc.2,
        pure_bind, pure_bind]
      exact Realm.gives_div hk hgood.1 hd.1 hgood.2 hd.2 hdiv
  | inverse e =>
      simp only [operands, List.forall_mem_singleton] at hc hd hgood
      rw [action, invOf, canonicalize_of_isCanonical hc, pure_bind]
      exact Realm.gives_inv hE hk hgood hd hdiv
  | power base n =>
      simp only [operands, List.forall_mem_singleton] at hc hd hgood
      have hn : canonicalize (.number (.ofInt n)) = pure (.number (.ofInt n)) := rfl
      rw [action, powOf, canonicalize_of_isCanonical hc, pure_bind, hn, pure_bind]
      exact Realm.gives_pow hE hk hgood hd hdiv

theorem Admissible.returns_or_breaks (h : c.Admissible I) : c.Returns I k ∨ c.Breaks k := by
  have hsafe : (Realm.free k).Safe I .any (· = .missingOperand) := .inl rfl
  rcases (gives hsafe h.canonical h.defined h.divides).ok_or_fault with ⟨r, k', hr, hv⟩ |
    ⟨f, k', hr, rfl⟩
  · exact .inl ⟨r, k', hr, hv.2.2.2⟩
  · exact .inr ⟨k', hr⟩

theorem Admissible.returns_of_noEmptyPower (h : c.Admissible I)
    (hop : ∀ e ∈ c.operands, e.hasEmptyPower = false) : c.Returns I k := by
  have hsafe : (Realm.free k).Safe I .noEmptyPower Never := .inr fun _ => Realm.not_collapses
  have hd : ∀ e ∈ c.operands, Defined I .noEmptyPower e :=
    fun e he => (h.defined e he).noEmptyPower (hop e he)
  obtain ⟨r, k', hr, hv⟩ := (gives hsafe h.canonical hd h.divides).exists_run
  exact ⟨r, k', hr, hv.2.2.2⟩

theorem vanishes_iff {e : Expr} (he : Defined I S e) :
    Vanishes k e ↔ (Realm.free k).Collapses e.bare := by
  have hk := Realm.free_holds k
  have hgood : ∀ x ∈ [e], (Realm.free k).Good x := List.forall_mem_singleton.2 he.proper
  have hd : ∀ x ∈ [e], Defined I S x := by simpa using he
  constructor
  · rintro ⟨r, k', hr, hempty⟩
    exact ⟨r.bare, ((Realm.yields_mul hk hgood).of_run hr).2.2, by simpa using hempty⟩
  · rintro ⟨r, hr, hempty⟩
    obtain ⟨r', k', hr', -⟩ := (Realm.gives_mul (E := Never) hk hgood hd).exists_run
    have hbare : ∀ x ∈ Expr.flatten (some "Multiply") [e.bare], Defined I S x :=
      Defined.flatten (by simpa using he.bare)
    obtain ⟨_, hr₂, hempty'⟩ := Realm.isEmptyProduct_unique hbare hr hempty
      ((Realm.yields_mul hk hgood).of_run hr').2.2
    cases hr₂
    exact ⟨r', k', hr', by simpa using hempty'⟩

/-- **A sum is formed exactly when none of its summands vanishes.** -/
theorem Admissible.sum_returns_iff {ops : List Expr} (h : (sum ops).Admissible I) :
    (sum ops).Returns I k ↔ ∀ e ∈ Expr.flatten (some "Add") ops, ¬Vanishes k e := by
  have hk := Realm.free_holds k
  have hgood : ∀ e ∈ ops, (Realm.free k).Good e := fun e he => (h.defined e he).proper
  have hflat : ∀ e ∈ Expr.flatten (some "Add") ops, Defined I .any e := Defined.flatten h.defined
  have hbare : ∀ e ∈ Expr.flatten (some "Add") (ops.map Expr.bare), Defined I .any e := by
    rw [Expr.flatten_map_bare]
    exact List.forall_mem_map.2 fun e he => (hflat e he).bare
  have hall : canonicalizeAll ops = pure ops := canonicalizeAll_of_isCanonical h.canonical
  have haction : (sum ops).action = add ops := by rw [action, addOf, hall, pure_bind]
  constructor
  · rintro ⟨r, k', hr, -⟩ e he hv
    rw [haction] at hr
    have hmem : e.bare ∈ Expr.flatten (some "Add") (ops.map Expr.bare) := by
      rw [Expr.flatten_map_bare]
      exact List.mem_map_of_mem he
    cases Realm.sum_of_collapses hbare hmem ((vanishes_iff (hflat e he)).1 hv)
      ((Realm.yields_add hk hgood).of_run hr).2.2
  · intro hnone
    refine h.returns_or_breaks.resolve_right ?_
    rintro ⟨k', hr⟩
    rw [haction] at hr
    rcases Realm.sum_value hbare ((Realm.yields_add hk hgood).of_fault hr) with
      ⟨-, x, hx, hc⟩ | ⟨r, ho, -⟩
    · rw [Expr.flatten_map_bare] at hx
      obtain ⟨e, he, rfl⟩ := List.mem_map.1 hx
      exact hnone e he ((vanishes_iff (hflat e he)).2 hc)
    · cases ho

theorem Admissible.product_returns {ops : List Expr} (h : (product ops).Admissible I) :
    (product ops).Returns I k := by
  have hgood : ∀ e ∈ ops, (Realm.free k).Good e := fun e he => (h.defined e he).proper
  have hall : canonicalizeAll ops = pure ops := canonicalizeAll_of_isCanonical h.canonical
  rw [Returns, action, mulOf, hall, pure_bind]
  obtain ⟨r, k', hr, hv⟩ :=
    (Realm.gives_mul (E := Never) (Realm.free_holds k) hgood h.defined).exists_run
  exact ⟨r, k', hr, hv.2.2.2⟩

theorem Admissible.quotient_returns {a b : Expr} (h : (quotient a b).Admissible I) :
    (quotient a b).Returns I k := by
  obtain ⟨hc, hd, hb⟩ := h
  rw [operands, List.forall_mem_cons, List.forall_mem_singleton] at hc hd
  rw [Returns, action, divOf, canonicalize_of_isCanonical hc.1, canonicalize_of_isCanonical hc.2,
    pure_bind, pure_bind]
  obtain ⟨r, k', hr, hv⟩ := (Realm.gives_div (E := Never) (Realm.free_holds k) hd.1.proper hd.1
    hd.2.proper hd.2 hb).exists_run
  exact ⟨r, k', hr, hv.2.2.2⟩

end Calculation

/-- **Arithmetic preserves meaning** except where a sum is formed with a summand that vanishes: then it
gives nothing.  A summand can vanish only if a power of the empty product occurs. -/
theorem calculation_value [CharZero K] (I : Interpretation K) (k : Kernel) (c : Calculation)
    (h : c.Admissible I) :
    (c.Returns I k ∨ c.Breaks k) ∧
      ((∀ e ∈ c.operands, e.hasEmptyPower = false) → c.Returns I k) ∧
      (∀ ops, c = .product ops → c.Returns I k) ∧
      (∀ a b, c = .quotient a b → c.Returns I k) ∧
      ∀ ops, c = .sum ops →
        (c.Returns I k ↔ ∀ e ∈ Expr.flatten (some "Add") ops, ¬Calculation.Vanishes k e) := by
  refine ⟨h.returns_or_breaks, h.returns_of_noEmptyPower, ?_, ?_, ?_⟩
  · rintro ops rfl
    exact h.product_returns
  · rintro a b rfl
    exact h.quotient_returns
  · rintro ops rfl
    exact h.sum_returns_iff

/-- All symbols and functions are one. -/
def ones : Interpretation ℚ := ⟨fun _ => 1, fun _ _ => 1⟩

/-- The sum of a quotient and a square. -/
theorem calculation_value_sum :
    (Calculation.sum [.node "Divide" [.symbol "x" none true, .symbol "y" none true],
      .node "Power" [.symbol "y" none true, .number (.ofInt 2)]]).Returns ones standard := by
  refine (calculation_value ones standard (.sum _) ⟨?_, ?_, trivial⟩).2.1 ?_
  · simp [Calculation.operands, Expr.isCanonical]
  · have hx : ∀ n, Defined ones .any (.symbol n none true) := fun n => .symbol n none true
    have hquotient := Defined.quotient none true (hx "x") (hx "y") (by simp [ones])
    have hpower := Defined.power (n := 2) none true (hx "y") (by simp) trivial
    exact List.forall_mem_cons.2 ⟨hquotient, List.forall_mem_singleton.2 hpower⟩
  · decide

/-- The first power of the empty product. -/
def unitPower : Expr := .node "Power" [.node "Multiply" [], .number (.ofInt 1)]

theorem unitPower_defined : Defined ones .any unitPower :=
  .power _ _ (.plain _ _ (by decide) trivial (by simp)) (by simp) trivial

theorem Realm.unitPower_collapses {R : Realm} (h : R.Good (.node "Multiply" [])) :
    R.Collapses unitPower := by
  have harranged := R.arranged (l := [(.node "Multiply" [], .one)]) (by simpa using h)
  rw [List.perm_singleton.1 (R.arranged_perm harranged)] at harranged
  have hpowers : multiplyAll [.power (.node "Multiply" []) .one] {} =
      .ok ⟨.one, [(.node "Multiply" [], .one)]⟩ := multiplyAll_power _ Number.isProper_one
  exact ⟨.node "Multiply" [], .inr ⟨_, _, hpowers, harranged, rfl⟩, rfl⟩

/-- **A sum that has a value and is not formed.** -/
theorem sum_of_unitPower :
    (Calculation.sum [unitPower, .number (.ofInt 1)]).Admissible ones ∧
      ¬(Calculation.sum [unitPower, .number (.ofInt 1)]).Returns ones standard := by
  have hadmissible : (Calculation.sum [unitPower, .number (.ofInt 1)]).Admissible ones := by
    refine ⟨?_, ?_, trivial⟩
    · simp [Calculation.operands, unitPower, Expr.isCanonical]
    · exact List.forall_mem_cons.2 ⟨unitPower_defined, List.forall_mem_singleton.2 (.ofInt 1)⟩
  refine ⟨hadmissible, fun h => ?_⟩
  have hvanishes : Calculation.Vanishes standard unitPower :=
    (Calculation.vanishes_iff unitPower_defined).2 (Realm.unitPower_collapses rfl)
  exact hadmissible.sum_returns_iff.1 h unitPower List.mem_cons_self hvanishes

end Kernel

end SymbolicAlgebra
