import SymbolicAlgebra.Angle
import SymbolicAlgebra.Expansion
import SymbolicAlgebra.Proofs.Product
import SymbolicAlgebra.Proofs.Repetition
import SymbolicAlgebra.Proofs.Stability
import SymbolicAlgebra.Rewriting.RuleFile

/-!
# Proofs/Lasting — what computing and rewriting leave as it is

Everything else an engine does is built from building expressions and caching the values of symbols.
So what is stable, and survives caching (`Lasting`), survives evaluation, comparison, arithmetic,
expansion, rewriting and the loading of rules, with whatever operands and whatever way they end.
-/

namespace SymbolicAlgebra.Kernel

variable {J : Kernel → Prop}

/-- What a value field gives, where that depends on nothing else that is defined. -/
def FieldGives : Datum → Option Number → Prop
  | .callback (.value rule), v => ∃ digits x, rule.at digits = .ok x ∧ v = some x
  | .raw (.value x), v => v = some x
  | _, _ => True

/-- The value field of a symbol was evaluated, with symbols that refer to each other to some depth. -/
def Evaluated (k : Kernel) (d : Datum) (v : Option Number) (k' : Kernel) : Prop :=
  ∃ depth, (fieldValue (constantWithin depth) d).run.run k = (.ok v, k')

/-- A property of kernels that building leaves as it is, whatever names are met, and so does caching the
values of symbols that were evaluated. -/
structure Lasting (J : Kernel → Prop) : Prop extends Stable J where
  cached : ∀ {k k' name d v}, J k → k.table.symbol? name = some d → k.Evaluated d.value v k' → J k' →
    J { k' with constants := (name, v) :: k'.constants }

/-! ## Evaluation -/

section Evaluation

variable {constant : String → Action (Option Number)}

theorem maintains_approximateIf (numeric : Bool) (v : Option Number) :
    Maintains J (approximateIf numeric v) := by
  unfold approximateIf
  split
  · exact .ite (Maintains.getPrecision.bind fun _ => (Maintains.number _).bind fun _ => .pure _)
      (.pure _)
  · exact .pure _

theorem maintains_evaluateCall (rule : Callback) (vs : List Number) :
    Maintains J (evaluateCall rule vs) := by
  unfold evaluateCall
  split
  · exact Maintains.getPrecision.bind fun _ => .number _
  · exact .throw _

mutual

theorem maintains_evaluateWith (h : ∀ n, Maintains J (constant n)) (numeric : Bool) :
    ∀ e : Expr, Maintains J (evaluateWith constant numeric e)
  | .number v => by
      unfold evaluateWith
      exact maintains_approximateIf numeric _
  | .symbol n _ _ => by
      unfold evaluateWith
      exact (h n).bind fun _ => maintains_approximateIf numeric _
  | .application f ops d c => by
      unfold evaluateWith
      refine .ite (.pure _) (Maintains.getTable.bind fun t => ?_)
      split
      · refine .ite (.pure _) ((maintains_evaluateEach h numeric ops).bind fun o => ?_)
        split
        · exact .pure _
        · exact (maintains_evaluateCall _ _).bind fun _ => maintains_approximateIf numeric _
      · exact .pure _
  | .error _ _ _ => by
      unfold evaluateWith
      exact .pure _

theorem maintains_evaluateEach (h : ∀ n, Maintains J (constant n)) (numeric : Bool) :
    ∀ es : List Expr, Maintains J (evaluateEach constant numeric es)
  | [] => by
      unfold evaluateEach
      exact .pure _
  | e :: rest => by
      unfold evaluateEach
      refine (maintains_evaluateWith h numeric e).bind fun o => ?_
      split
      · exact .pure _
      · refine (maintains_evaluateEach h numeric rest).bind fun o => ?_
        split
        · exact .pure _
        · exact .pure _

end

/-- The value field of a symbol may hold a shape, which is built first. -/
theorem maintains_fieldValue (hbox : ∀ r, Maintains J (box r)) (h : ∀ n, Maintains J (constant n))
    (d : Datum) : Maintains J (fieldValue constant d) := by
  unfold fieldValue
  split
  · exact maintains_evaluateWith h false _
  · exact Maintains.getPrecision.bind fun _ => (Maintains.number _).bind fun _ => .pure _
  · exact .throw _
  · exact (hbox _).bind fun e => maintains_evaluateWith h false e
  · exact (hbox _).bind fun e => maintains_evaluateWith h false e
  · exact (Maintains.ofExcept _).bind fun _ => .pure _
  · exact .throw _

theorem yields_fieldValue {k : Kernel} (d : Datum) :
    Yields Anyhow (fieldValue constant d) k fun v _ => FieldGives d v := by
  unfold fieldValue
  split
  · exact (anyhow _).mono fun _ _ _ => trivial
  next rule =>
    refine Yields.bind (P := fun _ _ => True) trivial fun digits _ _ => ?_
    refine Yields.bind (P := fun x _ => rule.at digits = .ok x) ?_ fun x _ hx => ⟨digits, x, hx, rfl⟩
    exact yields_number (fun _ _ => trivial) fun _ h => h
  · exact trivial
  · exact (anyhow _).mono fun _ _ _ => trivial
  · exact (anyhow _).mono fun _ _ _ => trivial
  next r _ _ =>
    cases r with
    | value x => exact rfl
    | _ => exact (anyhow _).mono fun _ _ _ => trivial
  · exact trivial

theorem Evaluated.fieldGives {k k' : Kernel} {d : Datum} {v : Option Number} (h : k.Evaluated d v k') :
    FieldGives d v :=
  (yields_fieldValue d).of_run h.choose_spec

/-- The value of a symbol is cached after its field was evaluated. -/
theorem maintains_constantWithin (hbox : ∀ r, Maintains J (box r))
    (hcache : ∀ {k k' name d v}, J k → k.table.symbol? name = some d → k.Evaluated d.value v k' → J k' →
      J { k' with constants := (name, v) :: k'.constants }) : ∀ (depth : Nat) (name : String),
      Maintains J (constantWithin depth name)
  | 0, _ => .throw _
  | depth + 1, name => by
      refine .ofGet fun k₀ => ?_
      split
      · exact .pure _
      · intro k hk
        refine Upholds.bind (P := fun t k' => t = k.table ∧ k' = k) ⟨hk, rfl, rfl⟩ ?_
        rintro _ k - ⟨rfl, rfl⟩
        split
        next => exact .pure hk trivial
        next d hd =>
          split
          next => exact .pure hk trivial
          next =>
            have hfield := maintains_fieldValue hbox (maintains_constantWithin hbox hcache depth) d.value
            refine ((hfield k hk).of_yields (yields_run _)).bind fun v k' hk' h => ?_
            exact ⟨hcache hk hd ⟨depth, h.2⟩ hk', trivial⟩

end Evaluation

namespace Maintains

theorem quotientParts (e : Expr) : Maintains J (Kernel.quotientParts e) := by
  unfold Kernel.quotientParts
  split
  · exact pure _
  · exact throw _

theorem givenOperand (e : Option Expr) : Maintains J (Kernel.givenOperand e) := by
  cases e with
  | none => exact throw _
  | some e => exact pure e

end Maintains

namespace Lasting

section

variable (hJ : Lasting J)

include hJ

theorem constant (name : String) : Maintains J (Kernel.constant name) :=
  Maintains.getTable.bind fun _ =>
    maintains_constantWithin hJ.box hJ.cached _ _

theorem evaluate (e : Expr) (numeric : Bool) : Maintains J (Kernel.evaluate e numeric) :=
  maintains_evaluateWith hJ.constant numeric e

omit hJ in
theorem signOf (e : Expr) : Maintains J (Kernel.signOf e) := by
  refine .ite ((Maintains.throw _).bind fun _ => ?_) ?_
  all_goals
    refine Maintains.getTable.bind fun t => ?_
    split
    · split
      · exact .throw _
      · exact .pure _
      · exact .pure _
    · exact .pure _
    · exact .throw _
    · exact .pure _

/-! ## Comparison and truth -/

theorem realValue (e : Expr) : Maintains J (Kernel.realValue e) := by
  unfold Kernel.realValue
  split
  · exact .pure _
  · exact Maintains.getTable.bind fun _ => .ite ((hJ.constant _).bind fun _ => .pure _) (.pure _)
  · refine Maintains.getTable.bind fun _ => .ite ?_ (.pure _)
    exact (hJ.canonicalize _).bind fun r => (hJ.evaluate r false).bind fun _ => .pure _
  · exact .pure _

theorem compare? (a b : Expr) : Maintains J (Kernel.compare? a b) := by
  refine (hJ.realValue a).bind fun x => (hJ.realValue b).bind fun y => ?_
  split
  · exact .pure _
  · exact .ite (.pure _) (.ite (Maintains.getTable.bind fun _ => .pure _) (.pure _))

theorem compareValues (a b : Expr) : Maintains J (Kernel.compareValues a b) := by
  refine (hJ.compare? a b).bind fun o => ?_
  split
  · exact .pure _
  · refine (hJ.evaluate a true).bind fun x => (hJ.evaluate b true).bind fun y => ?_
    split
    · exact .pure _
    · exact .pure _

omit hJ in
mutual

theorem isTrue (hJ : Lasting J) : ∀ e : Expr, Maintains J (Kernel.isTrue e)
  | .number _ => .pure _
  | .error _ _ _ => .pure _
  | .symbol _ _ _ => .pure _
  | .application f ops _ _ => by
      unfold Kernel.isTrue
      split
      next r a b _ => exact (hJ.compareValues a b).bind fun _ => .pure _
      next =>
        refine .ite ?_ (.ite ((areTrue hJ ops).bind fun _ => .pure _) (.pure _))
        split
        next a _ => exact (isTrue hJ a).bind fun _ => .pure _
        next => exact .pure _

theorem areTrue (hJ : Lasting J) : ∀ es : List Expr, Maintains J (Kernel.areTrue es)
  | [] => .pure _
  | e :: rest => (isTrue hJ e).bind fun _ => (areTrue hJ rest).bind fun _ => .pure _

end

/-! ## Arithmetic -/

theorem zero : Maintains J Kernel.zero := hJ.makeNumber _

theorem one : Maintains J Kernel.one := hJ.makeNumber _

theorem negativeOne : Maintains J Kernel.negativeOne := hJ.makeNumber _

theorem makeFactors (powers : List (Expr × Number)) (coefficient : Number) :
    Maintains J (Kernel.makeFactors powers coefficient) := by
  induction powers generalizing coefficient with
  | nil => exact .pure _
  | cons p rest ih =>
      obtain ⟨base, exponent⟩ := p
      have hfold : Maintains J (foldPower base exponent) := by
        unfold foldPower
        split
        · exact Maintains.getPrecision.bind fun _ => .number _
        · exact .pure _
      have hwrite : Maintains J (writePower base exponent) :=
        .ite (.pure _) ((hJ.makeNumber _).bind fun _ => hJ.apply _ _)
      rw [makeFactors_cons]
      refine .ite (ih _) (hfold.bind fun o => ?_)
      split
      · exact (Maintains.number _).bind fun _ => ih _
      · exact hwrite.bind fun _ => (ih _).bind fun _ => .pure _

theorem assembleProduct (coefficient : Number) (factors : List Expr) :
    Maintains J (Kernel.assembleProduct coefficient factors) := by
  refine .ite (hJ.makeNumber _) ?_
  have hsigned : ∀ product, Maintains J (if coefficient.isOne then Pure.pure product
      else if coefficient.isNegativeOne then Kernel.apply "Negate" [product]
      else do Kernel.apply "Multiply" ((← Kernel.makeNumber coefficient) :: factors)) := fun _ =>
    .ite (.pure _) (.ite (hJ.apply _ _) ((hJ.makeNumber _).bind fun _ => hJ.apply _ _))
  split
  · exact hJ.makeNumber _
  · simp only
    split
    · exact hsigned _
    · exact (hJ.apply _ _).bind hsigned

theorem mul (ops : List Expr) : Maintains J (Kernel.mul ops) := by
  have hmultiply : ∀ es, Maintains J (Kernel.mul.multiply es) := fun es =>
    (Maintains.ofExcept _).bind fun p => Maintains.getTable.bind fun t =>
      (hJ.makeFactors _ _).bind fun q => hJ.assembleProduct _ _
  refine .ite (hJ.apply _ _) ?_
  split
  · exact hJ.one
  · split
    · exact .ite (.pure _) (hmultiply _)
    · exact hmultiply _

theorem splitCoefficient (term : Expr) : Maintains J (Kernel.splitCoefficient term) := by
  refine (hJ.mul _).bind fun r => ?_
  split
  · exact .pure _
  · refine .ite (Maintains.bind (Maintains.bind (.require _) fun _ => .pure _) fun _ => .pure _) (.ite ?_ (.pure _))
    split
    · exact .pure _
    · exact (hJ.apply _ _).bind fun _ => .pure _
    · exact .throw _
    · exact .pure _
  · exact .pure _

theorem collectTerms (es : List Expr) (s : Terms) : Maintains J (Kernel.collectTerms es s) := by
  induction es generalizing s with
  | nil => exact .pure _
  | cons e rest ih =>
      refine (hJ.splitCoefficient e).bind fun r => ?_
      split
      · exact (Maintains.number _).bind fun _ => ih _
      · exact (Maintains.number _).bind fun _ => ih _

theorem add (ops : List Expr) : Maintains J (Kernel.add ops) := by
  refine .ite (hJ.apply _ _) ((hJ.collectTerms _ _).bind fun s => .ite (hJ.makeNumber _) ?_)
  refine Maintains.getTable.bind fun t => (Maintains.ofExcept _).bind fun terms => ?_
  refine Maintains.bind (.mapM fun _ => (hJ.makeNumber _).bind fun _ => hJ.mul _) fun summands => ?_
  refine .ite ((hJ.makeNumber _).bind fun _ => ?_) ?_
  all_goals
    rw [pure_bind]
    beta_reduce
    split
    · exact .pure _
    · exact hJ.apply _ _

omit hJ in
mutual

theorem neg (hJ : Lasting J) : ∀ e : Expr, Maintains J (Kernel.neg e)
  | .number _ => (Maintains.number _).bind fun _ => hJ.makeNumber _
  | .application _ ops _ _ => by
      unfold Kernel.neg
      refine .ite (.require _) (.ite (hJ.apply _ _) (.ite ?_ ?_))
      · exact (negAll hJ ops).bind fun _ => hJ.add _
      · exact hJ.negativeOne.bind fun _ => hJ.mul _
  | .symbol _ _ _ => hJ.negativeOne.bind fun _ => hJ.mul _
  | .error _ _ _ => hJ.apply _ _

theorem negAll (hJ : Lasting J) : ∀ es : List Expr, Maintains J (Kernel.negAll es)
  | [] => .pure _
  | e :: rest => (neg hJ e).bind fun _ => (negAll hJ rest).bind fun _ => .pure _

end

theorem sub (a b : Expr) : Maintains J (Kernel.sub a b) := (hJ.neg b).bind fun _ => hJ.add _

theorem divWithin (fuel : Nat) (a b : Expr) : Maintains J (Kernel.divWithin fuel a b) := by
  induction fuel generalizing a b with
  | zero => exact hJ.apply _ _
  | succ fuel ih =>
      unfold Kernel.divWithin
      refine .ite (hJ.apply _ _) ?_
      split
      · exact (Maintains.number _).bind fun _ => hJ.makeNumber _
      · refine .ite (.pure _) ((Maintains.number _).bind fun _ => ?_)
        exact (hJ.makeNumber _).bind fun _ => hJ.mul _
      · refine .ite hJ.zero (.ite hJ.one (.ite ?_ (.ite ?_ (hJ.apply _ _))))
        · exact (Maintains.quotientParts _).bind fun _ => (hJ.mul _).bind fun _ => ih _ _
        · exact (Maintains.quotientParts _).bind fun _ => (hJ.mul _).bind fun _ => ih _ _

theorem div (a b : Expr) : Maintains J (Kernel.div a b) := hJ.divWithin _ a b

omit hJ in
mutual

theorem pow (hJ : Lasting J) : ∀ base exponent : Expr, Maintains J (Kernel.pow base exponent)
  | .number b, e => by
      unfold Kernel.pow
      refine .ite (hJ.apply _ _) (.ite hJ.one (.ite (.pure _) (.ite hJ.one ?_)))
      split
      · refine Maintains.getPrecision.bind fun _ => (Maintains.number _).bind fun o => ?_
        split
        · exact hJ.makeNumber _
        · exact hJ.apply _ _
      · exact hJ.apply _ _
  | .symbol _ _ _, e => by
      unfold Kernel.pow
      exact .ite (hJ.apply _ _) (.ite hJ.one (.ite (.pure _) (hJ.apply _ _)))
  | .error _ _ _, e => by
      unfold Kernel.pow
      exact .ite (hJ.apply _ _) (.ite hJ.one (.ite (.pure _) (hJ.apply _ _)))
  | .application f ops _ _, e => by
      unfold Kernel.pow
      refine .ite (hJ.apply _ _) (.ite hJ.one (.ite (.pure _) ?_))
      simp only
      split
      next => exact hJ.apply _ _
      next n _ =>
        refine .ite ?_ (.ite ?_ (.ite ((powAll hJ ops e).bind fun _ => hJ.mul _)
          (.ite ?_ (hJ.apply _ _))))
        · split
          · exact (Maintains.number _).bind fun _ => (hJ.makeNumber _).bind fun _ => pow hJ _ _
          · exact hJ.apply _ _
          · exact .throw _
        · split
          · exact (pow hJ _ e).bind fun r => .ite (.pure _) (hJ.neg r)
          · exact .throw _
        · split
          · exact (pow hJ _ e).bind fun _ => (pow hJ _ e).bind fun _ => hJ.div _ _
          · exact .throw _

theorem powAll (hJ : Lasting J) : ∀ (bases : List Expr) (exponent : Expr),
    Maintains J (Kernel.powAll bases exponent)
  | [], e => by
      unfold Kernel.powAll
      exact .pure _
  | b :: rest, e => by
      unfold Kernel.powAll
      exact (pow hJ b e).bind fun _ => (powAll hJ rest e).bind fun _ => .pure _

end

theorem inv (e : Expr) : Maintains J (Kernel.inv e) := by
  unfold Kernel.inv
  split
  · exact (Maintains.number _).bind fun _ => hJ.makeNumber _
  · have hdiv : Maintains J (do Kernel.div (← Kernel.one) e) := hJ.one.bind fun _ => hJ.div _ _
    refine .ite ((Maintains.quotientParts e).bind fun _ => hJ.div _ _) (.ite ?_ hdiv)
    split
    · exact (Maintains.number _).bind fun _ => (hJ.makeNumber _).bind fun _ => hJ.pow _ _
    · exact hdiv
    · exact .throw _

theorem addOf (ops : List Expr) : Maintains J (Kernel.addOf ops) :=
  (hJ.canonicalizeAll ops).bind fun _ => hJ.add _

theorem mulOf (ops : List Expr) : Maintains J (Kernel.mulOf ops) :=
  (hJ.canonicalizeAll ops).bind fun _ => hJ.mul _

theorem negOf (e : Expr) : Maintains J (Kernel.negOf e) := (hJ.canonicalize e).bind fun _ => hJ.neg _

theorem invOf (e : Expr) : Maintains J (Kernel.invOf e) := (hJ.canonicalize e).bind fun _ => hJ.inv _

theorem subOf (a b : Expr) : Maintains J (Kernel.subOf a b) :=
  (hJ.canonicalize a).bind fun _ => (hJ.canonicalize b).bind fun _ => hJ.sub _ _

theorem divOf (a b : Expr) : Maintains J (Kernel.divOf a b) :=
  (hJ.canonicalize a).bind fun _ => (hJ.canonicalize b).bind fun _ => hJ.div _ _

theorem powOf (base exponent : Expr) : Maintains J (Kernel.powOf base exponent) :=
  (hJ.canonicalize base).bind fun _ => (hJ.canonicalize exponent).bind fun _ => hJ.pow _ _

/-! ## Angles -/

theorem toRadians (e : Expr) : Maintains J (Kernel.toRadians e) := by
  have hpi : Maintains J piSymbol := hJ.makeSymbol _
  have hturn : ∀ units, Maintains J (Kernel.toRadians.divideTurn e units) := fun units =>
    hpi.bind fun _ => (hJ.mulOf _).bind fun _ => (hJ.makeNumber _).bind fun _ => hJ.divOf _ _
  refine .ofGet fun k₀ => ?_
  split
  · exact .pure _
  · exact hpi.bind fun _ => (hJ.makeNumber _).bind fun _ => hJ.mulOf _
  · exact hturn _
  · exact hturn _

theorem remainderTerm (e : Expr) : Maintains J (Kernel.remainderTerm e) :=
  (hJ.evaluate e true).bind fun _ => .pure _

omit hJ in
theorem piTerm (hJ : Lasting J) : ∀ e : Expr, Maintains J (Kernel.piTerm e)
  | .number _ => hJ.remainderTerm _
  | .error _ _ _ => hJ.remainderTerm _
  | .symbol _ _ _ => .ite (.pure _) (hJ.remainderTerm _)
  | .application f ops _ _ => by
      have htwo : ∀ x y : Except NumberFault Number, Maintains J (do
          return ((← number x), (← number y))) := fun x y =>
        (Maintains.number x).bind fun _ => (Maintains.number y).bind fun _ => .pure _
      unfold Kernel.piTerm
      refine .ite ?_ ?_
      · split
        · exact (piTerm hJ _).bind fun _ => htwo _ _
        · exact .throw _
      · split
        · exact (piTerm hJ _).bind fun _ => (piTerm hJ _).bind fun _ => htwo _ _
        · exact (piTerm hJ _).bind fun _ => htwo _ _
        · exact (piTerm hJ _).bind fun _ => htwo _ _
        · exact (piTerm hJ _).bind fun _ => htwo _ _
        · exact hJ.remainderTerm _

theorem canonicalAngle (e : Expr) : Maintains J (Kernel.canonicalAngle e) := by
  refine (hJ.toRadians e).bind fun theta => (hJ.evaluate theta true).bind fun o => ?_
  split
  · refine (hJ.piTerm theta).bind fun _ => .ite (hJ.makeNumber _) ?_
    refine (Maintains.number _).bind fun _ => Maintains.getPrecision.bind fun _ => ?_
    refine (Maintains.number _).bind fun _ => (Maintains.number _).bind fun _ => ?_
    exact (Maintains.number _).bind fun _ => hJ.makeNumber _
  · exact .pure _

omit hJ in
theorem imaginaryFactor (hJ : Lasting J) : ∀ e : Expr, Maintains J (Kernel.imaginaryFactor e)
  | .number _ => .ite (hJ.makeNumber _).some (.pure _)
  | .symbol _ _ _ => .ite hJ.one.some (.pure _)
  | .application f ops _ _ => by
      have hscaled : ∀ (a : Expr) (x : Scalar), Maintains J (do
          return some (← Kernel.mulOf [a, ← Kernel.makeNumber (.real x)])) := fun a x =>
        (hJ.makeNumber _).bind fun _ => (hJ.mulOf _).some
      unfold Kernel.imaginaryFactor
      refine .ite ?_ ?_
      · split
        · refine (imaginaryFactor hJ _).bind fun o => ?_
          split
          · exact (hJ.negOf _).some
          · exact .pure _
        · exact .throw _
      · split
        · exact .pure _
        · refine .ite (.pure _) (.ite (.pure _) ?_)
          split
          · exact hscaled _ _
          · split
            · exact hscaled _ _
            · exact .pure _
        · refine .ite (.pure _) ((imaginaryFactor hJ _).bind fun o => ?_)
          split
          · exact (hJ.divOf _ _).some
          · exact .pure _
        · exact .pure _
  | .error _ _ _ => .pure _

/-! ## Expansion -/

omit hJ in
mutual

theorem distribute2 {a b : Expr} (hJ : Lasting J) : Maintains J (Kernel.distribute2 a b) := by
  unfold Kernel.distribute2
  split
  · split
    · exact distribute2 hJ
    · exact .throw _
  · split
    · exact (distribute2 hJ).bind fun _ => hJ.negOf _
    · exact .throw _
  · split
    · exact (distribute2 hJ).bind fun _ => hJ.negOf _
    · exact .throw _
  · refine (Maintains.givenOperand _).bind fun _ => (Maintains.givenOperand _).bind fun _ => ?_
    refine (hJ.mulOf _).bind fun _ => ?_
    split
    · exact (distribute2 hJ).bind fun _ => hJ.divOf _ _
    · exact .throw _
  · split
    · exact (distribute2 hJ).bind fun _ => (Maintains.givenOperand _).bind fun _ => hJ.divOf _ _
    · exact .throw _
  · split
    · exact (distribute2 hJ).bind fun _ => (Maintains.givenOperand _).bind fun _ => hJ.divOf _ _
    · exact .throw _
  · exact (distributeLeft hJ).bind fun _ => hJ.addOf _
  · exact (distributeRight hJ).bind fun _ => hJ.addOf _
  · exact hJ.mulOf _
termination_by sizeOf a + sizeOf b

theorem distributeLeft {terms : List Expr} {b : Expr} (hJ : Lasting J) :
    Maintains J (Kernel.distributeLeft terms b) := by
  unfold Kernel.distributeLeft
  split
  · exact .pure _
  · exact (distribute2 hJ).bind fun _ => (distributeLeft hJ).bind fun _ => .pure _
termination_by sizeOf terms + sizeOf b

theorem distributeRight {a : Expr} {terms : List Expr} (hJ : Lasting J) :
    Maintains J (Kernel.distributeRight a terms) := by
  unfold Kernel.distributeRight
  split
  · exact .pure _
  · exact (distribute2 hJ).bind fun _ => (distributeRight hJ).bind fun _ => .pure _
termination_by sizeOf a + sizeOf terms

end

omit hJ in
theorem distributeProduct (hJ : Lasting J) : ∀ es : List Expr, Maintains J (Kernel.distributeProduct es)
  | [] => .throw _
  | [_] => .pure _
  | _ :: b :: rest => (distributeProduct hJ (b :: rest)).bind fun _ => hJ.distribute2

theorem termFactors (es : List Expr) (ks : List Nat) : Maintains J (Kernel.termFactors es ks) := by
  induction es generalizing ks with
  | nil => exact .pure _
  | cons e es ih =>
      cases ks with
      | nil => exact .pure _
      | cons k ks =>
          have hrest : ∀ p, Maintains J (do return p :: (← Kernel.termFactors es ks)) :=
            fun p => (ih ks).bind fun _ => .pure _
          exact .ite (ih ks) (.ite (hrest _)
            ((hJ.makeNumber _).bind fun _ => (hJ.powOf _ _).bind hrest))

theorem multinomialTerms (es : List Expr) (rows : List (List Nat)) (pascal : Pascal) :
    Maintains J (Kernel.multinomialTerms es rows pascal) := by
  induction rows generalizing pascal with
  | nil => exact .pure _
  | cons ks rest ih =>
      refine (Maintains.ofExcept _).bind fun _ => (hJ.makeNumber _).bind fun _ => ?_
      refine (hJ.termFactors _ _).bind fun _ => (hJ.mulOf _).bind fun _ => ?_
      exact (ih _).bind fun _ => .pure _

omit hJ in
theorem expandHighPower (hJ : Lasting J) (n : Nat) :
    ∀ e : Expr, Maintains J (Kernel.expandHighPower n e)
  | .number _ => .pure _
  | .symbol _ _ _ => .pure _
  | .application f ops _ _ => by
      unfold Kernel.expandHighPower
      refine .ite ?_ (.ite (.ite (.throw _) ?_) (.pure _))
      · split
        · refine (expandHighPower hJ n _).bind fun o => ?_
          split
          · exact .pure _
          · exact .ite (.pure _) (hJ.negOf _).some
        · exact .throw _
      · exact (hJ.multinomialTerms _ _ _).bind fun _ => (hJ.addOf _).some
  | .error _ _ _ => .pure _

theorem expandPowerWith {x : Action (Option Expr)} (hx : Maintains J x) (base : Expr) (n : Int) :
    Maintains J (Kernel.expandPowerWith x base n) := by
  refine .ite hJ.one.some (.ite (hx.bind fun o => ?_) ((hJ.expandHighPower _ _).bind fun o => ?_))
  all_goals
    refine .ite (.pure _) ?_
    split
    · exact .pure _
    · exact (hJ.invOf _).some

theorem splitQuotient (numerator : Expr) (denominator : Option Expr) :
    Maintains J (Kernel.splitQuotient numerator denominator) := by
  refine .ite (Maintains.bind (.mapM fun x => ?_) fun _ => hJ.addOf _) ?_
  all_goals exact (Maintains.givenOperand _).bind fun _ => hJ.divOf _ _

omit hJ in
mutual

theorem expand? (hJ : Lasting J) : ∀ e : Expr, Maintains J (Kernel.expand? e)
  | .number _ => .pure _
  | .symbol _ _ _ => .pure _
  | .error _ _ _ => .pure _
  | .application f ops _ _ => by
      unfold Kernel.expand?
      refine .ite ((expandEach hJ ops).bind fun _ => (hJ.apply _ _).some) (.ite ?_ (.ite ?_ (.ite ?_
        (.ite ?_ (.ite ?_ (.pure _))))))
      · split
        · refine (expand? hJ _).bind fun o => ?_
          split
          · exact .pure _
          · exact (hJ.splitQuotient _ _).some
        · exact .pure _
      · exact (hJ.distributeProduct ops).some
      · exact (expandEach hJ ops).bind fun _ => (hJ.addOf _).some
      · split
        · refine (expand? hJ _).bind fun o => ?_
          split
          · exact .pure _
          · exact (hJ.negOf _).some
        · exact .pure _
      · split
        · split
          · exact .pure _
          · exact hJ.expandPowerWith (expand? hJ _) _ _
        · exact .throw _

theorem expandEach (hJ : Lasting J) : ∀ es : List Expr, Maintains J (Kernel.expandEach es)
  | [] => .pure _
  | e :: rest => (expand? hJ e).bind fun _ => (expandEach hJ rest).bind fun _ => .pure _

end

theorem expandPower? (base : Expr) (n : Int) : Maintains J (Kernel.expandPower? base n) :=
  hJ.expandPowerWith (hJ.expand? base) base n

theorem expandMultinomial? (e : Expr) : Maintains J (Kernel.expandMultinomial? e) := by
  refine .ite ?_ (.pure _)
  split
  · split
    · exact .pure _
    · exact hJ.expandPower? _ _
  · exact .throw _

theorem expandNumerator? (e : Expr) : Maintains J (Kernel.expandNumerator? e) := by
  unfold Kernel.expandNumerator?
  split
  · refine (hJ.expand? _).bind fun o => ?_
    split
    · exact .pure _
    · exact (hJ.splitQuotient _ _).some
  · exact .pure _

theorem expandDenominator? (e : Expr) : Maintains J (Kernel.expandDenominator? e) := by
  unfold Kernel.expandDenominator?
  split
  · refine (hJ.expand? _).bind fun o => ?_
    split
    · exact .pure _
    · exact (hJ.divOf _ _).some
  · exact .pure _

omit hJ in
mutual

theorem expandAll? (hJ : Lasting J) : ∀ e : Expr, Maintains J (Kernel.expandAll? e)
  | .number _ => .pure _
  | .symbol _ _ _ => .pure _
  | .error _ _ _ => .pure _
  | .application f ops _ _ => by
      unfold Kernel.expandAll?
      exact (expandAllEach hJ ops).bind fun _ => (hJ.buildFrom f _).bind fun r =>
        (hJ.expand? r).bind fun _ => .pure _

theorem expandAllEach (hJ : Lasting J) : ∀ es : List Expr, Maintains J (Kernel.expandAllEach es)
  | [] => .pure _
  | e :: rest => (expandAll? hJ e).bind fun _ => (expandAllEach hJ rest).bind fun _ => .pure _

end

theorem expand (e : Expr) : Maintains J (Kernel.expand e) :=
  (hJ.canonicalize e).bind fun r => (hJ.expand? r).bind fun _ => .pure _

theorem expandAll (e : Expr) : Maintains J (Kernel.expandAll e) :=
  (hJ.canonicalize e).bind fun r => (hJ.expandAll? r).bind fun _ => .pure _

omit hJ in
mutual

theorem distribute? (hJ : Lasting J) (f : String) :
    ∀ es : List Expr, Maintains J (Kernel.distribute? f es)
  | [] => by
      unfold Kernel.distribute?
      exact .ite (.throw _) (.ite (.throw _) (.pure _))
  | a :: rest => by
      unfold Kernel.distribute?
      refine .ite ?_ (.ite ?_ (.ite ?_ (.ite (hJ.distributeProduct _).some (.pure _))))
      · split
        · exact .throw _
        · split
          · exact .pure _
          · exact hJ.expandPower? _ _
      · exact hJ.negativeOne.bind fun _ => (hJ.distributeProduct _).some
      · refine (distributeNumerator? hJ a).bind fun o => ?_
        split
        · exact .pure _
        · split
          · exact .throw _
          · exact (hJ.divOf _ _).some

theorem distributeNumerator? (hJ : Lasting J) :
    ∀ e : Expr, Maintains J (Kernel.distributeNumerator? e)
  | .number _ => .pure _
  | .symbol _ _ _ => .pure _
  | .error _ _ _ => .pure _
  | .application f ops _ _ => by
      unfold Kernel.distributeNumerator?
      exact distribute? hJ f ops

end

/-! ## Rewriting -/

omit hJ in
mutual

theorem substitute (hJ : Lasting J) (b : Bindings) : ∀ e : Expr, Maintains J (Kernel.substitute b e)
  | .number _ => .pure _
  | .symbol _ _ _ => .pure _
  | .error _ _ _ => .pure _
  | .application f ops d c => by
      unfold Kernel.substitute
      refine (substituteAll hJ b ops).bind fun _ => ?_
      simp only
      split
      · exact hJ.rebuild _ _ _
      · exact .ite (.pure _) (hJ.rebuild _ _ _)

theorem substituteAll (hJ : Lasting J) (b : Bindings) :
    ∀ es : List Expr, Maintains J (Kernel.substituteAll b es)
  | [] => .pure _
  | e :: rest => (substitute hJ b e).bind fun _ => (substituteAll hJ b rest).bind fun _ => .pure _

end

theorem checkGuard (g : Guard) (b : Bindings) : Maintains J (Kernel.checkGuard g b) := by
  unfold Kernel.checkGuard
  split
  · exact .pure _
  · exact .pure _
  · exact .pure _
  · exact .throw _
  · split
    · exact .pure _
    · exact .throw _
  · exact (hJ.substitute b _).bind fun _ => (hJ.canonicalize _).bind fun _ =>
      (hJ.isTrue _).bind fun _ => .pure _

theorem guardHolds (r : Rule) (b : Bindings) : Maintains J (Kernel.guardHolds r b) := by
  unfold Kernel.guardHolds
  split
  · exact .pure _
  · exact (hJ.checkGuard _ b).tryCatch fun _ => (hJ.log _ _ _).bind fun _ => .pure _

theorem applyRule (r : Rule) (e : Expr) : Maintains J (Kernel.applyRule r e) := by
  refine Maintains.getTable.bind fun t => ?_
  split
  · exact .pure _
  next b _ =>
    refine (hJ.guardHolds r b).bind fun _ => .ite ?_ (.pure _)
    exact (hJ.substitute b _).bind fun _ => (hJ.log _ _ _).bind fun _ => .pure _

theorem replaceOnce (rules : List Rule) (e : Expr) : Maintains J (Kernel.replaceOnce rules e) := by
  induction rules with
  | nil => exact .pure _
  | cons r rest ih =>
      refine (hJ.applyRule r e).bind fun o => ?_
      split
      · exact .ite ih (.pure _)
      · exact ih

theorem applyFirst (rules : List Rule) (e : Expr) : Maintains J (Kernel.applyFirst rules e) := by
  induction rules with
  | nil => exact .pure _
  | cons r rest ih =>
      refine (hJ.applyRule r e).bind fun o => ?_
      split
      · exact .pure _
      · exact ih

omit hJ in
theorem matching (rules : List Rule) (e : Expr) : Maintains J (Kernel.matching rules e) :=
  Maintains.getTable.bind fun _ => .pure _

/-- **Rewriting at the root**, also where it never ends. -/
theorem replace (rules : List Rule) (bound : Option Int) (e : Expr) :
    Maintains J (Kernel.replace rules bound e) := by
  refine maintains_repeatUntil (fun s => ?_) _
  refine (hJ.replaceOnce rules s.2).bind fun o => ?_
  split
  · exact .pure _
  · exact .ite ((hJ.log _ _ _).bind fun _ => .pure _) (.pure _)

omit hJ in
mutual

theorem replacePass (hJ : Lasting J) (rules : List Rule) (bound : Option Int) :
    ∀ e : Expr, Maintains J (Kernel.replacePass rules bound e)
  | .number _ => hJ.replace _ _ _
  | .symbol _ _ _ => hJ.replace _ _ _
  | .error _ _ _ => hJ.replace _ _ _
  | .application f ops d c => by
      unfold Kernel.replacePass
      refine (replacePassAll hJ rules bound ops).bind fun _ => ?_
      exact .ite (hJ.replace _ _ _) ((hJ.rebuild _ _ _).bind fun _ => hJ.replace _ _ _)

theorem replacePassAll (hJ : Lasting J) (rules : List Rule) (bound : Option Int) :
    ∀ es : List Expr, Maintains J (Kernel.replacePassAll rules bound es)
  | [] => .pure _
  | e :: rest => (replacePass hJ rules bound e).bind fun _ =>
      (replacePassAll hJ rules bound rest).bind fun _ => .pure _

end

/-- **Rewriting everywhere**, also where it never ends. -/
theorem replaceAll (rules : List Rule) (bound : Option Int) (e : Expr) :
    Maintains J (Kernel.replaceAll rules bound e) := by
  refine maintains_repeatUntil (fun s => .ite (.pure _) ?_) _
  exact (hJ.replacePass rules bound s.2).bind fun _ => .ite (.pure _) (.pure _)

/-! ## Rules -/

theorem compileSide (s : Side) : Maintains J (Kernel.compileSide s) := by
  unfold Kernel.compileSide
  split
  · exact .pure _
  · refine (Maintains.ofExcept _).bind fun o => ?_
    split
    · exact .throw _
    · exact hJ.box _
  · exact hJ.hold _
  · exact .throw _

theorem compileCondition (s : Side) : Maintains J (Kernel.compileCondition s) := by
  unfold Kernel.compileCondition
  split
  · exact .pure _
  · exact .pure _
  · exact (hJ.compileSide _).bind fun _ => .pure _
  · exact (hJ.compileSide _).bind fun _ => .pure _
  · exact .pure _
  · exact .throw _

theorem compileRule (lhs rhs condition : Side) (name description : Raw) :
    Maintains J (Kernel.compileRule lhs rhs condition name description) :=
  (hJ.compileCondition condition).bind fun _ => (hJ.compileSide lhs).bind fun _ =>
    (hJ.compileSide rhs).bind fun _ => .pure _

theorem compileSpec (spec : RuleSpec) : Maintains J (Kernel.compileSpec spec) := by
  unfold Kernel.compileSpec
  split
  · exact .pure _
  · simp only
    split
    · exact hJ.compileRule _ _ _ _ _
    · exact .throw _
  · exact hJ.compileRule _ _ _ _ _
  · exact hJ.compileRule _ _ _ _ _
  · exact .throw _

theorem compileSpecs (specs : List RuleSpec) : Maintains J (Kernel.compileSpecs specs) := by
  induction specs with
  | nil => exact .pure _
  | cons spec rest ih => exact (hJ.compileSpec spec).bind fun _ => ih.bind fun _ => .pure _

theorem rulesOfJson (text : String) : Maintains J (Kernel.rulesOfJson text) :=
  (Maintains.ofExcept _).bind fun _ => (Maintains.ofExcept _).bind fun _ => hJ.compileSpecs _

/-- **A line of rules**, also one that is skipped. -/
theorem ruleOfLine (number : Nat) (line : String) : Maintains J (Kernel.ruleOfLine number line) := by
  refine Maintains.tryCatch ?_ fun f => .ite ((hJ.log _ _ _).bind fun _ => .pure _) (.throw _)
  refine (Maintains.ofExcept _).bind fun o => ?_
  split
  · exact .pure _
  · exact (hJ.compileRule _ _ _ _ _).bind fun _ => .pure _

theorem rulesOfLines {d : Directory} {base : Option Path}
    {load : Path → List Path → Action (List Rule × List Path)}
    (hload : ∀ path seen, Maintains J (load path seen)) (number : Nat) (seen : List Path)
    (lines : List String) : Maintains J (Kernel.rulesOfLines d base load number seen lines) := by
  induction lines generalizing number seen with
  | nil => exact .pure _
  | cons line rest ih =>
      have hrest : ∀ q : List Rule × List Path, Maintains J
          (Kernel.rulesOfLines d base load (number + 1) q.2 rest >>= fun others =>
            Pure.pure (q.1 ++ others.1, others.2)) := fun q => (ih _ _).bind fun _ => .pure _
      unfold Kernel.rulesOfLines
      simp only
      split
      · exact (hJ.ruleOfLine number line).bind fun _ => hrest _
      · have hload' : ∀ path, Maintains J (do
            if !d.holds path then throw (.includeNotFound path.text)
            let q ← load path (path.resolve :: seen)
            let others ← Kernel.rulesOfLines d base load (number + 1) q.2 rest
            return (q.1 ++ others.1, others.2)) := fun path =>
          .ite ((Maintains.throw _).bind fun _ => (hload _ _).bind hrest) ((hload _ _).bind hrest)
        exact .ite ((Maintains.throw _).bind fun _ => hload' _) (hload' _)

theorem rulesOfFileWithin (d : Directory) (depth : Nat) (path : Path) (seen : List Path) :
    Maintains J (Kernel.rulesOfFileWithin d depth path seen) := by
  induction depth generalizing path seen with
  | zero => exact .throw _
  | succ depth ih =>
      refine (Maintains.ofExcept _).bind fun text => .ite ?_ (hJ.rulesOfLines ih _ _ _)
      exact (hJ.rulesOfJson text).bind fun _ => .pure _

theorem rulesOfFile (d : Directory) (path : Path) : Maintains J (Kernel.rulesOfFile d path) :=
  (hJ.rulesOfFileWithin d _ path _).bind fun _ => .pure _

theorem rulesOfText (d : Directory) (text : String) : Maintains J (Kernel.rulesOfText d text) :=
  (hJ.rulesOfLines (hJ.rulesOfFileWithin d _) _ _ _).bind fun _ => .pure _

end

end Lasting

end SymbolicAlgebra.Kernel
