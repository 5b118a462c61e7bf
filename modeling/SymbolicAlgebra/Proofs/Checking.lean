import SymbolicAlgebra.Proofs.Construction
import SymbolicAlgebra.Proofs.Inference
import SymbolicAlgebra.Proofs.Sameness

/-!
# Proofs/Checking — what a function is applied to

In a strict kernel a function is applied to what the check of its operands leaves
(`yields_applyChecked_strict`): errors tell which operands are missing, superfluous or of a wrong type,
so that the application is free of errors just if the function takes the operands
(`allValid_checkedOperands`).
-/

namespace SymbolicAlgebra.Kernel

/-- The operands that an application of a function is built with. -/
def checkedOperands (t : DefinitionTable) (d : FunctionDefinition) (ops : List Expr) : List Expr :=
  if d.numeric.truthy then
    checkedNumbers t (if d.signature.isFixedArity then d.signature.required.length else ops.length) ops
  else checkedParameters t d.signature d.isLazy.truthy d.threadable.truthy ops

/-- Whether an operand is accepted where a parameter has a type. -/
def acceptsParameter (t : DefinitionTable) (threadable : Bool) (e : Expr) (param : TypeName) : Bool :=
  e.isValid && (t.typeOf e = .unknown || threadable && isCollection e ||
    isInferred t e && (t.typeOf e).isCompatible param || (t.typeOf e).isSubtype param)

/-- Whether a function takes these operands: as many, and each of them. -/
def takes (t : DefinitionTable) (d : FunctionDefinition) (ops : List Expr) : Bool :=
  if d.numeric.truthy then
    (ops.all fun e => e.isValid && acceptsNumber t e) &&
      (!d.signature.isFixedArity || ops.length == d.signature.required.length)
  else
    ((ops.zip (parametersFor d.signature ops.length)).all fun q =>
        acceptsParameter t d.threadable.truthy q.1 q.2) &&
      d.signature.required.length ≤ ops.length &&
        ops.length ≤ (parametersFor d.signature ops.length).length

variable {E : Fault → Prop} {t : DefinitionTable} {k : Kernel}

/-- How many numbers a function checks. -/
theorem getD_required (d : FunctionDefinition) (n : Nat) :
    (if d.signature.isFixedArity then some d.signature.required.length else none).getD n =
      if d.signature.isFixedArity then d.signature.required.length else n := by
  split <;> rfl

theorem refused_checkedOperands (t : DefinitionTable) (d : FunctionDefinition) (ops : List Expr) :
    Refused ops (checkedOperands t d ops) := by
  unfold checkedOperands
  split
  next => exact refused_checkedNumbers t _ ops
  next => exact refused_checkedParameters t _ _ _ ops

theorem length_checkedNumbers (count : Nat) (ops : List Expr) :
    (checkedNumbers t count ops).length = max count ops.length := by
  simp [checkedNumbers, fit]
  omega

theorem length_checkedParameters {s : Signature} (hrequired : s.required = [])
    (hrest : s.rest.isSome = true) (held threadable : Bool) (ops : List Expr) :
    (checkedParameters t s held threadable ops).length = ops.length := by
  obtain ⟨type, htype⟩ := Option.isSome_iff_exists.1 hrest
  have hle : ops.length ≤ (parametersFor s ops.length).length := by
    simp [parametersFor, htype]
    omega
  simp [checkedParameters, hrequired, List.drop_of_length_le hle]
  omega

/-- In a strict kernel a check of numbers is what it makes of the operands. -/
theorem yields_checkNumeric_strict (hk : k.settings.strict = true) (ops : List Expr)
    (count : Option Nat) :
    Yields E (checkNumeric ops count none) k fun rs _ =>
      rs = checkedNumbers k.table (count.getD (Expr.flatten none ops).length)
        (Expr.flatten none ops) := by
  refine (checksNumbers hk ops count none).mono fun rs k' h => ?_
  cases h with
  | accepted h => exact (checkedNumbers_of_allValid h).symm
  | refused => rfl

/-- In a strict kernel a check against a signature is what it makes of the operands: these themselves if
they are all accepted. -/
theorem yields_checkSignature_strict (hk : k.settings.strict = true) (ops : List Expr)
    (s : Signature) (threadable : Bool) :
    Yields E (checkSignature ops s false threadable) k fun o _ =>
      o.getD ops = checkedParameters k.table s false threadable ops := by
  refine (checksOperands hk ops s threadable).mono fun o k' h => ?_
  cases h with
  | accepted h => exact (checkedParameters_of_allValid h).symm
  | refused => rfl

/-- **In a strict kernel a function is applied to its operands as the check leaves them.** -/
theorem yields_applyChecked_strict (hk : k.settings.strict = true) (f : String)
    {d : FunctionDefinition} (hlazy : d.isLazy.truthy = false) (ops : List Expr) :
    Yields E (applyChecked f d ops) k fun e _ => ∃ i,
      (Expr.application f (checkedOperands k.table d
        (Expr.flatten (if d.associative.truthy then some f else none) ops)) i true).same e = true := by
  unfold applyChecked checkedOperands
  simp only
  generalize hes : Expr.flatten (if d.associative.truthy then some f else none) ops = es
  have hflat : Expr.flatten none es = es := by rw [← hes, Expr.flatten_none_flatten]
  have happly : ∀ {rs : List Expr} {k : Kernel}, Yields E (apply f rs) k fun e _ =>
      ∃ i, (Expr.application f rs i true).same e = true := fun {rs k} =>
    yields_apply ((yields_intern_same _ k).mono fun _ _ h => ⟨_, h⟩)
  split
  next =>
    refine (yields_checkNumeric_strict hk es _).bind fun rs k₁ hrs => ?_
    rw [hflat, getD_required] at hrs
    rw [← hrs]
    exact happly
  next =>
    rw [hlazy]
    refine (yields_checkSignature_strict hk es _ _).bind fun o k₁ hrs => ?_
    rw [← hrs]
    exact happly

/-! ## Errors tell what is not accepted -/

theorem checkNumber_verdict (t : DefinitionTable) (e : Expr) :
    (checkNumber t e).2 = (e.isValid && acceptsNumber t e) := by
  unfold checkNumber
  cases e.isValid <;> cases acceptsNumber t e <;> rfl

theorem checkParameter_verdict (t : DefinitionTable) (threadable : Bool) (e : Expr)
    (param : TypeName) :
    (checkParameter t false threadable e param).2 = acceptsParameter t threadable e param := by
  unfold checkParameter acceptsParameter
  simp only [Bool.false_eq_true, ↓reduceIte]
  repeat' split
  all_goals simp_all

theorem allValid_checkedNumbers (count : Nat) (ops : List Expr) :
    Expr.allValid (checkedNumbers t count ops) =
      ((ops.all fun e => e.isValid && acceptsNumber t e) && ops.length == count) := by
  rw [checkedNumbers, Expr.allValid_append, allValid_drop_fit,
    ← (judges_all (g := id) (judges_checkNumber t)).1, List.all_map]
  cases hlength : ops.length == count with
  | false => rw [Bool.and_false, Bool.and_false]
  | true =>
      rw [← beq_iff_eq.1 hlength, List.take_length]
      exact congrArg (· && true) (congrArg ops.all (funext (checkNumber_verdict t)))

theorem allValid_checkedParameters (s : Signature) (threadable : Bool) (ops : List Expr) :
    Expr.allValid (checkedParameters t s false threadable ops) =
      (((ops.zip (parametersFor s ops.length)).all fun q =>
        acceptsParameter t threadable q.1 q.2) && s.required.length ≤ ops.length &&
          ops.length ≤ (parametersFor s ops.length).length) := by
  rw [checkedParameters, Expr.allValid_append, Expr.allValid_append, allValid_replicate_missing,
    allValid_map_unexpected,
    ← (judges_all (g := Prod.fst) fun q => judges_checkParameter t threadable q.1 q.2).1,
    List.all_map]
  congr 1
  · congr 1
    · exact congrArg _ (funext fun q => checkParameter_verdict t threadable q.1 q.2)
    · exact decide_eq_decide.2 Nat.sub_eq_zero_iff_le
  · rw [Bool.eq_iff_iff, List.isEmpty_iff, List.drop_eq_nil_iff, decide_eq_true_eq]

/-- **What a check makes of operands is free of errors just if the function takes them.** -/
theorem allValid_checkedOperands {d : FunctionDefinition} (hlazy : d.isLazy.truthy = false)
    (ops : List Expr) : Expr.allValid (checkedOperands t d ops) = takes t d ops := by
  unfold checkedOperands takes
  split
  next =>
    rw [allValid_checkedNumbers]
    cases d.signature.isFixedArity <;> simp
  next => rw [hlazy, allValid_checkedParameters]

end SymbolicAlgebra.Kernel
