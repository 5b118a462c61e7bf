import SymbolicAlgebra.Kernel.Basic
import SymbolicAlgebra.Kernel.Flatten

/-!
# Kernel/Validation — operands checked against what a function takes

A check never fails: where an operand is missing, superfluous or of a wrong type, an error takes its
place.  Types are inferred only if every operand of the group was accepted.
-/

namespace SymbolicAlgebra.Kernel

/-! ## Errors in the place of operands -/

/-- A required operand is absent. -/
def missing : Expr := .error "missing" [] none

/-- An operand is one too many. -/
def unexpected (e : Expr) : Expr := .error "unexpected-argument" [e.text] none

/-- An operand has a wrong type. -/
def mismatch (expected actual : TypeName) (e : Expr) : Expr :=
  .error "type-mismatch" [expected.name, actual.name] (some e)

/-- An operand has side effects. -/
def impure (e : Expr) : Expr := .error "expected-pure-expression" [e.text] none

/-- Operands cut or filled up to a number: missing ones and superfluous ones are errors. -/
def fit (count : Nat) (ops : List Expr) : List Expr :=
  ops.take count ++ List.replicate (count - ops.length) missing ++ (ops.drop count).map unexpected

/-- Checks the number of operands; sequences are spliced first. -/
def checkArity (ops : List Expr) (count : Nat) : Action (List Expr) := do
  let ops := Expr.flattenSequence ops
  return if (← isStrict) then fit count ops else ops

/-! ## Operands of numeric functions -/

/-- Whether an expression is a list, whose elements a function may be applied to. -/
def isCollection (e : Expr) : Bool := e.isApplicationOf "List"

/-- Whether an expression is held back from evaluation, itself or by its value. -/
def isHeld (t : DefinitionTable) (e : Expr) : Bool :=
  e.operator == "Hold" ||
    match t.definitionOf e with
    | some (.symbol { value := .expr v, .. }) => v.operator == "Hold"
    | _ => false

/-- Whether the definition of an expression was inferred, not declared. -/
def isInferred (t : DefinitionTable) (e : Expr) : Bool :=
  match t.definitionOf e with
  | some d => d.isInferred
  | none => false

/-- Whether an operand can be taken for a number. -/
def acceptsNumber (t : DefinitionTable) (e : Expr) : Bool :=
  t.isNumeric e || (e.isSymbol && (t.definitionOf e).isNone) || t.typeOf e = .unknown ||
    if isCollection e then e.operands.all t.isNumeric
    else (isInferred t e && TypeName.isCompatible .number (t.typeOf e)) || isHeld t e

/-- The operand, or an error in its place; the flag tells which. -/
def checkNumber (t : DefinitionTable) (e : Expr) : Expr × Bool :=
  if !e.isValid then (e, false)
  else if acceptsNumber t e then (e, true)
  else (mismatch .number (t.typeOf e) e, false)

/-- The type a group of numeric operands is inferred to have: one complex operand makes all of them
plain numbers. -/
def groupType (t : DefinitionTable) (ops : List Expr) : TypeName :=
  if ops.any fun e => (t.typeOf e).isSubtype .complex then .number else .real

/-- Narrows the types of operands, and of the elements of lists among them unless these are
skipped. -/
def inferAll (ops : List Expr) (type : TypeName) (skipCollections : Bool) : Action Unit :=
  ops.forM fun e => do
    if isCollection e then
      if !skipCollections then e.operands.forM fun x => do let _ ← infer x type
    else
      let _ ← infer e type

/-- Checks the operands of a numeric function; without a count any number is right. -/
def checkNumeric (ops : List Expr) (count : Option Nat) (associative : Option String) :
    Action (List Expr) := do
  let ops := Expr.flatten associative ops
  let t ← getTable
  if !(← isStrict) then
    inferAll ops (groupType t ops) true
    return ops
  let count := count.getD ops.length
  let checked := (ops.take count).map (checkNumber t)
  let result := checked.map (·.1) ++ (fit count ops).drop (min count ops.length)
  if checked.all (·.2) && ops.length == count then inferAll result (groupType t result) false
  return result

/-! ## Operands against a signature -/

/-- Checks one operand against a parameter type. -/
def checkParameter (t : DefinitionTable) (held threadable : Bool) (e : Expr) (param : TypeName) :
    Expr × Bool :=
  let type := t.typeOf e
  if held then (e, true)
  else if !e.isValid then (e, false)
  else if type = .unknown then (e, true)
  else if threadable && isCollection e then (e, true)
  else if isInferred t e && type.isCompatible param then (e, true)
  else if type.isSubtype param then (e, true)
  else (mismatch param type e, false)

/-- The parameter types that the operands meet, one by one: required, optional, then the rest type
as often as needed. -/
def parametersFor (s : Signature) (count : Nat) : List TypeName :=
  let named := s.required ++ s.optional
  match s.rest with
  | some r => named ++ List.replicate (count - named.length) r
  | none => named

/-- Narrows the type of each operand to that of its parameter. -/
def inferParameters (threadable : Bool) (ops : List Expr) (params : List TypeName) :
    Action Unit :=
  (ops.zip params).forM fun (e, p) => do
    if !(threadable && isCollection e) then
      let _ ← infer e p

/-- Checks operands against a signature.  Gives `none` if all were accepted, and then their types
have been inferred; otherwise the operands with errors in place. -/
def checkSignature (ops : List Expr) (s : Signature) (held threadable : Bool) :
    Action (Option (List Expr)) := do
  if !(← isStrict) then return none
  let t ← getTable
  let params := parametersFor s ops.length
  let checked := (ops.zip params).map fun (e, p) => checkParameter t held threadable e p
  let absent := List.replicate (s.required.length - ops.length) missing
  let extra := (ops.drop params.length).map unexpected
  if checked.all (·.2) && absent.isEmpty && extra.isEmpty then
    if !held then inferParameters threadable ops params
    return none
  else return some (checked.map (·.1) ++ absent ++ extra)

end SymbolicAlgebra.Kernel
