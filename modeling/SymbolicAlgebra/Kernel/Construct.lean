import SymbolicAlgebra.Kernel.Validation
import SymbolicAlgebra.Sexpr.Reader

/-!
# Kernel/Construct — building expressions

`box` builds the canonical form of a raw shape: names are looked up or met, sequences and
associative operators are flattened, and operands are checked.  `hold` builds a shape as it stands.
`canonicalize` brings a held expression into canonical form.
-/

namespace SymbolicAlgebra.Kernel

/-- The expression of a number. -/
def makeNumber (v : Number) : Action Expr := intern (.number v)

/-- The number zero. -/
def zero : Action Expr := makeNumber .zero

/-- The number one. -/
def one : Action Expr := makeNumber .one

/-- The number minus one. -/
def negativeOne : Action Expr := makeNumber .negativeOne

/-- The registration of a name, which is met as a symbol if it has none. -/
def meetSymbol (name : String) : Action (Option Nat) := do
  match (← getTable).number? name with
  | some i => return some i
  | none =>
      modify fun k => { k with table := k.table.register name (.symbol (.met name)) }
      return (← getTable).number? name

/-- The registration of a function, which is met if the name has none; `none` if the name is a
symbol. -/
def meetFunction (name : String) : Action (Option Nat) := do
  if !(← getTable).contains name then
    modify fun k => { k with table := k.table.register name (.function (.met name)) }
  return (← getTable).functionNumber? name

/-- The symbol of a name in canonical form; wildcards have no definition. -/
def makeSymbol (name : String) : Action Expr := do
  if Expr.isWildcardName name then intern (.symbol name none true)
  else intern (.symbol name (← meetSymbol name) true)

/-- The symbol of a name as it stands. -/
def holdSymbol (name : String) : Action Expr := do
  if Expr.isWildcardName name then intern (.symbol name none true)
  else return .symbol name ((← getTable).number? name) false

/-- An operator applied to canonical operands, unchecked. -/
def apply (operator : String) (ops : List Expr) : Action Expr := do
  intern (.application operator ops ((← getTable).functionNumber? operator) true)

/-- An operator applied to operands, as it stands. -/
def holdApplication (operator : String) (ops : List Expr) : Action Expr := do
  return .application operator ops ((← getTable).functionNumber? operator) false

/-! ## Forms of their own -/

/-- Exactly two operands. -/
def two (ops : List Expr) : Action (Expr × Expr) :=
  match ops with
  | [a, b] => pure (a, b)
  | ops => throw (if 2 < ops.length then .tooManyOperands 2 else .tooFewOperands 2 ops.length)

/-- A negation: of a number the opposite number, of a negation its operand. -/
def negationForm (ops : List Expr) : Action (Option Expr) := do
  let ops ← checkNumeric ops (some 1) none
  match ops with
  | [] => throw .operandIndex
  | .number v :: _ => return some (← makeNumber (← number v.neg))
  | e :: _ =>
      if e.operator == "Negate" && e.isValid then return e.op1?
      else return some (← apply "Negate" ops)

/-- A quotient of exact numbers is a number. -/
def rationalForm (ops : List Expr) : Action (Option Expr) := do
  let ops ← checkNumeric ops (some 2) none
  match ← two ops with
  | (.number n, .number d) =>
      if n.isExact && d.isExact then return some (← makeNumber (← number (n.div d)))
      else return some (← apply "Rational" ops)
  | _ => return some (← apply "Rational" ops)

/-- A pair of real numbers is a number. -/
def complexForm (ops : List Expr) : Action (Option Expr) := do
  let ops ← checkNumeric ops (some 2) none
  match ← two ops with
  | (.number (.real x), .number (.real y)) => return some (← makeNumber (.ofParts x y))
  | _ => return some (← apply "Complex" ops)

/-- Builds a form of its own; `none` leaves the application to its signature. -/
def buildForm (form : Callback) (ops : List Expr) : Action (Option Expr) :=
  match form with
  | .canonicalForm .negation => negationForm ops
  | .canonicalForm .rational => rationalForm ops
  | .canonicalForm .complexPair => complexForm ops
  | .canonicalForm .first => return ops.head?
  | .canonicalForm .zero => do return some (← zero)
  | .canonicalForm .keep => return none
  | _ => throw .wrongArguments

/-- Checks flattened operands the way their function asks for, and applies it. -/
def applyChecked (operator : String) (d : FunctionDefinition) (ops : List Expr) : Action Expr := do
  let ops := Expr.flatten (if d.associative.truthy then some operator else none) ops
  if d.numeric.truthy then
    let count := if d.signature.isFixedArity then some d.signature.required.length else none
    apply operator (← checkNumeric ops count none)
  else
    let checked ← checkSignature ops d.signature d.isLazy.truthy d.threadable.truthy
    apply operator (checked.getD ops)

/-- An application in canonical form.  The operands are given as computations, because the operator
is met before them: `canonical` builds them in canonical form, `held` as they stand. -/
def build (operator : String) (canonical held : Action (List Expr)) : Action Expr := do
  if Expr.isWildcardName operator then apply operator (← canonical)
  else
    match ← meetFunction operator with
    | none => apply operator (← canonical)
    | some i =>
        match (← getTable).get? i with
        | some (.function d) =>
            if d.isLazy.truthy then apply operator (← held)
            else
              let ops ← canonical
              match d.canonical with
              | none => applyChecked operator d ops
              | some form =>
                  match ← buildForm form ops with
                  | some e => return e
                  | none => applyChecked operator d ops
        | _ => apply operator (← canonical)

/-! ## From raw shapes -/

/-- The details of a written error: all texts, without an operand at the end. -/
def errorDetails (args : List Raw) : List String :=
  match args.getLast? with
  | some (.name _) | none => args.map Raw.display
  | _ => args.dropLast.map Raw.display

/-- The expression of a number given as a shape. -/
def boxNumber (r : Raw) : Action Expr := do
  makeNumber (← ofExcept (Definition.numberOf (← getPrecision) r))

mutual

/-- The canonical form of a raw shape. -/
def box : Raw → Action Expr
  | .bool b => makeSymbol (if b then "True" else "False")
  | .name n => makeSymbol n
  | .list (.name f :: args) =>
      if f == "Error" then boxError args else build f (boxAll args) (holdAll args)
  | .list items => throw (.operatorExpected (Raw.list items).describe)
  | .null => throw (.notAnExpression Raw.null.describe)
  | .map keys items => throw (.notAnExpression (Raw.map keys items).describe)
  | r => boxNumber r

def boxAll : List Raw → Action (List Expr)
  | [] => return []
  | r :: rest => do
      let e ← box r
      return e :: (← boxAll rest)

/-- A raw shape as it stands. -/
def hold : Raw → Action Expr
  | .bool b => makeSymbol (if b then "True" else "False")
  | .name n => holdSymbol n
  | .list (.name f :: args) => do
      if f == "Error" then boxError args else holdApplication f (← holdAll args)
  | .list items => throw (.operatorExpected (Raw.list items).describe)
  | .null => throw (.notAnExpression Raw.null.describe)
  | .map keys items => throw (.notAnExpression (Raw.map keys items).describe)
  | r => boxNumber r

def holdAll : List Raw → Action (List Expr)
  | [] => return []
  | r :: rest => do
      let e ← hold r
      return e :: (← holdAll rest)

/-- A written error: code, details, and an operand if the last argument is no text. -/
def boxError : List Raw → Action Expr
  | [] => return missing
  | code :: rest => do
      let operand ← errorOperand rest
      return .error code.display (errorDetails rest) operand

/-- The operand of a written error. -/
def errorOperand : List Raw → Action (Option Expr)
  | [] => return none
  | [.name _] => return none
  | [r] => do return some (← hold r)
  | _ :: rest => errorOperand rest

end

/-! ## From expressions -/

mutual

/-- The canonical form of an expression. -/
def canonicalize : Expr → Action Expr
  | .symbol n d c => if c then return .symbol n d c else makeSymbol n
  | .application f ops d c =>
      if c then return .application f ops d c else build f (canonicalizeAll ops) (return ops)
  | e => return e

def canonicalizeAll : List Expr → Action (List Expr)
  | [] => return []
  | e :: rest => do
      let e' ← canonicalize e
      return e' :: (← canonicalizeAll rest)

end

/-- An operator applied to expressions, in canonical form. -/
def buildFrom (operator : String) (ops : List Expr) : Action Expr :=
  build operator (canonicalizeAll ops) (return ops)

/-- An operator applied to expressions, in canonical form or as it stands. -/
def rebuild (operator : String) (ops : List Expr) (canonical : Bool) : Action Expr :=
  if canonical then buildFrom operator ops else holdApplication operator ops

/-- Reads a text and builds its expression; blank text has none. -/
def parse (text : String) (canonical : Bool) : Action (Option Expr) := do
  match ← ofExcept (Sexpr.parse text) with
  | none => return none
  | some r => return some (← if canonical then box r else hold r)

/-! ## Checks of single operands -/

/-- Checks that an operand has a type. -/
def checkType (e : Option Expr) (type : Option TypeName) : Action Expr := do
  match e, type with
  | none, _ => return missing
  | some e, none => return unexpected e
  | some e, some type =>
      let e ← canonicalize e
      let actual := (← getTable).typeOf e
      return if !e.isValid || actual.isSubtype type then e else mismatch type actual e

/-- Checks each operand against the type at its place. -/
def checkEach (ops : List Expr) (types : List TypeName) : Action (List Expr) :=
  match ops, types with
  | ops, [] => return ops.map unexpected
  | [], _ :: types => do
      let e ← checkType none (some .any)
      return e :: (← checkEach [] types)
  | e :: ops, type :: types => do
      let e ← checkType (some e) (some type)
      return e :: (← checkEach ops types)

/-- Checks operands against types; operands that all fit are given back as they stand. -/
def checkTypes (ops : List Expr) (types : List TypeName) : Action (List Expr) := do
  let t ← getTable
  if ops.length == types.length &&
      (ops.zip types).all fun (e, type) => (t.typeOf e).isSubtype type then return ops
  else checkEach ops types

/-- Checks that an operand is free of side effects. -/
def checkPure (e : Option Expr) : Action Expr := do
  match e with
  | none => return missing
  | some e =>
      let e ← canonicalize e
      return if !e.isValid || (← getTable).isPure e then e else impure e

end SymbolicAlgebra.Kernel
