import SymbolicAlgebra.Expr.Basic
import SymbolicAlgebra.Types.Signature

/-!
# Definition/Basic — what is known about a name

A definition describes a symbol (its type, value and flags) or a function (its signature, the way it
is built, evaluated and ordered).  The behaviours a definition can name are a closed list, so that
definitions are data.
-/

namespace SymbolicAlgebra

/-- How an application is evaluated from the values of its operands. -/
inductive Evaluation
  | sum | product | negation | difference | quotient | power | squareRoot | absolute
  | sine | cosine | tangent | exponential | logarithm | complexPair | sample
  /-- The first value. -/
  | first
  /-- No value. -/
  | none
  /-- The number of values. -/
  | count
  deriving DecidableEq

/-- How an application is built in canonical form, instead of by its signature. -/
inductive CanonicalForm
  /-- A negated number is a number, a twice negated expression itself. -/
  | negation
  /-- A quotient of exact numbers is a number. -/
  | rational
  /-- A pair of real numbers is a number. -/
  | complexPair
  /-- The first operand. -/
  | first
  /-- The number zero. -/
  | zero
  /-- As the signature says. -/
  | keep
  deriving DecidableEq

/-- How the sign of an application follows from its operands. -/
inductive SignRule
  /-- Zero for the number zero, one for other numbers. -/
  | absolute
  /-- Minus one, zero or one for no, one or more operands. -/
  | arity
  deriving DecidableEq

/-- A value that depends on the precision in use. -/
inductive ComputedValue
  | pi
  | euler
  /-- The precision itself. -/
  | precision
  deriving DecidableEq

/-- A side condition on what a pattern bound. -/
inductive Guard
  | always
  | never
  | undecided
  /-- Fails. -/
  | failing
  /-- Whether `x` is bound to a symbol; fails if it is not bound. -/
  | symbolX
  /-- Whether an expression is true once what was bound is put in. -/
  | holds (template : Expr)

/-- A behaviour that a definition or a rule can name. -/
inductive Callback
  | evaluation (rule : Evaluation)
  | canonicalForm (rule : CanonicalForm)
  | resultType (rule : ResultRule)
  | sign (rule : SignRule)
  | value (rule : ComputedValue)
  | guard (rule : Guard)

/-- Numeric flags of a symbol: each is set, cleared or left open. -/
abbrev Flags := List (String × Option Bool)

/-- What a field of a definition record may hold. -/
inductive Datum
  | raw (shape : Raw)
  | expr (e : Expr)
  | signature (s : Signature)
  | flags (entries : Flags)
  | callback (c : Callback)
  deriving Inhabited

namespace Datum

/-- The absent field. -/
def null : Datum := .raw .null

def ofBool (b : Bool) : Datum := .raw (.bool b)

def isNull : Datum → Bool
  | raw .null => true
  | _ => false

/-- Whether a field counts as set. -/
def truthy : Datum → Bool
  | raw r => r.truthy
  | flags entries => !entries.isEmpty
  | _ => true

/-- A field as it is shown inside a message. -/
def describe : Datum → String
  | raw r => r.describe
  | expr e => e.describe
  | signature s => "Signature(" ++ Text.quoted s.text ++ ")"
  | flags entries =>
      "\x7b" ++ ", ".intercalate (entries.map fun (k, v) =>
        Text.quoted k ++ ": " ++
          match v with
          | none => "None"
          | some b => if b then "True" else "False") ++ "\x7d"
  | callback _ => "<function>"

end Datum

/-- What is known about a symbol. -/
structure SymbolDefinition where
  name : String
  value : Datum
  type : TypeName
  constant : Datum
  flags : Option Flags
  description : Datum
  inferred : Bool

/-- What is known about a function. -/
structure FunctionDefinition where
  name : String
  signature : Signature
  sign : Option Callback
  complexity : Int
  associative : Datum
  threadable : Datum
  isLazy : Datum
  isPure : Datum
  numeric : Datum
  evaluate : Option Callback
  canonical : Option Callback
  description : Datum
  inferred : Datum

/-- The definition of a name. -/
inductive Definition
  | symbol (d : SymbolDefinition)
  | function (d : FunctionDefinition)

/-- The complexity of functions that declare none. -/
def defaultComplexity : Int := 100000

namespace SymbolDefinition

/-- The definition of a symbol that was only met. -/
def met (name : String) : SymbolDefinition :=
  ⟨name, .null, .unknown, .ofBool false, none, .null, true⟩

/-- Whether the type may be narrowed to `t`. -/
def accepts (d : SymbolDefinition) (t : TypeName) : Bool :=
  d.inferred && d.type.isOpen && !t.isOpen

/-- A definition as it is shown. -/
def describe (d : SymbolDefinition) : String :=
  "SymbolDefinition(" ++ d.name ++ ": " ++ d.type.name ++
    (if d.inferred then " (inferred)" else "") ++ ")"

end SymbolDefinition

namespace FunctionDefinition

/-- The definition of a function that was only met. -/
def met (name : String) : FunctionDefinition :=
  { name
    signature := { rest := some .any, result := .fixed .unknown }
    sign := none
    complexity := defaultComplexity
    associative := .ofBool false
    threadable := .ofBool false
    isLazy := .ofBool false
    isPure := .ofBool true
    numeric := .ofBool false
    evaluate := none
    canonical := none
    description := .null
    inferred := .ofBool true }

/-- Whether the result type may be narrowed to `t`. -/
def accepts (d : FunctionDefinition) (t : TypeName) : Bool :=
  d.inferred.truthy && !t.isOpen &&
    match d.signature.result.fixed? with
    | some r => r.isOpen
    | none => false

/-- A definition as it is shown. -/
def describe (d : FunctionDefinition) : String :=
  "FunctionDefinition(" ++ d.name ++ ": " ++ d.signature.text ++ ")"

end FunctionDefinition

namespace Definition

def name : Definition → String
  | symbol d => d.name
  | function d => d.name

/-- The name of the kind of definition. -/
def kindName : Definition → String
  | symbol _ => "symbol"
  | function _ => "function"

def isInferred : Definition → Bool
  | symbol d => d.inferred
  | function d => d.inferred.truthy

/-- Whether no type is known yet. -/
def isUnresolved : Definition → Bool
  | symbol d => d.type = .unknown
  | function d => d.signature.result = .fixed .unknown

def symbol? : Definition → Option SymbolDefinition
  | symbol d => some d
  | function _ => none

def function? : Definition → Option FunctionDefinition
  | symbol _ => none
  | function d => some d

end Definition

end SymbolicAlgebra
