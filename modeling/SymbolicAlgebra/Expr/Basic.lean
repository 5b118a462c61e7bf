import SymbolicAlgebra.Raw

/-!
# Expr/Basic — expressions

An expression is a number, a symbol, an operator applied to operands, or an error that stands in the
place of an operand.  Symbols and applications remember the registration number of the definition
they were built with, and whether they were built in canonical form.

Two equalities matter.  `Expr.same` is equality of structure: it ignores definitions and canonical
form and compares numbers by value.  `Expr.identical` is equality in every respect.
-/

namespace SymbolicAlgebra

/-- An expression. -/
inductive Expr
  | number (value : Number)
  | symbol (name : String) (definition : Option Nat) (canonical : Bool)
  | application (operator : String) (operands : List Expr) (definition : Option Nat)
      (canonical : Bool)
  | error (code : String) (details : List String) (operand : Option Expr)
  deriving Inhabited

namespace Expr

/-! ## Parts -/

/-- The operator name; the other kinds of expressions have a fixed one. -/
def operator : Expr → String
  | number _ => "Number"
  | symbol _ _ _ => "Symbol"
  | application f _ _ _ => f
  | error _ _ _ => "Error"

def operands : Expr → List Expr
  | application _ ops _ _ => ops
  | _ => []

/-- The first operand. -/
def op1? (e : Expr) : Option Expr := e.operands.head?

/-- The second operand. -/
def op2? (e : Expr) : Option Expr := e.operands[1]?

/-- The name of a symbol. -/
def symbol? : Expr → Option String
  | symbol n _ _ => some n
  | _ => none

/-- The value of a number. -/
def literal? : Expr → Option Number
  | number v => some v
  | _ => none

def isNumber : Expr → Bool
  | number _ => true
  | _ => false

def isSymbol : Expr → Bool
  | symbol _ _ _ => true
  | _ => false

def isApplication : Expr → Bool
  | application _ _ _ _ => true
  | _ => false

def isError : Expr → Bool
  | error _ _ _ => true
  | _ => false

/-- Whether an expression is an application of the operator `f`. -/
def isApplicationOf (f : String) : Expr → Bool
  | application g _ _ _ => g == f
  | _ => false

/-- The registration number of the definition the expression was built with. -/
def definition? : Expr → Option Nat
  | symbol _ d _ => d
  | application _ _ d _ => d
  | _ => none

/-- Whether the expression was built in canonical form; numbers and errors always are. -/
def isCanonical : Expr → Bool
  | symbol _ _ c => c
  | application _ _ _ c => c
  | _ => true

/-- Whether a name stands for an arbitrary expression or operator in a pattern. -/
def isWildcardName (n : String) : Bool := n.startsWith "_"

/-- Whether an expression is a symbol that stands for an arbitrary expression in a pattern. -/
def isWildcard : Expr → Bool
  | symbol n _ _ => isWildcardName n
  | _ => false

/-- The name of the kind of expression. -/
def kindName : Expr → String
  | number _ => "number"
  | symbol _ _ _ => "symbol"
  | application _ _ _ _ => "function"
  | error _ _ _ => "error"

mutual

/-- Whether no error stands among the operands, at any depth. -/
def isValid : Expr → Bool
  | number _ => true
  | symbol _ _ _ => true
  | application _ ops _ _ => allValid ops
  | error _ _ _ => false

def allValid : List Expr → Bool
  | [] => true
  | e :: rest => isValid e && allValid rest

end

/-! ## Equality -/

mutual

/-- Equality of structure. -/
def same : Expr → Expr → Bool
  | number v, number w => v.same w
  | symbol n _ _, symbol m _ _ => n == m
  | application f xs _ _, application g ys _ _ => f == g && sameAll xs ys
  | error c ds x, error c' ds' y =>
      c == c' && ds == ds' &&
        match x, y with
        | none, none => true
        | some x, some y => same x y
        | _, _ => false
  | _, _ => false

def sameAll : List Expr → List Expr → Bool
  | [], [] => true
  | x :: xs, y :: ys => same x y && sameAll xs ys
  | _, _ => false

end

mutual

/-- Equality in every respect. -/
def identical : Expr → Expr → Bool
  | number v, number w => v.identical w
  | symbol n d c, symbol n' d' c' => n == n' && d == d' && c == c'
  | application f xs d c, application f' ys d' c' =>
      f == f' && d == d' && c == c' && identicalAll xs ys
  | error c ds x, error c' ds' y =>
      c == c' && ds == ds' &&
        match x, y with
        | none, none => true
        | some x, some y => identical x y
        | _, _ => false
  | _, _ => false

def identicalAll : List Expr → List Expr → Bool
  | [], [] => true
  | x :: xs, y :: ys => identical x y && identicalAll xs ys
  | _, _ => false

end

mutual

/-- Whether a symbol or operator name occurs in an expression. -/
def mentions (name : String) : Expr → Bool
  | number _ => false
  | symbol n _ _ => n == name
  | application f ops _ _ => f == name || anyMentions name ops
  | error _ _ _ => false

def anyMentions (name : String) : List Expr → Bool
  | [] => false
  | e :: rest => mentions name e || anyMentions name rest

end

/-! ## Text -/

/-- The raw shape of a scalar; a decimal shows its precision in trailing zeros. -/
def scalarRaw : Scalar → Raw
  | .exact q =>
      if q.den = 1 then .int q.num else .list [.name "Rational", .int q.num, .int q.den]
  | .big d p => .decimal (d.pad p)
  | .machine x => .double x

/-- The raw shape of a number. -/
def numberRaw : Number → Raw
  | .real x => scalarRaw x
  | .complex x y => .list [.name "Complex", scalarRaw x, scalarRaw y]

mutual

/-- The raw shape of an expression. -/
def toRaw : Expr → Raw
  | number v => numberRaw v
  | symbol n _ _ => .name n
  | application f ops _ _ => .list (.name f :: toRawAll ops)
  | error code details operand =>
      .list (.name "Error" :: .name code :: details.map .name ++
        match operand with
        | none => []
        | some e => [toRaw e])

def toRawAll : List Expr → List Raw
  | [] => []
  | e :: rest => toRaw e :: toRawAll rest

end

/-- An expression as an s-expression. -/
def text (e : Expr) : String := e.toRaw.text

/-- An expression with the name of its kind, as it is shown inside a message. -/
def describe (e : Expr) : String :=
  let kind :=
    match e with
    | number _ => "BoxedNumber"
    | symbol _ _ _ => "BoxedSymbol"
    | application _ _ _ _ => "BoxedFunction"
    | error _ _ _ => "BoxedError"
  kind ++ "(" ++ e.text ++ ")"

end Expr

end SymbolicAlgebra
