import SymbolicAlgebra.Kernel.Construct
import SymbolicAlgebra.Number.Power

/-!
# Evaluation — the numeric value of an expression

An expression made of numbers, symbols with values and functions that can be evaluated has a value,
exact where the operations allow it.  Everything else has none.
-/

namespace SymbolicAlgebra

namespace Evaluation

/-- Applies a function of one value. -/
def unary (f : Number → Except NumberFault Number) :
    List Number → Except NumberFault (Option Number)
  | [x] => do return some (← f x)
  | _ => return Option.none

/-- Applies a function of two values. -/
def binary (f : Number → Number → Except NumberFault Number) :
    List Number → Except NumberFault (Option Number)
  | [x, y] => do return some (← f x y)
  | _ => return Option.none

/-- The number drawn where chance is asked for. -/
def sampleValue : Number := .real (.machine 0.5)

/-- The value of an application from the values of its operands. -/
def apply (precision : Nat) : Evaluation → List Number → Except NumberFault (Option Number)
  | sum, vs => do return some (← vs.foldlM Number.add .zero)
  | product, vs => do return some (← vs.foldlM Number.mul .one)
  | negation, vs => unary Number.neg vs
  | difference, vs => binary Number.sub vs
  | quotient, vs => binary Number.div vs
  | power, vs => binary (Number.pow precision) vs
  | squareRoot, vs => unary (Number.sqrt precision) vs
  | absolute, vs => unary (Number.abs precision) vs
  | sine, vs => unary (Number.sin precision) vs
  | cosine, vs => unary (Number.cos precision) vs
  | tangent, vs => unary (Number.tan precision) vs
  | exponential, vs => unary (Number.exp precision) vs
  | logarithm, vs => unary (Number.ln precision) vs
  | complexPair, [.real x, .real y] => return some (.ofParts x y)
  | complexPair, _ => return Option.none
  | sample, _ => return some sampleValue
  | first, vs => return vs.head?
  | none, _ => return Option.none
  | count, vs => return some (.ofInt vs.length)

end Evaluation

/-- The value at a precision. -/
def ComputedValue.at (digits : Nat) : ComputedValue → Except NumberFault Number
  | .pi => do return .real (← Number.pi digits)
  | .euler => do return .real (← Number.euler digits)
  | .precision => return .ofInt digits

namespace Kernel

/-- Moves a value into the approximate lane in force, if that is asked for. -/
def approximateIf (numeric : Bool) (v : Option Number) : Action (Option Number) := do
  match v with
  | some x => if numeric then return some (← number (x.approximate (← getPrecision))) else return v
  | none => return none

/-- Evaluates an application from the values of its operands. -/
def evaluateCall (rule : Callback) (vs : List Number) : Action (Option Number) := do
  match rule with
  | .evaluation r => number (r.apply (← getPrecision) vs)
  | _ => throw .wrongArguments

mutual

/-- The value of an expression, given the values of symbols. -/
def evaluateWith (constant : String → Action (Option Number)) (numeric : Bool) :
    Expr → Action (Option Number)
  | .number v => approximateIf numeric (some v)
  | .symbol n _ _ => do approximateIf numeric (← constant n)
  | .application f ops d c => do
      if !Expr.allValid ops then return none
      match (← getTable).functionOf (.application f ops d c) with
      | some { evaluate := some rule, isLazy, .. } =>
          if isLazy.truthy then return none
          match ← evaluateEach constant numeric ops with
          | none => return none
          | some vs => approximateIf numeric (← evaluateCall rule vs)
      | _ => return none
  | .error _ _ _ => return none

/-- The values of all operands, if each has one. -/
def evaluateEach (constant : String → Action (Option Number)) (numeric : Bool) :
    List Expr → Action (Option (List Number))
  | [] => return some []
  | e :: rest => do
      match ← evaluateWith constant numeric e with
      | none => return none
      | some v =>
          match ← evaluateEach constant numeric rest with
          | none => return none
          | some vs => return some (v :: vs)

end

/-- The value of the value field of a symbol. -/
def fieldValue (constant : String → Action (Option Number)) : Datum → Action (Option Number)
  | .expr e => evaluateWith constant false e
  | .callback (.value rule) => do return some (← number (rule.at (← getPrecision)))
  | .callback _ => throw .wrongArguments
  | .raw (.name n) => do evaluateWith constant false (← box (.name n))
  | .raw (.list items) => do evaluateWith constant false (← box (.list items))
  | .raw r => do return some (← ofExcept (Definition.numberOf defaultPrecision r))
  | d => throw (.notNumeric d.describe)

/-- The value of a symbol; `depth` bounds how many symbols may refer to each other in a row. -/
def constantWithin : (depth : Nat) → String → Action (Option Number)
  | 0, _ => throw .unbounded
  | depth + 1, name => do
      match (← get).constants.lookup name with
      | some v => return v
      | none =>
          match (← getTable).symbol? name with
          | none => return none
          | some d =>
              if d.value.isNull then return none
              let v ← fieldValue (constantWithin depth) d.value
              modify fun k => { k with constants := (name, v) :: k.constants }
              return v

/-- The value of a symbol.  More symbols in a row than there are names would be a cycle. -/
def constant (name : String) : Action (Option Number) := do
  constantWithin ((← getTable).size + 1) name

/-- The value of an expression; with `numeric`, in the approximate lane in force. -/
def evaluate (e : Expr) (numeric : Bool) : Action (Option Number) :=
  evaluateWith constant numeric e

/-- The sign of an application, where its function tells it; nothing else has one. -/
def signOf (e : Expr) : Action (Option Int) := do
  if !e.isApplication then throw .missingOperand
  match (← getTable).functionOf e with
  | some { sign := some (.sign .absolute), .. } =>
      match e.op1? with
      | none => throw .operandIndex
      | some (.number v) => return some (if v.isZero then 0 else 1)
      | some _ => return none
  | some { sign := some (.sign .arity), .. } =>
      return some (match e.operands.length with
        | 0 => -1
        | 1 => 0
        | _ => 1)
  | some { sign := some _, .. } => throw .wrongArguments
  | _ => return none

end Kernel

end SymbolicAlgebra
