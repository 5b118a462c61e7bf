import SymbolicAlgebra.Arithmetic
import SymbolicAlgebra.Combinatorics
import SymbolicAlgebra.Truth

/-!
# Expansion — products and powers of sums, multiplied out

Products are distributed over sums and quotients pair by pair; whole powers of sums follow the
multinomial theorem.  An expression that cannot be expanded gives `none`, which differs from an
expansion that leaves it as it was.
-/

namespace SymbolicAlgebra.Kernel

/-- The integer value of a number. -/
def asInteger? (e : Expr) : Option Int :=
  match e with
  | .number (.real x) => if x.isFinite && x.isInteger then some x.toRat.num else none
  | _ => none

/-- An operand that a quotient or product is built with. -/
def givenOperand (e : Option Expr) : Action Expr :=
  match e with
  | some e => pure e
  | none => throw (.notAnExpression Raw.null.describe)

/-! ## Distribution -/

mutual

/-- Distributes a product of two factors over signs, quotients and sums. -/
def distribute2 (lhs rhs : Expr) : Action Expr := do
  match lhs, rhs with
  | .application "Negate" ops _ _, .application "Negate" ops' _ _ =>
      match ops, ops' with
      | a :: _, b :: _ => distribute2 a b
      | _, _ => throw .missingOperand
  | .application "Negate" ops _ _, rhs =>
      match ops with
      | a :: _ => do negOf (← distribute2 a rhs)
      | [] => throw .missingOperand
  | lhs, .application "Negate" ops _ _ =>
      match ops with
      | b :: _ => do negOf (← distribute2 lhs b)
      | [] => throw .missingOperand
  | .application "Divide" ops _ _, .application "Divide" ops' _ _ =>
      let denominator ← mulOf [← givenOperand ops[1]?, ← givenOperand ops'[1]?]
      match ops, ops' with
      | a :: _, b :: _ => do divOf (← distribute2 a b) denominator
      | _, _ => throw .missingOperand
  | .application "Divide" ops _ _, rhs =>
      match ops with
      | a :: rest => do divOf (← distribute2 a rhs) (← givenOperand rest.head?)
      | [] => throw .missingOperand
  | lhs, .application "Divide" ops _ _ =>
      match ops with
      | b :: rest => do divOf (← distribute2 lhs b) (← givenOperand rest.head?)
      | [] => throw .missingOperand
  | .application "Add" ops _ _, rhs => do addOf (← distributeLeft ops rhs)
  | lhs, .application "Add" ops _ _ => do addOf (← distributeRight lhs ops)
  | lhs, rhs => mulOf [lhs, rhs]
termination_by sizeOf lhs + sizeOf rhs

/-- Distributes each term of a sum with a factor. -/
def distributeLeft (terms : List Expr) (rhs : Expr) : Action (List Expr) :=
  match terms with
  | [] => return []
  | x :: rest => do
      let e ← distribute2 x rhs
      return e :: (← distributeLeft rest rhs)
termination_by sizeOf terms + sizeOf rhs

/-- Distributes a factor with each term of a sum. -/
def distributeRight (lhs : Expr) (terms : List Expr) : Action (List Expr) :=
  match terms with
  | [] => return []
  | x :: rest => do
      let e ← distribute2 lhs x
      return e :: (← distributeRight lhs rest)
termination_by sizeOf lhs + sizeOf terms

end

/-- Distributes a product from right to left; a product of nothing would never end. -/
def distributeProduct : List Expr → Action Expr
  | [] => throw .unbounded
  | [a] => return a
  | a :: rest => do distribute2 a (← distributeProduct rest)

/-! ## Powers of sums -/

/-- The factors of one term of a multinomial expansion. -/
def termFactors : List Expr → List Nat → Action (List Expr)
  | e :: es, k :: ks => do
      if k = 0 then termFactors es ks
      else
        let p ← if k = 1 then pure e else powOf e (← makeNumber (.ofInt k))
        return p :: (← termFactors es ks)
  | _, _ => return []

/-- The terms of a multinomial expansion, one for each composition of the exponent. -/
def multinomialTerms (terms : List Expr) : List (List Nat) → Pascal → Action (List Expr)
  | [], _ => return []
  | ks :: rest, rows => do
      let (c, rows) ← ofExcept (rows.multinomial (ks.map Int.ofNat))
      let coefficient ← makeNumber (.ofInt c)
      let product ← mulOf (coefficient :: (← termFactors terms ks))
      return product :: (← multinomialTerms terms rest rows)

/-- Expands `base ^ n` for `n ≥ 2`, if the base is a sum up to its sign. -/
def expandHighPower (n : Nat) : Expr → Action (Option Expr)
  | .application f ops _ _ =>
      if f == "Negate" then
        match ops with
        | a :: _ => do
            match ← expandHighPower n a with
            | none => return none
            | some r => if n % 2 = 0 then return some r else return some (← negOf r)
        | [] => throw .missingOperand
      else if f == "Add" then
        if ops.isEmpty then throw .unbounded
        else do
          return some (← addOf (← multinomialTerms ops (compositions ops.length n) .initial))
      else return none
  | _ => return none

/-- Expands `base ^ n`, given the expansion of the base. -/
def expandPowerWith (expandBase : Action (Option Expr)) (base : Expr) (n : Int) :
    Action (Option Expr) := do
  if n = 0 then return some (← one)
  else
    let r ← if n.natAbs = 1 then expandBase else expandHighPower n.natAbs base
    if 0 < n then return r
    else
      match r with
      | none => return none
      | some e => return some (← invOf e)

/-! ## Expansion -/

/-- Divides an expanded numerator, term by term if it is a sum. -/
def splitQuotient (numerator : Expr) (denominator : Option Expr) : Action Expr := do
  if numerator.isApplicationOf "Add" then
    addOf (← numerator.operands.mapM fun x => do divOf x (← givenOperand denominator))
  else divOf numerator (← givenOperand denominator)

mutual

/-- Expands products of sums and whole powers of sums. -/
def expand? : Expr → Action (Option Expr)
  | .application f ops _ _ =>
      if (Relation.ofOperator? f).isSome then do return some (← apply f (← expandEach ops))
      else if f == "Divide" then
        match ops with
        | a :: rest => do
            match ← expand? a with
            | none => return none
            | some n => return some (← splitQuotient n rest.head?)
        | [] => return none
      else if f == "Multiply" then do return some (← distributeProduct ops)
      else if f == "Add" then do return some (← addOf (← expandEach ops))
      else if f == "Negate" then
        match ops with
        | a :: _ => do
            match ← expand? a with
            | none => return none
            | some e => return some (← negOf e)
        | [] => return none
      else if f == "Power" then
        match ops with
        | base :: exponent :: _ =>
            match asInteger? exponent with
            | none => return none
            | some n => expandPowerWith (expand? base) base n
        | _ => throw .missingOperand
      else return none
  | _ => return none

/-- Expands each expression that can be, and keeps the others. -/
def expandEach : List Expr → Action (List Expr)
  | [] => return []
  | e :: rest => do
      let r ← expand? e
      return r.getD e :: (← expandEach rest)

end

/-- Expands `base ^ n`, if the base is a sum up to its sign. -/
def expandPower? (base : Expr) (n : Int) : Action (Option Expr) :=
  expandPowerWith (expand? base) base n

/-- Expands a whole power. -/
def expandMultinomial? (e : Expr) : Action (Option Expr) :=
  if e.isApplicationOf "Power" then
    match e.operands with
    | base :: exponent :: _ =>
        match asInteger? exponent with
        | none => return none
        | some n => expandPower? base n
    | _ => throw .missingOperand
  else return none

/-- Expands the numerator of a quotient and divides its terms. -/
def expandNumerator? (e : Expr) : Action (Option Expr) := do
  match e with
  | .application "Divide" (a :: rest) _ _ =>
      match ← expand? a with
      | none => return none
      | some n => return some (← splitQuotient n rest.head?)
  | _ => return none

/-- Expands the denominator of a quotient and keeps it whole. -/
def expandDenominator? (e : Expr) : Action (Option Expr) := do
  match e with
  | .application "Divide" (a :: d :: _) _ _ =>
      match ← expand? d with
      | none => return none
      | some d => return some (← divOf a d)
  | _ => return none

mutual

/-- Expands every subexpression from the inside out, then the expression they make up. -/
def expandAll? : Expr → Action (Option Expr)
  | .application f ops _ _ => do
      let r ← buildFrom f (← expandAllEach ops)
      return some ((← expand? r).getD r)
  | _ => return none

def expandAllEach : List Expr → Action (List Expr)
  | [] => return []
  | e :: rest => do
      let r ← expandAll? e
      return r.getD e :: (← expandAllEach rest)

end

/-- The expansion of an expression, or its canonical form if it cannot be expanded. -/
def expand (e : Expr) : Action Expr := do
  let e ← canonicalize e
  return (← expand? e).getD e

/-- The expansion of an expression in all its parts. -/
def expandAll (e : Expr) : Action Expr := do
  let e ← canonicalize e
  return (← expandAll? e).getD e

mutual

/-- Distributes the operands of a product, a power, a negation or a quotient. -/
def distribute? (operator : String) : List Expr → Action (Option Expr)
  | [] =>
      if operator == "Multiply" then throw .unbounded
      else if operator == "Power" || operator == "Negate" || operator == "Divide" then
        throw .operandIndex
      else return none
  | a :: rest => do
      if operator == "Power" then
        match rest with
        | [] => throw .operandIndex
        | exponent :: _ =>
            match asInteger? exponent with
            | none => return none
            | some n => expandPower? a n
      else if operator == "Negate" then
        return some (← distributeProduct [← negativeOne, a])
      else if operator == "Divide" then
        match ← distributeNumerator? a with
        | none => return none
        | some r =>
            match rest with
            | [] => throw .operandIndex
            | d :: _ => return some (← divOf r d)
      else if operator == "Multiply" then return some (← distributeProduct (a :: rest))
      else return none

/-- Distributes the operands of a numerator. -/
def distributeNumerator? : Expr → Action (Option Expr)
  | .application f ops _ _ => distribute? f ops
  | _ => return none

end

end SymbolicAlgebra.Kernel
