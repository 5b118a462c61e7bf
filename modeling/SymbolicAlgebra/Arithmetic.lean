import SymbolicAlgebra.Order

/-!
# Arithmetic — sums, products, quotients and powers in normal form

Nested sums and products are flattened, numbers are folded, like terms and like bases are collected,
and identities are dropped.  In a product the coefficient comes first, then the factors in the order
of their bases; in a sum, terms of higher degree come first, and the constant last.  A product with
coefficient `-1` is a negation.  All operands are canonical.
-/

namespace SymbolicAlgebra.Kernel

/-! ## Collecting -/

/-- Amounts by expression, in the order the expressions were first met. -/
abbrev Tally := List (Expr × Number)

/-- Adds an amount to that of an expression. -/
def tally (e : Expr) (amount : Number) : Tally → Except NumberFault Tally
  | [] => do return [(e, ← Number.add .zero amount)]
  | (x, n) :: rest =>
      if x.same e then do return (x, ← n.add amount) :: rest
      else do return (x, n) :: (← tally e amount rest)

/-- A product taken apart: a coefficient, and exponents by base. -/
structure Factors where
  coefficient : Number := .one
  powers : Tally := []

/-- Counts a factor that is no number, power or product. -/
def Factors.count (p : Factors) (base : Expr) (exponent : Number) : Except Fault Factors := do
  return { p with powers := ← liftNumber (tally base exponent p.powers) }

mutual

/-- Multiplies a factor into a product. -/
def collectFactor : Expr → Factors → Except Fault Factors
  | .number v, p => do return { p with coefficient := ← liftNumber (p.coefficient.mul v) }
  | .application f ops d c, p =>
      if f == "Negate" then do
        collectFactors ops { p with coefficient := ← liftNumber p.coefficient.neg }
      else if f == "Multiply" then collectFactors ops p
      else if f == "Power" then
        match ops with
        | base :: .number exponent :: _ => p.count base exponent
        | _ :: _ :: _ => p.count (.application f ops d c) .one
        | _ => throw .missingOperand
      else p.count (.application f ops d c) .one
  | e, p => p.count e .one

/-- Multiplies factors into a product, one after the other. -/
def collectFactors : List Expr → Factors → Except Fault Factors
  | [], p => return p
  | e :: rest, p => do collectFactors rest (← collectFactor e p)

end

/-! ## Products -/

/-- A power of two numbers that stays exact, or was approximate to begin with. -/
def exactPower? (precision : Nat) (base exponent : Number) :
    Except NumberFault (Option Number) := do
  let v ← base.pow precision exponent
  return if v.isExact || !(base.isExact && exponent.isExact) then some v else none

/-- Turns collected powers into factors; powers of numbers go into the coefficient if they can. -/
def makeFactors : List (Expr × Number) → Number → Action (Number × List Expr)
  | [], coefficient => return (coefficient, [])
  | (base, exponent) :: rest, coefficient => do
      if exponent.isZero then makeFactors rest coefficient
      else
        let folded ←
          match base with
          | .number b => number (exactPower? (← getPrecision) b exponent)
          | _ => pure none
        match folded with
        | some v => makeFactors rest (← number (coefficient.mul v))
        | none =>
            let factor ←
              if exponent.isOne then pure base
              else apply "Power" [base, ← makeNumber exponent]
            let (coefficient, factors) ← makeFactors rest coefficient
            return (coefficient, factor :: factors)

/-- Sorts collected powers by the order of their bases. -/
def sortPowers (t : DefinitionTable) (powers : Tally) : Tally :=
  ((powers.map fun p => (OrderKey.of t p.1, p)).mergeSort fun x y => x.1.le y.1).map (·.2)

/-- The product of a coefficient and factors. -/
def assembleProduct (coefficient : Number) (factors : List Expr) : Action Expr := do
  if coefficient.isNaN || coefficient.isZero then makeNumber coefficient
  else
    match factors with
    | [] => makeNumber coefficient
    | factors =>
        let product ←
          match factors with
          | [f] => pure f
          | fs => apply "Multiply" fs
        if coefficient.isOne then return product
        else if coefficient.isNegativeOne then apply "Negate" [product]
        else apply "Multiply" ((← makeNumber coefficient) :: factors)

/-- The product of canonical expressions. -/
def mul (ops : List Expr) : Action Expr := do
  let ops := Expr.flatten (some "Multiply") ops
  if !Expr.allValid ops then apply "Multiply" ops
  else
    match ops with
    | [] => one
    | ops =>
        match ops with
        | [e] =>
            if e.operator != "Negate" && e.operator != "Power" then return e
            else multiply ops
        | _ => multiply ops
where
  /-- Collects, folds and assembles. -/
  multiply (ops : List Expr) : Action Expr := do
    let p ← ofExcept (collectFactors ops {})
    let (coefficient, factors) ←
      makeFactors (sortPowers (← getTable) p.powers) p.coefficient
    assembleProduct coefficient factors

/-- Splits a term into its coefficient and what it multiplies; a number multiplies nothing. -/
def splitCoefficient (term : Expr) : Action (Number × Option Expr) := do
  let term ← mul [term]
  match term with
  | .number v => return (v, none)
  | .application f ops _ _ =>
      if f == "Negate" then return (.negativeOne, ← some <$> require ops.head?)
      else if f == "Multiply" then
        match ops with
        | .number v :: [rest] => return (v, some rest)
        | .number v :: rest => return (v, some (← apply "Multiply" rest))
        | [] => throw .missingOperand
        | _ => return (.one, some term)
      else return (.one, some term)
  | e => return (.one, some e)

/-! ## Sums -/

/-- The bases of a monomial with their exponents as doubles. -/
def monomialFactors (monomial : Expr) : Except Fault (List (Expr × Float)) :=
  let factors := if monomial.operator == "Multiply" then monomial.operands else [monomial]
  factors.mapM fun f =>
    if f.operator == "Power" then
      match f.operands with
      | base :: .number (.real x) :: _ => .ok (base, x.toFloat)
      | _ :: _ :: _ => .ok (f, 1)
      | _ => .error .missingOperand
    else .ok (f, 1)

/-- The total degree of factors; numbers have degree zero. -/
def degreeOf (factors : List (Expr × Float)) : Float :=
  factors.foldl (fun d (base, e) => d + if base.isNumber then 0 else e) 0

/-- The total degree of a monomial. -/
def degree (monomial : Expr) : Except Fault Float := do
  return degreeOf (← monomialFactors monomial)

/-- The key that the terms of a sum are sorted by: higher degree first, then base by base, higher
exponent first. -/
structure TermKey where
  degree : Float
  factors : List (OrderKey × Float)

namespace TermKey

def of (t : DefinitionTable) (monomial : Expr) : Except Fault TermKey := do
  let factors ← monomialFactors monomial
  return ⟨-degreeOf factors, factors.map fun (base, e) => (OrderKey.of t base, -e)⟩

/-- Whether one list of factors stands before another: the first difference decides, and an exponent
that is not a number stands before nothing. -/
def factorsBefore : List (OrderKey × Float) → List (OrderKey × Float) → Bool
  | _, [] => false
  | [], _ :: _ => true
  | (k, a) :: xs, (l, b) :: ys =>
      match k.compare l with
      | .lt => true
      | .gt => false
      | .eq => if a == b then factorsBefore xs ys else a < b

/-- Whether one term stands before another. -/
def before (x y : TermKey) : Bool :=
  if x.degree == y.degree then factorsBefore x.factors y.factors else x.degree < y.degree

def le (x y : TermKey) : Bool := !y.before x

end TermKey

/-- A sum taken apart: a constant, and coefficients by monomial. -/
structure Terms where
  constant : Number := .zero
  monomials : Tally := []

/-- Adds terms to a sum. -/
def collectTerms : List Expr → Terms → Action Terms
  | [], s => return s
  | e :: rest, s => do
      match ← splitCoefficient e with
      | (v, none) => collectTerms rest { s with constant := ← number (s.constant.add v) }
      | (v, some m) => collectTerms rest { s with monomials := ← number (tally m v s.monomials) }

/-- Sorts the monomials of a sum. -/
def sortTerms (t : DefinitionTable) (terms : Tally) : Except Fault Tally := do
  let keyed ← terms.mapM fun p => do return (← TermKey.of t p.1, p)
  return (keyed.mergeSort fun x y => x.1.le y.1).map (·.2)

/-- The sum of canonical expressions. -/
def add (ops : List Expr) : Action Expr := do
  let ops := Expr.flatten (some "Add") ops
  if !Expr.allValid ops then apply "Add" ops
  else
    let s ← collectTerms ops {}
    if s.constant.isNaN then makeNumber s.constant
    else
      let terms ← ofExcept
        (sortTerms (← getTable) (s.monomials.filter fun (_, c) => !c.isZero))
      let summands ← terms.mapM fun (m, c) => do mul [← makeNumber c, m]
      let summands ←
        if !s.constant.isZero || summands.isEmpty then
          pure (summands ++ [← makeNumber s.constant])
        else pure summands
      match summands with
      | [e] => return e
      | es => apply "Add" es

/-! ## Opposites, differences, quotients -/

mutual

/-- The opposite of a canonical expression. -/
def neg : Expr → Action Expr
  | .number v => do makeNumber (← number v.neg)
  | .application f ops d c => do
      if f == "Negate" then require ops.head?
      else if !Expr.allValid ops then apply "Negate" [.application f ops d c]
      else if f == "Add" then add (← negAll ops)
      else mul [← negativeOne, .application f ops d c]
  | .symbol n d c => do mul [← negativeOne, .symbol n d c]
  | .error code details operand => apply "Negate" [.error code details operand]

def negAll : List Expr → Action (List Expr)
  | [] => return []
  | e :: rest => do
      let e' ← neg e
      return e' :: (← negAll rest)

end

/-- The difference of canonical expressions. -/
def sub (a b : Expr) : Action Expr := do add [a, ← neg b]

mutual

/-- How many quotients occur in an expression. -/
def countQuotients : Expr → Nat
  | .application f ops _ _ => (if f == "Divide" then 1 else 0) + countAllQuotients ops
  | _ => 0

def countAllQuotients : List Expr → Nat
  | [] => 0
  | e :: rest => countQuotients e + countAllQuotients rest

end

/-- Both operands of a quotient. -/
def quotientParts (e : Expr) : Action (Expr × Expr) :=
  match e.operands with
  | n :: d :: _ => pure (n, d)
  | _ => throw .missingOperand

/-- The quotient of canonical expressions; `fuel` bounds how many nested quotients are unfolded. -/
def divWithin : (fuel : Nat) → Expr → Expr → Action Expr
  | 0, a, b => apply "Divide" [a, b]
  | fuel + 1, a, b => do
      if !(a.isValid && b.isValid) then apply "Divide" [a, b]
      else
        match a, b with
        | .number x, .number y => makeNumber (← number (x.div y))
        | a, .number y =>
            if y.isOne then return a else mul [a, ← makeNumber (← number y.inv)]
        | a, b =>
            if a.literal?.any (·.isZero) then zero
            else if a.same b then one
            else if a.isApplicationOf "Divide" then
              let (n, d) ← quotientParts a
              divWithin fuel n (← mul [d, b])
            else if b.isApplicationOf "Divide" then
              let (n, d) ← quotientParts b
              divWithin fuel (← mul [a, d]) n
            else apply "Divide" [a, b]

/-- The quotient of canonical expressions.  Each nested quotient is unfolded once at most. -/
def div (a b : Expr) : Action Expr :=
  divWithin (countQuotients a + countQuotients b + 1) a b

/-! ## Powers -/

mutual

/-- A power of canonical expressions. -/
def pow (base exponent : Expr) : Action Expr := do
  if !(base.isValid && exponent.isValid) then apply "Power" [base, exponent]
  else if exponent.literal?.any (·.isZero) then one
  else if exponent.literal?.any (·.isOne) then return base
  else
    match base with
    | .number b =>
        if b.isOne then one
        else
          match exponent with
          | .number e =>
              match ← number (exactPower? (← getPrecision) b e) with
              | some v => makeNumber v
              | none => apply "Power" [base, exponent]
          | _ => apply "Power" [base, exponent]
    | .application f ops _ _ =>
        match exponent.literal?.bind Number.integer? with
        | none => apply "Power" [base, exponent]
        | some n =>
            if f == "Power" then
              match ops with
              | b :: .number e :: _ => pow b (← makeNumber (← number (e.mul (.ofInt n))))
              | _ :: _ :: _ => apply "Power" [base, exponent]
              | _ => throw .missingOperand
            else if f == "Negate" then
              match ops with
              | b :: _ =>
                  let r ← pow b exponent
                  if n % 2 = 0 then return r else neg r
              | [] => throw .missingOperand
            else if f == "Multiply" then mul (← powAll ops exponent)
            else if f == "Divide" then
              match ops with
              | a :: b :: _ =>
                  let n ← pow a exponent
                  let d ← pow b exponent
                  div n d
              | _ => throw .missingOperand
            else apply "Power" [base, exponent]
    | _ => apply "Power" [base, exponent]
termination_by structural base

def powAll (bases : List Expr) (exponent : Expr) : Action (List Expr) :=
  match bases with
  | [] => return []
  | b :: rest => do
      let p ← pow b exponent
      return p :: (← powAll rest exponent)
termination_by structural bases

end

/-- The inverse of a canonical expression. -/
def inv (e : Expr) : Action Expr := do
  match e with
  | .number v => makeNumber (← number v.inv)
  | e =>
      if e.isApplicationOf "Divide" then
        let (n, d) ← quotientParts e
        div d n
      else if e.isApplicationOf "Power" then
        match e.operands with
        | b :: .number v :: _ => pow b (← makeNumber (← number v.neg))
        | _ :: _ :: _ => div (← one) e
        | _ => throw .missingOperand
      else div (← one) e

/-! ## On expressions in any form

Each of these brings its operands into canonical form first. -/

def addOf (ops : List Expr) : Action Expr := do add (← canonicalizeAll ops)

def mulOf (ops : List Expr) : Action Expr := do mul (← canonicalizeAll ops)

def negOf (e : Expr) : Action Expr := do neg (← canonicalize e)

def invOf (e : Expr) : Action Expr := do inv (← canonicalize e)

def subOf (a b : Expr) : Action Expr := do
  let a ← canonicalize a
  sub a (← canonicalize b)

def divOf (a b : Expr) : Action Expr := do
  let a ← canonicalize a
  div a (← canonicalize b)

def powOf (base exponent : Expr) : Action Expr := do
  let base ← canonicalize base
  pow base (← canonicalize exponent)

end SymbolicAlgebra.Kernel
