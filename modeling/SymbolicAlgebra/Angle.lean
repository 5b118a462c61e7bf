import SymbolicAlgebra.Arithmetic

/-!
# Angle — angles in radians, and imaginary factors

An angle is converted from the unit in force, written as `k · π + t`, and reduced modulo a full
turn by reducing `k` modulo two.
-/

namespace SymbolicAlgebra.Kernel

/-- The symbol for `π`. -/
def piSymbol : Action Expr := makeSymbol "Pi"

/-- Converts an angle from the unit in force to radians. -/
def toRadians (x : Expr) : Action Expr := do
  match (← get).settings.unit with
  | .rad => return x
  | .turn =>
      let pi ← piSymbol
      mulOf [x, pi, ← makeNumber (.ofInt 2)]
  | .deg => divideTurn 180
  | .grad => divideTurn 200
where
  /-- Half a turn has so many units. -/
  divideTurn (units : Int) : Action Expr := do
    let product ← mulOf [x, ← piSymbol]
    divOf product (← makeNumber (.ofInt units))

/-- The approximate value of an expression, zero if it has none. -/
def remainderTerm (e : Expr) : Action (Number × Number) := do
  return (.zero, (← evaluate e true).getD .zero)

/-- The multiple of `π` and the remainder of an expression: it is `k · π + t`. -/
def piTerm : Expr → Action (Number × Number)
  | .symbol n d c => if n == "Pi" then return (.one, .zero) else remainderTerm (.symbol n d c)
  | .application f ops d c =>
      if f == "Negate" then
        match ops with
        | a :: _ => do
            let (k, t) ← piTerm a
            return (← number k.neg, ← number t.neg)
        | [] => throw .missingOperand
      else
        match f, ops with
        | "Add", [a, b] => do
            let (k, t) ← piTerm a
            let (l, u) ← piTerm b
            return (← number (k.add l), ← number (t.add u))
        | "Multiply", [.number n, b] => do
            let (k, t) ← piTerm b
            return (← number (k.mul n), ← number (t.mul n))
        | "Multiply", [a, .number n] => do
            let (k, t) ← piTerm a
            return (← number (k.mul n), ← number (t.mul n))
        | "Divide", [a, .number n] => do
            let (k, t) ← piTerm a
            return (← number (k.div n), ← number (t.div n))
        | _, _ => remainderTerm (.application f ops d c)
  | e => remainderTerm e

/-- An angle in radians, modulo a full turn; one without a real value is not reduced. -/
def canonicalAngle (x : Expr) : Action Expr := do
  let theta ← toRadians x
  match ← evaluate theta true with
  | some (.real _) =>
      let (k, t) ← piTerm theta
      if k.isZero then makeNumber t
      else
        let k ← number (k.mod (.ofInt 2))
        let pi : Number := .real (← number (Number.pi (← getPrecision)))
        makeNumber (← number (t.add (← number (pi.mul k))))
  | _ => return theta

/-- The factor `k` for which an expression is `k · i`, where it can be read off. -/
def imaginaryFactor : Expr → Action (Option Expr)
  | .number v => do
      if v.isPurelyImaginary then return some (← makeNumber (.real v.im)) else return none
  | .symbol n _ _ => do if n == "ImaginaryUnit" then return some (← one) else return none
  | .application f ops _ _ =>
      if f == "Negate" then
        match ops with
        | a :: _ => do
            match ← imaginaryFactor a with
            | some k => return some (← negOf k)
            | none => return none
        | [] => throw .missingOperand
      else
        match f, ops with
        | "Complex", [a, b] => return if a.literal?.any (·.isZero) then some b else none
        | "Multiply", [a, b] => do
            if a.symbol? == some "ImaginaryUnit" then return some b
            else if b.symbol? == some "ImaginaryUnit" then return some a
            else
              match b.literal?.filter (·.isPurelyImaginary) with
              | some v => return some (← mulOf [a, ← makeNumber (.real v.im)])
              | none =>
                  match a.literal?.filter (·.isPurelyImaginary) with
                  | some v => return some (← mulOf [b, ← makeNumber (.real v.im)])
                  | none => return none
        | "Divide", [a, b] => do
            if b.literal?.any (·.isZero) then return none
            else
              match ← imaginaryFactor a with
              | some k => return some (← divOf k b)
              | none => return none
        | _, _ => return none
  | .error _ _ _ => return none

end SymbolicAlgebra.Kernel
