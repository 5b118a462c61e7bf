import SymbolicAlgebra.Number.Arithmetic

/-!
# Number/Functions — constants and elementary functions in every lane

A function of a number is computed in decimals if a part of the number is one, or if the number is
exact and the precision asks for more digits than a double has; otherwise in doubles.  In doubles, a
real argument without a real value goes to the complex function.
-/

namespace SymbolicAlgebra.Number

/-- `π` in the lane of a precision. -/
def pi (precision : Nat) : Except NumberFault Scalar := do
  if prefersDecimal precision then
    return .big (← liftDecimal (Decimal.pi precision)) precision
  else return .machine Double.pi

/-- `e` in the lane of a precision. -/
def euler (precision : Nat) : Except NumberFault Scalar := do
  if prefersDecimal precision then
    return .big (← liftDecimal (Decimal.euler precision)) precision
  else return .machine Double.euler

/-- The working precision of decimals for some numbers; `none` for doubles. -/
def decimalLane? (values : List Number) (precision : Nat) : Option Nat :=
  let parts := values.flatMap fun v => [v.re, v.im]
  match parts.filterMap Scalar.bigPrecision? with
  | [] => if parts.all Scalar.isExact && prefersDecimal precision then some precision else none
  | bigs => some (bigs.foldl max precision)

/-! ## Complex arguments in decimals -/

/-- Rounds both parts. -/
def roundParts (precision : Nat) (re im : Decimal) : Except Decimal.Signal (Decimal × Decimal) := do
  return (← re.plus precision, ← im.plus precision)

open Decimal in
def bigSin (a b : Decimal) (precision : Nat) : Except Signal (Decimal × Decimal) := do
  let working := precision + 2
  let (sinh, cosh) ← sinhCosh working b
  roundParts precision (← Decimal.mul working (← Decimal.sin working a) cosh)
    (← Decimal.mul working (← Decimal.cos working a) sinh)

open Decimal in
def bigCos (a b : Decimal) (precision : Nat) : Except Signal (Decimal × Decimal) := do
  let working := precision + 2
  let (sinh, cosh) ← sinhCosh working b
  let re ← Decimal.mul working (← Decimal.cos working a) cosh
  let im ← Decimal.mul working (← negate working (← Decimal.sin working a)) sinh
  roundParts precision re im

open Decimal in
def bigTan (a b : Decimal) (precision : Nat) : Except Signal (Decimal × Decimal) := do
  let working := precision + 4
  let (p, q) ← bigSin a b working
  let (r, s) ← bigCos a b working
  let (add, sub, mul) := (Decimal.add working, Decimal.sub working, Decimal.mul working)
  let norm ← add (← mul r r) (← mul s s)
  let re ← Decimal.div working (← add (← mul p r) (← mul q s)) norm
  let im ← Decimal.div working (← sub (← mul q r) (← mul p s)) norm
  roundParts precision re im

open Decimal in
def bigExp (a b : Decimal) (precision : Nat) : Except Signal (Decimal × Decimal) := do
  let working := precision + 2
  let modulus ← Decimal.exp working a
  let re ← Decimal.mul working modulus (← Decimal.cos working b)
  let im ← Decimal.mul working modulus (← Decimal.sin working b)
  roundParts precision re im

open Decimal in
def bigLn (a b : Decimal) (precision : Nat) : Except Signal (Decimal × Decimal) := do
  let working := precision + 2
  let square ← Decimal.add working (← Decimal.mul working a a) (← Decimal.mul working b b)
  let re ← Decimal.div working (← Decimal.ln working square) (ofNat 2)
  return (← re.plus precision, ← atan2 precision b a)

/-! ## The functions -/

/-- A function in its four forms: real and complex, in doubles and in decimals. -/
structure Function where
  double : Float → Except Double.Fault Float
  complexDouble : Double.Complex → Except Double.Fault Double.Complex
  decimal : Nat → Decimal → Except Decimal.Signal Decimal
  complexDecimal : Decimal → Decimal → Nat → Except Decimal.Signal (Decimal × Decimal)

/-- Applies a function in the lane of its argument. -/
def Function.apply (f : Function) (precision : Nat) (x : Number) : Except NumberFault Number :=
  match x, decimalLane? [x] precision with
  | .complex re im, some lane => do
      let a ← re.toDecimal lane
      let b ← im.toDecimal lane
      let (u, v) ← liftDecimal (f.complexDecimal a b lane)
      return ofParts (.big u lane) (.big v lane)
  | .complex re im, none => do
      return ofComplex (← liftDouble (f.complexDouble ⟨re.toFloat, im.toFloat⟩))
  | .real x, some lane => do
      return .real (.big (← liftDecimal (f.decimal lane (← x.toDecimal lane))) lane)
  | .real x, none =>
      match f.double x.toFloat with
      | .ok y => .ok (.real (.machine y))
      | .error _ => do
          return ofComplex (← liftDouble (f.complexDouble ⟨x.toFloat, 0⟩))

def sineFunction : Function := ⟨Double.sin, Double.Complex.sin, Decimal.sin, bigSin⟩
def cosineFunction : Function := ⟨Double.cos, Double.Complex.cos, Decimal.cos, bigCos⟩
def tangentFunction : Function := ⟨Double.tan, Double.Complex.tan, Decimal.tan, bigTan⟩
def exponentialFunction : Function := ⟨Double.exp, Double.Complex.exp, Decimal.exp, bigExp⟩
def logarithmFunction : Function := ⟨Double.ln, Double.Complex.ln, Decimal.ln, bigLn⟩

def sin (precision : Nat) (x : Number) : Except NumberFault Number :=
  if x.isZero then .ok zero else sineFunction.apply precision x

def cos (precision : Nat) (x : Number) : Except NumberFault Number :=
  if x.isZero then .ok one else cosineFunction.apply precision x

def tan (precision : Nat) (x : Number) : Except NumberFault Number :=
  if x.isZero then .ok zero else tangentFunction.apply precision x

def exp (precision : Nat) (x : Number) : Except NumberFault Number :=
  if x.isZero then .ok one else exponentialFunction.apply precision x

/-- The logarithm of a number that is not negative. -/
def lnPrincipal (precision : Nat) (x : Number) : Except NumberFault Number :=
  if x.isOne then .ok zero
  else if x.isZero then .ok (.real (.machine (Double.signedInfinity true)))
  else logarithmFunction.apply precision x

/-- The logarithm; a negative number gets the imaginary part `π`. -/
def ln (precision : Nat) (x : Number) : Except NumberFault Number :=
  if x.isNegative? == some true then do
    let lane := (decimalLane? [x] precision).getD machinePrecision
    let modulus ← lnPrincipal lane (← x.neg)
    return ofParts modulus.re (← pi lane)
  else lnPrincipal precision x

end SymbolicAlgebra.Number
