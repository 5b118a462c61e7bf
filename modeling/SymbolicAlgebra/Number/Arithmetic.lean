import SymbolicAlgebra.Number.Basic

/-!
# Number/Arithmetic — sums, products, quotients and remainders

Two exact operands give an exact result; a decimal operand gives a decimal, at the larger precision
involved; a double and an exact number give a double.  Division by zero gives what is not a number.
-/

namespace SymbolicAlgebra

/-- A binary operation of arithmetic. -/
inductive Operation
  | add | sub | mul | div | mod
  deriving DecidableEq

namespace Operation

/-- On exact numbers; the divisor is not zero. -/
def onRat : Operation → Rat → Rat → Rat
  | add, a, b => a + b
  | sub, a, b => a - b
  | mul, a, b => a * b
  | div, a, b => a / b
  | mod, a, b => a - b * ((a / b).floor : Rat)

/-- On decimals, rounded to a precision. -/
def onDecimal (precision : Nat) : Operation → Decimal → Decimal → Except Decimal.Signal Decimal
  | add => Decimal.add precision
  | sub => Decimal.sub precision
  | mul => Decimal.mul precision
  | div => Decimal.div precision
  | mod => Decimal.floorMod precision

/-- On doubles. -/
def onFloat : Operation → Float → Float → Except Double.Fault Float
  | add, a, b => .ok (a + b)
  | sub, a, b => .ok (a - b)
  | mul, a, b => .ok (a * b)
  | div, a, b => Double.div a b
  | mod, a, b => Double.floorMod a b

/-- Whether the second operand must not be zero. -/
def divides : Operation → Bool
  | div | mod => true
  | _ => false

end Operation

namespace Scalar

/-- The larger precision of the decimals among two scalars. -/
def bigLane? (a b : Scalar) : Option Nat :=
  match a, b with
  | .big _ m, .big _ n => some (max m n)
  | .big _ m, _ => some m
  | _, .big _ n => some n
  | _, _ => none

/-- Applies an operation in the lane of the operands. -/
def binary (op : Operation) (a b : Scalar) : Except NumberFault Scalar :=
  if op.divides && b.isZero then .ok .notANumber
  else
    match a, b with
    | .exact p, .exact q => .ok (.exact (op.onRat p q))
    | a, b =>
        match bigLane? a b with
        | some precision => do
            let x ← a.toDecimal precision
            let y ← b.toDecimal precision
            return .big (← liftDecimal (op.onDecimal precision x y)) precision
        | none => do
            return .machine (← liftDouble (op.onFloat a.toFloat b.toFloat))

def add (a b : Scalar) : Except NumberFault Scalar := binary .add a b
def sub (a b : Scalar) : Except NumberFault Scalar := binary .sub a b
def mul (a b : Scalar) : Except NumberFault Scalar := binary .mul a b
def div (a b : Scalar) : Except NumberFault Scalar := binary .div a b

/-- The opposite; a decimal is rounded to the default precision. -/
def neg : Scalar → Except NumberFault Scalar
  | exact q => .ok (.exact (-q))
  | big d p => do return .big (← liftDecimal (d.negate defaultPrecision)) p
  | machine x => .ok (.machine (-x))

end Scalar

namespace Number

/-- Applies an operation to complex operands, part by part. -/
def complexBinary (op : Operation) (a b : Number) : Except NumberFault Number := do
  let (ar, ai, br, bi) := (a.re, a.im, b.re, b.im)
  match op with
  | .add => return ofParts (← ar.add br) (← ai.add bi)
  | .sub => return ofParts (← ar.sub br) (← ai.sub bi)
  | .mul =>
      let re ← (← ar.mul br).sub (← ai.mul bi)
      let im ← (← ar.mul bi).add (← ai.mul br)
      return ofParts re im
  | .div =>
      let norm ← (← br.mul br).add (← bi.mul bi)
      if norm.isZero then return notANumber
      let re ← (← (← ar.mul br).add (← ai.mul bi)).div norm
      let im ← (← (← ai.mul br).sub (← ar.mul bi)).div norm
      return ofParts re im
  | .mod => return notANumber

def binary (op : Operation) (a b : Number) : Except NumberFault Number :=
  match a, b with
  | .real x, .real y => do return .real (← Scalar.binary op x y)
  | a, b => complexBinary op a b

def add (a b : Number) : Except NumberFault Number := binary .add a b
def sub (a b : Number) : Except NumberFault Number := binary .sub a b
def mul (a b : Number) : Except NumberFault Number := binary .mul a b
def div (a b : Number) : Except NumberFault Number := binary .div a b
def mod (a b : Number) : Except NumberFault Number := binary .mod a b
def inv (a : Number) : Except NumberFault Number := div one a

def neg : Number → Except NumberFault Number
  | real x => do return .real (← x.neg)
  | complex x y => do return ofParts (← x.neg) (← y.neg)

/-- The conjugate of a pair of parts; real numbers have none. -/
def conjugate : Number → Except NumberFault Number
  | real x => .error (.noConjugate x.kindName)
  | complex x y => do return ofParts x (← y.neg)

end Number

end SymbolicAlgebra
