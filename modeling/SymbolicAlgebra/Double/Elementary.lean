import SymbolicAlgebra.Double.Basic
import SymbolicAlgebra.Decimal.Elementary

/-!
# Double/Elementary — real functions of doubles

Where a function has no value at a finite argument, or its value is too large, the operation fails
with a `Fault` instead of giving a special double.
-/

namespace SymbolicAlgebra.Double

/-- Why an operation on doubles gives no result. -/
inductive Fault
  /-- The argument is outside the domain. -/
  | domain
  /-- The result is too large. -/
  | range
  /-- A quotient by zero. -/
  | zeroDivision
  /-- A remainder by zero. -/
  | zeroModulo
  /-- A negative power of zero. -/
  | zeroPower
  deriving DecidableEq

/-- The ratio of a circle's circumference to its diameter. -/
def pi : Float := Float.ofBits 0x400921FB54442D18

/-- The base of the natural logarithm. -/
def euler : Float := Float.ofBits 0x4005BF0A8B145769

/-- `x` with the sign of `y`. -/
def copySign (x y : Float) : Float := if isSigned x == isSigned y then x else -x

/-- The remainder of exact division, cut toward zero, with the sign of the dividend. -/
def truncatedMod (x y : Float) : Float :=
  if !isFinite x || isNaN y || y == 0 then notANumber
  else if isInfinite y then x
  else
    let a := (toRat x.abs)
    let b := (toRat y.abs)
    let r := a - b * ((a / b).floor : Rat)
    ofRatio (isSigned x) r.num.natAbs r.den

/-- The remainder with the sign of the divisor. -/
def floorMod (x y : Float) : Except Fault Float :=
  if y == 0 then .error .zeroModulo
  else
    let r := truncatedMod x y
    if r == 0 then .ok (copySign 0 y)
    else if decide (y < 0) != decide (r < 0) then .ok (r + y)
    else .ok r

def div (x y : Float) : Except Fault Float :=
  if y == 0 then .error .zeroDivision else .ok (x / y)

/-- Whether a double is an odd whole number. -/
def isOdd (x : Float) : Bool := isInteger x && (toRat x).num % 2 == 1

/-- `x ^ y` for real operands, where a negative finite `x` has a whole or infinite `y`. -/
def pow (x y : Float) : Except Fault Float :=
  if y == 0 then .ok 1
  else if isNaN x then .ok x
  else if isNaN y then .ok (if x == 1 then 1 else y)
  else if isInfinite y then
    let a := x.abs
    if a == 1 then .ok 1
    else if decide (0 < y) == decide (1 < a) then .ok infinity
    else .ok 0
  else if isInfinite x then
    if 0 < y then .ok (if isOdd y then x else infinity)
    else .ok (if isOdd y then copySign 0 x else 0)
  else if x == 0 then
    if y < 0 then .error .zeroPower else .ok (if isOdd y then x else 0)
  else
    let negative := decide (x < 0) && isOdd y
    let r := if x.abs == 1 then 1 else Float.pow x.abs y
    if isInfinite r then .error .range else .ok (if negative then -r else r)

def sin (x : Float) : Except Fault Float := if isInfinite x then .error .domain else .ok x.sin
def cos (x : Float) : Except Fault Float := if isInfinite x then .error .domain else .ok x.cos
def tan (x : Float) : Except Fault Float := if isInfinite x then .error .domain else .ok x.tan

def exp (x : Float) : Except Fault Float :=
  let r := x.exp
  if isInfinite r && isFinite x then .error .range else .ok r

def ln (x : Float) : Except Fault Float :=
  if isNaN x || 0 < x then .ok x.log else .error .domain

/-- The integer nearest to a finite double, a tie to the even one. -/
def nearestInt (x : Float) : Int :=
  let r := toRat x
  Decimal.signed (decide (r.num < 0)) (divHalfEven r.num.natAbs r.den)

/-- `√(x² + y²)`, correctly rounded: a root that is not exact is cut off far below the last digit
and moved up by half a unit there, so that it is no tie. -/
def hypot (x y : Float) : Float :=
  if isInfinite x || isInfinite y then infinity
  else if isNaN x || isNaN y then notANumber
  else
    let square := toRat x * toRat x + toRat y * toRat y
    if square == 0 then 0
    else
      let half := (202 + square.den.log2 - square.num.natAbs.log2) / 2
      let scaled := square.num.natAbs * Nat.pow 4 half
      let root := Decimal.isqrt (scaled / square.den)
      let exact := root * root * square.den == scaled
      ofRatio false (2 * root + if exact then 0 else 1) (2 * Nat.pow 2 half)

/-- `ln (1 + x)` for a finite `x` above minus one. -/
def lnOnePlus (x : Float) : Float :=
  if x == 0 then x
  else
    match toDecimal x with
    | .finite s c e =>
        let unit := Nat.pow 10 (-e).toNat
        let argument := ((unit : Int) + Decimal.signed s (c * Nat.pow 10 e.toNat)).toNat
        match Decimal.ln 40 (.finite false argument (min e 0)) with
        | .ok d => ofDecimal d
        | .error _ => notANumber
    | _ => x

end SymbolicAlgebra.Double
