import SymbolicAlgebra.Decimal.Circular
import SymbolicAlgebra.Double.Complex
import SymbolicAlgebra.Double.Shortest
import SymbolicAlgebra.Types.Lattice

/-!
# Number/Basic — exact, decimal and machine numbers, and pairs of them

A real number lives in one of three lanes: an exact rational, a decimal with the precision it was
computed at, or a double.  A complex number is a pair of reals, each in a lane of its own.

`Scalar.compare?` is the order of the extended reals the scalars denote, up to the rounding of
finite numbers to doubles when the other side is infinite; `Number.same` is equality within a lane.
-/

namespace SymbolicAlgebra

/-- Up to this many digits approximate results are doubles, above it decimals. -/
def machinePrecision : Nat := 15

/-- The precision of decimal operations that name none. -/
def defaultPrecision : Nat := 28

/-- Whether approximate results at a precision are decimals. -/
def prefersDecimal (precision : Nat) : Bool := decide (machinePrecision < precision)

/-- Why an operation on numbers gives no result. -/
inductive NumberFault
  | decimal (signal : Decimal.Signal)
  | double (fault : Double.Fault)
  /-- A negative power of the exact zero. -/
  | zeroRational
  /-- An integer is too large for a double. -/
  | integerTooLarge
  /-- A complex number was asked for as a double. -/
  | complexToDouble
  /-- A real number was asked for its conjugate, by the name of its kind. -/
  | noConjugate (kind : String)
  deriving DecidableEq

/-- Carries a signal of decimal arithmetic over. -/
def liftDecimal {α : Type} : Except Decimal.Signal α → Except NumberFault α
  | .ok x => .ok x
  | .error s => .error (.decimal s)

/-- Carries a fault of double arithmetic over. -/
def liftDouble {α : Type} : Except Double.Fault α → Except NumberFault α
  | .ok x => .ok x
  | .error f => .error (.double f)

/-- A real number in one of the three lanes. -/
inductive Scalar
  | exact (value : Rat)
  | big (value : Decimal) (precision : Nat)
  | machine (value : Float)
  deriving Inhabited

namespace Scalar

def zero : Scalar := .exact 0
def one : Scalar := .exact 1
def half : Scalar := .exact (1 / 2)

/-- The double that is not a number. -/
def notANumber : Scalar := .machine Double.notANumber

/-- An integer, exactly. -/
def ofInt (n : Int) : Scalar := .exact n

/-- The name of the kind of number that a lane holds. -/
def kindName : Scalar → String
  | exact _ => "RationalValue"
  | big _ _ => "BigValue"
  | machine _ => "MachineValue"

def isExact : Scalar → Bool
  | exact _ => true
  | _ => false

def isNaN : Scalar → Bool
  | exact _ => false
  | big d _ => d.isNaN
  | machine x => Double.isNaN x

def isFinite : Scalar → Bool
  | exact _ => true
  | big d _ => d.isFinite
  | machine x => Double.isFinite x

def isZero : Scalar → Bool
  | exact q => q == 0
  | big d _ => d.isZero
  | machine x => x == 0

def isOne : Scalar → Bool
  | exact q => q == 1
  | big d _ => d.equal (.ofInt 1)
  | machine x => x == 1

def isNegativeOne : Scalar → Bool
  | exact q => q == -1
  | big d _ => d.equal (.ofInt (-1))
  | machine x => x == -1

def isInteger : Scalar → Bool
  | exact q => q.den == 1
  | big d _ => d.isInteger
  | machine x => Double.isInteger x

/-- The nearest double. -/
def toFloat : Scalar → Float
  | exact q => Double.ofRat q
  | big d _ => Double.ofDecimal d
  | machine x => x

/-- The value of a finite scalar. -/
def toRat : Scalar → Rat
  | exact q => q
  | big d _ => d.toRat
  | machine x => Double.toRat x

/-- The value as a decimal: a rational is rounded to the precision, the others are exact. -/
def toDecimal (precision : Nat) : Scalar → Except NumberFault Decimal
  | exact q => liftDecimal (Decimal.div precision (.ofInt q.num) (.ofNat q.den))
  | big d _ => .ok d
  | machine x => .ok (Double.toDecimal x)

/-- The precision of a decimal. -/
def bigPrecision? : Scalar → Option Nat
  | big _ p => some p
  | _ => none

/-- Moves an exact number into the approximate lane of a precision. -/
def approximate (precision : Nat) : Scalar → Except NumberFault Scalar
  | exact q =>
      if prefersDecimal precision then
        return .big (← toDecimal precision (.exact q)) precision
      else return .machine (Double.ofRat q)
  | x => return x

/-- Three-way comparison of two values of a linear order. -/
def order {α : Type} [LT α] [DecidableLT α] (x y : α) : Int :=
  if y < x then 1 else if x < y then -1 else 0

/-- Compares two scalars: `-1`, `0`, `1`, or `none` if either is not a number. -/
def compare? (a b : Scalar) : Option Int :=
  if a.isNaN || b.isNaN then none
  else if a.isFinite && b.isFinite then some (order a.toRat b.toRat)
  else some (order a.toFloat b.toFloat)

/-- Whether a scalar is below zero; unknown for what is not a number. -/
def isNegative? (a : Scalar) : Option Bool := (compare? a zero).map fun c => decide (c < 0)

def isNegative (a : Scalar) : Bool := a.isNegative? == some true

/-- Equality within a lane: by value, and one not-a-number equals another. -/
def same : Scalar → Scalar → Bool
  | exact p, exact q => p == q
  | big c _, big d _ => (c.isNaN && d.isNaN) || c.equal d
  | machine x, machine y => (Double.isNaN x && Double.isNaN y) || x == y
  | _, _ => false

/-- Equality of representations: the same digits, the same precision, the same bits. -/
def identical : Scalar → Scalar → Bool
  | exact p, exact q => p == q
  | big c m, big d n => c == d && m == n
  | machine x, machine y => x.toBits == y.toBits
  | _, _ => false

/-- The most specific type of the value. -/
def type (a : Scalar) : TypeName :=
  if a.isNaN then .number
  else if a.isInteger then .integer
  else if a.isExact then .rational
  else .real

end Scalar

/-- A real or complex number. -/
inductive Number
  | real (value : Scalar)
  | complex (re im : Scalar)
  deriving Inhabited

namespace Number

def zero : Number := .real .zero
def one : Number := .real .one
def half : Number := .real .half
def negativeOne : Number := .real (.ofInt (-1))
def notANumber : Number := .real .notANumber
def imaginaryUnit : Number := .complex .zero .one

/-- An integer, exactly. -/
def ofInt (n : Int) : Number := .real (.ofInt n)

/-- A pair as a number; a pair with imaginary part zero is its real part. -/
def ofParts (re im : Scalar) : Number := if im.isZero then .real re else .complex re im

def re : Number → Scalar
  | real x => x
  | complex x _ => x

def im : Number → Scalar
  | real _ => .zero
  | complex _ y => y

def isComplex : Number → Bool
  | real _ => false
  | complex _ _ => true

def isExact (a : Number) : Bool := a.re.isExact && a.im.isExact
def isNaN (a : Number) : Bool := a.re.isNaN || a.im.isNaN
def isFinite (a : Number) : Bool := a.re.isFinite && a.im.isFinite

def isZero : Number → Bool
  | real x => x.isZero
  | complex _ _ => false

def isOne : Number → Bool
  | real x => x.isOne
  | complex _ _ => false

def isNegativeOne : Number → Bool
  | real x => x.isNegativeOne
  | complex _ _ => false

def isInteger : Number → Bool
  | real x => x.isInteger
  | complex _ _ => false

/-- Whether a real number is below zero; unknown for complex numbers. -/
def isNegative? : Number → Option Bool
  | real x => x.isNegative?
  | complex _ _ => none

def isPurelyImaginary : Number → Bool
  | real _ => false
  | complex x y => x.isZero && !y.isZero

/-- The integer, for an exact real number that is one. -/
def integer? : Number → Option Int
  | real (.exact q) => if q.den = 1 then some q.num else none
  | _ => none

/-- The most specific type of the value. -/
def type : Number → TypeName
  | real x => x.type
  | complex x _ => if x.isZero then .imaginary else .complex

def same : Number → Number → Bool
  | real x, real y => x.same y
  | complex a b, complex c d => a.same c && b.same d
  | _, _ => false

def identical : Number → Number → Bool
  | real x, real y => x.identical y
  | complex a b, complex c d => a.identical c && b.identical d
  | _, _ => false

/-- Three-way comparison; complex numbers compare for equality only. -/
def compare? (a b : Number) : Option Int :=
  if a.isNaN || b.isNaN then none
  else
    match a, b with
    | real x, real y => x.compare? y
    | a, b =>
        if a.re.compare? b.re == some 0 && a.im.compare? b.im == some 0 then some 0 else none

/-- The nearest double of a real number. -/
def toFloat : Number → Except NumberFault Float
  | real x => .ok x.toFloat
  | complex _ _ => .error .complexToDouble

/-- Both parts as doubles. -/
def toComplex (a : Number) : Double.Complex := ⟨a.re.toFloat, a.im.toFloat⟩

def ofComplex (z : Double.Complex) : Number := ofParts (.machine z.re) (.machine z.im)

/-- Moves exact parts into the approximate lane of a precision. -/
def approximate (precision : Nat) : Number → Except NumberFault Number
  | real x => return .real (← x.approximate precision)
  | complex x y => return ofParts (← x.approximate precision) (← y.approximate precision)

end Number

end SymbolicAlgebra
