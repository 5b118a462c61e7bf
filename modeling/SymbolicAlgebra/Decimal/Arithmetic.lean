import SymbolicAlgebra.Decimal.Basic

/-!
# Decimal/Arithmetic — decimal operations rounded to a precision

Each operation rounds its exact result to `precision` significant digits, a tie to the even digit.
The exponent of a leading digit lies between `-maxExponent` and `maxExponent`; below that range
digits are given up and the result may become zero, above it the operation signals `overflow`.
Exact results keep the exponent that the operands suggest.
-/

namespace SymbolicAlgebra.Decimal

/-- Why a decimal operation gives no result. -/
inductive Signal
  | invalidOperation
  | divisionByZero
  | overflow
  deriving DecidableEq

/-- The largest exponent of a leading digit; its negative is the smallest one at full precision. -/
def maxExponent : Int := 999999

/-- The smallest exponent of any digit at a precision. -/
def tinyExponent (precision : Nat) : Int := -maxExponent - precision + 1

/-- Rounds `± coefficient · 10 ^ exponent` to a precision. -/
def round (precision : Nat) (negative : Bool) (coefficient : Nat) (exponent : Int) :
    Except Signal Decimal :=
  let tiny := tinyExponent precision
  if coefficient = 0 then .ok (.finite negative 0 (max tiny (min maxExponent exponent)))
  else
    let digits := digitCount coefficient
    let least := max (exponent + digits - precision) tiny
    let (c, e) :=
      if exponent < least then
        let dropped := (least - exponent).toNat
        let c := if digits < dropped then 0 else divHalfEven coefficient (Nat.pow 10 dropped)
        if precision < digitCount c then (c / 10, least + 1) else (c, least)
      else (coefficient, exponent)
    if maxExponent < e + digitCount c - 1 ∧ c ≠ 0 then .error .overflow
    else .ok (.finite negative c e)

/-- Rounds a value that is not exactly known: `coefficient` is its integral part, cut off, and
`exact` tells whether anything was cut.  A last digit that could pass for a tie is moved off it. -/
def roundCut (precision : Nat) (negative : Bool) (coefficient : Nat) (exponent : Int)
    (exact : Bool) : Except Signal Decimal :=
  let c := if !exact && coefficient % 5 == 0 then coefficient + 1 else coefficient
  round precision negative c exponent

/-- The value itself, rounded; a negative zero loses its sign. -/
def plus (precision : Nat) : Decimal → Except Signal Decimal
  | .finite s c e => round precision (s && c != 0) c e
  | special => .ok special

/-- The opposite value, rounded; a zero has no sign. -/
def negate (precision : Nat) : Decimal → Except Signal Decimal
  | .finite s c e => round precision (!s && c != 0) c e
  | .infinite s => .ok (.infinite !s)
  | .nan s payload => .ok (.nan s payload)

/-- The opposite sign, without rounding. -/
def flip : Decimal → Decimal
  | .finite s c e => .finite (!s) c e
  | .infinite s => .infinite !s
  | .nan s payload => .nan s payload

/-- Stands in for an addend far below the last digit of the other one: any positive quantity there
rounds alike. -/
def negligible (precision : Nat) (c : Nat) (e : Int) (d : Nat) (f : Int) : Nat × Int :=
  let floor := e + min (-1) ((digitCount c : Int) - precision - 2)
  if f + digitCount d - 1 < floor then (1, floor) else (d, f)

/-- The sum of two finite decimals that are not zero. -/
def addFinite (precision : Nat) (s : Bool) (c : Nat) (e : Int) (t : Bool) (d : Nat) (f : Int) :
    Except Signal Decimal :=
  let ((c, e), (d, f)) :=
    if e < f then (negligible precision d f c e, (d, f))
    else ((c, e), negligible precision c e d f)
  let least := min e f
  let total :=
    signed s (c * Nat.pow 10 (e - least).toNat) + signed t (d * Nat.pow 10 (f - least).toNat)
  round precision (decide (total < 0) || (total == 0 && s && t)) total.natAbs least

def add (precision : Nat) (x y : Decimal) : Except Signal Decimal :=
  match x, y with
  | .nan s n, _ => .ok (.nan s n)
  | _, .nan s n => .ok (.nan s n)
  | .infinite s, .infinite t => if s = t then .ok (.infinite s) else .error .invalidOperation
  | .infinite s, _ => .ok (.infinite s)
  | _, .infinite t => .ok (.infinite t)
  | .finite s c e, .finite t d f =>
      if c = 0 ∧ d = 0 then round precision (s && t) 0 (min e f)
      else if c = 0 then
        let least := max (min e f) (f - precision - 1)
        if least < f then round precision t (d * Nat.pow 10 (f - least).toNat) least
        else round precision t d f
      else if d = 0 then
        let least := max (min e f) (e - precision - 1)
        if least < e then round precision s (c * Nat.pow 10 (e - least).toNat) least
        else round precision s c e
      else addFinite precision s c e t d f

def sub (precision : Nat) (x y : Decimal) : Except Signal Decimal := add precision x y.flip

def mul (precision : Nat) (x y : Decimal) : Except Signal Decimal :=
  match x, y with
  | .nan s n, _ => .ok (.nan s n)
  | _, .nan s n => .ok (.nan s n)
  | .infinite s, y =>
      if y.isZero then .error .invalidOperation else .ok (.infinite (s != y.isSigned))
  | x, .infinite t =>
      if x.isZero then .error .invalidOperation else .ok (.infinite (x.isSigned != t))
  | .finite s c e, .finite t d f => round precision (s != t) (c * d) (e + f)

/-- Takes trailing zeros off a coefficient while its exponent is below `ideal`. -/
def dropZeros (c : Nat) (e ideal : Int) : Nat × Int :=
  if c ≠ 0 ∧ e < ideal ∧ c % 10 = 0 then dropZeros (c / 10) (e + 1) ideal else (c, e)
termination_by c

def div (precision : Nat) (x y : Decimal) : Except Signal Decimal :=
  match x, y with
  | .nan s n, _ => .ok (.nan s n)
  | _, .nan s n => .ok (.nan s n)
  | .infinite _, .infinite _ => .error .invalidOperation
  | .infinite s, y => .ok (.infinite (s != y.isSigned))
  | x, .infinite t => round precision (x.isSigned != t) 0 (tinyExponent precision)
  | .finite s c e, .finite t d f =>
      if d = 0 then .error (if c = 0 then .invalidOperation else .divisionByZero)
      else if c = 0 then round precision (s != t) 0 (e - f)
      else
        let shift : Int := (digitCount d : Int) - digitCount c + precision + 1
        let n := c * Nat.pow 10 shift.toNat
        let m := d * Nat.pow 10 (-shift).toNat
        if n % m = 0 then
          let (q, g) := dropZeros (n / m) (e - f - shift) (e - f)
          round precision (s != t) q g
        else roundCut precision (s != t) (n / m) (e - f - shift) false

/-- One descent of Newton's method for the integer square root. -/
def isqrtFrom (n x : Nat) : Nat :=
  let y := (x + n / x) / 2
  if y < x then isqrtFrom n y else x
termination_by x

/-- The integer square root. -/
def isqrt (n : Nat) : Nat :=
  if n = 0 then 0 else isqrtFrom n (Nat.pow 2 (n.log2 / 2 + 1))

def sqrt (precision : Nat) : Decimal → Except Signal Decimal
  | .nan s n => .ok (.nan s n)
  | .infinite s => if s then .error .invalidOperation else .ok (.infinite false)
  | .finite s c e =>
      if c = 0 then round precision s 0 (e.fdiv 2)
      else if s then .error .invalidOperation
      else
        let odd := e.emod 2 == 1
        let c' := if odd then c * 10 else c
        let e' := e.fdiv 2
        let half := if odd then digitCount c / 2 + 1 else (digitCount c + 1) / 2
        let shift : Int := (precision : Int) + 1 - half
        let n := c' * Nat.pow 100 shift.toNat / Nat.pow 100 (-shift).toNat
        let root := isqrt n
        if root * root * Nat.pow 100 (-shift).toNat == c' * Nat.pow 100 shift.toNat then
          round precision false (root / Nat.pow 10 shift.toNat * Nat.pow 10 (-shift).toNat) e'
        else roundCut precision false root (e' - shift) false

/-- The largest whole number that is not above the value. -/
def floor : Decimal → Decimal
  | .finite s c e =>
      if 0 ≤ e then .finite s c e
      else if digitCount c ≤ (-e).toNat then .finite s (if s && c != 0 then 1 else 0) 0
      else
        let q := c / Nat.pow 10 (-e).toNat
        .finite s (if s && c % Nat.pow 10 (-e).toNat != 0 then q + 1 else q) 0
  | special => special

/-- The remainder with the sign of the divisor, each step rounded. -/
def floorMod (precision : Nat) (x y : Decimal) : Except Signal Decimal := do
  let q ← div precision x y
  sub precision x (← mul precision y q.floor)

end SymbolicAlgebra.Decimal
