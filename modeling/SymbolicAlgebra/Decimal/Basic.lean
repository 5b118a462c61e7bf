/-!
# Decimal/Basic — decimals as a sign, a coefficient and an exponent

A finite decimal is `± coefficient · 10 ^ exponent`.  Trailing zeros of the coefficient are kept, so
`1.50` and `1.5` are two decimals of one value.  `Decimal.toRat` is the value of a finite decimal,
and `Decimal.equal` compares by value.
-/

namespace SymbolicAlgebra

/-- How many decimal digits a number has, counted one division at a time. -/
def countDigits (n : Nat) : Nat :=
  if n < 10 then 1 else countDigits (n / 10) + 1

/-- How many decimal digits a number has; zero has one.  The binary logarithm skips most of the
divisions: `log10 2 > 0.30102`. -/
def digitCount (n : Nat) : Nat :=
  let skipped := n.log2 * 30102 / 100000
  skipped + countDigits (n / Nat.pow 10 skipped)

/-- The quotient rounded to the nearest integer, a tie to the even one. -/
def divHalfEven (n d : Nat) : Nat :=
  let q := n / d
  let r := n % d
  if 2 * r < d then q else if d < 2 * r then q + 1 else if q % 2 = 0 then q else q + 1

/-- A decimal number, one of the two infinities, or a quiet not-a-number. -/
inductive Decimal
  | finite (negative : Bool) (coefficient : Nat) (exponent : Int)
  | infinite (negative : Bool)
  | nan (negative : Bool) (payload : Nat)
  deriving DecidableEq, Inhabited

namespace Decimal

/-- The decimal `n` with exponent zero. -/
def ofInt (n : Int) : Decimal := .finite (decide (n < 0)) n.natAbs 0

/-- The decimal `n` with exponent zero. -/
def ofNat (n : Nat) : Decimal := .finite false n 0

/-- The not-a-number without sign or payload. -/
def notANumber : Decimal := .nan false 0

def isNaN : Decimal → Bool
  | .nan _ _ => true
  | _ => false

def isFinite : Decimal → Bool
  | .finite _ _ _ => true
  | _ => false

def isInfinite : Decimal → Bool
  | .infinite _ => true
  | _ => false

def isZero : Decimal → Bool
  | .finite _ c _ => c == 0
  | _ => false

/-- Whether the sign bit is set. -/
def isSigned : Decimal → Bool
  | .finite s _ _ => s
  | .infinite s => s
  | .nan s _ => s

/-- The exponent of the leading digit; zero for the special values. -/
def adjusted : Decimal → Int
  | .finite _ c e => e + digitCount c - 1
  | _ => 0

/-- `± coefficient`. -/
def signed (negative : Bool) (coefficient : Nat) : Int :=
  if negative then -(coefficient : Int) else coefficient

/-- `n · 10 ^ e` as a rational. -/
def scale (n : Int) (e : Int) : Rat :=
  if 0 ≤ e then ((n * (Nat.pow 10 e.toNat : Nat) : Int) : Rat) else mkRat n (Nat.pow 10 (-e).toNat)

/-- The value of a finite decimal; zero for the special values. -/
def toRat : Decimal → Rat
  | .finite s c e => scale (signed s c) e
  | _ => 0

/-- Compares the magnitudes `c · 10 ^ e` and `d · 10 ^ f`: by leading exponent first, so that the
alignment is never longer than the coefficients. -/
def compareMagnitude (c : Nat) (e : Int) (d : Nat) (f : Int) : Ordering :=
  if c = 0 then (if d = 0 then .eq else .lt)
  else if d = 0 then .gt
  else
    let a := e + digitCount c
    let b := f + digitCount d
    if a < b then .lt
    else if b < a then .gt
    else if e ≤ f then compare c (d * Nat.pow 10 (f - e).toNat)
    else compare (c * Nat.pow 10 (e - f).toNat) d

/-- Three-way comparison by value; `none` if either side is not a number. -/
def compare? : Decimal → Decimal → Option Ordering
  | .nan _ _, _ => none
  | _, .nan _ _ => none
  | .infinite s, .infinite t =>
      some (if s = t then .eq else if s then .lt else .gt)
  | .infinite s, .finite _ _ _ => some (if s then .lt else .gt)
  | .finite _ _ _, .infinite t => some (if t then .gt else .lt)
  | .finite s c e, .finite t d f =>
      some <|
        if c = 0 ∧ d = 0 then .eq
        else if c = 0 then (if t then .gt else .lt)
        else if d = 0 then (if s then .lt else .gt)
        else if s = t then
          (if s then compareMagnitude d f c e else compareMagnitude c e d f)
        else if s then .lt else .gt

/-- Equality of values; no not-a-number equals anything. -/
def equal (x y : Decimal) : Bool := compare? x y == some .eq

/-- Whether a finite decimal is a whole number. -/
def isInteger : Decimal → Bool
  | .finite _ c e =>
      if 0 ≤ e ∨ c = 0 then true
      else if digitCount c ≤ (-e).toNat then false
      else c % Nat.pow 10 (-e).toNat == 0
  | _ => false

/-- Appends zeros until the coefficient has at least `digits` digits; the value stays. -/
def pad (x : Decimal) (digits : Nat) : Decimal :=
  match x with
  | .finite s c e =>
      let missing := digits - digitCount c
      .finite s (c * Nat.pow 10 missing) (e - missing)
  | special => special

end Decimal

end SymbolicAlgebra
