import SymbolicAlgebra.Decimal.Arithmetic
import SymbolicAlgebra.Double.Basic

/-!
# Double/Shortest — the fewest digits that read back

`shortest m q` gives the fewest decimal digits whose value rounds to `m · 2 ^ q`, and of those the
nearest to it.  The reals that round to a double form an interval around it whose ends belong to it
exactly when the significand is even; for each number of digits the two neighbours of the value on
that decimal grid are tried.
-/

namespace SymbolicAlgebra.Double

/-- The value and the ends of its rounding interval, as integers on one decimal scale. -/
structure Interval where
  value : Nat
  low : Nat
  high : Nat
  exponent : Int
  closed : Bool

/-- The interval of the reals that round to `m · 2 ^ q`.  Below a power of two the doubles are twice
as dense. -/
def interval (m : Nat) (q : Int) : Interval :=
  let q' := q - 2
  let factor := if 0 ≤ q' then Nat.pow 2 q'.toNat else Nat.pow 5 (-q').toNat
  let below := if m = Nat.pow 2 52 ∧ -1074 < q then 1 else 2
  { value := 4 * m * factor
    low := (4 * m - below) * factor
    high := (4 * m + 2) * factor
    exponent := if 0 ≤ q' then 0 else q'
    closed := m % 2 = 0 }

def Interval.holds (i : Interval) (x : Nat) : Bool :=
  if i.closed then decide (i.low ≤ x) && decide (x ≤ i.high)
  else decide (i.low < x) && decide (x < i.high)

/-- The nearest number with `digits` digits that lies in the interval, if there is one: its digits,
and the exponent of the last. -/
def Interval.withDigits (i : Interval) (digits : Nat) : Option (Nat × Int) :=
  let unit := Nat.pow 10 (digitCount i.value - digits)
  let exponent := i.exponent + (digitCount i.value - digits : Nat)
  let down := i.value / unit
  let up := down + 1
  let nearer := 2 * (i.value % unit)
  let hitDown := i.holds (down * unit)
  let hitUp := i.holds (up * unit)
  if hitDown && hitUp then
    some (if nearer < unit || (nearer == unit && down % 2 == 0) then down else up, exponent)
  else if hitDown then some (down, exponent)
  else if hitUp then some (up, exponent)
  else none

/-- The fewest digits that read back as `m · 2 ^ q`, without trailing zeros, and the exponent of the
last. -/
def shortest (m : Nat) (q : Int) : Nat × Int :=
  let i := interval m q
  let (c, e) := ((List.range 17).findSome? fun n => i.withDigits (n + 1)).getD (i.value, i.exponent)
  Decimal.dropZeros c e (e + digitCount c)

/-- How the digits of a double are laid out. -/
structure Layout where
  /-- The least exponent of a leading digit that is written positionally. -/
  leastPositional : Int
  /-- The least exponent above that is written with an exponent again. -/
  leastScientific : Int
  /-- The least number of digits of an exponent. -/
  exponentDigits : Nat

/-- Numbers are written positionally from `10 ^ -4` up to `10 ^ 16`, whole ones with `.0`; beyond,
with a signed exponent of at least two digits. -/
def layout : Layout := ⟨-4, 16, 2⟩

/-- The text of `c · 10 ^ e` in a layout. -/
def Layout.render (l : Layout) (c : Nat) (e : Int) : String :=
  let digits := Decimal.digitChars c
  let top := e + digits.length - 1
  if l.leastPositional ≤ top ∧ top < l.leastScientific then
    if e < 0 then Decimal.positional digits (-e).toNat
    else String.ofList (digits ++ List.replicate e.toNat '0') ++ ".0"
  else
    let mantissa :=
      match digits with
      | [d] => [d]
      | d :: rest => d :: '.' :: rest
      | [] => []
    let power := Decimal.digitChars top.natAbs
    String.ofList (mantissa ++ 'e' :: (if top < 0 then '-' else '+') ::
      List.replicate (l.exponentDigits - power.length) '0' ++ power)

/-- The text of a double: the fewest digits that read back. -/
def toText (x : Float) : String :=
  if isNaN x then "nan"
  else
    let sign := if isSigned x then "-" else ""
    if isInfinite x then sign ++ "inf"
    else
      let (m, q) := decode x
      if m = 0 then sign ++ "0.0"
      else
        let (c, e) := shortest m q
        sign ++ layout.render c e

/-- A double rounded to `digits` significant decimal digits, a tie to the even digit. -/
def roundSignificant (digits : Nat) (x : Float) : Float :=
  if !isFinite x || (decode x).1 == 0 then x
  else
    let (c, e) := decimalDigits (decode x).1 (decode x).2
    let dropped := digitCount c - digits
    ofDecimal (.finite (isSigned x) (divHalfEven c (Nat.pow 10 dropped)) (e + dropped))

end SymbolicAlgebra.Double
