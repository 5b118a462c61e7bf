import SymbolicAlgebra.Decimal.Text

/-!
# Double/Basic — the exact value of a double, and the double nearest to a value

A finite double is `± m · 2 ^ q`.  `toRat` is that value, `ofRat` the nearest double of a rational,
a tie to the even significand; both work on the bit pattern and on exact integers.
-/

namespace SymbolicAlgebra.Double

/-- The positive infinity. -/
def infinity : Float := Float.ofBits 0x7FF0000000000000

/-- The quiet not-a-number. -/
def notANumber : Float := Float.ofBits 0x7FF8000000000000

def isNaN (x : Float) : Bool := x.isNaN

def isFinite (x : Float) : Bool := x.isFinite

def isInfinite (x : Float) : Bool := x.isInf

/-- Whether the sign bit is set. -/
def isSigned (x : Float) : Bool := x.toBits.toNat ≥ Nat.pow 2 63

/-- Significand and binary exponent of the magnitude of a finite double. -/
def decode (x : Float) : Nat × Int :=
  let bits : Nat := x.toBits.toNat % Nat.pow 2 63
  let field : Nat := bits / Nat.pow 2 52
  let fraction : Nat := bits % Nat.pow 2 52
  if field = 0 then (fraction, -1074) else (fraction + Nat.pow 2 52, (field : Int) - 1075)

/-- The magnitude `m · 2 ^ q` for `m < 2 ^ 53`, where `m < 2 ^ 52` only for the least `q`; infinite
above the range. -/
def encode (negative : Bool) (m : Nat) (q : Int) : Float :=
  let sign := if negative then Nat.pow 2 63 else 0
  let field := (q + 1075).toNat
  let bits :=
    if m < Nat.pow 2 52 then m
    else if 2047 ≤ field then 2047 * Nat.pow 2 52
    else field * Nat.pow 2 52 + (m - Nat.pow 2 52)
  Float.ofBits (UInt64.ofNat (sign + bits))

/-- A signed zero. -/
def zero (negative : Bool) : Float := encode negative 0 (-1074)

/-- A signed infinity. -/
def signedInfinity (negative : Bool) : Float := encode negative (Nat.pow 2 52) 972

/-- The double nearest to `± n / d`, a tie to the even significand. -/
def ofRatio (negative : Bool) (n d : Nat) : Float :=
  if n = 0 ∨ d = 0 then zero negative
  else
    let low := max ((n.log2 : Int) - d.log2 - 53) (-1074)
    let scaled (q : Int) : Nat × Nat := (n * Nat.pow 2 (-q).toNat, d * Nat.pow 2 q.toNat)
    let q := if Nat.pow 2 53 ≤ (scaled low).1 / (scaled low).2 then low + 1 else low
    let m := divHalfEven (scaled q).1 (scaled q).2
    if m = Nat.pow 2 53 then encode negative (Nat.pow 2 52) (q + 1) else encode negative m q

/-- The double nearest to a rational; infinite above the range. -/
def ofRat (x : Rat) : Float := ofRatio (decide (x.num < 0)) x.num.natAbs x.den

/-- The double nearest to an integer; infinite above the range. -/
def ofInt (n : Int) : Float := ofRatio (decide (n < 0)) n.natAbs 1

/-- `± m · 2 ^ q` as a rational. -/
def binary (negative : Bool) (m : Nat) (q : Int) : Rat :=
  let n := Decimal.signed negative m
  if 0 ≤ q then ((n * (Nat.pow 2 q.toNat : Nat) : Int) : Rat) else mkRat n (Nat.pow 2 (-q).toNat)

/-- The value of a finite double; zero for the special ones. -/
def toRat (x : Float) : Rat :=
  if isFinite x then binary (isSigned x) (decode x).1 (decode x).2 else 0

/-- Whether a finite double is a whole number. -/
def isInteger (x : Float) : Bool := isFinite x && (toRat x).den == 1

/-- The exact decimal digits of `m · 2 ^ q`: coefficient and decimal exponent. -/
def decimalDigits (m : Nat) (q : Int) : Nat × Int :=
  if 0 ≤ q then (m * Nat.pow 2 q.toNat, 0) else (m * Nat.pow 5 (-q).toNat, q)

/-- The decimal of exactly the same value; a whole number has exponent zero. -/
def toDecimal (x : Float) : Decimal :=
  if isNaN x then .nan (isSigned x) 0
  else if isInfinite x then .infinite (isSigned x)
  else
    let r := toRat x
    let shift := r.den.log2
    .finite (isSigned x) (r.num.natAbs * Nat.pow 5 shift) (-shift)

/-- The double nearest to a decimal. -/
def ofDecimal (d : Decimal) : Float :=
  match d with
  | .nan _ _ => notANumber
  | .infinite s => signedInfinity s
  | .finite s c e =>
      if c = 0 then zero s
      else
        let top := e + digitCount c
        if 400 < top then signedInfinity s
        else if top < -400 then zero s
        else ofRatio s (c * Nat.pow 10 e.toNat) (Nat.pow 10 (-e).toNat)

/-- Reads a double: a number in decimal notation, `inf`, `infinity` or `nan`. -/
def ofText? (text : String) : Option Float :=
  let (negative, body) := Text.takeSign ((Text.stripChars text.toList).filter (· != '_'))
  let name := body.map Char.toLower
  if name == "inf".toList || name == "infinity".toList then some (signedInfinity negative)
  else if name == "nan".toList then some notANumber
  else (Decimal.readUnsigned? body).map fun (c, e) => ofDecimal (.finite negative c e)

end SymbolicAlgebra.Double
