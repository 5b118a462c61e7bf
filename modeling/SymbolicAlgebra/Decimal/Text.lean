import SymbolicAlgebra.Decimal.Basic
import SymbolicAlgebra.Text.Digit

/-!
# Decimal/Text — reading and writing decimals

A decimal is written positionally when its exponent is not positive and its leading digit is at most
six places behind the point; otherwise in scientific notation with a signed exponent.  Every digit
of the coefficient is written, so reading gives back the same coefficient and exponent.
-/

namespace SymbolicAlgebra.Decimal

open Text

/-- The largest exponent of a leading digit that can be read. -/
def maxReadExponent : Int := 999999999999999999

/-- The smallest exponent that can be read. -/
def minReadExponent : Int := -1999999999999999997

/-- The digits of a natural number, most significant first. -/
def digitChars (n : Nat) : List Char := Nat.toDigits 10 n

/-- An integer with its sign always written. -/
def signedText (e : Int) : String :=
  (if e < 0 then "-" else "+") ++ String.ofList (digitChars e.natAbs)

/-- Digits with a point after the first one, and an exponent. -/
def scientific (digits : List Char) (adjusted : Int) : String :=
  let mantissa :=
    match digits with
    | [] => []
    | [d] => [d]
    | d :: rest => d :: '.' :: rest
  String.ofList mantissa ++ "E" ++ signedText adjusted

/-- Digits with a point `places` digits before their end. -/
def positional (digits : List Char) (places : Nat) : String :=
  if places = 0 then String.ofList digits
  else
    let padded := List.replicate (places + 1 - digits.length) '0' ++ digits
    let whole := padded.length - places
    String.ofList (padded.take whole ++ '.' :: padded.drop whole)

/-- The text of a decimal. -/
def toText : Decimal → String
  | .infinite s => if s then "-Infinity" else "Infinity"
  | .nan s payload =>
      (if s then "-NaN" else "NaN") ++
        (if payload = 0 then "" else String.ofList (digitChars payload))
  | .finite s c e =>
      let digits := digitChars c
      let adjusted := e + digits.length - 1
      let body :=
        if e ≤ 0 ∧ -6 ≤ adjusted then positional digits (-e).toNat
        else scientific digits adjusted
      (if s then "-" else "") ++ body

/-- The text of a finite decimal in scientific notation, whatever its size. -/
def toScientific : Decimal → String
  | .finite s c e =>
      let digits := digitChars c
      (if s then "-" else "") ++ scientific digits (e + digits.length - 1)
  | special => special.toText

/-- The digits before and after the point, and what follows them. -/
def takeMantissa (s : List Char) : List Char × List Char × List Char :=
  let whole := s.takeWhile isDigit
  match s.dropWhile isDigit with
  | '.' :: rest => (whole, rest.takeWhile isDigit, rest.dropWhile isDigit)
  | rest => (whole, [], rest)

/-- Reads an exponent part, which may be absent. -/
def readExponent? : List Char → Option Int
  | [] => some 0
  | c :: rest =>
      if c == 'e' || c == 'E' then
        let (negative, digits) := takeSign rest
        if digits.isEmpty || !digits.all isDigit then none
        else
          let n := natOfDigits digits
          some (if negative then -(n : Int) else n)
      else none

/-- Reads the unsigned digits of a number: coefficient and exponent. -/
def readUnsigned? (s : List Char) : Option (Nat × Int) :=
  let (whole, fraction, rest) := takeMantissa s
  if whole.isEmpty && fraction.isEmpty then none
  else
    (readExponent? rest).map fun e =>
      (natOfDigits (whole ++ fraction), e - fraction.length)

/-- Reads a decimal: blanks around it and underscores are ignored, digits may be of any script, and
the exponent has to be in range. -/
def ofText? (text : String) : Option Decimal :=
  let (negative, body) := takeSign ((stripChars text.toList).filter (· != '_'))
  let name := body.map Char.toLower
  if name == "inf".toList || name == "infinity".toList then some (.infinite negative)
  else if "nan".toList.isPrefixOf name then
    let payload := name.drop 3
    if payload.all isDigit then some (.nan negative (natOfDigits payload)) else none
  else
    match readUnsigned? body with
    | none => none
    | some (c, e) =>
        if e < minReadExponent then none
        else if maxReadExponent < (if c = 0 then e else e + digitCount c - 1) then none
        else some (.finite negative c e)

end SymbolicAlgebra.Decimal
