import SymbolicAlgebra.Text.Blank

/-!
# Text/Digit — decimal digits of every script, and integers written with them

Each script with positional decimal digits has its ten digits in a row, so a digit is known by the
zero of its row.
-/

namespace SymbolicAlgebra.Text

/-- The code points of the zeros, in ascending order. -/
def zeroDigits : List Nat :=
  [48, 1632, 1776, 1984, 2406, 2534, 2662, 2790, 2918, 3046, 3174, 3302, 3430, 3558, 3664, 3792,
    3872, 4160, 4240, 6112, 6160, 6470, 6608, 6784, 6800, 6992, 7088, 7232, 7248, 42528, 43216,
    43264, 43472, 43504, 43600, 44016, 65296, 66720, 68912, 69734, 69872, 69942, 70096, 70384,
    70736, 70864, 71248, 71360, 71472, 71904, 72016, 72784, 73040, 73120, 92768, 92864, 93008,
    120782, 120792, 120802, 120812, 120822, 123200, 123632, 125264, 130032]

/-- The value of a decimal digit of any script. -/
def digitValue? (c : Char) : Option Nat :=
  (zeroDigits.find? fun z => decide (z ≤ c.toNat) && decide (c.toNat < z + 10)).map (c.toNat - ·)

def isDigit (c : Char) : Bool := (digitValue? c).isSome

/-- The number written by digits, most significant first; characters that are no digits count as
zeros. -/
def natOfDigits (s : List Char) : Nat :=
  s.foldl (fun n c => 10 * n + (digitValue? c).getD 0) 0

/-- Splits a leading plus or minus off; the flag is set for a minus. -/
def takeSign : List Char → Bool × List Char
  | '-' :: rest => (true, rest)
  | '+' :: rest => (false, rest)
  | s => (false, s)

/-- Whether `s` is digits with single underscores between them. -/
def isGroupedDigits : List Char → Bool
  | [] => false
  | [c] => isDigit c
  | c :: '_' :: rest => isDigit c && isGroupedDigits rest
  | c :: rest => isDigit c && isGroupedDigits rest

/-- Reads an integer: blanks around it, an optional sign, digits of any script with single
underscores between them. -/
def readInt? (s : String) : Option Int :=
  let (negative, digits) := takeSign (stripChars s.toList)
  if isGroupedDigits digits then
    let n := natOfDigits (digits.filter (· != '_'))
    some (if negative then -(n : Int) else n)
  else none

end SymbolicAlgebra.Text
