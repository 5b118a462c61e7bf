import SymbolicAlgebra.Text.Printable

/-!
# Text/Quoted — text as it is shown inside a message

Text is shown between single quotes, or between double quotes when it holds a single quote and no
double one.  The quote in use, the backslash and every character that is not printable are escaped.
-/

namespace SymbolicAlgebra.Text

/-- `n` in lower-case hexadecimal, padded with zeros to `width` digits. -/
def hexPadded (width n : Nat) : List Char :=
  let digits := Nat.toDigits 16 n
  List.replicate (width - digits.length) '0' ++ digits

/-- A character as it is shown between two quotes `q`. -/
def escapeChar (q c : Char) : List Char :=
  if c == q || c == '\\' then ['\\', c]
  else if c == '\n' then ['\\', 'n']
  else if c == '\r' then ['\\', 'r']
  else if c == '\t' then ['\\', 't']
  else if isPrintable c then [c]
  else if c.toNat < 0x100 then '\\' :: 'x' :: hexPadded 2 c.toNat
  else if c.toNat < 0x10000 then '\\' :: 'u' :: hexPadded 4 c.toNat
  else '\\' :: 'U' :: hexPadded 8 c.toNat

/-- The quote that `s` is shown in. -/
def quoteOf (s : List Char) : Char :=
  if s.contains '\'' && !s.contains '"' then '"' else '\''

/-- Text between quotes, escaped. -/
def quoted (s : String) : String :=
  let cs := s.toList
  let q := quoteOf cs
  String.ofList (q :: cs.flatMap (escapeChar q) ++ [q])

end SymbolicAlgebra.Text
