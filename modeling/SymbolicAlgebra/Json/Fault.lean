import SymbolicAlgebra.Number.Text

/-!
# Json/Fault — why a text is not JSON, and where

A fault is noticed somewhere in the text; the place is given by how many characters are left there,
and shown as line, column and offset.
-/

namespace SymbolicAlgebra.Json

/-- What is wrong with a text. -/
inductive Cause
  | noValue | noName | noColon | noComma | unterminated | controlCharacter | badEscape
  | badUnicodeEscape | extraData | byteOrderMark
  deriving DecidableEq

def Cause.text : Cause → String
  | noValue => "Expecting value"
  | noName => "Expecting property name enclosed in double quotes"
  | noColon => "Expecting ':' delimiter"
  | noComma => "Expecting ',' delimiter"
  | unterminated => "Unterminated string starting at"
  | controlCharacter => "Invalid control character at"
  | badEscape => "Invalid \\escape"
  | badUnicodeEscape => "Invalid \\uXXXX escape"
  | extraData => "Extra data"
  | byteOrderMark => "Unexpected UTF-8 BOM (decode using utf-8-sig)"

/-- What is wrong with a text, and how many characters are left where that was noticed. -/
structure Fault where
  cause : Cause
  left : Nat

/-- The line and the column of the place behind `seen`, counted from one. -/
def place (seen : List Char) : Nat × Nat :=
  seen.foldl (fun (line, column) c => if c == '\n' then (line + 1, 1) else (line, column + 1))
    (1, 1)

/-- The wording of a fault in a text. -/
def Fault.message (text : List Char) (f : Fault) : String :=
  let offset := text.length - f.left
  let (line, column) := place (text.take offset)
  f.cause.text ++ ": line " ++ intText line ++ " column " ++ intText column ++
    " (char " ++ intText offset ++ ")"

end SymbolicAlgebra.Json
