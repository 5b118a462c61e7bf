/-!
# Text/Lines — cutting text at separators and line ends
-/

namespace SymbolicAlgebra.Text

/-- The pieces between the characters that satisfy `p`; one more piece than there are such
characters. -/
def splitChars (p : Char → Bool) : List Char → List (List Char)
  | [] => [[]]
  | c :: rest =>
      if p c then [] :: splitChars p rest
      else
        match splitChars p rest with
        | [] => [[c]]
        | piece :: pieces => (c :: piece) :: pieces

/-- The pieces of `s` between the separators `sep`. -/
def splitOnChar (sep : Char) (s : String) : List String :=
  (splitChars (· == sep) s.toList).map String.ofList

/-- What stands before and after the first occurrence of `mark`. -/
def cutFirst (mark : List Char) : List Char → Option (List Char × List Char)
  | [] => if mark.isEmpty then some ([], []) else none
  | c :: rest =>
      if mark.isPrefixOf (c :: rest) then some ([], (c :: rest).drop mark.length)
      else (cutFirst mark rest).map fun (before, after) => (c :: before, after)

/-- What stands before and after the last occurrence of `mark`. -/
def cutLast (mark : List Char) (s : List Char) : Option (List Char × List Char) :=
  (cutFirst mark.reverse s.reverse).map fun (after, before) => (before.reverse, after.reverse)

/-- Whether `mark` occurs in `s`. -/
def contains (mark : String) (s : String) : Bool := (cutFirst mark.toList s.toList).isSome

/-- Every line end, written `\n`, `\r` or `\r\n`, as `\n`. -/
def normalizeNewlines : List Char → List Char
  | [] => []
  | '\r' :: '\n' :: rest => '\n' :: normalizeNewlines rest
  | '\r' :: rest => '\n' :: normalizeNewlines rest
  | c :: rest => c :: normalizeNewlines rest

/-- The code points that end a line: line feed to carriage return, the three larger information
separators, next line, and the line and paragraph separators. -/
def isLineEnd (c : Char) : Bool :=
  [10, 11, 12, 13, 28, 29, 30, 0x85, 0x2028, 0x2029].contains c.toNat

/-- The lines of a text, without their ends; a line end at the very end opens no further line. -/
def lines (s : String) : List String :=
  let pieces := splitChars isLineEnd (normalizeNewlines s.toList)
  let kept := if pieces.getLast? == some [] then pieces.dropLast else pieces
  kept.map String.ofList

/-- The lines of a stream, cut at line feeds only, without their ends. -/
def streamLines (s : String) : List String :=
  let pieces := splitChars (· == '\n') (normalizeNewlines s.toList)
  let kept := if pieces.getLast? == some [] then pieces.dropLast else pieces
  kept.map String.ofList

end SymbolicAlgebra.Text
