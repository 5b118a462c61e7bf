import SymbolicAlgebra.Text.Range

/-!
# Text/Blank — blank characters, and text without blanks at its ends

A character is blank if it separates words in Unicode text: the usual white space, the four
information separators, the next-line character and the no-break spaces.
-/

namespace SymbolicAlgebra.Text

/-- The blank code points, in ascending order. -/
def blankRanges : List (Nat × Nat) :=
  [(9, 13), (28, 32), (133, 133), (160, 160), (5760, 5760), (8192, 8202), (8232, 8233),
    (8239, 8239), (8287, 8287), (12288, 12288)]

def isBlank (c : Char) : Bool := inRanges blankRanges c

/-- Characters without leading blanks. -/
def dropBlanks (s : List Char) : List Char := s.dropWhile isBlank

/-- Characters without blanks at either end. -/
def stripChars (s : List Char) : List Char :=
  (dropBlanks (dropBlanks s).reverse).reverse

/-- Text without leading blanks. -/
def stripLeft (s : String) : String := String.ofList (dropBlanks s.toList)

/-- Text without blanks at either end. -/
def strip (s : String) : String := String.ofList (stripChars s.toList)

/-- The first word and what follows the blanks behind it; `none` for blank text. -/
def firstWord (s : String) : Option (String × String) :=
  match dropBlanks s.toList with
  | [] => none
  | cs =>
      let word := cs.takeWhile fun c => !isBlank c
      let rest := dropBlanks (cs.dropWhile fun c => !isBlank c)
      some (String.ofList word, String.ofList rest)

end SymbolicAlgebra.Text
