import SymbolicAlgebra.Text.Blank

/-!
# Sexpr/Token — parentheses and atoms

A semicolon starts a comment that ends with the line; blanks separate atoms.
-/

namespace SymbolicAlgebra.Sexpr

/-- A token of an s-expression. -/
inductive Token
  | opening
  | closing
  | atom (text : String)
  deriving DecidableEq

/-- A token as it is written. -/
def Token.text : Token → String
  | opening => "("
  | closing => ")"
  | atom s => s

/-- The atom collected so far, if it holds anything. -/
def flushAtom (atom : List Char) : List Token :=
  if atom.isEmpty then [] else [.atom (String.ofList atom.reverse)]

/-- Cuts characters into tokens; `atom` holds the current atom, last character first. -/
def tokenizeFrom (comment : Bool) (atom : List Char) : List Char → List Token
  | [] => flushAtom atom
  | c :: rest =>
      if comment then tokenizeFrom (c != '\n') atom rest
      else if c == ';' then tokenizeFrom true atom rest
      else if c == '(' then flushAtom atom ++ .opening :: tokenizeFrom false [] rest
      else if c == ')' then flushAtom atom ++ .closing :: tokenizeFrom false [] rest
      else if Text.isBlank c then flushAtom atom ++ tokenizeFrom false [] rest
      else tokenizeFrom false (c :: atom) rest

/-- The tokens of a text.  A comment does not end the atom before it: `a;b⏎c` is the atom `ac`. -/
def tokenize (s : String) : List Token := tokenizeFrom false [] s.toList

/-- How many parentheses are open at the end of a text; negative if too many are closed. -/
def depthFrom (comment : Bool) (depth : Int) : List Char → Int
  | [] => depth
  | c :: rest =>
      if comment then depthFrom (c != '\n') depth rest
      else if c == ';' then depthFrom true depth rest
      else if c == '(' then depthFrom false (depth + 1) rest
      else if c == ')' then depthFrom false (depth - 1) rest
      else depthFrom false depth rest

/-- How many parentheses are open at the end of a text. -/
def openDepth (s : String) : Int := depthFrom false 0 s.toList

end SymbolicAlgebra.Sexpr
