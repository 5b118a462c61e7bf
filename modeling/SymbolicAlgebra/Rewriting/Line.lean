import SymbolicAlgebra.Rewriting.Spec
import SymbolicAlgebra.Text.Word

/-!
# Rewriting/Line — rules written on a line

    @name "description": pattern => replacement when condition

Name, description and condition may be left out.  Blank lines and lines that start with `#` hold no
rule.
-/

namespace SymbolicAlgebra

/-- The parts of a rule written on a line. -/
structure RuleLine where
  name : Option String := none
  description : Option String := none
  lhs : String
  rhs : String
  condition : Option String := none

namespace RuleLine

open Text

def isNameChar (c : Char) : Bool := isWord c || c == '-'

/-- What stands behind the colon of a header, without leading blanks and up to the end of the
line; a header needs something behind it. -/
def afterColon : List Char → Option (List Char)
  | ':' :: rest =>
      let body := (dropBlanks rest).takeWhile (· != '\n')
      if body.isEmpty then none else some body
  | _ => none

/-- A quoted description behind at least one blank, and what follows it. -/
def takeDescription (s : List Char) : Option (List Char × List Char) :=
  match s, dropBlanks s with
  | c :: _, '"' :: rest =>
      let text := rest.takeWhile (· != '"')
      if isBlank c && !text.isEmpty then
        match rest.drop text.length with
        | '"' :: rest => some (text, rest)
        | _ => none
      else none
  | _, _ => none

/-- A header, its description if it has one, and what stands behind it; `none` if the line has no
well-formed header. -/
def takeHeader : List Char → Option (List Char × Option (List Char) × List Char)
  | '@' :: rest =>
      let name := rest.takeWhile isNameChar
      let rest := rest.drop name.length
      if name.isEmpty then none
      else
        match takeDescription rest with
        | some (text, rest) => (afterColon rest).map fun body => (name, some text, body)
        | none => (afterColon rest).map fun body => (name, none, body)
  | _ => none

/-- Cuts the body of a rule at the word `when`, if it stands outside parentheses.  `seen` holds what
was passed already, last character first, and `depth` the parentheses open there. -/
def cutWhen (depth : Int) (seen : List Char) : List Char → Option (List Char × List Char)
  | [] => none
  | '(' :: rest => cutWhen (depth + 1) ('(' :: seen) rest
  | ')' :: rest => cutWhen (depth - 1) (')' :: seen) rest
  | c :: rest =>
      let after := (c :: rest).drop 4
      if depth == 0 && "when".toList.isPrefixOf (c :: rest) && seen.head?.all isBlank &&
          after.head?.all isBlank then some (seen.reverse, after)
      else cutWhen depth (c :: seen) rest

/-- Reads a rule written on a line; `none` for blank lines and comments. -/
def parse (source : String) : Except Fault (Option RuleLine) :=
  match stripChars source.toList with
  | [] => .ok none
  | '#' :: _ => .ok none
  | chars =>
      let (name, description, body) :=
        match takeHeader chars with
        | some (name, description, body) => (some name, description, body)
        | none => (none, none, chars)
      match cutFirst "=>".toList body with
      | none => .error (.notARule (String.ofList body))
      | some (lhs, rest) =>
          let lhs := stripChars lhs
          let rest := stripChars rest
          let (rhs, condition) :=
            match cutWhen 0 [] rest with
            | some (rhs, condition) => (stripChars rhs, some (stripChars condition))
            | none => (rest, none)
          if lhs.isEmpty || rhs.isEmpty then .error (.missingSide (String.ofList body))
          else
            .ok <| some
              { name := name.map String.ofList
                description := description.map String.ofList
                lhs := String.ofList lhs
                rhs := String.ofList rhs
                condition := condition.map String.ofList }

/-- A text, or nothing. -/
def rawOf (s : Option String) : Raw := (s.map Raw.name).getD .null

end RuleLine

/-- Makes the rule written on a line. -/
def Kernel.compileLine (line : RuleLine) : Action Rule :=
  compileRule (.raw (.name line.lhs)) (.raw (.name line.rhs)) (.raw (RuleLine.rawOf line.condition))
    (RuleLine.rawOf line.name) (RuleLine.rawOf line.description)

end SymbolicAlgebra
