import SymbolicAlgebra.Fault
import SymbolicAlgebra.Sexpr.Token

/-!
# Sexpr/Reader — from text to raw shapes

An atom of numeric form is read as an integer, a double or a decimal: a decimal when it has more
significant digits than a double carries.  Every other atom is a name.
-/

namespace SymbolicAlgebra.Sexpr

open Text

/-- The atoms that stand for special doubles. -/
def specialNumber? : String → Option Float
  | "NaN" => some Double.notANumber
  | "Infinity" => some Double.infinity
  | "+Infinity" => some Double.infinity
  | "-Infinity" => some (Double.signedInfinity true)
  | _ => none

/-- Drops one line end at the end. -/
def dropFinalNewline (s : List Char) : List Char :=
  if s.getLast? == some '\n' then s.dropLast else s

/-- Whether a text is digits behind an optional sign. -/
def isIntegerForm (s : List Char) : Bool :=
  let digits := (takeSign (dropFinalNewline s)).2
  !digits.isEmpty && digits.all isDigit

/-- Whether a text has the form of a number. -/
def isNumberForm (s : List Char) : Bool :=
  (Decimal.readUnsigned? (takeSign (dropFinalNewline s)).2).isSome

/-- How many significant digits a numeric token is written with. -/
def significantDigits (token : String) : Nat :=
  let unsigned := token.toList.dropWhile fun c => c == '+' || c == '-'
  let mantissa := unsigned.takeWhile fun c => c != 'e' && c != 'E'
  ((mantissa.filter (· != '.')).dropWhile (· == '0')).length

/-- Reads an atom. -/
def atom (token : String) : Except Fault Raw :=
  let chars := token.toList
  match specialNumber? token with
  | some x => .ok (.double x)
  | none =>
      if isIntegerForm chars then .ok (.int ((readInt? token).getD 0))
      else if isNumberForm chars then
        if machinePrecision < significantDigits token then
          match Decimal.ofText? token with
          | some d => .ok (.decimal d)
          | none => .error (.number (.decimal .invalidOperation))
        else .ok (.double ((Double.ofText? token).getD Double.notANumber))
      else .ok (.name token)

/-- Reads tokens with a stack of open lists, each with its items in reverse; stops in front of the
token after the first complete expression. -/
def readOne : (stack : List (List Raw)) → List Token → Except Fault (Raw × List Token)
  | _, [] => .error .missingClose
  | stack, .opening :: rest => readOne ([] :: stack) rest
  | [], .closing :: _ => .error .unexpectedClose
  | [items], .closing :: rest => .ok (.list items.reverse, rest)
  | items :: outer :: stack, .closing :: rest =>
      readOne ((.list items.reverse :: outer) :: stack) rest
  | [], .atom s :: rest => do return (← atom s, rest)
  | items :: stack, .atom s :: rest => do
      let item ← atom s
      readOne ((item :: items) :: stack) rest

/-- What `readOne` leaves is shorter than what it was given. -/
theorem length_readOne {stack : List (List Raw)} {tokens rest : List Token} {r : Raw}
    (h : readOne stack tokens = .ok (r, rest)) : rest.length < tokens.length := by
  fun_induction readOne stack tokens with
  | case1 => simp at h
  | case2 stack rest' ih => exact Nat.lt_succ_of_lt (ih h)
  | case3 => simp at h
  | case4 items rest' =>
      simp only [Except.ok.injEq, Prod.mk.injEq] at h
      simp [h.2]
  | case5 items outer stack rest' ih => exact Nat.lt_succ_of_lt (ih h)
  | case6 s rest' =>
      cases ha : atom s <;> simp [ha, bind, Except.bind, pure, Except.pure] at h
      simp [h.2]
  | case7 items stack s rest' ih =>
      cases ha : atom s with
      | error e => simp [ha, bind, Except.bind] at h
      | ok x =>
          simp only [ha, bind, Except.bind] at h
          exact Nat.lt_succ_of_lt (ih x h)

/-- Reads one expression; blank text gives none. -/
def parse (s : String) : Except Fault (Option Raw) :=
  match tokenize s with
  | [] => .ok none
  | tokens => do
      let (r, rest) ← readOne [] tokens
      if rest.isEmpty then return some r
      else throw (.trailingInput (" ".intercalate (rest.map Token.text)))

/-- Reads every expression of a list of tokens. -/
def readAll (tokens : List Token) : Except Fault (List Raw) :=
  match tokens with
  | [] => .ok []
  | tokens =>
      match _h : readOne [] tokens with
      | .error f => .error f
      | .ok (r, rest) => do return r :: (← readAll rest)
termination_by tokens.length
decreasing_by exact length_readOne _h

/-- Reads every expression of a text. -/
def parseAll (s : String) : Except Fault (List Raw) := readAll (tokenize s)

end SymbolicAlgebra.Sexpr
