import SymbolicAlgebra.Number.Text
import SymbolicAlgebra.Text.Quoted

/-!
# Raw — expressions before they are built

A raw shape is what a reader produces and a construction consumes: numbers of several kinds, names,
and lists whose head is an operator name.  `Raw.text` writes a shape as an s-expression;
`Raw.describe` shows it inside a message.
-/

namespace SymbolicAlgebra

/-- A raw shape. -/
inductive Raw
  | name (text : String)
  | int (value : Int)
  | double (value : Float)
  | decimal (value : Decimal)
  | fraction (value : Rat)
  | complex (re im : Float)
  | value (number : Number)
  | bool (value : Bool)
  | null
  | list (items : List Raw)
  /-- A map from keys to items, which no expression can be built from. -/
  | map (keys : List String) (items : List Raw)
  deriving Inhabited

namespace Raw

/-! ## Numbers in s-expressions -/

/-- A double in an s-expression. -/
def doubleText (x : Float) : String :=
  if Double.isNaN x then "NaN"
  else if Double.isInfinite x then (if 0 < x then "Infinity" else "-Infinity")
  else Double.toText x

/-- A decimal in an s-expression: with more digits than a double is read with, and never as a bare
integer, so that it reads back as a decimal. -/
def decimalText (d : Decimal) : String :=
  match d.pad (machinePrecision + 1) with
  | .nan _ _ => "NaN"
  | .infinite s => if s then "-Infinity" else "Infinity"
  | .finite s c e =>
      if e = 0 then (Decimal.finite s c e).toScientific else (Decimal.finite s c e).toText

/-- A rational in an s-expression. -/
def fractionText (q : Rat) : String :=
  if q.den = 1 then intText q.num
  else "(Rational " ++ intText q.num ++ " " ++ intText q.den ++ ")"

/-! ## Shapes inside messages -/

/-- A part of a complex number inside a message: whole numbers without a point. -/
def partText (x : Float) : String :=
  let text := Double.toText x
  if text.endsWith ".0" then (text.dropEnd 2).toString else text

/-- A complex number inside a message. -/
def complexText (re im : Float) : String :=
  let imText := partText im ++ "j"
  if re == 0 && !Double.isSigned re then imText
  else "(" ++ partText re ++ (if imText.startsWith "-" then "" else "+") ++ imText ++ ")"

mutual

/-- A raw shape as it is shown inside a message. -/
def describe : Raw → String
  | name s => Text.quoted s
  | int n => intText n
  | double x => Double.toText x
  | decimal d => "Decimal('" ++ d.toText ++ "')"
  | fraction q => "Fraction(" ++ intText q.num ++ ", " ++ intText q.den ++ ")"
  | complex re im => complexText re im
  | value v => v.describe
  | bool b => if b then "True" else "False"
  | null => "None"
  | list items => "[" ++ ", ".intercalate (describeAll items) ++ "]"
  | map keys items =>
      "\x7b" ++ ", ".intercalate
        (List.zipWith (fun k v => Text.quoted k ++ ": " ++ v) keys (describeAll items)) ++ "\x7d"

def describeAll : List Raw → List String
  | [] => []
  | r :: rest => describe r :: describeAll rest

end

/-! ## Shapes as s-expressions -/

mutual

/-- A raw shape as an s-expression.  A shape that has none is shown as in a message. -/
def text : Raw → String
  | name s => s
  | int n => intText n
  | double x => doubleText x
  | decimal d => decimalText d
  | fraction q => fractionText q
  | complex re im => "(Complex " ++ doubleText re ++ " " ++ doubleText im ++ ")"
  | bool b => if b then "True" else "False"
  | null => "Nothing"
  | list items => "(" ++ " ".intercalate (textAll items) ++ ")"
  | value v => v.describe
  | map keys items => (map keys items).describe

def textAll : List Raw → List String
  | [] => []
  | r :: rest => text r :: textAll rest

end

mutual

/-- The first part of a shape that no s-expression can hold. -/
def unwritable? : Raw → Option Raw
  | value v => some (value v)
  | map keys items => some (map keys items)
  | list items => unwritableAmong? items
  | _ => none

def unwritableAmong? : List Raw → Option Raw
  | [] => none
  | r :: rest =>
      match unwritable? r with
      | some x => some x
      | none => unwritableAmong? rest

end

/-- A shape as plain text: a name or a number stands for itself. -/
def display : Raw → String
  | name s => s
  | decimal d => d.toText
  | fraction q => ratText q
  | value v =>
      match v.text with
      | .ok s => s
      | .error _ => v.describe
  | r => r.describe

/-! ## Truth and renaming -/

/-- Whether a shape counts as true where a flag is expected: everything but zero, the empty text,
the empty list, the empty map, `false` and `null`. -/
def truthy : Raw → Bool
  | name s => s != ""
  | int n => n != 0
  | double x => x != 0
  | decimal d => !d.isZero
  | fraction q => q != 0
  | complex re im => re != 0 || im != 0
  | value _ => true
  | bool b => b
  | null => false
  | list items => !items.isEmpty
  | map keys _ => !keys.isEmpty

mutual

/-- Renames the names of a shape. -/
def rename (f : String → String) : Raw → Raw
  | name s => name (f s)
  | list items => list (renameAll f items)
  | r => r

def renameAll (f : String → String) : List Raw → List Raw
  | [] => []
  | r :: rest => rename f r :: renameAll f rest

end

end Raw

end SymbolicAlgebra
