import SymbolicAlgebra.Number.Arithmetic

/-!
# Number/Text — numbers as they are shown
-/

namespace SymbolicAlgebra

/-- The digits of an integer, with a minus if it is negative. -/
def intText (n : Int) : String :=
  (if n < 0 then "-" else "") ++ String.ofList (Decimal.digitChars n.natAbs)

/-- A rational: numerator, and the denominator behind a stroke if it is not one. -/
def ratText (q : Rat) : String :=
  if q.den = 1 then intText q.num else intText q.num ++ "/" ++ intText q.den

namespace Scalar

/-- A scalar as it is shown. -/
def text : Scalar → String
  | exact q => ratText q
  | big d _ => d.toText
  | machine x => Double.toText x

/-- A scalar with the name of its lane. -/
def describe : Scalar → String
  | exact q => "RationalValue(" ++ ratText q ++ ")"
  | big d p => "BigValue(" ++ d.toText ++ ", precision=" ++ intText p ++ ")"
  | machine x => "MachineValue(" ++ Double.toText x ++ ")"

end Scalar

namespace Number

/-- A number as it is shown; the imaginary part stands behind its sign. -/
def text : Number → Except NumberFault String
  | real x => .ok x.text
  | complex x y => do
      let negative := y.isNegative
      let magnitude ← if negative then y.neg else pure y
      return x.text ++ (if negative then " - " else " + ") ++ magnitude.text ++ "i"

/-- A number with the names of its lanes. -/
def describe : Number → String
  | real x => x.describe
  | complex x y => "ComplexValue(" ++ x.describe ++ ", " ++ y.describe ++ ")"

end Number

end SymbolicAlgebra
