/-!
# Text/Range — character classes given by ranges of code points
-/

namespace SymbolicAlgebra.Text

/-- Whether the code point of `c` lies in one of the closed ranges. -/
def inRanges (ranges : List (Nat × Nat)) (c : Char) : Bool :=
  ranges.any fun r => decide (r.1 ≤ c.toNat) && decide (c.toNat ≤ r.2)

end SymbolicAlgebra.Text
