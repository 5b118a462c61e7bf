import SymbolicAlgebra.Fault

/-!
# Combinatorics — binomials, multinomials and compositions

Binomial coefficients are read from rows of Pascal's triangle that are kept once computed.
`compositions n k` lists the ways to write `k` as a sum of `n` natural numbers, in lexicographic
order.
-/

namespace SymbolicAlgebra

/-- The first rows of Pascal's triangle. -/
abbrev Pascal := List (List Nat)

namespace Pascal

/-- The rows every table starts with. -/
def initial : Pascal := [[1], [1, 1], [1, 2, 1], [1, 3, 3, 1], [1, 4, 6, 4, 1]]

/-- The row below a row. -/
def nextRow (row : List Nat) : List Nat := List.zipWith (· + ·) (0 :: row) (row ++ [0])

/-- Adds rows below the last one. -/
def extendBy : Nat → Pascal → Pascal
  | 0, rows => rows
  | n + 1, rows => extendBy n (rows ++ [nextRow (rows.getLast?.getD [])])

/-- The table with at least `n + 1` rows. -/
def extendTo (n : Nat) (rows : Pascal) : Pascal := extendBy (n + 1 - rows.length) rows

/-- The item at a place; negative places count from the end. -/
def item? {α : Type} (xs : List α) (i : Int) : Option α :=
  if 0 ≤ i then xs[i.toNat]? else if -i ≤ xs.length then xs[(xs.length + i).toNat]? else none

/-- The binomial coefficient, with the table it leaves behind. -/
def choose (rows : Pascal) (n k : Int) : Except Fault (Nat × Pascal) :=
  let rows := if 0 ≤ n then rows.extendTo n.toNat else rows
  match (item? rows n).bind (item? · k) with
  | some c => .ok (c, rows)
  | none => .error .operandIndex

/-- The product of binomials for the parts `ks` of `n`, one after the other. -/
def multinomialFrom (rows : Pascal) (n : Int) : List Int → Nat → Except Fault (Nat × Pascal)
  | [], result => .ok (result, rows)
  | k :: ks, result => do
      let (c, rows) ← choose rows n k
      multinomialFrom rows (n - k) ks (result * c)

/-- The multinomial coefficient `(k₁ + k₂ + …)! / (k₁! k₂! …)`, with the table it leaves behind. -/
def multinomial (rows : Pascal) (ks : List Int) : Except Fault (Nat × Pascal) :=
  multinomialFrom rows (ks.foldl (· + ·) 0) ks 1

end Pascal

/-- The ways to write `total` as a sum of `n` natural numbers, in lexicographic order. -/
def compositions : (n total : Nat) → List (List Nat)
  | 0, _ => []
  | 1, total => [[total]]
  | n + 2, total =>
      (List.range (total + 1)).flatMap fun i => (compositions (n + 1) (total - i)).map (i :: ·)

/-- Compositions for any integers: a single part may be negative, and without parts the enumeration
has no end. -/
def compositionsOf (n total : Int) : Except Fault (List (List Int)) :=
  if n = 1 then .ok [[total]]
  else if total < 0 then .ok []
  else if n < 1 then .error .unbounded
  else .ok ((compositions n.toNat total.toNat).map (·.map Int.ofNat))

end SymbolicAlgebra
