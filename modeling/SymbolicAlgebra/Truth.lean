import SymbolicAlgebra.Order

/-!
# Truth — the truth of a predicate, where it is known

Relations are decided by comparison, connectives by three-valued logic: a conjunction with a false
part is false whatever the others are.
-/

namespace SymbolicAlgebra

/-- A relation between two expressions. -/
inductive Relation
  | equal | notEqual | less | lessEqual | greater | greaterEqual
  deriving DecidableEq

namespace Relation

/-- The relation that an operator stands for. -/
def ofOperator? : String → Option Relation
  | "Equal" => some equal
  | "NotEqual" => some notEqual
  | "Less" => some less
  | "LessEqual" => some lessEqual
  | "Greater" => some greater
  | "GreaterEqual" => some greaterEqual
  | _ => none

/-- Whether the relation holds for the outcome of a comparison. -/
def holds (r : Relation) (c : Int) : Bool :=
  match r with
  | equal => c == 0
  | notEqual => c != 0
  | less => c < 0
  | lessEqual => c ≤ 0
  | greater => 0 < c
  | greaterEqual => 0 ≤ c

end Relation

/-- Combines truth values: the decisive one wins, then an unknown one. -/
def decideAmong (decisive : Bool) (values : List (Option Bool)) : Option Bool :=
  if values.contains (some decisive) then some decisive
  else if values.contains none then none
  else some !decisive

namespace Kernel

/-- Compares two expressions; where that is not possible, their approximate values. -/
def compareValues (a b : Expr) : Action (Option Int) := do
  match ← compare? a b with
  | some c => return some c
  | none =>
      let x ← evaluate a true
      let y ← evaluate b true
      match x, y with
      | some x, some y => return x.compare? y
      | _, _ => return none

/-- The relation that an application states, with its two sides. -/
def relation? (operator : String) (ops : List Expr) : Option (Relation × Expr × Expr) :=
  match Relation.ofOperator? operator, ops with
  | some r, [a, b] => some (r, a, b)
  | _, _ => none

mutual

/-- The truth of an expression, where it is known. -/
def isTrue : Expr → Action (Option Bool)
  | .symbol n _ _ =>
      return if n == "True" then some true else if n == "False" then some false else none
  | .application f ops _ _ =>
      match relation? f ops with
      | some (r, a, b) => do return (← compareValues a b).map r.holds
      | none =>
          if f == "Not" then
            match ops with
            | [a] => do return (← isTrue a).map not
            | _ => return none
          else if f == "And" || f == "Or" then do
            return decideAmong (f == "Or") (← areTrue ops)
          else return none
  | _ => return none

def areTrue : List Expr → Action (List (Option Bool))
  | [] => return []
  | e :: rest => do
      let v ← isTrue e
      return v :: (← areTrue rest)

end

end Kernel

end SymbolicAlgebra
