import SymbolicAlgebra.Evaluation

/-!
# Order — comparing and sorting expressions

`Kernel.compare?` compares by real value where both sides have one, by structure otherwise, and
breaks the tie between two arrangements of the same operands by position.  `OrderKey` is a total
preorder for sorting: numbers before symbols before applications before errors.
-/

namespace SymbolicAlgebra

/-- Compares two values of a type with a decidable order. -/
def orderingOf {α : Type} [LT α] [DecidableLT α] (x y : α) : Ordering :=
  if x < y then .lt else if y < x then .gt else .eq

/-- The key that expressions are sorted by. -/
inductive OrderKey
  | number (re im : Float) (text : String)
  | symbol (name : String)
  | application (complexity : Int) (operator : String) (count : Nat) (operands : List OrderKey)
  | error (code : String) (details : List String)
  deriving Inhabited

namespace OrderKey

/-- The place of a kind of key among the kinds. -/
def rank : OrderKey → Nat
  | number _ _ _ => 0
  | symbol _ => 1
  | application _ _ _ _ => 2
  | error _ _ => 3

/-- Compares lists of texts, the first difference decides. -/
def compareTexts : List String → List String → Ordering
  | [], [] => .eq
  | [], _ :: _ => .lt
  | _ :: _, [] => .gt
  | x :: xs, y :: ys => (orderingOf x y).then (compareTexts xs ys)

mutual

/-- Compares two keys, the first difference decides. -/
def compare : OrderKey → OrderKey → Ordering
  | number a b s, number c d t =>
      (orderingOf a c).then ((orderingOf b d).then (orderingOf s t))
  | symbol n, symbol m => orderingOf n m
  | application k f n xs, application l g m ys =>
      (orderingOf k l).then ((orderingOf f g).then ((orderingOf n m).then (compareAll xs ys)))
  | error c ds, error c' ds' => (orderingOf c c').then (compareTexts ds ds')
  | x, y => orderingOf x.rank y.rank

def compareAll : List OrderKey → List OrderKey → Ordering
  | [], [] => .eq
  | [], _ :: _ => .lt
  | _ :: _, [] => .gt
  | x :: xs, y :: ys => (compare x y).then (compareAll xs ys)

end

/-- Whether one key may stand before another. -/
def le (x y : OrderKey) : Bool := compare x y != .gt

/-- A part of a number as it is sorted: what is not a number comes last. -/
def part (x : Scalar) : Float :=
  if Double.isNaN x.toFloat then Double.infinity else x.toFloat

/-- The text of a number as it is sorted. -/
def numberText (v : Number) : String :=
  match v.text with
  | .ok s => s
  | .error _ => v.describe

mutual

/-- The key of an expression. -/
def of (t : DefinitionTable) : Expr → OrderKey
  | .number v => .number (part v.re) (part v.im) (numberText v)
  | .symbol n _ _ => .symbol n
  | .error code details _ => .error code details
  | .application f ops d c =>
      .application (t.complexity (.application f ops d c)) f ops.length (ofAll t ops)

def ofAll (t : DefinitionTable) : List Expr → List OrderKey
  | [] => []
  | e :: rest => of t e :: ofAll t rest

end

/-- Sorts expressions by key; equal keys keep their order. -/
def sort (t : DefinitionTable) (es : List Expr) : List Expr :=
  ((es.map fun e => (of t e, e)).mergeSort fun x y => le x.1 y.1).map (·.2)

end OrderKey

namespace Kernel

/-- Whether two lists hold equal expressions equally often. -/
def sameMultiset (xs ys : List Expr) : Bool :=
  xs.length == ys.length && xs.all fun x => xs.countP x.same == ys.countP x.same

/-- The real value of an expression: of a number, a constant symbol, or a pure application. -/
def realValue (e : Expr) : Action (Option Scalar) := do
  let v ←
    match e with
    | .number v => pure (some v)
    | .symbol n _ _ => if (← getTable).isConstant e then constant n else pure none
    | .application _ _ _ _ =>
        if (← getTable).isPure e then evaluate (← canonicalize e) false else pure none
    | .error _ _ _ => pure none
  return match v with
    | some (.real x) => some x
    | _ => none

/-- Breaks the tie between two arrangements of the same operands: the first place where they differ
decides. -/
def tieBreak (t : DefinitionTable) : List Expr → List Expr → Option Int
  | x :: xs, y :: ys =>
      if x.same y then tieBreak t xs ys
      else some (if OrderKey.compare (.of t x) (.of t y) == .lt then -1 else 1)
  | _, _ => none

/-- Three-way comparison: `-1`, `0`, `1`, or `none` if the two are not comparable. -/
def compare? (a b : Expr) : Action (Option Int) := do
  let x ← realValue a
  let y ← realValue b
  match x, y with
  | some x, some y => return x.compare? y
  | _, _ =>
      if a.same b then return some 0
      if a.isApplication && b.isApplication && a.operator == b.operator &&
          sameMultiset a.operands b.operands then
        return tieBreak (← getTable) a.operands b.operands
      return none

end Kernel

end SymbolicAlgebra
