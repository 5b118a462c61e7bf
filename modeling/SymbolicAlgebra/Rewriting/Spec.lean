import SymbolicAlgebra.Rewriting.Rule

/-!
# Rewriting/Spec — rules from what describes them

A rule is described by a pattern, a replacement and an optional condition, given in order or by
name.  A side given as text is read and brought into canonical form; a side given as a shape is
built as it stands.  In both, the names `x`, `y`, `z`, `a`, `b`, `c`, `m`, `n`, `i` and `j` are
wildcards.  A side given as an expression is used as it is.
-/

namespace SymbolicAlgebra

/-- The names that stand for wildcards in a described rule, with those wildcards. -/
def patternVariables : List (String × String) :=
  ["x", "y", "z", "a", "b", "c", "m", "n", "i", "j"].map fun v => (v, "_" ++ v)

/-- Renames the names of a shape that occur in a list. -/
def Raw.renameBy (names : List (String × String)) (r : Raw) : Raw :=
  r.rename fun n => (names.lookup n).getD n

/-- A side of a rule, or its condition, as it was given. -/
inductive Side
  /-- A text to be read, or a shape. -/
  | raw (shape : Raw)
  | expr (e : Expr)
  | guard (g : Guard)

/-- A side as it is shown inside a message. -/
def Side.describe : Side → String
  | raw r => r.describe
  | expr e => e.describe
  | guard _ => "<function>"

/-- A side as plain data, for the parts of a rule that are data. -/
def Side.toRaw : Side → Raw
  | raw r => r
  | expr e => .name e.text
  | guard _ => .null

/-- What a rule is made from. -/
inductive RuleSpec
  | rule (r : Rule)
  /-- Pattern, replacement and condition in order; `row` tells a row of fixed length from a list. -/
  | sides (row : Bool) (items : List Side)
  /-- The parts by name. -/
  | fields (entries : List (String × Side))
  | other (shape : Raw)

namespace RuleSpec

/-- A description as it is shown inside a message. -/
def describe : RuleSpec → String
  | rule r => r.describe
  | sides true [item] => "(" ++ item.describe ++ ",)"
  | sides true items => "(" ++ ", ".intercalate (items.map Side.describe) ++ ")"
  | sides false items => "[" ++ ", ".intercalate (items.map Side.describe) ++ "]"
  | fields entries =>
      "\x7b" ++ ", ".intercalate
        (entries.map fun (k, side) => Text.quoted k ++ ": " ++ side.describe) ++ "\x7d"
  | other r => r.describe

/-- The description that plain data stand for. -/
def ofRaw : Raw → RuleSpec
  | .list items => .sides false (items.map .raw)
  | .map keys items => .fields (keys.zip (items.map .raw))
  | r => .other r

/-- The descriptions that plain data list; the parts of a map are its keys, those of a text its
characters. -/
def listOf : Raw → Except Fault (List RuleSpec)
  | .list items => .ok (items.map ofRaw)
  | .map keys _ => .ok (keys.map fun k => .other (.name k))
  | .name s => .ok (s.toList.map fun c => .other (.name (String.singleton c)))
  | r => .error (.notIterable r.shapeName)

end RuleSpec

namespace Kernel

/-- The expression of a side. -/
def compileSide : Side → Action Expr
  | .expr e => return e
  | .raw (.name text) => do
      match ← ofExcept (Sexpr.parse text) with
      | none => throw .emptyRuleSide
      | some r => box (r.renameBy patternVariables)
  | .raw r => hold (r.renameBy patternVariables)
  | .guard g => throw (.notAnExpression (Side.guard g).describe)

/-- The guard that a condition stands for, and its text. -/
def compileCondition : Side → Action (Option Guard × Option String)
  | .raw .null => return (none, none)
  | .guard g => return (some g, none)
  | .raw (.name text) => do
      return (some (.holds (← compileSide (.raw (.name text)))), some text)
  | .raw (.list items) => do
      let template ← compileSide (.raw (.list items))
      return (some (.holds template), some template.text)
  | .expr e => return (some (.holds e), some e.text)
  | .raw r => throw (.invalidCondition r.describe)

/-- Makes a rule: the condition is looked at first, then the pattern, then the replacement. -/
def compileRule (lhs rhs condition : Side) (name description : Raw) : Action Rule := do
  let (guard, conditionText) ← compileCondition condition
  let lhs ← compileSide lhs
  let rhs ← compileSide rhs
  return { lhs, rhs, guard, name, description, conditionText }

/-- Makes the rule that a description stands for. -/
def compileSpec (spec : RuleSpec) : Action Rule :=
  match spec with
  | .rule r => return r
  | .fields entries =>
      let part (key : String) : Raw := ((entries.lookup key).map Side.toRaw).getD .null
      match entries.lookup "match", entries.lookup "replace" with
      | some lhs, some rhs =>
          compileRule lhs rhs ((entries.lookup "condition").getD (.raw .null)) (part "name")
            (part "description")
      | _, _ => throw (.sidesExpected spec.describe)
  | .sides _ [lhs, rhs] => compileRule lhs rhs (.raw .null) .null .null
  | .sides _ [lhs, rhs, condition] => compileRule lhs rhs condition .null .null
  | _ => throw (.invalidRule spec.describe)

/-- Makes the rules that descriptions stand for, in order. -/
def compileSpecs : List RuleSpec → Action (List Rule)
  | [] => return []
  | spec :: rest => do
      let r ← compileSpec spec
      return r :: (← compileSpecs rest)

end Kernel

end SymbolicAlgebra
