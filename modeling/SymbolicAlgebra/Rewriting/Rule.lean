import SymbolicAlgebra.Rewriting.Pattern
import SymbolicAlgebra.Truth

/-!
# Rewriting/Rule — rules, and rewriting with them

A rule pairs a pattern with a replacement and an optional guard.  `Kernel.replace` applies rules at
the root of an expression until none changes it; `Kernel.replaceAll` applies them to all
subexpressions, from the inside out, until a whole pass changes nothing.  Whether that ever happens
is up to the rules: without a bound both may run without end.
-/

namespace SymbolicAlgebra

/-- A rule: what the pattern matches becomes the replacement, if the guard holds. -/
structure Rule where
  lhs : Expr
  rhs : Expr
  guard : Option Guard := none
  name : Raw := .null
  description : Raw := .null
  /-- The text of a guard that was given as an expression. -/
  conditionText : Option String := none

namespace Rule

/-- The name of a rule, or else its pattern. -/
def label (r : Rule) : Raw := if r.name.truthy then r.name else .name r.lhs.text

/-- The label as text. -/
def labelText (r : Rule) : String := r.label.display

/-- A rule as a line of a rule file. -/
def line (r : Rule) : String :=
  let head :=
    if r.name.truthy && r.description.truthy then
      "@" ++ r.name.display ++ " \"" ++ r.description.display ++ "\": "
    else if r.name.truthy then "@" ++ r.name.display ++ ": "
    else ""
  let condition :=
    match r.conditionText with
    | some text => if text == "" then "" else " when " ++ text
    | none => ""
  let condition :=
    if condition == "" && r.guard.isSome then " when <guard>" else condition
  head ++ r.lhs.text ++ " => " ++ r.rhs.text ++ condition

/-- A rule as it is shown. -/
def describe (r : Rule) : String := "Rule(" ++ r.line ++ ")"

/-- A list of rules as it is shown. -/
def describeList (rules : List Rule) : String := "RuleSet(" ++ intText rules.length ++ " rules)"

/-- The first rule of a name. -/
def named (rules : List Rule) (name : String) : Except Fault Rule :=
  let isNamed (r : Rule) : Bool :=
    match r.name with
    | .name n => n == name
    | _ => false
  match rules.find? isNamed with
  | some r => .ok r
  | none => .error (.noRuleNamed name)

end Rule

namespace Kernel

/-! ## Substitution -/

mutual

/-- Puts in what wildcards stand for.  Applications that change are built anew, in canonical form
if they were; wildcards that are not bound stay. -/
def substitute (b : Bindings) : Expr → Action Expr
  | .symbol n d c =>
      return if Expr.isWildcardName n then (b.lookup n).getD (.symbol n d c) else .symbol n d c
  | .application f ops d c => do
      let ops' ← substituteAll b ops
      let head := if Expr.isWildcardName f then (b.lookup f).bind Expr.symbol? else none
      match head with
      | some g => rebuild g ops' c
      | none =>
          if Expr.identicalAll ops' ops then return .application f ops d c
          else rebuild f ops' c
  | e => return e

def substituteAll (b : Bindings) : List Expr → Action (List Expr)
  | [] => return []
  | e :: rest => do
      let e' ← substitute b e
      return e' :: (← substituteAll b rest)

end

/-! ## Application -/

/-- Whether a guard holds for what was bound. -/
def checkGuard (guard : Guard) (b : Bindings) : Action Bool := do
  match guard with
  | .always => return true
  | .never => return false
  | .undecided => return false
  | .failing => throw (.rejected "boom")
  | .symbolX =>
      match b.get? "x" with
      | some e => return e.isSymbol
      | none => throw (.unboundName "_x")
  | .holds template =>
      let e ← substitute b template
      return (← isTrue (← canonicalize e)) == some true

/-- Whether the guard of a rule holds; one that fails is noted and does not hold. -/
def guardHolds (r : Rule) (b : Bindings) : Action Bool := do
  match r.guard with
  | none => return true
  | some g =>
      tryCatch (checkGuard g b) fun f => do
        log .warning .rewriting
          ("Guard of rule " ++ r.labelText ++ " raised " ++ f.kind.name ++ ": " ++ f.message)
        return false

/-- Applies a rule at the root of an expression. -/
def applyRule (r : Rule) (e : Expr) : Action (Option Expr) := do
  match Pattern.match? (← getTable) r.lhs e with
  | none => return none
  | some b =>
      if ← guardHolds r b then
        let result ← substitute b r.rhs
        log .debug .rewriting
          ("Applied rule " ++ r.labelText ++ ": " ++ e.text ++ " -> " ++ result.text)
        return some result
      else return none

/-- The outcome of the first rule that changes the expression. -/
def replaceOnce (rules : List Rule) (e : Expr) : Action (Option Expr) := do
  match rules with
  | [] => return none
  | r :: rest =>
      match ← applyRule r e with
      | some e' => if e'.same e then replaceOnce rest e else return some e'
      | none => replaceOnce rest e

/-- The first rule that applies, with its outcome. -/
def applyFirst (rules : List Rule) (e : Expr) : Action (Option (Expr × Rule)) := do
  match rules with
  | [] => return none
  | r :: rest =>
      match ← applyRule r e with
      | some e' => return some (e', r)
      | none => applyFirst rest e

/-- The rules whose patterns match, with what they bind. -/
def matching (rules : List Rule) (e : Expr) : Action (List (Rule × Bindings)) := do
  let t ← getTable
  return rules.filterMap fun r => (Pattern.match? t r.lhs e).map (r, ·)

/-! ## Rewriting -/

/-- One step of rewriting at the root, after `count` of them: it ends if no rule changes the
expression, or if `bound` steps are made. -/
def replaceStep (rules : List Rule) (bound : Option Int) :
    Nat × Expr → Action ((Nat × Expr) ⊕ Expr)
  | (count, e) => do
      match ← replaceOnce rules e with
      | none => return .inr e
      | some e' =>
          let count := count + 1
          if bound.any fun n => decide (n ≤ (count : Int)) then
            log .debug .rewriting ("Stopped after " ++ intText count ++ " rewrites")
            return .inr e'
          else return .inl (count, e')

/-- Applies rules at the root until none changes it, or `bound` steps are made. -/
def replace (rules : List Rule) (bound : Option Int) (e : Expr) : Action Expr :=
  repeatUntil (replaceStep rules bound) (0, e)

mutual

/-- One pass over all subexpressions, from the inside out. -/
def replacePass (rules : List Rule) (bound : Option Int) : Expr → Action Expr
  | .application f ops d c => do
      let ops' ← replacePassAll rules bound ops
      let e ←
        if Expr.identicalAll ops' ops then pure (.application f ops d c) else rebuild f ops' c
      replace rules bound e
  | e => replace rules bound e

def replacePassAll (rules : List Rule) (bound : Option Int) : List Expr → Action (List Expr)
  | [] => return []
  | e :: rest => do
      let e' ← replacePass rules bound e
      return e' :: (← replacePassAll rules bound rest)

end

/-- One more pass, after `passes` of them: it is the last one if it changes nothing, and it is not
made if `bound` passes are. -/
def replaceAllStep (rules : List Rule) (bound : Option Int) :
    Nat × Expr → Action ((Nat × Expr) ⊕ Expr)
  | (passes, e) => do
      if bound.any fun n => decide (n ≤ (passes : Int)) then return .inr e
      else
        let e' ← replacePass rules bound e
        if e'.same e then return .inr e' else return .inl (passes + 1, e')

/-- Applies rules to all subexpressions until a whole pass changes nothing, or `bound` passes are
made. -/
def replaceAll (rules : List Rule) (bound : Option Int) (e : Expr) : Action Expr :=
  repeatUntil (replaceAllStep rules bound) (0, e)

end Kernel

end SymbolicAlgebra
