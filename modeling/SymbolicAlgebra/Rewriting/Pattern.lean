import SymbolicAlgebra.Definition.Table

/-!
# Rewriting/Pattern — matching a pattern against an expression

A pattern is an expression whose wildcards stand for arbitrary subexpressions: `_x` for the same one
wherever it occurs, `_` for any.  A wildcard operator `_f` stands for an operator name.  Everything
else has to be equal: symbols and operators by name, numbers by value.
-/

namespace SymbolicAlgebra

/-- What the wildcards of a pattern stand for, in the order they were bound. -/
abbrev Bindings := List (String × Expr)

namespace Bindings

/-- The wildcard that a key stands for; the underscore may be left out. -/
def key (k : String) : String := if Expr.isWildcardName k then k else "_" ++ k

/-- What a wildcard stands for. -/
def get? (b : Bindings) (k : String) : Option Expr := b.lookup (key k)

/-- What a wildcard stands for in the outcome of a match. -/
def item (outcome : Option Bindings) (k : String) : Except Fault Expr :=
  match outcome with
  | none => .error (.noMatch k)
  | some b =>
      match b.get? k with
      | some e => .ok e
      | none => .error (.unboundName (key k))

/-- The bindings as they are shown. -/
def describe (b : Bindings) : String :=
  "Bindings(\x7b" ++ ", ".intercalate (b.map fun (k, e) => k ++ ": " ++ e.text) ++ "\x7d)"

/-- The outcome of a match as it is shown. -/
def describeOutcome : Option Bindings → String
  | none => "NoMatch"
  | some b => describe b

end Bindings

namespace Pattern

/-- An operator name as a symbol, which is what a wildcard operator is bound to. -/
def headSymbol (t : DefinitionTable) (operator : String) : Expr :=
  if Expr.isWildcardName operator then .symbol operator none true
  else .symbol operator (t.number? operator) false

/-- Binds a wildcard, or checks what it is bound to already. -/
def bind? (name : String) (e : Expr) (b : Bindings) : Option Bindings :=
  if name == "_" then some b
  else
    match b.lookup name with
    | some x => if x.same e then some b else none
    | none => some (b ++ [(name, e)])

/-- Matches an operator name; a wildcard other than `_` is bound to it. -/
def matchOperator? (t : DefinitionTable) (pattern operator : String) (b : Bindings) :
    Option Bindings :=
  if Expr.isWildcardName pattern && pattern != "_" then
    match b.lookup pattern with
    | some x => if x.symbol? == some operator then some b else none
    | none => some (b ++ [(pattern, headSymbol t operator)])
  else if pattern == operator then some b
  else none

mutual

/-- Matches a pattern against an expression, starting from what is bound already. -/
def matchFrom? (t : DefinitionTable) : Expr → Expr → Bindings → Option Bindings
  | .symbol n _ _, e, b =>
      if Expr.isWildcardName n then bind? n e b
      else if e.symbol? == some n then some b
      else none
  | .number v, e, b =>
      match e with
      | .number w => if v.compare? w == some 0 then some b else none
      | _ => none
  | .application f ps _ _, e, b =>
      match e with
      | .application g es _ _ =>
          if ps.length != es.length then none
          else
            match matchOperator? t f g b with
            | none => none
            | some b => matchAllFrom? t ps es b
      | _ => none
  | .error _ _ _, _, _ => none

def matchAllFrom? (t : DefinitionTable) : List Expr → List Expr → Bindings → Option Bindings
  | p :: ps, e :: es, b =>
      match matchFrom? t p e b with
      | none => none
      | some b => matchAllFrom? t ps es b
  | _, _, b => some b

end

/-- Matches a pattern against an expression. -/
def match? (t : DefinitionTable) (pattern e : Expr) : Option Bindings := matchFrom? t pattern e []

end Pattern

end SymbolicAlgebra
