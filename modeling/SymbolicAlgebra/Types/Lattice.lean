/-!
# Types/Lattice — the tree of types

    any ─┬─ expression ─┬─ symbol
         │              └─ function
         ├─ number ─┬─ complex ── imaginary
         │          └─ real ── rational ── integer
         ├─ boolean
         ├─ string
         └─ collection ── list

`nothing` lies below every type.  `unknown` marks a type that is not inferred yet; apart from itself
only `any` lies above it.  A name outside the tree is a type of its own without relatives.
-/

namespace SymbolicAlgebra

/-- A type, by name. -/
inductive TypeName
  | any | expression | symbol | function | number | complex | imaginary | real | rational | integer
  | boolean | string | collection | list | nothing | unknown
  | other (name : String)
  deriving DecidableEq, Inhabited

namespace TypeName

/-- The types of the tree, with `nothing` and `unknown`. -/
def known : List TypeName :=
  [any, expression, symbol, function, number, complex, imaginary, real, rational, integer, boolean,
    string, collection, list, nothing, unknown]

def name : TypeName → String
  | any => "any"
  | expression => "expression"
  | symbol => "symbol"
  | function => "function"
  | number => "number"
  | complex => "complex"
  | imaginary => "imaginary"
  | real => "real"
  | rational => "rational"
  | integer => "integer"
  | boolean => "boolean"
  | string => "string"
  | collection => "collection"
  | list => "list"
  | nothing => "nothing"
  | unknown => "unknown"
  | other n => n

/-- The type a name stands for. -/
def ofName (n : String) : TypeName :=
  (known.find? fun t => t.name == n).getD (other n)

/-- Whether a type belongs to the lattice. -/
def isKnown : TypeName → Bool
  | other _ => false
  | _ => true

/-- The type right above, if there is one. -/
def parent : TypeName → Option TypeName
  | expression | number | boolean | string | collection => some any
  | symbol | function => some expression
  | complex | real => some number
  | imaginary => some complex
  | rational => some real
  | integer => some rational
  | list => some collection
  | any | nothing | unknown | other _ => none

/-- How many types stand above. -/
def depth : TypeName → Nat
  | any | nothing | unknown | other _ => 0
  | expression | number | boolean | string | collection => 1
  | symbol | function | complex | real | list => 2
  | imaginary | rational => 3
  | integer => 4

theorem depth_parent_lt {t p : TypeName} (h : t.parent = some p) : p.depth < t.depth := by
  cases t <;> simp [parent] at h <;> subst h <;> decide

/-- The type and those above it, up to the root. -/
def ancestors (t : TypeName) : List TypeName :=
  match _h : t.parent with
  | none => [t]
  | some p => t :: ancestors p
termination_by t.depth
decreasing_by exact depth_parent_lt _h

def isSubtype (l r : TypeName) : Bool :=
  if r = any ∨ l = nothing then true
  else if l = unknown then r = unknown
  else l.ancestors.contains r

/-- Whether one of two types is a subtype of the other. -/
def isCompatible (l r : TypeName) : Bool := isSubtype l r || isSubtype r l

/-- Whether a type names a place in the tree that inference may still fill. -/
def isOpen (t : TypeName) : Bool := t = unknown || t = any

/-- The narrowest common supertype; `nothing` and `unknown` do not count unless there is nothing
else. -/
def widen (types : List TypeName) : TypeName :=
  match types.filter fun t => t != nothing && t != unknown with
  | [] => if types.contains unknown then unknown else nothing
  | t :: rest =>
      let common := rest.foldl (fun chain u => chain.filter u.ancestors.contains) t.ancestors
      common.head?.getD any

end TypeName

end SymbolicAlgebra
