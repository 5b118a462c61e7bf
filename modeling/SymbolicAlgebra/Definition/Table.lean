import SymbolicAlgebra.Definition.Record

/-!
# Definition/Table — registered definitions

Every registration gets a number of its own and is kept for good; a name stands for its latest
registration.  Expressions hold registration numbers, so an expression keeps the definition it was
built with when its name is declared again, and sees a type that is inferred later.
-/

namespace SymbolicAlgebra

/-- The registered definitions, and the names in the order they were first defined. -/
structure DefinitionTable where
  entries : Array Definition := #[]
  names : List (String × Nat) := []

namespace DefinitionTable

/-- The registration a name stands for. -/
def number? (t : DefinitionTable) (name : String) : Option Nat := t.names.lookup name

/-- A registration by its number. -/
def get? (t : DefinitionTable) (i : Nat) : Option Definition := t.entries[i]?

/-- The definition of a name. -/
def find? (t : DefinitionTable) (name : String) : Option Definition := (t.number? name).bind t.get?

def contains (t : DefinitionTable) (name : String) : Bool := (t.number? name).isSome

/-- The registration of a name that is a function. -/
def functionNumber? (t : DefinitionTable) (name : String) : Option Nat :=
  match t.find? name with
  | some (.function _) => t.number? name
  | _ => none

def symbol? (t : DefinitionTable) (name : String) : Option SymbolDefinition :=
  (t.find? name).bind Definition.symbol?

def function? (t : DefinitionTable) (name : String) : Option FunctionDefinition :=
  (t.find? name).bind Definition.function?

/-- Registers a definition under a name; a name that was defined before keeps its place. -/
def register (t : DefinitionTable) (name : String) (d : Definition) : DefinitionTable :=
  let i := t.entries.size
  { entries := t.entries.push d
    names :=
      if t.contains name then t.names.map fun (n, j) => if n == name then (n, i) else (n, j)
      else t.names ++ [(name, i)] }

/-- Changes a registration. -/
def modify (t : DefinitionTable) (i : Nat) (f : Definition → Definition) : DefinitionTable :=
  { t with entries := t.entries.modify i f }

/-- Forgets all names; expressions keep their registrations. -/
def clear (t : DefinitionTable) : DefinitionTable := { t with names := [] }

/-- The number of defined names. -/
def size (t : DefinitionTable) : Nat := t.names.length

/-- The table as it is shown. -/
def describe (t : DefinitionTable) : String :=
  "DefinitionTable(" ++ intText t.size ++ " definitions)"

/-! ## What the table knows about expressions -/

mutual

/-- The type of an expression. -/
def typeOf (t : DefinitionTable) : Expr → TypeName
  | .number v => v.type
  | .symbol _ d _ =>
      match d.bind t.get? with
      | none => .unknown
      | some (.symbol s) => s.type
      | some (.function _) => .function
  | .application _ ops d _ =>
      match d.bind t.get? with
      | some (.function f) => f.signature.result.apply (typesOf t ops)
      | _ => .unknown
  | .error _ _ _ => .nothing

def typesOf (t : DefinitionTable) : List Expr → List TypeName
  | [] => []
  | e :: rest => typeOf t e :: typesOf t rest

end

/-- The definition an expression was built with. -/
def definitionOf (t : DefinitionTable) (e : Expr) : Option Definition := e.definition?.bind t.get?

/-- The definition of the operator of an application. -/
def functionOf (t : DefinitionTable) (e : Expr) : Option FunctionDefinition :=
  (t.definitionOf e).bind Definition.function?

/-- Whether the value of an expression is known to be a number. -/
def isNumeric (t : DefinitionTable) (e : Expr) : Bool := (t.typeOf e).isSubtype .number

/-- Whether a symbol is declared constant. -/
def isConstant (t : DefinitionTable) (e : Expr) : Bool :=
  match e, t.definitionOf e with
  | .symbol _ _ _, some (.symbol s) => s.constant.truthy
  | _, _ => false

mutual

/-- Whether an expression is free of side effects and chance. -/
def isPure (t : DefinitionTable) : Expr → Bool
  | .application _ ops d _ =>
      (match d.bind t.get? with
        | some (.function f) => f.isPure.truthy
        | _ => true) && allPure t ops
  | _ => true

def allPure (t : DefinitionTable) : List Expr → Bool
  | [] => true
  | e :: rest => isPure t e && allPure t rest

end

/-- The complexity of the operator of an application; zero for everything else. -/
def complexity (t : DefinitionTable) (e : Expr) : Int :=
  match e, t.functionOf e with
  | .application _ _ _ _, some f => f.complexity
  | _, _ => 0

end DefinitionTable

end SymbolicAlgebra
