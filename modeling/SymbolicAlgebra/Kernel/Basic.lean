import SymbolicAlgebra.Definition.Table

/-!
# Kernel/Basic — the state that expressions are built in

A kernel holds its settings, its definitions, the pool of canonical expressions built so far, the
values of symbols computed so far, and a journal of what it noticed.  An `Action` runs in a kernel
and may fail; what it changed before failing stays.

`Kernel.intern` gives the first of several equal expressions, so that the representation seen first
is the one that stays.
-/

namespace SymbolicAlgebra

/-- The unit angles are given in. -/
inductive AngularUnit
  | rad | deg | grad | turn
  deriving DecidableEq

namespace AngularUnit

def all : List AngularUnit := [rad, deg, grad, turn]

def name : AngularUnit → String
  | rad => "rad"
  | deg => "deg"
  | grad => "grad"
  | turn => "turn"

def ofName? (n : String) : Option AngularUnit := all.find? fun u => u.name == n

end AngularUnit

/-- The settings of a kernel. -/
structure Settings where
  /-- Significant digits of approximate results. -/
  precision : Nat := machinePrecision
  /-- Whether operands are checked against signatures. -/
  strict : Bool := true
  unit : AngularUnit := .rad

/-- How important a journal entry is. -/
inductive Level
  | debug | warning
  deriving DecidableEq

def Level.name : Level → String
  | debug => "DEBUG"
  | warning => "WARNING"

/-- The parts that write to the journal. -/
inductive Source
  | definitions | settings | rewriting | rules
  deriving DecidableEq

def Source.name : Source → String
  | definitions => "symkern.definitions"
  | settings => "symkern.engine"
  | rewriting => "symkern.rewriter"
  | rules => "symkern.rules"

/-- An entry of the journal. -/
structure LogRecord where
  level : Level
  source : Source
  message : String

/-- The state that expressions are built in. -/
structure Kernel where
  settings : Settings := {}
  table : DefinitionTable := {}
  /-- Canonical expressions built so far, latest first. -/
  pool : List Expr := []
  /-- Values of symbols computed so far, latest first. -/
  constants : List (String × Option Number) := []
  /-- What was noticed, latest first. -/
  journal : List LogRecord := []

/-- A computation in a kernel. -/
abbrev Action := ExceptT Fault (StateM Kernel)

namespace Kernel

/-- Carries the outcome of a computation on numbers over. -/
def number {α : Type} (x : Except NumberFault α) : Action α :=
  match x with
  | .ok a => pure a
  | .error f => throw (.number f)

/-- Carries an outcome over. -/
def ofExcept {α : Type} (x : Except Fault α) : Action α :=
  match x with
  | .ok a => pure a
  | .error f => throw f

/-- A part that has to be there. -/
def require {α : Type} (x : Option α) : Action α :=
  match x with
  | some a => pure a
  | none => throw .missingOperand

/-- Writes to the journal. -/
def log (level : Level) (source : Source) (message : String) : Action Unit :=
  modify fun k => { k with journal := ⟨level, source, message⟩ :: k.journal }

/-- The definitions in force. -/
def getTable : Action DefinitionTable := do return (← get).table

/-- The precision in force. -/
def getPrecision : Action Nat := do return (← get).settings.precision

/-- Whether operands are checked. -/
def isStrict : Action Bool := do return (← get).settings.strict

section Repetition

variable {σ α : Type}

/-- What follows a step: its result if it gave one or failed, else what comes `next`. -/
def proceed (next : σ → Kernel → Option (Except Fault α × Kernel)) :
    Except Fault (σ ⊕ α) × Kernel → Option (Except Fault α × Kernel)
  | (.ok (.inl s), k) => next s k
  | (.ok (.inr a), k) => some (.ok a, k)
  | (.error f, k) => some (.error f, k)

/-- What follows a step only depends on what comes next, in whatever sense of more or less. -/
theorem proceed_mono {R : Option (Except Fault α × Kernel) → Option (Except Fault α × Kernel) → Prop}
    (refl : ∀ o, R o o) {f g : σ → Kernel → Option (Except Fault α × Kernel)}
    (h : ∀ s k, R (f s k) (g s k)) (x : Except Fault (σ ⊕ α) × Kernel) :
    R (proceed f x) (proceed g x) := by
  unfold proceed
  split
  · exact h _ _
  · exact refl _
  · exact refl _

/-- What repeating a step until it gives a result ends with; `none` if it has no end. -/
def outcome? (step : σ → Action (σ ⊕ α)) : σ → Kernel → Option (Except Fault α × Kernel) :=
  fun s k => proceed (outcome? step) ((step s).run.run k)
partial_fixpoint monotonicity fun _ _ h s k =>
  proceed_mono (fun _ => .refl) h ((step s).run.run k)

/-- Repeats a step until it gives a result.  Whether it ever does is up to the step. -/
def repeatUntil (step : σ → Action (σ ⊕ α)) (s : σ) : Action α :=
  ExceptT.mk fun k => (outcome? step s k).getD (.error .unbounded, k)

end Repetition

/-- The first expression of the pool that equals the given one. -/
def pooled? (pool : List Expr) (e : Expr) : Option Expr := pool.find? fun x => e.same x

/-- The pooled expression that equals the given one, which enters the pool if there is none. -/
def intern (e : Expr) : Action Expr := do
  match pooled? (← get).pool e with
  | some x => return x
  | none =>
      modify fun k => { k with pool := e :: k.pool }
      return e

/-- Narrows the type of an expression, if its definition leaves it open. -/
def infer (e : Expr) (type : TypeName) : Action Bool := do
  match e.definition?, (← getTable).definitionOf e with
  | some i, some (.symbol d) =>
      if e.isSymbol && d.accepts type then
        log .debug .definitions ("Inferred type of symbol " ++ d.name ++ ": " ++ type.name)
        modify fun k => { k with table := k.table.modify i fun _ => .symbol { d with type } }
        return true
      else return false
  | some i, some (.function d) =>
      if e.isApplication && d.accepts type then
        log .debug .definitions
          ("Inferred result type of function " ++ d.name ++ ": " ++ type.name)
        modify fun k =>
          { k with
            table := k.table.modify i fun _ =>
              .function { d with signature := { d.signature with result := .fixed type } } }
        return true
      else return false
  | _, _ => return false

/-! ## Settings and declarations -/

/-- Sets the precision; values of symbols are computed anew at another one. -/
def setPrecision (value : Raw) : Action Unit := do
  let wanted : Raw :=
    match value with
    | .name "machine" => .int machinePrecision
    | v => v
  match wanted with
  | .int n =>
      if n < 1 then throw (.precision wanted.describe)
      let old ← getPrecision
      if n.toNat ≠ old then
        log .debug .settings
          ("Precision changed from " ++ intText old ++ " to " ++ intText n)
        modify fun k => { k with constants := [] }
      modify fun k => { k with settings := { k.settings with precision := n.toNat } }
  | v => throw (.precision v.describe)

/-- Sets the unit of angles. -/
def setUnit (value : Raw) : Action Unit :=
  match value with
  | .name n =>
      match AngularUnit.ofName? n with
      | some unit => modify fun k => { k with settings := { k.settings with unit } }
      | none => throw (.angularUnit value.describe)
  | v => throw (.angularUnit v.describe)

/-- Sets whether operands are checked. -/
def setStrict (strict : Bool) : Action Unit :=
  modify fun k => { k with settings := { k.settings with strict } }

/-- What a name may be declared as. -/
inductive Declaration
  | record (fields : Record)
  | other (value : Datum)

/-- The definition that a declaration describes; a type name describes a symbol. -/
def definitionOf (name : String) : Declaration → Except Fault Definition
  | .record fields => Definition.ofRecord name fields
  | .other (.raw (.name type)) => Definition.ofRecord name [("type", .raw (.name type))]
  | .other (.raw (.map [] _)) => Definition.ofRecord name []
  | .other value => .error (.definition (.invalid name value.describe))

/-- Declares a name.  A name that has a definition can only be declared if that was inferred and
has no type yet; the pool is emptied then, because it holds expressions built with it. -/
def declare (name : String) (declaration : Declaration) : Action Unit := do
  let existing := (← getTable).find? name
  let d ← ofExcept (definitionOf name declaration)
  if let some old := existing then
    if !(old.isInferred && old.isUnresolved) then throw (.definition (.alreadyDefined name))
  log .debug .definitions ("Declared " ++ d.kindName ++ " " ++ name)
  modify fun k =>
    { k with
      table := k.table.register name d
      constants := k.constants.filter fun (n, _) => n != name
      pool := if existing.isSome then [] else k.pool }

/-- Declares names one after the other. -/
def declareAll : List (String × Declaration) → Action Unit
  | [] => return
  | (name, declaration) :: rest => do
      declare name declaration
      declareAll rest

/-- Puts the settings and the library of a new kernel in place. -/
def configure (precision unit : Raw) (strict : Bool) (library : List (String × Declaration)) :
    Action Unit := do
  setPrecision precision
  setUnit unit
  setStrict strict
  declareAll library

/-- Forgets all definitions, expressions and values. -/
def close : Action Unit :=
  modify fun k => { k with table := k.table.clear, pool := [], constants := [] }

/-- The kernel as it is shown. -/
def describe (k : Kernel) : String :=
  "Engine(precision=" ++ intText k.settings.precision ++ ", strict=" ++
    (if k.settings.strict then "True" else "False") ++ ", angular_unit='" ++
    k.settings.unit.name ++ "')"

end Kernel

end SymbolicAlgebra
