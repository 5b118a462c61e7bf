import SymbolicAlgebra.Text.Blank
import SymbolicAlgebra.Text.Lines
import SymbolicAlgebra.Text.Quoted
import SymbolicAlgebra.Types.Lattice

/-!
# Types/Signature — parameter types and result type of a function

A signature is written `(real, real?, ...real) -> real`: required parameters first, then optional
ones with `?` behind them, then at most one rest parameter with `...` before it.  The result type
may also be computed from the operand types, by one of a few rules.
-/

namespace SymbolicAlgebra

/-- How the type of an application follows from the types of its operands. -/
inductive ResultRule
  /-- Always the same type. -/
  | fixed (t : TypeName)
  /-- The narrowest type of all operands if all are numbers, else `number`. -/
  | numeric
  /-- `real` if all operands are real, else `number`. -/
  | realOrNumber
  /-- As `numeric`, but two integers have a rational quotient. -/
  | quotient
  /-- The type of the base for an integer exponent, a rational for an integer base; else
  `number`. -/
  | power
  /-- The type of the first operand, `nothing` without operands. -/
  | first
  /-- `integer` for one operand, else `real`. -/
  | arity
  deriving DecidableEq

namespace ResultRule

def numericType (types : List TypeName) : TypeName :=
  if types.all (·.isSubtype .number) then TypeName.widen types else .number

/-- Integers widen to rationals. -/
def integerToRational (t : TypeName) : TypeName := if t = .integer then .rational else t

/-- The type of an application to operands of the given types. -/
def apply (rule : ResultRule) (types : List TypeName) : TypeName :=
  match rule with
  | fixed t => t
  | numeric => numericType types
  | realOrNumber => if types.all (·.isSubtype .real) then .real else .number
  | quotient => integerToRational (numericType types)
  | power =>
      match types with
      | [base, exponent] =>
          if exponent.isSubtype .integer then integerToRational (numericType [base]) else .number
      | _ => .number
  | first => types.head?.getD .nothing
  | arity => if types.length = 1 then .integer else .real

/-- The type, for a rule that always gives the same one. -/
def fixed? : ResultRule → Option TypeName
  | fixed t => some t
  | _ => none

end ResultRule

/-- Parameter types of a function and the rule for its result type. -/
structure Signature where
  required : List TypeName := []
  optional : List TypeName := []
  rest : Option TypeName := none
  result : ResultRule := .fixed .any
  deriving DecidableEq

namespace Signature

/-- Why a text is no signature, or a list of types no parameter list. -/
inductive Fault
  | unknownType (name : String)
  | malformed (text : String)
  | unknownResult (name : String)
  | restNotLast (text : String)
  | requiredAfterOptional (text : String)

def Fault.message : Fault → String
  | unknownType n => s!"Unknown type '{n}' in signature"
  | malformed text => "Malformed signature: " ++ Text.quoted text
  | unknownResult n => s!"Unknown result type '{n}' in signature"
  | restNotLast text => "Rest parameter must be last: " ++ Text.quoted text
  | requiredAfterOptional text => "Required parameter after optional one: " ++ Text.quoted text

/-- Puts a signature together; every parameter has a known type, except that the rest parameter may
be nameless. -/
def make (required optional : List TypeName) (rest : Option TypeName) (result : ResultRule) :
    Except Fault Signature :=
  let named := rest.toList.filter (· != .other "")
  match (required ++ optional ++ named).find? fun t => !t.isKnown with
  | some t => .error (.unknownType t.name)
  | none => .ok ⟨required, optional, rest, result⟩

/-- The parameters read so far. -/
structure Parameters where
  required : List TypeName := []
  optional : List TypeName := []
  rest : Option TypeName := none

/-- Adds one written parameter. -/
def Parameters.read (text : String) (ps : Parameters) (param : List Char) :
    Except Fault Parameters :=
  let named (cs : List Char) : TypeName := .ofName (String.ofList (Text.stripChars cs))
  if ps.rest.isSome then .error (.restNotLast text)
  else if "...".toList.isPrefixOf param then .ok { ps with rest := some (named (param.drop 3)) }
  else if param.getLast? == some '?' then
    .ok { ps with optional := ps.optional ++ [named param.dropLast] }
  else if !ps.optional.isEmpty then .error (.requiredAfterOptional text)
  else .ok { ps with required := ps.required ++ [named param] }

/-- Reads a signature. -/
def parse (source : String) : Except Fault Signature := do
  let chars := Text.stripChars source.toList
  let text := String.ofList chars
  let (params, result) :=
    match Text.cutLast "->".toList chars with
    | some (before, after) => (Text.stripChars before, String.ofList (Text.stripChars after))
    | none => (chars, "any")
  if params.head? != some '(' || params.getLast? != some ')' then throw (.malformed text)
  let resultType := TypeName.ofName result
  if !resultType.isKnown then throw (.unknownResult result)
  let body := Text.stripChars (params.drop 1).dropLast
  let written := if body.isEmpty then [] else Text.splitChars (· == ',') body
  let ps ← written.foldlM (fun ps p => Parameters.read text ps (Text.stripChars p)) {}
  make ps.required ps.optional ps.rest (.fixed resultType)

/-- Whether only one number of operands fits. -/
def isFixedArity (s : Signature) : Bool := s.optional.isEmpty && s.rest.isNone

/-- The text of a result rule: a computed type is shown as `any`. -/
def resultText (s : Signature) : String := (s.result.fixed?.getD .any).name

/-- Writes a signature. -/
def text (s : Signature) : String :=
  let rest := s.rest.toList.filter (· != .other "")
  let params := s.required.map (·.name) ++ s.optional.map (·.name ++ "?") ++
    rest.map ("..." ++ ·.name)
  "(" ++ ", ".intercalate params ++ ") -> " ++ s.resultText

end Signature

end SymbolicAlgebra
