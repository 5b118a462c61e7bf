import SymbolicAlgebra.Definition.Flags

/-!
# Definition/Record — definitions from records of fields

A record with a field that only functions have describes a function; every other record describes a
symbol.  Records that mix the two, or hold unknown fields, are refused.
-/

namespace SymbolicAlgebra

/-- A definition record: fields in the order given. -/
abbrev Record := List (String × Datum)

namespace Record

/-- The fields of a symbol definition. -/
def symbolFields : List String := ["value", "type", "constant", "flags", "description", "inferred"]

/-- The fields of a function definition. -/
def functionFields : List String :=
  ["signature", "type", "sgn", "complexity", "associative", "threadable", "lazy", "pure", "numeric",
    "evaluate", "canonical", "description"]

/-- The fields that mark a record as a function definition. -/
def functionMarkers : List String := ["signature", "sgn", "complexity", "evaluate", "canonical"]

def has (r : Record) (field : String) : Bool := r.any (·.1 == field)

/-- A field, or the default if it is absent. -/
def getD (r : Record) (field : String) (default : Datum) : Datum :=
  (r.lookup field).getD default

/-- A field, `null` if it is absent. -/
def get (r : Record) (field : String) : Datum := r.getD field .null

end Record

/-- The name of the kind of a shape, in messages. -/
def Raw.shapeName : Raw → String
  | name _ => "str"
  | int _ => "int"
  | double _ => "float"
  | decimal _ => "Decimal"
  | fraction _ => "Fraction"
  | complex _ _ => "complex"
  | value (.real (.exact _)) => "RationalValue"
  | value (.real (.big _ _)) => "BigValue"
  | value (.real (.machine _)) => "MachineValue"
  | value (.complex _ _) => "ComplexValue"
  | bool _ => "bool"
  | null => "NoneType"
  | list _ => "list"
  | map _ _ => "dict"

namespace Definition

/-- The number that a shape stands for where numbers are expected, tagged with a precision if it is
a decimal. -/
def numberOf (precision : Nat) : Raw → Except Fault Number
  | .value v => .ok v
  | .bool _ => .error .booleanNumber
  | .int n => .ok (.ofInt n)
  | .fraction q => .ok (.real (.exact q))
  | .double x => .ok (.real (.machine x))
  | .decimal d => .ok (.real (.big d precision))
  | .complex re im => .ok (.ofComplex ⟨re, im⟩)
  | r => .error (.notNumeric r.describe)

/-- The type of a symbol that is declared by its value only. -/
def typeOfValue : Datum → TypeName
  | .raw (.int n) => (Number.ofInt n).type
  | .raw (.double x) => (Scalar.machine x).type
  | .raw (.complex re im) => (Number.ofComplex ⟨re, im⟩).type
  | .raw (.value v) => v.type
  | .callback _ => .number
  | _ => .unknown

/-- The flags of a field. -/
def flagsOf : Datum → Except Fault (Option Flags)
  | .flags entries =>
      match Flags.normalize entries with
      | .ok fs => .ok fs
      | .error f => .error (.definition f)
  | d =>
      if !d.truthy then .ok none
      else
        match d with
        | .raw (.name s) => .error (.definition (.unknownFlag (s.take 1).toString))
        | .raw r => .error (.notIterable r.shapeName)
        | _ => .error .wrongArguments

/-- The definition of a symbol from a record of symbol fields. -/
def ofSymbolRecord (name : String) (r : Record) : Except Fault SymbolDefinition := do
  let value := r.get "value"
  let typeField := r.get "type"
  let inferredField := r.get "inferred"
  let (type, inferred) ←
    match typeField with
    | .raw .null =>
        let inferred := if inferredField.isNull then value.isNull else inferredField.truthy
        pure (typeOfValue value, inferred)
    | .raw (.name t) =>
        let type := TypeName.ofName t
        if type.isKnown then pure (type, inferredField.truthy)
        else throw (.definition (.unknownType t name))
    | _ => throw (.definition .symbolTypeNotText)
  return {
    name, value, type
    constant := r.getD "constant" (.ofBool false)
    flags := ← flagsOf (r.get "flags")
    description := r.get "description"
    inferred }

/-- A field that holds a behaviour or nothing. -/
def callbackOf (r : Record) (field : String) : Except Fault (Option Callback) :=
  match r.get field with
  | .callback c => .ok (some c)
  | d => if d.isNull then .ok none else .error (.definition (.callbackExpected field))

/-- The signature of a function definition. -/
def signatureOf (name : String) (inferred : Bool) : Datum → Except Fault Signature
  | .raw .null =>
      .ok { rest := some .any, result := .fixed (if inferred then .unknown else .any) }
  | .raw (.name text) =>
      match Signature.parse text with
      | .ok s => .ok s
      | .error f => .error (.definition (.invalidSignature name f))
  | .signature s => .ok s
  | _ => .error .missingOperand

/-- The definition of a function from a record.  A field that functions do not take is refused as a
wrong argument. -/
def ofFunctionRecord (name : String) (r : Record) : Except Fault FunctionDefinition := do
  if r.any fun (k, _) => !(Record.functionFields.contains k || k == "inferred") then
    throw .wrongArguments
  let type ← callbackOf r "type"
  let sign ← callbackOf r "sgn"
  let evaluate ← callbackOf r "evaluate"
  let canonical ← callbackOf r "canonical"
  let complexity ←
    match r.getD "complexity" (.raw (.int defaultComplexity)) with
    | .raw (.int n) => pure n
    | _ => throw (.definition (.complexityNotInteger name))
  let inferred := r.getD "inferred" (.ofBool false)
  let signature ← signatureOf name inferred.truthy (r.get "signature")
  let signature :=
    match type with
    | some (.resultType rule) => { signature with result := rule }
    | some _ => { signature with result := .fixed .unknown }
    | none => signature
  return {
    name, signature, sign, complexity, evaluate, canonical, inferred
    associative := r.getD "associative" (.ofBool false)
    threadable := r.getD "threadable" (.ofBool false)
    isLazy := r.getD "lazy" (.ofBool false)
    isPure := r.getD "pure" (.ofBool true)
    numeric := r.getD "numeric" (.ofBool false)
    description := r.get "description" }

/-- The first field, in order, that decides about a record without function markers: an unknown
field, or one that only functions have. -/
def decisiveField? (r : Record) : Option String :=
  (r.find? fun (k, _) => !Record.symbolFields.contains k).map (·.1)

/-- Classifies a record and builds the definition it describes. -/
def ofRecord (name : String) (r : Record) : Except Fault Definition := do
  if Record.functionMarkers.any r.has then
    if r.has "constant" then throw (.definition .constantFunction)
    if r.has "value" || r.has "flags" then
      if r.has "signature" then throw (.definition .symbolWithSignature)
      if r.has "sgn" then throw (.definition .symbolWithSign)
      throw (.definition (.mixedFields name))
    match r.find? fun (k, _) => !Record.functionFields.contains k with
    | some (k, _) => throw (.definition (.unknownFunctionField k name))
    | none => return .function (← ofFunctionRecord name r)
  else
    match decisiveField? r with
    | none => return .symbol (← ofSymbolRecord name r)
    | some k =>
        if Record.functionFields.contains k then return .function (← ofFunctionRecord name r)
        else throw (.definition (.unknownField k name))

end Definition

end SymbolicAlgebra
