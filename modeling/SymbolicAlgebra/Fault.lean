import SymbolicAlgebra.Raw
import SymbolicAlgebra.Types.Signature

/-!
# Fault — why an operation gives no result

Each fault is a cause; `Fault.message` is its wording and `Fault.kind` the class it is reported
under.  Faults that the library itself decides on carry their text to the user
(`Fault.isDeclared`); the others are failures of the operations underneath.
-/

namespace SymbolicAlgebra

/-- Why a definition is refused. -/
inductive DefinitionFault
  | unknownFlag (flag : String)
  | symbolTypeNotText
  | unknownType (type name : String)
  | callbackExpected (field : String)
  | complexityNotInteger (name : String)
  | invalidSignature (name : String) (fault : Signature.Fault)
  | notARecord (name shape : String)
  | constantFunction
  | symbolWithSignature
  | symbolWithSign
  | mixedFields (name : String)
  | unknownFunctionField (field name : String)
  | unknownField (field name : String)
  | invalid (name shown : String)
  | alreadyDefined (name : String)

def DefinitionFault.message : DefinitionFault → String
  | unknownFlag flag => s!"Unknown numeric flag `{flag}`"
  | symbolTypeNotText => "The `type` field of a symbol definition should be of type `string`"
  | unknownType type name => s!"Unknown type `{type}` in definition of `{name}`"
  | callbackExpected field =>
      s!"The `{field}` field of a function definition should be a function"
  | complexityNotInteger name => s!"The `complexity` of `{name}` should be an integer"
  | invalidSignature name fault => s!"Invalid signature for `{name}`: " ++ fault.message
  | notARecord name shape => s!"Definition of `{name}` should be a dict, got {shape}"
  | constantFunction =>
      "Function definition cannot have a `constant` field and symbol definition " ++
        "cannot have a `signature` field."
  | symbolWithSignature =>
      "Symbol definition cannot have a `signature` field. Use a `type` field instead."
  | symbolWithSign =>
      "Symbol definition cannot have a `sgn` field. Use a `flags.sgn` field instead."
  | mixedFields name => s!"Definition of `{name}` mixes symbol and function fields"
  | unknownFunctionField field name =>
      s!"Unknown field `{field}` in definition of function `{name}`"
  | unknownField field name => s!"Unknown field `{field}` in definition of `{name}`"
  | invalid name shown => s!"Invalid definition for `{name}`: {shown}"
  | alreadyDefined name => s!"`{name}` is already defined"

/-- The classes faults are reported under. -/
inductive FaultKind
  | value | definition | json | type | key | missingPart | index | overflow | zeroDivision
  | decimalInvalid | decimalZeroDivision | decimalOverflow | fileNotFound | isADirectory
  | notADirectory | recursion
  deriving DecidableEq

/-- The name of a class in a report. -/
def FaultKind.name : FaultKind → String
  | value => "ValueError"
  | definition => "DefinitionError"
  | json => "JSONDecodeError"
  | type => "TypeError"
  | key => "KeyError"
  | missingPart => "AttributeError"
  | index => "IndexError"
  | overflow => "OverflowError"
  | zeroDivision => "ZeroDivisionError"
  | decimalInvalid => "InvalidOperation"
  | decimalZeroDivision => "DivisionByZero"
  | decimalOverflow => "Overflow"
  | fileNotFound => "FileNotFoundError"
  | isADirectory => "IsADirectoryError"
  | notADirectory => "NotADirectoryError"
  | recursion => "RecursionError"

/-- Whether a class is one of wrong values. -/
def FaultKind.isValue : FaultKind → Bool
  | value | definition | json => true
  | _ => false

/-- Whether a class is one of files that cannot be read. -/
def FaultKind.isFile : FaultKind → Bool
  | fileNotFound | isADirectory | notADirectory => true
  | _ => false

/-- Why an operation gives no result. -/
inductive Fault
  -- reading and writing
  | unexpectedClose
  | missingClose
  | trailingInput (rest : String)
  | unwritable (shown : String)
  | malformedJson (message : String)
  -- numbers
  | number (fault : NumberFault)
  | booleanNumber
  | notNumeric (shown : String)
  -- types, definitions and settings
  | signature (fault : Signature.Fault)
  | definition (fault : DefinitionFault)
  | precision (shown : String)
  | angularUnit (shown : String)
  | notAnInteger (text : String)
  -- building expressions
  | operatorExpected (shown : String)
  | notAnExpression (shown : String)
  | missingOperand
  | operandIndex
  | tooManyOperands (expected : Nat)
  | tooFewOperands (expected got : Nat)
  | wrongArguments
  -- rules
  | emptyRuleSide
  | invalidCondition (shown : String)
  | sidesExpected (shown : String)
  | invalidRule (shown : String)
  | notARule (line : String)
  | missingSide (line : String)
  | notIterable (shape : String)
  | circularInclude (path : String)
  | includeNotFound (path : String)
  | fileNotFound (path : String)
  | isADirectory (path : String)
  | notADirectory (path : String)
  | noRuleNamed (name : String)
  | unboundName (name : String)
  | noMatch (name : String)
  | rejected (message : String)
  -- recursion without end
  | unbounded

namespace Fault

/-- The wording of a signal of decimal arithmetic. -/
def signalMessage : Decimal.Signal → String
  | .invalidOperation => "[<class 'decimal.InvalidOperation'>]"
  | .divisionByZero => "[<class 'decimal.DivisionByZero'>]"
  | .overflow => "[<class 'decimal.Overflow'>]"

def numberMessage : NumberFault → String
  | .decimal s => signalMessage s
  | .double .domain => "math domain error"
  | .double .range => "math range error"
  | .double .zeroDivision => "float division by zero"
  | .double .zeroModulo => "float modulo"
  | .double .zeroPower => "0.0 cannot be raised to a negative power"
  | .zeroRational => "Fraction(1, 0)"
  | .integerTooLarge => "int too large to convert to float"
  | .complexToDouble => "Cannot convert a complex value to a float"
  | .noConjugate kind => s!"'{kind}' object has no attribute 'conjugate'"

def numberKind : NumberFault → FaultKind
  | .decimal .invalidOperation => .decimalInvalid
  | .decimal .divisionByZero => .decimalZeroDivision
  | .decimal .overflow => .decimalOverflow
  | .double .domain => .value
  | .double .range => .overflow
  | .double .zeroDivision | .double .zeroModulo | .double .zeroPower => .zeroDivision
  | .zeroRational => .zeroDivision
  | .integerTooLarge => .overflow
  | .complexToDouble => .type
  | .noConjugate _ => .missingPart

def message : Fault → String
  | unexpectedClose => "Unbalanced parentheses: unexpected ')'"
  | missingClose => "Unbalanced parentheses: missing ')'"
  | trailingInput rest => "Unexpected input after expression: " ++ rest
  | unwritable shown => "Not a number: " ++ shown
  | malformedJson m => m
  | number f => numberMessage f
  | booleanNumber => "Booleans are not numeric values"
  | notNumeric shown => "Cannot convert " ++ shown ++ " to a numeric value"
  | signature f => f.message
  | definition f => f.message
  | precision shown => "Precision must be a positive integer or 'machine', got " ++ shown
  | angularUnit shown => "Angular unit must be one of rad, deg, grad, turn, got " ++ shown
  | notAnInteger text => "invalid literal for int() with base 10: " ++ Text.quoted text
  | operatorExpected shown => "Function expression needs an operator name: " ++ shown
  | notAnExpression shown => "Cannot box " ++ shown
  | missingOperand => "'NoneType' object has no attribute 'is_number_literal'"
  | operandIndex => "tuple index out of range"
  | tooManyOperands n => "too many values to unpack (expected " ++ intText n ++ ")"
  | tooFewOperands n got =>
      "not enough values to unpack (expected " ++ intText n ++ ", got " ++ intText got ++ ")"
  | wrongArguments => "wrong arguments"
  | emptyRuleSide => "Empty rule expression"
  | invalidCondition shown => "Invalid rule condition: " ++ shown
  | sidesExpected shown => "Rule needs 'match' and 'replace': " ++ shown
  | invalidRule shown => "Invalid rule specification: " ++ shown
  | notARule line => "Not a rule: " ++ Text.quoted line
  | missingSide line => "Rule is missing a side: " ++ Text.quoted line
  | notIterable shape => s!"'{shape}' object is not iterable"
  | circularInclude path => "Circular include detected: " ++ path
  | includeNotFound path => "Include file not found: " ++ path
  | fileNotFound path => "[Errno 2] No such file or directory: " ++ Text.quoted path
  | isADirectory path => "[Errno 21] Is a directory: " ++ Text.quoted path
  | notADirectory path => "[Errno 20] Not a directory: " ++ Text.quoted path
  | noRuleNamed name => s!"No rule named '{name}'"
  | unboundName name => Text.quoted name
  | noMatch name => s!"NoMatch has no binding for '{name}'"
  | rejected m => m
  | unbounded => "maximum recursion depth exceeded"

def kind : Fault → FaultKind
  | malformedJson _ => .json
  | number f => numberKind f
  | definition _ => .definition
  | unwritable _ | booleanNumber | notNumeric _ | operatorExpected _ | notAnExpression _
  | wrongArguments | notIterable _ => .type
  | missingOperand => .missingPart
  | operandIndex => .index
  | includeNotFound _ | fileNotFound _ => .fileNotFound
  | isADirectory _ => .isADirectory
  | notADirectory _ => .notADirectory
  | noRuleNamed _ | unboundName _ | noMatch _ => .key
  | unbounded => .recursion
  | unexpectedClose | missingClose | trailingInput _ | signature _ | precision _ | angularUnit _
  | notAnInteger _ | tooManyOperands _ | tooFewOperands _ _ | emptyRuleSide | invalidCondition _
  | sidesExpected _ | invalidRule _ | notARule _ | missingSide _ | circularInclude _
  | rejected _ => .value

/-- Whether the library itself decided on the fault, rather than an operation underneath. -/
def isDeclared : Fault → Bool
  | number .complexToDouble => true
  | number _ | malformedJson _ | missingOperand | operandIndex | tooManyOperands _
  | tooFewOperands _ _ | wrongArguments | notAnInteger _ | notIterable _ | fileNotFound _
  | isADirectory _ | notADirectory _ | unboundName _ | unbounded => false
  | _ => true

/-- Whether a fault is one of malformed input: a wrong value or a wrong kind of thing. -/
def isInputFault (f : Fault) : Bool := f.kind.isValue || f.kind == .type

/-- Whether a fault is one of reading files: one that cannot be read, or malformed contents. -/
def isLoadFault (f : Fault) : Bool := f.kind.isValue || f.kind.isFile

end Fault

/-- Carries a fault of number arithmetic over. -/
def liftNumber {α : Type} : Except NumberFault α → Except Fault α
  | .ok x => .ok x
  | .error f => .error (.number f)

end SymbolicAlgebra
