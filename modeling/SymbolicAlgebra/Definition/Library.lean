import SymbolicAlgebra.Definition.Record

/-!
# Definition/Library — the standard definitions

Constants, arithmetic, elementary functions, relations and logic, in the order they are declared.
-/

namespace SymbolicAlgebra.Library

/-- A text field. -/
def text (s : String) : Datum := .raw (.name s)

/-- An integer field. -/
def int (n : Int) : Datum := .raw (.int n)

/-- A flag that is set. -/
def yes : Datum := .ofBool true

/-- A constant of a type. -/
def constant (type : String) (more : Record) : Record :=
  [("type", text type), ("constant", yes)] ++ more

/-- A positive constant with a computed value. -/
def positive (value : ComputedValue) (description : String) : Record :=
  constant "real"
    [("value", .callback (.value value)), ("flags", .flags [("positive", some true)]),
      ("description", text description)]

/-- A function that takes numbers and threads over lists. -/
def numeric (signature : String) (complexity : Int) (evaluate : Evaluation) (more : Record) :
    Record :=
  [("signature", text signature), ("numeric", yes), ("threadable", yes),
    ("complexity", int complexity), ("evaluate", .callback (.evaluation evaluate))] ++ more

/-- A rule for the result type. -/
def typed (rule : ResultRule) : Record := [("type", .callback (.resultType rule))]

/-- A function that builds number literals. -/
def constructor (signature : String) (form : CanonicalForm) (evaluate : Evaluation) : Record :=
  [("signature", text signature), ("numeric", yes), ("complexity", int 2400),
    ("canonical", .callback (.canonicalForm form)), ("evaluate", .callback (.evaluation evaluate))]

/-- A function without a value. -/
def structural (signature : String) (complexity : Int) (more : Record) : Record :=
  [("signature", text signature), ("complexity", int complexity)] ++ more

/-- The standard definitions. -/
def standard : List (String × Record) :=
  [ ("Pi", positive .pi "Ratio of a circle's circumference to its diameter"),
    ("ExponentialE", positive .euler "Euler's number"),
    ("ImaginaryUnit", constant "imaginary" [("value", .raw (.value .imaginaryUnit))]),
    ("True", constant "boolean" []),
    ("False", constant "boolean" []),
    ("Nothing", constant "nothing" []),
    ("Add", numeric "(...number) -> number" 1300 .sum
      (typed .numeric ++ [("associative", yes)])),
    ("Multiply", numeric "(...number) -> number" 2100 .product
      (typed .numeric ++ [("associative", yes)])),
    ("Negate", numeric "(number) -> number" 2000 .negation
      (typed .numeric ++ [("canonical", .callback (.canonicalForm .negation))])),
    ("Subtract", numeric "(number, number) -> number" 1350 .difference (typed .numeric)),
    ("Divide", numeric "(number, number) -> number" 2500 .quotient (typed .quotient)),
    ("Power", numeric "(number, number) -> number" 3500 .power (typed .power)),
    ("Sqrt", numeric "(number) -> number" 3600 .squareRoot []),
    ("Abs", numeric "(number) -> real" 1200 .absolute [("sgn", .callback (.sign .absolute))]),
    ("Sin", numeric "(number) -> number" 5000 .sine (typed .realOrNumber)),
    ("Cos", numeric "(number) -> number" 5000 .cosine (typed .realOrNumber)),
    ("Tan", numeric "(number) -> number" 5000 .tangent (typed .realOrNumber)),
    ("Exp", numeric "(number) -> number" 3500 .exponential (typed .realOrNumber)),
    ("Ln", numeric "(number) -> number" 4000 .logarithm []),
    ("Rational", constructor "(integer, integer) -> rational" .rational .quotient),
    ("Complex", constructor "(real, real) -> complex" .complexPair .complexPair),
    ("Sequence", structural "(...any) -> any" 9000 []),
    ("List", structural "(...any) -> list" 8200 []),
    ("Hold", structural "(any) -> any" 9000 [("lazy", yes)]),
    ("Equal", structural "(any, any) -> boolean" 11000 []),
    ("NotEqual", structural "(any, any) -> boolean" 11000 []),
    ("Less", structural "(real, real) -> boolean" 11000 []),
    ("LessEqual", structural "(real, real) -> boolean" 11000 []),
    ("Greater", structural "(real, real) -> boolean" 11000 []),
    ("GreaterEqual", structural "(real, real) -> boolean" 11000 []),
    ("And", structural "(...boolean) -> boolean" 10000 [("associative", yes)]),
    ("Or", structural "(...boolean) -> boolean" 10000 [("associative", yes)]),
    ("Not", structural "(boolean) -> boolean" 10100 []),
    ("Random", structural "() -> real" 8000
      [("pure", .ofBool false), ("evaluate", .callback (.evaluation .sample))]) ]

end SymbolicAlgebra.Library
