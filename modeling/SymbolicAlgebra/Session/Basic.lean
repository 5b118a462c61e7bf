import SymbolicAlgebra.Expansion
import SymbolicAlgebra.Rewriting.RuleFile
import SymbolicAlgebra.Text.Lowercase

/-!
# Session/Basic — a dialogue of lines

A line is an expression to apply rules to, a rule to be added, or a command that starts with a colon.
`Session.process` answers one line in a kernel.  Faults of malformed input become answers; all
others escape.
-/

namespace SymbolicAlgebra

/-- What is expanded in the outcome of a line. -/
inductive ExpansionMode
  | root | everywhere
  deriving DecidableEq

/-- The modes by name. -/
def ExpansionMode.ofName? : String → Option ExpansionMode
  | "expand" => some root
  | "expand-all" => some everywhere
  | _ => none

/-- The state of a dialogue, apart from its kernel. -/
structure Session where
  rules : List Rule := []
  expansion : Option ExpansionMode := none
  running : Bool := true

namespace Session

/-- The answer to a line, if there is one, and the state after it. -/
abbrev Answer := Option String × Session

/-- An answer that leaves the state as it is. -/
def say (s : Session) (text : String) : Answer := (some text, s)

/-- Turns faults of one kind into an answer. -/
def excuse (caught : Fault → Bool) (lead : String) (s : Session) (a : Action Answer) :
    Action Answer :=
  tryCatch a fun f => if caught f then return s.say (lead ++ f.message) else throw f

/-- Expands an expression. -/
def expandWith (mode : ExpansionMode) (e : Expr) : Action Expr :=
  match mode with
  | .root => Kernel.expand e
  | .everywhere => Kernel.expandAll e

/-- Builds the expression of a text, applies the rules and expands it; blank text has none. -/
def evaluate (s : Session) (text : String) : Action (Option String) := do
  match ← Kernel.parse text true with
  | none => return none
  | some e =>
      let e ← if s.rules.isEmpty then pure e else Kernel.replaceAll s.rules none e
      let e ←
        match s.expansion with
        | none => pure e
        | some mode => expandWith mode e
      return some e.text

/-- Adds the rules of a file; the answer is their number. -/
def load (d : Directory) (path : Path) (s : Session) : Action (Nat × Session) := do
  let found ← Kernel.rulesOfFile d path
  return (found.length, { s with rules := s.rules ++ found })

/-! ## Commands -/

/-- The answer to the command `help`. -/
def helpText : String :=
  "symkern REPL Commands:
  :help              Show this help
  :load FILE         Load rules from file (.rules or .json)
  :rules             List all loaded rules
  :clear             Clear all rules
  :strict on|off     Toggle strict validation
  :precision N       Set precision (digits, or \"machine\")
  :angle UNIT        Set angular unit (rad, deg, grad, turn)
  :expand EXPR       Expand an expression
  :expand-all EXPR   Expand every subexpression
  :compare A B       Compare two expressions (-1, 0, 1 or incomparable)
  :quit              Exit

Syntax:
  @name: lhs => rhs                  Define a rule
  @name: lhs => rhs when guard       Rule with guard
  (Add x 1)                          Box and rewrite an expression
"

/-- Loads a file. -/
def loadCommand (d : Directory) (argument : String) (s : Session) : Action Answer :=
  if argument == "" then return s.say "Usage: :load FILENAME"
  else
    excuse Fault.isLoadFault ("Error loading " ++ argument ++ ": ") s do
      let (count, s) ← s.load d (Path.ofText argument)
      return s.say ("Loaded " ++ intText count ++ " rules from " ++ argument)

/-- Lists the rules. -/
def rulesCommand (s : Session) : Answer :=
  s.say (if s.rules.isEmpty then "No rules loaded" else "\n".intercalate (s.rules.map Rule.line))

/-- Switches checks on or off, or over. -/
def strictCommand (argument : String) (s : Session) : Action Answer := do
  let word := Text.lower argument
  let strict ←
    if ["on", "true", "1"].contains word then pure true
    else if ["off", "false", "0"].contains word then pure false
    else do pure !(← Kernel.isStrict)
  Kernel.setStrict strict
  return s.say ("Strict validation " ++ if strict then "enabled" else "disabled")

/-- The precision that a text names. -/
def precisionOf (text : String) : Except Fault Raw :=
  if text == "machine" then .ok (.name text)
  else
    match Text.readInt? text with
    | some n => .ok (.int n)
    | none => .error (.notAnInteger text)

/-- Shows or sets the precision. -/
def precisionCommand (argument : String) (s : Session) : Action Answer := do
  if argument == "" then return s.say ("Precision: " ++ intText (← Kernel.getPrecision))
  else
    excuse (·.kind.isValue) "Error: " s do
      Kernel.setPrecision (← Kernel.ofExcept (precisionOf argument))
      return s.say ("Precision set to: " ++ intText (← Kernel.getPrecision))

/-- Shows or sets the unit of angles. -/
def angleCommand (argument : String) (s : Session) : Action Answer := do
  if argument == "" then return s.say ("Angular unit: " ++ (← get).settings.unit.name)
  else
    excuse (·.kind.isValue) "Error: " s do
      Kernel.setUnit (.name argument)
      return s.say ("Angular unit set to: " ++ argument)

/-- Expands an expression. -/
def expandCommand (name : String) (mode : ExpansionMode) (argument : String) (s : Session) :
    Action Answer :=
  if argument == "" then return s.say ("Usage: :" ++ name ++ " EXPR")
  else
    excuse Fault.isInputFault "Error: " s do
      match ← Kernel.parse argument true with
      | none => throw (.notAnExpression Raw.null.describe)
      | some e => return s.say (← expandWith mode e).text

/-- Compares two expressions.  Only a text that cannot be read is excused. -/
def compareCommand (argument : String) (s : Session) : Action Answer :=
  match Sexpr.parseAll argument with
  | .error f => excuse (·.kind.isValue) "Error: " s (throw f)
  | .ok [a, b] => do
      let a ← Kernel.box a
      let b ← Kernel.box b
      match ← Kernel.compare? a b with
      | none => return s.say "incomparable"
      | some c => return s.say (intText c)
  | .ok _ => return s.say "Usage: :compare A B"

/-- Carries out a command, given without its colon. -/
def command (d : Directory) (line : String) (s : Session) : Action Answer :=
  match Text.firstWord line with
  | none => return s.say "Unknown command. Type :help for help."
  | some (word, rest) =>
      let argument := Text.strip rest
      match Text.lower word with
      | "help" => return s.say helpText
      | "quit" | "exit" | "q" => return (none, { s with running := false })
      | "load" => s.loadCommand d argument
      | "rules" => return s.rulesCommand
      | "clear" => return ({ s with rules := [] } : Session).say "Cleared all rules"
      | "strict" => s.strictCommand argument
      | "precision" => s.precisionCommand argument
      | "angle" => s.angleCommand argument
      | "expand" => s.expandCommand "expand" .root argument
      | "expand-all" => s.expandCommand "expand-all" .everywhere argument
      | "compare" => s.compareCommand argument
      | name => return s.say ("Unknown command: " ++ name ++ ". Type :help for help.")

/-! ## Lines -/

/-- Adds the rules written in a text. -/
def addRules (d : Directory) (text : String) (s : Session) : Action Answer := do
  let found ← Kernel.rulesOfText d text
  if found.isEmpty then return s.say "Error: failed to parse rule"
  else
    return ({ s with rules := s.rules ++ found } : Session).say
      ("Added " ++ intText found.length ++ " rule(s)")

/-- Answers a line; an expression without a text has no answer. -/
def process (d : Directory) (source : String) (s : Session) : Action Answer :=
  let line := Text.strip source
  match line.toList with
  | [] | '#' :: _ | ';' :: _ => return (none, s)
  | ':' :: rest => s.command d (String.ofList rest)
  | _ =>
      if Text.contains "=>" line then s.addRules d line
      else
        excuse Fault.isInputFault "Error: " s do
          return ((← s.evaluate line).filter (· != ""), s)

end Session

end SymbolicAlgebra
