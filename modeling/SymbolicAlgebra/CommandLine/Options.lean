import SymbolicAlgebra.Kernel.Basic
import SymbolicAlgebra.Session.Basic

/-!
# CommandLine/Options — what the words of a command line ask for

Words that start with a minus are options; the first other word names a script.  A long option may
be cut short as long as one option is meant, and may carry its value behind an equals sign.  Short
options may be joined, the value of the last one following directly.  Behind the word `--` no word
is an option.
-/

namespace SymbolicAlgebra.CommandLine

/-- The options. -/
inductive Opt
  | help | rules | expr | expand | expandAll | noStrict | precision | unit | verbose | quiet
  | version
  deriving DecidableEq

namespace Opt

/-- The options in the order they are listed. -/
def all : List Opt :=
  [help, rules, expr, expand, expandAll, noStrict, precision, unit, verbose, quiet, version]

/-- The spellings of an option. -/
def spellings : Opt → List String
  | help => ["-h", "--help"]
  | rules => ["-r", "--rules"]
  | expr => ["-e", "--expr"]
  | expand => ["--expand"]
  | expandAll => ["--expand-all"]
  | noStrict => ["--no-strict"]
  | precision => ["--precision"]
  | unit => ["--angular-unit"]
  | verbose => ["-v", "--verbose"]
  | quiet => ["-q", "--quiet"]
  | version => ["--version"]

/-- An option as messages name it. -/
def title (o : Opt) : String := "/".intercalate o.spellings

/-- Whether an option has a value. -/
def hasValue : Opt → Bool
  | rules | expr | precision | unit => true
  | _ => false

/-- All spellings, with their options. -/
def table : List (String × Opt) := all.flatMap fun o => o.spellings.map (·, o)

/-- The option of a spelling. -/
def ofSpelling? (s : String) : Option Opt := table.lookup s

end Opt

/-- What a command line asks for. -/
structure Options where
  script : Option String := none
  rules : List String := []
  expr : Option String := none
  expansion : Option ExpansionMode := none
  strict : Bool := true
  precision : String := "machine"
  unit : AngularUnit := .rad
  verbose : Bool := false
  quiet : Bool := false

/-- Why nothing is run. -/
inductive Refusal
  | help
  | version
  | misuse (message : String)

/-- A fault of one option. -/
def misused {α : Type} (o : Opt) (message : String) : Except Refusal α :=
  .error (.misuse ("argument " ++ o.title ++ ": " ++ message))

/-! ## Words -/

/-- A value that stands in one word with its option; `marked` if an equals sign leads it. -/
structure Attached where
  marked : Bool
  text : String

/-- What a word is. -/
inductive Word
  | plain
  /-- The word behind which all words are plain. -/
  | stop
  | option (o : Opt) (short : Bool) (attached : Option Attached)
  | unknown

/-- Whether a word looks like a negative number. -/
def isNegativeNumber (word : List Char) : Bool :=
  match (if word.getLast? == some '\n' then word.dropLast else word) with
  | '-' :: rest =>
      let whole := rest.takeWhile Text.isDigit
      match rest.drop whole.length with
      | [] => !whole.isEmpty
      | '.' :: digits => !digits.isEmpty && digits.all Text.isDigit
      | _ => false
  | _ => false

/-- Cuts a word at its first equals sign. -/
def cutValue (word : String) : String × Option Attached :=
  match Text.cutFirst ['='] word.toList with
  | some (before, after) => (String.ofList before, some ⟨true, String.ofList after⟩)
  | none => (word, none)

/-- The options that a word may mean, with their spellings, if it is none of the spellings. -/
def candidates (word : String) : List (String × Word) :=
  if word.startsWith "--" then
    let (start, attached) := cutValue word
    (Opt.table.filter fun (s, _) => s.startsWith start).map fun (s, o) =>
      (s, .option o false attached)
  else
    (Opt.table.filter fun (s, _) => s == (word.take 2).toString).map fun (s, o) =>
      (s, .option o true (some ⟨false, (word.drop 2).toString⟩))

/-- What a word is, if no word `--` stands before it. -/
def classify (word : String) : Except Refusal Word :=
  if !word.startsWith "-" || word.length == 1 then .ok .plain
  else
    match Opt.ofSpelling? word with
    | some o => .ok (.option o (!word.startsWith "--") none)
    | none =>
        let (start, attached) := cutValue word
        match attached, Opt.ofSpelling? start with
        | some a, some o => .ok (.option o (!word.startsWith "--") (some a))
        | _, _ =>
            match candidates word with
            | [(_, w)] => .ok w
            | [] =>
                .ok (if isNegativeNumber word.toList || Text.contains " " word then .plain
                  else .unknown)
            | found =>
                .error (.misuse ("ambiguous option: " ++ word ++ " could match " ++
                  ", ".intercalate (found.map (·.1))))

/-- What each word is. -/
def classifyAll : List String → Except Refusal (List (String × Word))
  | [] => .ok []
  | word :: rest => do
      if word == "--" then return (word, .stop) :: rest.map (·, .plain)
      else
        let w ← classify word
        return (word, w) :: (← classifyAll rest)

/-! ## Joined options -/

/-- What a word of joined options asks for. -/
structure Joined where
  /-- The options whose values are settled. -/
  settled : List (Opt × String) := []
  /-- The last option, if a value for it can only stand in the next word. -/
  open? : Option Opt := none
  /-- A part that is no option. -/
  extra : Option String := none

/-- A value given to an option that has none. -/
def ignored {α : Type} (o : Opt) (value : List Char) : Except Refusal α :=
  misused o ("ignored explicit argument " ++ Text.quoted (String.ofList value))

/-- Takes an option and what stands in one word with it apart: its value, or more short options. -/
def takeApart (o : Opt) (short marked : Bool) : List Char → Except Refusal Joined
  | [] => if o.hasValue then .ok { settled := [(o, "")] } else ignored o []
  | c :: rest =>
      if o.hasValue then .ok { settled := [(o, String.ofList (c :: rest))] }
      else if !short || marked || c == '-' then ignored o (c :: rest)
      else
        match Opt.ofSpelling? (String.ofList ['-', c]) with
        | none =>
            .ok { settled := [(o, "")], extra := some (String.ofList ('-' :: c :: rest)) }
        | some next =>
            let joined : Except Refusal Joined :=
              match rest with
              | [] => .ok { open? := some next }
              | '=' :: value => takeApart next true true value
              | more => takeApart next true false more
            joined.map fun j => { j with settled := (o, "") :: j.settled }

/-! ## Options -/

/-- Notes an option and its value. -/
def Options.note (a : Options) (o : Opt) (value : String) : Except Refusal Options :=
  match o with
  | .help => .error .help
  | .version => .error .version
  | .rules => .ok { a with rules := a.rules ++ [value] }
  | .expr => .ok { a with expr := some value }
  | .expand =>
      if a.expansion == some .everywhere then
        misused o ("not allowed with argument " ++ Opt.expandAll.title)
      else .ok { a with expansion := some .root }
  | .expandAll =>
      if a.expansion == some .root then
        misused o ("not allowed with argument " ++ Opt.expand.title)
      else .ok { a with expansion := some .everywhere }
  | .noStrict => .ok { a with strict := false }
  | .precision => .ok { a with precision := value }
  | .unit =>
      match AngularUnit.ofName? value with
      | some unit => .ok { a with unit }
      | none =>
          misused o ("invalid choice: " ++ Text.quoted value ++ " (choose from " ++
            ", ".intercalate (AngularUnit.all.map fun u => Text.quoted u.name) ++ ")")
  | .verbose => .ok { a with verbose := true }
  | .quiet => .ok { a with quiet := true }

/-- Notes several options. -/
def Options.noteAll (a : Options) (settled : List (Opt × String)) : Except Refusal Options :=
  settled.foldlM (fun a (o, value) => a.note o value) a

/-- What was found so far. -/
structure Progress where
  options : Options := {}
  extras : List String := []
  /-- Whether the word right before named the script. -/
  named : Bool := false

/-- Notes a plain word: the first names the script. -/
def Progress.plain (p : Progress) (word : String) : Progress :=
  if p.options.script.isNone then
    { p with options := { p.options with script := some word }, named := true }
  else { p with extras := p.extras ++ [word], named := false }

/-- Notes the word `--`, which goes with the word that names the script. -/
def Progress.stop (p : Progress) (word : String) : Progress :=
  if p.options.script.isNone || p.named then { p with named := false }
  else { p with extras := p.extras ++ [word], named := false }

/-- Notes the options of a word. -/
def Progress.settle (p : Progress) (joined : Joined) (last : List (Opt × String)) :
    Except Refusal Progress := do
  return { options := ← p.options.noteAll (joined.settled ++ last)
           extras := p.extras ++ joined.extra.toList }

/-- Goes through the words. -/
def collect (p : Progress) : List (String × Word) → Except Refusal Progress
  | [] => .ok p
  | (word, .plain) :: rest => collect (p.plain word) rest
  | (word, .stop) :: rest => collect (p.stop word) rest
  | (word, .unknown) :: rest => collect { p with extras := p.extras ++ [word], named := false } rest
  | (_, .option o short attached) :: rest => do
      let joined ←
        match attached with
        | none => pure { open? := some o }
        | some a => takeApart o short a.marked a.text.toList
      match joined.open? with
      | none =>
          let p ← p.settle joined []
          collect p rest
      | some last =>
          if !last.hasValue then
            let p ← p.settle joined [(last, "")]
            collect p rest
          else
            match rest with
            | (value, .plain) :: rest =>
                let p ← p.settle joined [(last, value)]
                collect p rest
            | _ => misused last "expected one argument"

/-- Reads a command line. -/
def Options.parse (words : List String) : Except Refusal Options := do
  let p ← collect {} (← classifyAll words)
  if p.extras.isEmpty then return p.options
  else throw (.misuse ("unrecognized arguments: " ++ " ".intercalate p.extras))

/-! ## Texts -/

/-- The name of the program. -/
def programName : String := "symkern"

/-- The version of the program. -/
def programVersion : String := "0.1.0"

/-- How the program is called. -/
def usageText : String :=
  "usage: symkern [-h] [-r RULES] [-e EXPR] [--expand | --expand-all]
               [--no-strict] [--precision PRECISION]
               [--angular-unit \x7brad,deg,grad,turn\x7d] [-v] [-q] [--version]
               [script]
"

/-- The answer to the option `--help`. -/
def helpText : String :=
  usageText ++ "
symkern - a symbolic computation kernel

positional arguments:
  script                Script file to run

options:
  -h, --help            show this help message and exit
  -r RULES, --rules RULES
                        Load rules from file (can be specified multiple times)
  -e EXPR, --expr EXPR  Evaluate a single expression
  --expand              Expand results
  --expand-all          Expand every subexpression of results
  --no-strict           Disable strict validation
  --precision PRECISION
                        Significant digits of approximate results, or
                        'machine'
  --angular-unit \x7brad,deg,grad,turn\x7d
                        Angular unit of trigonometric arguments
  -v, --verbose         Log rule applications and inference
  -q, --quiet           Quiet mode (suppress non-essential output)
  --version             show program's version number and exit

Examples:
  symkern                                   Start REPL
  symkern script.sk                         Run script
  symkern -e '(Power (Add a b) 2)' --expand Expand an expression
  symkern -r simplify.rules                 REPL with rules
  echo '(Add x 0)' | symkern -r simplify.rules  Filter mode
"

end SymbolicAlgebra.CommandLine
