import SymbolicAlgebra.CommandLine.Options
import SymbolicAlgebra.Definition.Library
import SymbolicAlgebra.Session.Basic

/-!
# CommandLine/Console — running the program on given input

A console holds a dialogue, the working directory and what was written so far.  What the kernel
notices goes to the error channel right after the line that caused it: everything with the name of
its source when the run is verbose, and bare warnings otherwise.

`CommandLine.run` is the whole program as a function of its words, its input and the working
directory.
-/

namespace SymbolicAlgebra.CommandLine

/-- What the program writes. -/
inductive Output
  | out (text : String)
  | err (text : String)

/-- How a run ends. -/
inductive Ending
  | exit (code : Nat)
  /-- The dialogue is over. -/
  | returned
  | failed (fault : Fault)

/-- The state of a run. -/
structure Console where
  kernel : Kernel := {}
  session : Session := {}
  directory : Directory := {}
  verbose : Bool := false
  /-- What was written, latest first. -/
  written : List Output := []

/-- A part of a run, which may end it. -/
abbrev Program := ExceptT Ending (StateM Console)

namespace Program

def write (o : Output) : Program Unit := modify fun c => { c with written := o :: c.written }

/-- Writes a line. -/
def print (line : String) : Program Unit := write (.out (line ++ "\n"))

/-- Writes a line to the error channel. -/
def printError (line : String) : Program Unit := write (.err (line ++ "\n"))

/-- A journal entry as it is shown, if it is. -/
def recordLine? (verbose : Bool) (r : LogRecord) : Option String :=
  if verbose then some (r.source.name ++ ": " ++ r.message)
  else if r.level = .warning then some r.message
  else none

/-- Writes journal entries, given latest first. -/
def report : List LogRecord → Program Unit
  | [] => return
  | r :: rest => do
      report rest
      match recordLine? (← get).verbose r with
      | some line => printError line
      | none => return

/-- Runs an action in the kernel and writes what it noticed. -/
def perform {α : Type} (a : Action α) : Program (Except Fault α) := do
  let (outcome, kernel) := (a.run { (← get).kernel with journal := [] }).run
  modify fun c => { c with kernel }
  report kernel.journal
  return outcome

/-- Runs an action whose faults end the run. -/
def performOrFail {α : Type} (a : Action α) : Program α := do
  match ← perform a with
  | .ok x => return x
  | .error f => throw (.failed f)

/-- A text, unless it is empty. -/
def given (text : Option String) : Option String := text.filter (· != "")

/-- Answers a line; an empty answer is none. -/
def process (line : String) : Program (Option String) := do
  let c ← get
  let (answer, session) ← performOrFail (c.session.process c.directory line)
  modify fun c => { c with session }
  return given answer

/-! ## Ways to run -/

/-- The answer to a line that is printed and, if it tells of an error, ends the run. -/
def answer (line : String) : Program Unit := do
  match ← process line with
  | none => return
  | some text =>
      print text
      if text.startsWith "Error" then throw (.exit 1)

/-- Answers the lines of the input. -/
def filter : List String → Program Unit
  | [] => return
  | line :: rest => do
      answer line
      filter rest

/-- Whether the answer to a line of a script is not printed: confirmations of commands and rules. -/
def isQuiet (line : String) : Bool :=
  let trimmed := Text.strip line
  (trimmed.startsWith ":" && !(trimmed.startsWith ":expand" || trimmed.startsWith ":compare")) ||
    Text.contains "=>" line

/-- Runs the lines of a script from line `number` on. -/
def runLines (path : Path) : (number : Nat) → List String → Program Unit
  | _, [] => return
  | number, line :: rest => do
      match ← process line with
      | none => pure ()
      | some text =>
          if text.startsWith "Error" || text.startsWith "Unknown" then
            printError (path.text ++ ":" ++ intText number ++ ": " ++ text)
            throw (.exit 1)
          if !isQuiet line then print text
      runLines path (number + 1) rest

/-- Runs a script. -/
def runScript (path : Path) : Program Unit := do
  match (← get).directory.read path with
  | .error f =>
      printError ("Error reading " ++ path.text ++ ": " ++ f.message)
      throw (.exit 1)
  | .ok text => runLines path 1 (Text.lines text)

/-- Takes a line of a dialogue.  Lines are put together until no parenthesis is open; `pending`
holds those so far. -/
def takeLine (pending line : String) : Program String := do
  let text := if pending == "" then line else pending ++ "\n" ++ line
  let depth := Sexpr.openDepth text
  if 0 < depth then return text
  else if depth < 0 then
    print "Error: Unbalanced parentheses (too many closing)"
    return ""
  else
    match ← process text with
    | some answer => print answer
    | none => pure ()
    return ""

/-- The prompt of a dialogue. -/
def promptText (pending : String) : String := if pending == "" then "symkern> " else "...... "

/-- What a dialogue opens with. -/
def banner : String :=
  programName ++ " " ++ programVersion ++ "\nType :help for help, :quit to exit\n"

/-- Holds a dialogue over the given lines. -/
def converse (pending : String) : List String → Program Unit
  | [] => do
      if (← get).session.running then
        write (.out (promptText pending))
        print ""
  | line :: rest => do
      if (← get).session.running then
        write (.out (promptText pending))
        converse (← takeLine pending line) rest

/-! ## The whole program -/

/-- Sets up the kernel that the options ask for. -/
def setUp (options : Options) : Program Unit := do
  modify fun c =>
    { c with
      verbose := options.verbose
      session := { c.session with expansion := options.expansion } }
  match Session.precisionOf options.precision with
  | .error _ =>
      printError ("Invalid precision: " ++ options.precision)
      throw (.exit 2)
  | .ok precision =>
      let library := Library.standard.map fun (name, r) => (name, Kernel.Declaration.record r)
      match ← perform (Kernel.configure precision (.name options.unit.name) options.strict library)
      with
      | .ok _ => return
      | .error f =>
          if f.kind.isValue then
            printError ("Error: " ++ f.message)
            throw (.exit 2)
          else throw (.failed f)

/-- Loads the files that the options name. -/
def loadFiles (quiet : Bool) : List String → Program Unit
  | [] => return
  | name :: rest => do
      let c ← get
      match ← perform (c.session.load c.directory (Path.ofText name)) with
      | .ok (count, session) =>
          modify fun c => { c with session }
          if !quiet then printError ("Loaded " ++ intText count ++ " rules from " ++ name)
      | .error f =>
          if f.isLoadFault then
            printError ("Error loading " ++ name ++ ": " ++ f.message)
            throw (.exit 1)
          else throw (.failed f)
      loadFiles quiet rest

/-- Reads a command line; refusals end the run. -/
def readOptions (words : List String) : Program Options := do
  match Options.parse words with
  | .ok options => return options
  | .error .help =>
      write (.out helpText)
      throw (.exit 0)
  | .error .version =>
      print (programName ++ " " ++ programVersion)
      throw (.exit 0)
  | .error (.misuse message) =>
      write (.err usageText)
      printError (programName ++ ": error: " ++ message)
      throw (.exit 2)

/-- What the program does before it looks at its input: everything, if it is given a script or an
expression. -/
def start (words : List String) : Program Unit := do
  let options ← readOptions words
  setUp options
  loadFiles options.quiet options.rules
  match given options.script, given options.expr with
  | some script, _ =>
      runScript (Path.ofText script)
      throw (.exit 0)
  | none, some text =>
      answer text
      throw (.exit 0)
  | none, none => return

/-- The program on the lines of its input, from a terminal or not. -/
def onInput (words lines : List String) (terminal : Bool) : Program Unit := do
  start words
  if terminal then
    write (.out (banner ++ "\n"))
    converse "" lines
    throw .returned
  else
    filter lines
    throw (.exit 0)

end Program

/-- What a run leaves behind. -/
structure Report where
  ending : Ending
  stdout : String
  stderr : String

/-- The program as a function of its words, its input and the working directory. -/
def run (words : List String) (input : String) (directory : Directory) (terminal : Bool) : Report :=
  let program := Program.onInput words (Text.streamLines input) terminal
  let (outcome, console) := (program.run { directory }).run
  let written := console.written.reverse
  { ending :=
      match outcome with
      | .ok _ => .returned
      | .error ending => ending
    stdout := String.join (written.map fun o => match o with | .out t => t | .err _ => "")
    stderr := String.join (written.map fun o => match o with | .err t => t | .out _ => "") }

end SymbolicAlgebra.CommandLine
