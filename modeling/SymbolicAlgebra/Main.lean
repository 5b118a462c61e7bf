import SymbolicAlgebra.CommandLine.Console

/-!
# Main — the program at a real console

Everything the program decides is decided by `CommandLine.Program`.  This layer fetches the files it
may ask for, feeds it one line after the other and writes what it has to say.
-/

namespace SymbolicAlgebra.CommandLine

/-- The path that a line asks for: of a file to load, or of one to include below `base`. -/
def requestedPath? (base : Path) (line : String) : Option Path :=
  match Kernel.includedPath? line with
  | some name => some (base.join (Path.ofText name))
  | none =>
      match (Text.strip line).toList with
      | ':' :: rest =>
          match Text.firstWord (String.ofList rest) with
          | some (word, name) =>
              if Text.lower word == "load" then some (Path.ofText (Text.strip name)) else none
          | none => none
      | _ => none

/-- Fetches a file and those that its lines ask for; what cannot be read stays unknown. -/
partial def fetch (d : Directory) (path : Path) : IO Directory := do
  if d.holds path then return d
  match ← (IO.FS.readFile path.text).toBaseIO with
  | .error _ => return d
  | .ok text =>
      (Text.lines text).foldlM
        (fun d line => ((requestedPath? path.parent line).map (fetch d)).getD (return d))
        (d.insert path text)

/-- Fetches the files that a line asks for. -/
def prepare (c : Console) (line : String) : IO Console := do
  match requestedPath? {} line with
  | some path => return { c with directory := ← fetch c.directory path }
  | none => return c

/-- Writes what was said, and forgets it. -/
def flush (c : Console) : IO Console := do
  for o in c.written.reverse do
    match o with
    | .out text => IO.print text
    | .err text => IO.eprint text
  (← IO.getStdout).flush
  return { c with written := [] }

/-- Runs a part of the program. -/
def advance {α : Type} (p : Program α) (c : Console) : IO (Except Ending α × Console) := do
  let (outcome, c) := (p.run c).run
  return (outcome, ← flush c)

/-- Answers the lines of the input as they come. -/
partial def filterInput (input : IO.FS.Stream) (c : Console) : IO Ending := do
  let line ← input.getLine
  if line.isEmpty then return .exit 0
  match ← advance (Program.answer line) (← prepare c line) with
  | (.error ending, _) => return ending
  | (.ok _, c) => filterInput input c

/-- Holds a dialogue; `pending` is what was typed since the last answer. -/
partial def converseInput (input : IO.FS.Stream) (pending : String) (c : Console) : IO Ending := do
  if !c.session.running then return .returned
  IO.print (Program.promptText pending)
  (← IO.getStdout).flush
  match Text.streamLines (← input.getLine) with
  | [] =>
      IO.println ""
      return .returned
  | line :: _ =>
      match ← advance (Program.takeLine pending line) (← prepare c line) with
      | (.error ending, _) => return ending
      | (.ok pending, c) => converseInput input pending c

/-- Fetches the files that the options name. -/
def fetchNamed (words : List String) : IO Directory :=
  match Options.parse words with
  | .error _ => return {}
  | .ok options =>
      (options.rules ++ options.script.toList).foldlM (fun d name => fetch d (Path.ofText name)) {}

/-- The whole program, from its words to its end. -/
def runConsole (words : List String) : IO Ending := do
  match ← advance (Program.start words) { directory := ← fetchNamed words } with
  | (.error ending, _) => return ending
  | (.ok _, c) =>
      let input ← IO.getStdin
      if ← input.isTty then
        IO.println Program.banner
        converseInput input "" c
      else filterInput input c

/-- The exit code of an ending; a fault that ends a run is shown. -/
def exitCode : Ending → IO UInt32
  | .exit code => return code.toUInt32
  | .returned => return 0
  | .failed fault => do
      IO.eprintln (fault.kind.name ++ ": " ++ fault.message)
      return 1

end SymbolicAlgebra.CommandLine

/-- Runs the program on the words of its command line. -/
def main (words : List String) : IO UInt32 := do
  SymbolicAlgebra.CommandLine.exitCode (← SymbolicAlgebra.CommandLine.runConsole words)
