import SymbolicAlgebra.Files.Directory
import SymbolicAlgebra.Json.Reader
import SymbolicAlgebra.Rewriting.Line

/-!
# Rewriting/RuleFile — rules from texts and files

A rule file has a rule on each line; `:include path` stands for the rules of another file, and a
line that is no rule is skipped with a warning.  A file whose name ends in `.json` lists
descriptions of rules instead.

A file can be included once.  Every inclusion uses up a file of the directory, so a bound on the
depth of inclusions that exceeds the number of files is never reached.
-/

namespace SymbolicAlgebra.Kernel

/-- The rules that JSON text describes: a list, or an object with a list named `rules`. -/
def rulesOfJson (text : String) : Action (List Rule) := do
  let data ← ofExcept (Json.parse text)
  let listed : Raw :=
    match data with
    | .map keys items => ((keys.zip items).lookup "rules").getD (.list [])
    | r => r
  compileSpecs (← ofExcept (RuleSpec.listOf listed))

/-- The path behind the word `:include`. -/
def includedPath? (line : String) : Option String :=
  let chars := Text.stripChars line.toList
  let word := ":include ".toList
  if word.isPrefixOf chars then some (Text.strip (String.ofList (chars.drop word.length)))
  else none

/-- The rule on a line, if there is one; what is wrong with it is noted. -/
def ruleOfLine (number : Nat) (line : String) : Action (List Rule) :=
  let read : Action (List Rule) := do
    match ← ofExcept (RuleLine.parse line) with
    | none => return []
    | some parts => return [← compileLine parts]
  tryCatch read fun f => do
    if f.isInputFault then
      log .warning .rules ("Skipping line " ++ intText number ++ ": " ++ f.message)
      return []
    else throw f

/-- The rules of the lines of a text from line `number` on, and the files included so far.  Included
files are read with `load`, and their paths are taken from `base`. -/
def rulesOfLines (d : Directory) (base : Option Path)
    (load : Path → List Path → Action (List Rule × List Path)) :
    (number : Nat) → (seen : List Path) → List String → Action (List Rule × List Path)
  | _, seen, [] => return ([], seen)
  | number, seen, line :: rest => do
      let (found, seen) ←
        match includedPath? line with
        | none => do pure (← ruleOfLine number line, seen)
        | some text => do
            let written := Path.ofText text
            let path := (base.map (·.join written)).getD written
            if seen.contains path.resolve then throw (.circularInclude path.text)
            if !d.holds path then throw (.includeNotFound path.text)
            load path (path.resolve :: seen)
      let (others, seen) ← rulesOfLines d base load (number + 1) seen rest
      return (found ++ others, seen)

/-- The rules of a file. -/
def rulesOfFileWithin (d : Directory) :
    (depth : Nat) → Path → (seen : List Path) → Action (List Rule × List Path)
  | 0, _, _ => throw .unbounded
  | depth + 1, path, seen => do
      let text ← ofExcept (d.read path)
      if path.hasExtension "json" then return (← rulesOfJson text, seen)
      else
        rulesOfLines d (some path.parent) (rulesOfFileWithin d depth) 1 seen
          (Text.splitOnChar '\n' text)

/-- How deep inclusions can be. -/
def inclusionDepth (d : Directory) : Nat := d.size + 2

/-- The rules of a file. -/
def rulesOfFile (d : Directory) (path : Path) : Action (List Rule) := do
  return (← rulesOfFileWithin d (inclusionDepth d) path []).1

/-- The rules of a text. -/
def rulesOfText (d : Directory) (text : String) : Action (List Rule) := do
  return (← rulesOfLines d none (rulesOfFileWithin d (inclusionDepth d)) 1 []
    (Text.splitOnChar '\n' text)).1

end SymbolicAlgebra.Kernel
