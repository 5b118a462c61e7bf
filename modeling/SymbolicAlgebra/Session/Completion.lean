import SymbolicAlgebra.Session.Basic

/-!
# Session/Completion — what a started word may be completed to
-/

namespace SymbolicAlgebra.Session

/-- The commands. -/
def commandNames : List String :=
  [":help", ":quit", ":exit", ":q", ":load", ":rules", ":clear", ":strict", ":precision", ":angle",
    ":expand", ":expand-all", ":compare"]

/-- What a started word in a line may be completed to: an argument of a command, a command, or a
defined name. -/
def completions (t : DefinitionTable) (word line : String) : List String :=
  let line := Text.stripLeft line
  let among (names : List String) : List String := names.filter fun n => n.startsWith word
  if line.startsWith ":angle " then among (AngularUnit.all.map AngularUnit.name)
  else if line.startsWith ":strict " then among ["on", "off"]
  else if word.startsWith ":" || (line.startsWith ":" && !Text.contains " " line) then
    among commandNames
  else (among (t.names.map (·.1))).mergeSort fun a b => !(b < a)

end SymbolicAlgebra.Session
