import SymbolicAlgebra.Definition.Basic
import SymbolicAlgebra.Fault

/-!
# Definition/Flags — numeric flags that agree with each other
-/

namespace SymbolicAlgebra.Flags

/-- The flags a symbol may have. -/
def names : List String := ["even", "odd", "positive", "negative", "zero", "integer", "finite"]

/-- Whether a flag is set. -/
def isSet (flags : Flags) (name : String) : Bool := flags.lookup name == some (some true)

/-- Sets or clears a flag. -/
def put (flags : Flags) (name : String) (value : Bool) : Flags :=
  if flags.any (·.1 == name) then
    flags.map fun (k, v) => if k == name then (k, some value) else (k, v)
  else flags ++ [(name, some value)]

/-- Changes several flags if one is set. -/
def imply (flag : String) (changes : List (String × Bool)) (flags : Flags) : Flags :=
  if flags.isSet flag then changes.foldl (fun fs (k, v) => fs.put k v) flags else flags

/-- Makes mutually exclusive flags agree: odd and even, zero and the signs. -/
def normalize (flags : Flags) : Except DefinitionFault (Option Flags) :=
  if flags.isEmpty then .ok none
  else
    match flags.find? fun (k, _) => !names.contains k with
    | some (k, _) => .error (.unknownFlag k)
    | none =>
        .ok <| some <| flags
          |> imply "odd" [("even", false)]
          |> imply "even" [("odd", false)]
          |> imply "zero" [("positive", false), ("negative", false), ("even", true), ("odd", false)]
          |> imply "positive" [("negative", false), ("zero", false)]
          |> imply "negative" [("positive", false), ("zero", false)]

end SymbolicAlgebra.Flags
