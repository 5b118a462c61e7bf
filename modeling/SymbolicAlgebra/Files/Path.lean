import SymbolicAlgebra.Text.Lines

/-!
# Files/Path — names of files

A path is kept as it was written, except that empty parts and the part `.` are dropped.  The part
`..` stays, because what lies above a directory is up to the file system.
-/

namespace SymbolicAlgebra

/-- A path: its root, which is empty for a relative one, and its parts. -/
structure Path where
  root : String := ""
  parts : List String := []
  deriving DecidableEq

namespace Path

/-- The root of a written path: exactly two strokes are a root of their own. -/
def rootOf (s : List Char) : String :=
  match (s.takeWhile (· == '/')).length with
  | 0 => ""
  | 2 => "//"
  | _ => "/"

/-- Reads a path. -/
def ofText (s : String) : Path :=
  ⟨rootOf s.toList, (Text.splitOnChar '/' s).filter fun p => p != "" && p != "."⟩

/-- A path as it is written; the empty one is a point. -/
def text (p : Path) : String :=
  let body := p.root ++ "/".intercalate p.parts
  if body == "" then "." else body

/-- A path taken from a directory; one with a root of its own is not. -/
def join (directory p : Path) : Path :=
  if p.root == "" then { directory with parts := directory.parts ++ p.parts } else p

/-- The path without its last part. -/
def parent (p : Path) : Path := { p with parts := p.parts.dropLast }

/-- The last part. -/
def name (p : Path) : String := p.parts.getLast?.getD ""

/-- Whether the last part is a name with the given extension, which is not the whole name. -/
def hasExtension (p : Path) (extension : String) : Bool :=
  match Text.cutLast ['.'] p.name.toList with
  | some (stem, last) => !stem.isEmpty && !last.isEmpty && String.ofList last == extension
  | none => false

/-- Takes one step from a place, which is given by its parts, last one first. -/
def step (rooted : Bool) (place : List String) (part : String) : List String :=
  if part != ".." then part :: place
  else
    match place with
    | [] => if rooted then [] else [".."]
    | last :: rest => if last == ".." then ".." :: last :: rest else rest

/-- The path with every `..` carried out, as far as the parts before it allow. -/
def resolve (p : Path) : Path :=
  { p with parts := (p.parts.foldl (step (p.root != "")) []).reverse }

end Path

end SymbolicAlgebra
