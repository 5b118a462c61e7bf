import SymbolicAlgebra.Fault
import SymbolicAlgebra.Files.Path

/-!
# Files/Directory — a working directory with the files below it

A directory is there if a file lies below it.  Of what lies outside the working directory, the
directories above it are there, and those files whose paths are listed.
-/

namespace SymbolicAlgebra

/-- The files that a program can read. -/
structure Directory where
  /-- The files below the working directory, by the parts of their paths. -/
  files : List (List String × String) := []
  /-- Files outside, by the paths that lead to them. -/
  outside : List (Path × String) := []

namespace Directory

/-- What a path leads to. -/
inductive Entry
  | file (text : String)
  | directory
  | missing
  /-- Nothing, because the path leads through a file. -/
  | blocked

/-- What lies at a place below the working directory. -/
def entryAt (d : Directory) (place : List String) : Entry :=
  match d.files.lookup place with
  | some text => .file text
  | none =>
      if place.isEmpty || d.files.any (place.isPrefixOf ·.1) then .directory else .missing

/-- Follows the parts of a path from a place; `none` is a directory outside. -/
def follow (d : Directory) : (place : Option (List String)) → List String → Entry
  | none, [] => .directory
  | none, part :: rest => if part == ".." then d.follow none rest else .missing
  | some place, [] => d.entryAt place
  | some place, part :: rest =>
      match d.entryAt place with
      | .directory =>
          if part != ".." then d.follow (some (place ++ [part])) rest
          else if place.isEmpty then d.follow none rest
          else d.follow (some place.dropLast) rest
      | .file _ => .blocked
      | entry => entry

/-- What a path leads to. -/
def entry (d : Directory) (p : Path) : Entry :=
  match d.outside.lookup p with
  | some text => .file text
  | none => d.follow (if p.root == "" then some [] else none) p.parts

/-- Whether a path leads to a file or a directory. -/
def holds (d : Directory) (p : Path) : Bool :=
  match d.entry p with
  | .file _ | .directory => true
  | .missing | .blocked => false

/-- The text of a file, with line feeds for all line ends. -/
def read (d : Directory) (p : Path) : Except Fault String :=
  match d.entry p with
  | .file text => .ok (String.ofList (Text.normalizeNewlines text.toList))
  | .directory => .error (.isADirectory p.text)
  | .missing => .error (.fileNotFound p.text)
  | .blocked => .error (.notADirectory p.text)

/-- How many files there are. -/
def size (d : Directory) : Nat := d.files.length + d.outside.length

/-- Adds a file at a path. -/
def insert (d : Directory) (p : Path) (text : String) : Directory :=
  if p.root == "" && !p.parts.contains ".." then { d with files := (p.parts, text) :: d.files }
  else { d with outside := (p, text) :: d.outside }

/-- A directory with the given files, by their paths. -/
def ofFiles (files : List (String × String)) : Directory :=
  { files := files.map fun (name, text) => ((Path.ofText name).parts, text) }

end Directory

end SymbolicAlgebra
