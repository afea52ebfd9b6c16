import UnitSheet.Settings.Basic
import UnitSheet.Settings.Toml

namespace UnitSheet

/-- Regular files by the parts of their paths, with their texts. -/
abbrev FileTree := List (List String × String)

namespace Path

/-- The parts of a path; empty ones and points for the same directory are dropped. -/
def parts (path : String) : List String := (path.splitOn "/").filter fun p => p ≠ "" ∧ p ≠ "."

/-- A path from its parts, relative to the root of the tree. -/
def text (parts : List String) : String := if parts.isEmpty then "." else "/".intercalate parts

def normalize (path : String) : String :=
  if path.startsWith "/" then "/" ++ "/".intercalate (parts path) else text (parts path)

/-- The parts of a directory without steps back. -/
def resolve (parts : List String) : List String :=
  (parts.foldl (fun done p => if p = ".." then done.drop 1 else p :: done) []).reverse

/-- A directory and those above it, from the inside out. -/
def ancestors (parts : List String) : List (List String) :=
  (List.range (parts.length + 1)).map fun n => parts.take (parts.length - n)

end Path

namespace FileTree

/-- A name that ends with a slash is a directory. -/
def ofNames (names : List (String × String)) : FileTree :=
  (names.filter fun (name, _) => !name.endsWith "/").map fun (name, text) => (Path.parts name, text)

def read? (files : FileTree) (parts : List String) :
    Option String := files.lookup (Path.resolve parts)

end FileTree

namespace Settings

def fileName : String := "dimeval.toml"

/-- Where a settings file may stand for a directory, the nearest place first. -/
def candidates (directory : List String) : List (List String) :=
  (Path.ancestors (Path.resolve directory)).map (· ++ [fileName])

/-- The nearest settings file in a directory or above it. -/
def find? (files : FileTree) (directory : List String) : Option (List String) :=
  (candidates directory).find? fun p => (files.read? p).isSome

/-- Reads a document that may be missing, under the path that messages show. -/
def ofText (path : String) (text : Option String) (host : Host := {}) : Except Stop Settings :=
  match text with
  | none => fail (some path) .notFound
  | some text =>
    match Toml.parse host text with
    | .error .malformed => fail (some path) .malformed
    | .error (.fault f) => .error (.fault f)
    | .ok data => ofData (some path) data host

def load (files : FileTree) (path : String) (host : Host := {}) : Except Stop Settings :=
  ofText (Path.normalize path) (files.read? (Path.parts path)) host

end Settings

end UnitSheet
