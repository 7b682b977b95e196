import MiniC.Host.Path

/-!
# Trees of files

A `FileTree` is a directory hierarchy as a value. Reading and writing follow a path component by
component; each component but the last must lead to an existing directory. A failed operation
changes nothing.
-/

namespace MiniC

/-- Why a file cannot be read or written. -/
inductive IoError where
  | notFound
  | notADirectory
  | isADirectory
  | invalidData
  /-- Any other cause, as the operating system words it. -/
  | other (cause : String)
deriving Repr, DecidableEq

def IoError.text : IoError → String
  | notFound => "No such file or directory (os error 2)"
  | notADirectory => "Not a directory (os error 20)"
  | isADirectory => "Is a directory (os error 21)"
  | invalidData => "stream did not contain valid UTF-8"
  | other cause => cause

/-- What a path may lead to. -/
inductive Entry where
  | directory
  | file (content : ByteArray)

/-- The place of an entry: the names from the root down to it, the last name first. -/
abbrev Place := List String

/-- Entries by their places, the latest first, and the directory where relative paths start. The
root is always there. -/
structure FileTree where
  entries : List (Place × Entry)
  current : Place

namespace FileTree

/-- The entry at a place. -/
def entryAt (t : FileTree) (p : Place) : Option Entry :=
  if p = [] then some .directory else t.entries.lookup p

/-- Puts an entry at a place. -/
def put (t : FileTree) (p : Place) (e : Entry) : FileTree :=
  { t with entries := (p, e) :: t.entries }

/-- Follows components from the place `p`. -/
def follow (t : FileTree) (p : Place) : List String → Except IoError Place
  | [] => .ok p
  | c :: cs =>
    match t.entryAt p with
    | none => .error .notFound
    | some (.file _) => .error .notADirectory
    | some .directory =>
      if c = "" ∨ c = "." then t.follow p cs
      else if c = ".." then t.follow p.tail cs
      else t.follow (c :: p) cs

/-- The place that a path leads to; its last component need not exist. -/
def resolve (t : FileTree) (path : String) : Except IoError Place :=
  if path = "" then .error .notFound
  else t.follow (if Path.isAbsolute path then [] else t.current) (Path.components path)

/-- The content of a file. -/
def read (t : FileTree) (path : String) : Except IoError ByteArray := do
  let p ← t.resolve path
  match t.entryAt p with
  | none => .error .notFound
  | some .directory => .error .isADirectory
  | some (.file content) => .ok content

/-- Replaces the content of a file, which is created if there is none. -/
def write (t : FileTree) (path : String) (content : ByteArray) : Except IoError FileTree := do
  let p ← t.resolve path
  match t.entryAt p with
  | some .directory => .error .isADirectory
  | _ => .ok (t.put p (.file content))

end FileTree

end MiniC
