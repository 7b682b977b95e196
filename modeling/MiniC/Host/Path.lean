/-!
# Paths

A path is a text whose components are separated by slashes. Empty components and `.` mean the
directory they stand in, `..` the one above it.
-/

namespace MiniC.Path

/-- The components of a path, empty ones included. -/
def components (path : String) : List String := path.splitOn "/"

def isAbsolute (path : String) : Bool := path.toList.head? = some '/'

/-- The path of `file` in the directory `dir`. -/
def join (dir file : String) : String :=
  match dir.toList.getLast? with
  | none => file
  | some c => if c = '/' then dir ++ file else dir ++ "/" ++ file

/-- The last component that names something; a path that ends in `..` has none. -/
def fileName? (path : String) : Option String :=
  ((components path).filter fun c => c ≠ "" && c ≠ ".").getLast?.filter (· ≠ "..")

/-- A file name without its extension: what stands before its last point, unless nothing does. -/
def stem (name : String) : String :=
  let behind := name.toList.reverse.takeWhile (· ≠ '.')
  let before := (name.toList.reverse.drop (behind.length + 1)).reverse
  if before.isEmpty then name else String.ofList before

/-- The stem of the file that a path names, empty if it names none. -/
def fileStem (path : String) : String := ((fileName? path).map stem).getD ""

end MiniC.Path
