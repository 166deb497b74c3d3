import Settings.Text.Blank

/-!
# Paths

A path is a text of segments with slashes between them; it is absolute if it starts with a slash. Paths
are joined and cut as they are written, without looking at any file.
-/
namespace Settings.Path

def isAbsolute (path : String) : Bool := path.toList.head? == some '/'

/-- The segments between the slashes of a path. -/
def segments (path : String) : List String := (Text.pieces '/' path.toList).map String.ofList

/-- A path below a directory. An absolute path replaces the directory. -/
def join (dir path : String) : String :=
  if isAbsolute path then path
  else if dir = "" ∨ dir.toList.getLast? = some '/' then dir ++ path
  else dir ++ "/" ++ path

/-- Drops the segments at the end that name no other directory, but not the first segment. -/
def dropIdle : List String → List String
  | [] => []
  | first :: rest => first :: (rest.reverse.dropWhile fun s => s = "" ∨ s = ".").reverse

/-- The directory of a path to a file: the path without its last segment. -/
def parent (path : String) : String :=
  match dropIdle (segments path).dropLast with
  | [""] => "/"
  | dir => "/".intercalate dir

end Settings.Path
