import Settings.Host.Basic
import Settings.Dialect

/-!
# Resources

A resource is a text and where it came from. Include directives name one in one of three ways, and search
roots are the directories in which a plain name is looked up, the first that has it winning.
-/
namespace Settings

/-- What an include line asks for. -/
inductive Directive where
  /-- A name to be looked up in the search roots. -/
  | classpath (name : String)
  /-- A path from the directory of the including document. -/
  | file (path : String)
  | url (address : String)
  deriving DecidableEq, Repr

namespace Directive

/-- The directive that is written as its kind and, in parentheses, its target. -/
def parse? (raw : String) : Option Directive := do
  let (kind, rest) ← Text.cut? '(' raw.toList
  let inner ← Text.beforeLast? ')' rest
  let target := String.ofList (Text.trim inner)
  if target = "" then none
  else
    match String.ofList kind with
    | "classpath" => some (.classpath target)
    | "file" => some (.file target)
    | "url" => some (.url target)
    | _ => none

/-- What stands between the parentheses. -/
def target : Directive → String
  | classpath t | file t | url t => t

/-- The word before the parentheses. -/
def kindName : Directive → String
  | classpath _ => "classpath"
  | file _ => "file"
  | url _ => "url"

/-- A directive as it is written. -/
def written (d : Directive) : String := d.kindName ++ "(" ++ d.target ++ ")"

end Directive

/-- A text, the name it is known by, and the directory from which its own includes are found. -/
structure Resource where
  name : String
  text : String
  dir : Option String
  deriving DecidableEq, Repr

/-- One place to search for resources. -/
inductive SearchPath where
  /-- The working directory. -/
  | cwd
  /-- The application's own directory of settings. -/
  | platform
  /-- A directory below the home directory. -/
  | home (sub : String)
  | path (dir : String)
  deriving DecidableEq, Repr

/-- The directory that a search path stands for, if there is one. -/
def SearchPath.resolve? (host : Host) (app : String) : SearchPath → Option String
  | cwd => some host.cwd
  | platform => host.configDir? app
  | home sub => host.home?.map (Path.join · sub)
  | path dir => some dir

/-- A host and the directories to search on it. -/
structure Library where
  host : Host
  roots : List String

namespace Library

/-- The library of an application's search paths; those that stand for no directory are left out. -/
def ofPaths (host : Host) (paths : List SearchPath) (app : String) : Library :=
  ⟨host, paths.filterMap (SearchPath.resolve? host app)⟩

/-- The first file of a name in the roots. -/
def find? (lib : Library) (name : String) : Option String :=
  (lib.roots.map (Path.join · name)).find? lib.host.isFile

/-- The resource at a path. -/
def resource (lib : Library) (path : String) : Except ReadCause Resource :=
  (lib.host.text path).map fun text => ⟨path, text, some (Path.parent path)⟩

/-- The resource at a path, or the fault of reading it. -/
def read (lib : Library) (path : String) : Except Fault Resource :=
  match lib.resource path with
  | .ok r => .ok r
  | .error cause => .error (.read path cause)

/-- The file that a URL without its scheme names, in percent escapes. -/
def fromFileUrl (lib : Library) (rest : List Char) : Except IncludeCause Resource :=
  match Text.decode (Text.percentDecode rest) with
  | .error cause => .error (.badName cause)
  | .ok path =>
    match lib.resource path with
    | .ok r => .ok r
    | .error cause => .error (.unreadable path cause)

/-- The resource behind a URL. Only files are read. -/
def fromUrl (lib : Library) (url : String) : Except IncludeCause Resource :=
  match Text.after? "file://".toList url.toList with
  | some rest => lib.fromFileUrl rest
  | none =>
    if (Text.after? "http://".toList url.toList).isSome ∨ (Text.after? "https://".toList url.toList).isSome then
      .error (.noFetching url)
    else .error (.unknownScheme url)

/-- The resource that a directive asks for in a document of a directory. -/
def includedIn (lib : Library) (dir : Option String) : Directive → Except IncludeCause Resource
  | .url address => lib.fromUrl address
  | .classpath name =>
    match lib.find? name with
    | none => .error (.notInRoots name)
    | some path =>
      match lib.resource path with
      | .ok r => .ok r
      | .error cause => .error (.unreadable path cause)
  | .file target =>
    let path := match dir with
      | some dir => Path.join dir target
      | none => target
    match lib.resource path with
    | .ok r => .ok r
    | .error cause => .error (.unreadable path cause)

/-- `includedIn`, with the fault that names the directive. -/
def load (lib : Library) (dir : Option String) (d : Directive) : Except Fault Resource :=
  match lib.includedIn dir d with
  | .ok r => .ok r
  | .error cause => .error (.included d.written cause)

end Library

end Settings
