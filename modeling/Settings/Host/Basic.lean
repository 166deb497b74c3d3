import Settings.Host.Path
import Settings.Reference
import Settings.Text.Lowercase
import Settings.Text.Utf8

/-!
# The host

What settings can depend on outside their documents: the working directory, what reading a path gives, the
environment, and where the system puts the directories of its user. A tree of files and folders is one way to
say what reading gives; where a desktop puts directories follows from the environment alone.
-/
namespace Settings

/-- The variables of an environment; a value need not be text. -/
abbrev Environment := List (String × List UInt8)

/-- The variables whose values are text. -/
def Environment.texts (env : Environment) : Reference.Source :=
  env.filterMap fun (name, bytes) => (Text.decode bytes).toOption.map fun value => (name, value)

/-- The machine as documents see it. -/
structure Host where
  /-- The absolute path of the working directory. -/
  cwd : String
  /-- The bytes of the file that a path leads to. -/
  bytes : String → Except ReadCause (List UInt8)
  env : Environment
  /-- The home directory of the user. -/
  home? : Option String
  /-- The directory in which an application keeps its settings. -/
  configDir? : String → Option String

namespace Host

/-- A path leads to a file. -/
def isFile (host : Host) (path : String) : Bool := (host.bytes path).isOk

/-- The text of the file that a path leads to. -/
def text (host : Host) (path : String) : Except ReadCause String :=
  match host.bytes path with
  | .error cause => .error cause
  | .ok bytes =>
    match Text.decode bytes with
    | .error _ => .error .notText
    | .ok text => .ok text

def textVariables (host : Host) : Reference.Source := host.env.texts

end Host

/-! ### The directories of a desktop -/

namespace Desktop

/-- The home directory, if the environment names one. -/
def home? (env : Environment) : Option String :=
  match Assoc.get? "HOME" env.texts with
  | some "" | none => none
  | some dir => some dir

/-- The name that an application's directory has: in lower case and without white space. -/
def directoryName (app : String) : String :=
  let words := (app.toList.splitBy fun a b => Text.isWhite a == Text.isWhite b).filter fun word => !word.all Text.isWhite
  String.ofList (words.flatMap Text.lower)

/-- The directory of an application, below the one that is kept for settings. -/
def configDir? (env : Environment) (app : String) : Option String :=
  (home? env).map fun home =>
    let base := match Assoc.get? "XDG_CONFIG_HOME" env.texts with
      | some dir => if Path.isAbsolute dir then dir else Path.join home ".config"
      | none => Path.join home ".config"
    Path.join base (directoryName app)

end Desktop

/-! ### Files and folders -/

/-- A file, or a folder of named nodes. -/
inductive FileTree where
  | file (bytes : List UInt8)
  | folder (entries : List (String × FileTree))

namespace FileTree

/-- The longest name and the longest path that a system accepts, in bytes. -/
def nameLimit : Nat := 255

def pathLimit : Nat := 4095

/-- One segment further: `chain` leads from the node that has been reached up to the root. -/
def enter (chain : List FileTree) (segment : String) : Except ReadCause (List FileTree) :=
  match chain with
  | .folder entries :: above =>
    if segment = "" ∨ segment = "." then .ok chain
    else if segment = ".." then .ok (if above.isEmpty then chain else above)
    else if nameLimit < segment.utf8ByteSize then .error .nameTooLong
    else
      match Assoc.get? segment entries with
      | some node => .ok (node :: chain)
      | none => .error .missing
  | _ => .error .notDirectory

/-- Follows segments one after the other. -/
def follow (chain : List FileTree) (segments : List String) : Except ReadCause (List FileTree) :=
  segments.foldlM enter chain

/-- The bytes of the file that a path leads to, from the working directory if it is relative. -/
def read (root : FileTree) (cwd path : String) : Except ReadCause (List UInt8) :=
  if path.toList.contains '\x00' then .error .zeroInName
  else if path = "" then .error .missing
  else if pathLimit < path.utf8ByteSize then .error .nameTooLong
  else
    match follow [root] (if Path.isAbsolute path then [] else Path.segments cwd) with
    | .error cause => .error cause
    | .ok chain =>
      match follow chain (Path.segments path) with
      | .error cause => .error cause
      | .ok (.file bytes :: _) => .ok bytes
      | .ok _ => .error .isDirectory

/-- Puts a node at the end of a path of folders, which are made where there are none. A folder that is
    there already stays. -/
def put (node : FileTree) : List String → FileTree → FileTree
  | [], old =>
    match node, old with
    | .folder [], .folder entries => .folder entries
    | _, _ => node
  | segment :: path, .file _ => .folder [(segment, put node path (.folder []))]
  | segment :: path, .folder entries =>
    .folder (Assoc.insert segment (put node path ((Assoc.get? segment entries).getD (.folder []))) entries)

end FileTree

/-- The host with a tree of files, whose directories are those of a desktop. -/
def Host.ofTree (cwd : String) (root : FileTree) (env : Environment) : Host :=
  ⟨cwd, root.read cwd, env, Desktop.home? env, Desktop.configDir? env⟩

end Settings
