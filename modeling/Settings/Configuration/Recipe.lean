import Settings.Configuration.Basic
import Settings.Document

/-!
# Recipes

A recipe says where a configuration comes from: its document or where to look for it, its dialect, and the
catalog whose credentials are laid over it. What it leaves out follows from the name of the application.
-/
namespace Settings

/-- Where a catalog is found. -/
inductive CatalogSource where
  | text (text : String)
  | environment
  deriving DecidableEq, Repr

/-- How to put a configuration together. -/
structure Recipe where
  app : Option String
  resource : Option String
  text : Option String
  dialect : Option Dialect
  searchPaths : Option (List SearchPath)
  catalog : Option CatalogSource

/-- One instruction of a recipe. None says who listens: what listeners are told is part of every outcome, and it is
    theirs to pick from it. -/
inductive Recipe.Step where
  | app (name : String)
  | resource (name : String)
  | text (text : String)
  | dialect (d : Dialect)
  /-- Search just these paths. -/
  | search (paths : List SearchPath)
  /-- Search this path, too. -/
  | alsoSearch (path : SearchPath)
  | catalog (source : CatalogSource)

namespace Recipe

def empty : Recipe := ⟨none, none, none, none, none, none⟩

/-- The paths to search: unless they are told, the working directory and, for an application with a name,
    its own directory. -/
def paths (r : Recipe) : List SearchPath :=
  r.searchPaths.getD (if r.app.isSome then [.cwd, .platform] else [.cwd])

/-- Follows an instruction. A path that is searched, too, comes behind those that are searched so far. -/
def follow (r : Recipe) : Step → Recipe
  | .app name => { r with app := some name }
  | .resource name => { r with resource := some name }
  | .text text => { r with text := some text }
  | .dialect d => { r with dialect := some d }
  | .search paths => { r with searchPaths := some paths }
  | .alsoSearch path => { r with searchPaths := some (r.paths ++ [path]) }
  | .catalog source => { r with catalog := some source }

/-- The recipe of some instructions. -/
def ofSteps (steps : List Step) : Recipe := steps.foldl follow empty

/-- The name of the resource: unless it is told, it follows from the application's. -/
def resourceName (r : Recipe) : Except Fault String :=
  match r.resource, r.app with
  | some name, _ => .ok name
  | none, some app => .ok (app ++ ".conf")
  | none, none => .error .noSource

/-- The resource to read: the text that is told, the file of its name, or the first in the roots. -/
def source (r : Recipe) (lib : Library) : Except Fault Resource :=
  match r.text with
  | some text => .ok ⟨"<inline>", text, none⟩
  | none => do
    let name ← r.resourceName
    if lib.host.isFile name then lib.read name
    else
      match lib.find? name with
      | some path => lib.read path
      | none => .error (.read name (.notInRoots lib.roots.length))

/-- The document to read. -/
def document (r : Recipe) (lib : Library) : Except Fault Document := do
  let resource ← r.source lib
  match r.dialect with
  | some dialect => return ⟨resource.name, dialect, resource.text, resource.dir⟩
  | none => Document.ofResource resource

/-- The catalog whose credentials are laid over the document. -/
def readCatalog (r : Recipe) (host : Host) : Watched (Option Catalog) :=
  match r.catalog with
  | none => return none
  | some (.text text) => some <$> Catalog.read text
  | some .environment => Catalog.ofHost host

/-- Puts the configuration together. -/
def load (r : Recipe) (host : Host) : Watched Configuration := do
  let lib := Library.ofPaths host r.paths (r.app.getD "")
  let document ← .of (r.document lib)
  let c := Configuration.ofStore (← document.read lib)
  match ← r.readCatalog host with
  | none => return c
  | some catalog =>
    ⟨c.appendNotices 0 catalog.settings, .ok ()⟩
    return c.overlay catalog

end Recipe

end Settings
