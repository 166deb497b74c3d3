import Settings.Dialect.Hocon
import Settings.Dialect.Json
import Settings.Dialect.Properties
import Settings.Dialect.Yaml
import Settings.Resource.Basic

/-!
# Documents

A document is a text in one of the dialects. Reading it gives a store; an include line of a HOCON document
reads another document in its place, up to a fixed depth.
-/
namespace Settings

/-- A text, its dialect, the name it is reported under, and the directory of its includes. -/
structure Document where
  source : String
  dialect : Dialect
  text : String
  dir : Option String

namespace Document

/-- The deepest nesting of includes. -/
def includeLimit : Nat := 16

/-- The document of a resource, in the dialect that its name tells. -/
def ofResource (r : Resource) : Except Fault Document :=
  match Dialect.ofResource r.name with
  | .ok dialect => .ok ⟨r.name, dialect, r.text, r.dir⟩
  | .error e => .error e

/-- Reads a document; `included` gives the store of what a directive asks for. -/
def readWith (included : Directive → Watched Store) (d : Document) : Watched Store := do
  let store ←
    match d.dialect with
    | .hocon =>
      Hocon.parse
        (fun line raw =>
          match Directive.parse? raw with
          | some directive => included directive
          | none => .fault (.structural line (.badInclude raw)))
        d.text
    | .json => FlatJson.parse d.text
    | .yaml => Yaml.parse d.text
    | .properties => Properties.parse d.text
  Noted.note (.parsed d.source d.dialect store.size)
  return store

/-- Reads a document in which includes may nest `depth` deep. -/
def readWithin (lib : Library) : Nat → Document → Watched Store
  | 0, d => d.readWith fun directive => .fault (.included directive.target (.tooDeep includeLimit))
  | depth + 1, d =>
    d.readWith fun directive => do
      let resource ← .of (lib.load d.dir directive)
      let inner ← .of (ofResource resource)
      readWithin lib depth inner

/-- The store of a document. -/
def read (lib : Library) (d : Document) : Watched Store := d.readWithin lib includeLimit

end Document

end Settings
