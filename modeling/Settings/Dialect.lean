import Settings.Fault
import Settings.Text.Blank

/-!
# Dialects

The four dialects a document can be written in, and how the name of a resource tells which one it is.
-/
namespace Settings

/-- The dialects of documents. -/
inductive Dialect where
  /-- Scopes in braces, `key = value` lines, includes. -/
  | hocon
  /-- Scopes in braces, `"key" : value,` lines. -/
  | json
  /-- Scopes by indentation, `key: value` lines, hyphen lists. -/
  | yaml
  /-- Flat `key=value` lines. -/
  | properties
  deriving DecidableEq, Repr

namespace Dialect

/-- The name of a dialect in reports. -/
def name : Dialect → String
  | hocon => "hocon"
  | json => "json"
  | yaml => "yaml"
  | properties => "properties"

/-- The part of a path behind its last slash of either kind. -/
def lastSegment (path : List Char) : List Char := (path.reverse.takeWhile fun c => c != '/' && c != '\\').reverse

/-- The dialect that stands behind a file extension, whatever the case of its letters. -/
def ofExtension? (ext : String) : Option Dialect :=
  match ext.map Char.toLower with
  | "conf" | "hocon" => some hocon
  | "json" => some json
  | "yml" | "yaml" => some yaml
  | "properties" => some properties
  | _ => none

/-- The dialect of a resource: by its extension, HOCON if it has none. -/
def ofResource (resource : String) : Except Fault Dialect :=
  match Text.cutLast? '.' (lastSegment resource.toList) with
  | none => .ok hocon
  | some (_, ext) =>
    match ofExtension? (String.ofList ext) with
    | some dialect => .ok dialect
    | none => .error (.unsupportedFormat resource)

end Dialect

end Settings
