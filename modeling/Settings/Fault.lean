/-!
# Faults

Everything that can go wrong between a document and a typed setting, by cause. The wording of a fault is
in one place, `Fault.message`; callers that branch on a fault look at its constructor or at its kind.
-/
namespace Settings

/-- The five families of faults. -/
inductive Fault.Kind where
  | lexical
  | structural
  | resolution
  | conversion
  | binding
  deriving DecidableEq, Repr

/-- Why a text does not fall into lexemes. -/
inductive LexicalCause where
  | controlChar (c : Char)
  | openQuote (quote : Char)
  | badEscape (four : String)
  | tabIndent
  deriving DecidableEq, Repr

/-- Why lexemes or lines do not make up a document. -/
inductive StructuralCause where
  /-- The text that closes a key stands where there is no key. -/
  | missingKey (mark : String)
  | missingSeparator (mark : Char) (key : String)
  | missingValue (key : String)
  | unexpectedInKey (c : Char)
  | braceAfterValue
  | strayBrace
  | openScopes (count : Nat)
  | badInclude (raw : String)
  | orphanItem
  | missingColon (line : String)
  | oddIndent (spaces step : Nat)
  | deepIndent
  | trailingContent
  | tooDeep (limit : Nat)
  /-- A tree's text goes on with `found` where something else must stand. -/
  | unexpected (wanted found : String)
  | endOfValue
  | missingColonAfter (key : String)
  deriving DecidableEq, Repr

/-- Why a file cannot be read. -/
inductive ReadCause where
  | missing
  | isDirectory
  | notDirectory
  | nameTooLong
  | zeroInName
  | notText
  /-- The name is no file, and none of so many roots has it. -/
  | notInRoots (roots : Nat)
  deriving DecidableEq, Repr

/-- Why bytes are no UTF-8 text: at `index`, `length` bytes that begin no character, or the text ends
    inside a character. -/
inductive Utf8Cause where
  | invalid (length index : Nat)
  | incomplete (index : Nat)
  deriving DecidableEq, Repr

/-- Why an included document cannot be had. -/
inductive IncludeCause where
  | tooDeep (limit : Nat)
  | notInRoots (name : String)
  | unreadable (path : String) (cause : ReadCause)
  | noFetching (url : String)
  | unknownScheme (url : String)
  | badName (cause : Utf8Cause)
  deriving DecidableEq, Repr

/-- Why a text is no service catalog. -/
inductive CatalogCause where
  | empty
  | noTypes
  | notTypes (found : String)
  | notServices (type found : String)
  | badService (type : String) (index : Nat) (reason : String)
  | unreadable (reason : String)
  | notUnicode (name shown : String)
  deriving DecidableEq, Repr

/-- What can go wrong between a document and a typed setting. -/
inductive Fault where
  | lexical (line : Nat) (cause : LexicalCause)
  | structural (line : Nat) (cause : StructuralCause)
  | included (target : String) (cause : IncludeCause)
  | read (path : String) (cause : ReadCause)
  | unresolvedReference (key : String)
  | referenceCycle (key : String)
  | keyNotFound (key : String)
  | conversion (value target reason : String)
  | binding (target reason : String)
  | unsupportedFormat (name : String)
  | invalidCatalog (cause : CatalogCause)
  | marshal (reason : String)
  | noSource
  deriving DecidableEq, Repr

def LexicalCause.message : LexicalCause → String
  | .controlChar c =>
    let digits := (Nat.toDigits 16 c.toNat).map Char.toUpper
    "unexpected control character U+" ++ String.ofList (List.replicate (4 - digits.length) '0' ++ digits)
  | .openQuote quote => "unterminated " ++ quote.toString ++ " string"
  | .badEscape four => "malformed \\u escape '\\u" ++ four ++ "'"
  | .tabIndent => "tab character in indentation"

def StructuralCause.message : StructuralCause → String
  | .missingKey mark => "missing key before " ++ mark
  | .missingSeparator mark key => "missing '" ++ mark.toString ++ "' after key '" ++ key ++ "'"
  | .missingValue key => "key '" ++ key ++ "' has no value"
  | .unexpectedInKey c => "unexpected '" ++ c.toString ++ "' in key"
  | .braceAfterValue => "unexpected '\x7b' after a value"
  | .strayBrace => "unexpected '\x7d' with no open scope"
  | .openScopes count => "unexpected end of input: " ++ toString count ++ " unclosed scope(s)"
  | .badInclude raw => "malformed include directive '" ++ raw ++ "'"
  | .orphanItem => "list item without a key"
  | .missingColon line => "missing ':' in '" ++ line ++ "'"
  | .oddIndent spaces step =>
    "indentation of " ++ toString spaces ++ " is not a multiple of " ++ toString step ++ " spaces"
  | .deepIndent => "unexpected indentation"
  | .trailingContent => "unexpected content after the JSON value"
  | .tooDeep limit => "nesting deeper than " ++ toString limit
  | .unexpected wanted found => "expected " ++ wanted ++ ", found " ++ found
  | .endOfValue => "unexpected end of input, expected a value"
  | .missingColonAfter key => "expected ':' after key '" ++ key ++ "'"

def ReadCause.message : ReadCause → String
  | .missing => "No such file or directory (os error 2)"
  | .isDirectory => "Is a directory (os error 21)"
  | .notDirectory => "Not a directory (os error 20)"
  | .nameTooLong => "File name too long (os error 36)"
  | .zeroInName => "file name contained an unexpected NUL byte"
  | .notText => "stream did not contain valid UTF-8"
  | .notInRoots roots => "not a file and not found in " ++ toString roots ++ " search root(s)"

def Utf8Cause.message : Utf8Cause → String
  | .invalid length index =>
    "invalid utf-8 sequence of " ++ toString length ++ " bytes from index " ++ toString index
  | .incomplete index => "incomplete utf-8 byte sequence from index " ++ toString index

def IncludeCause.message : IncludeCause → String
  | .tooDeep limit => "includes nested deeper than " ++ toString limit
  | .notInRoots name => "'" ++ name ++ "' not found in any search root"
  | .unreadable path cause => "Failed to read " ++ path ++ ": " ++ cause.message
  | .noFetching url => "cannot fetch '" ++ url ++ "': http includes require the `http` feature"
  | .unknownScheme url => "unsupported URL scheme in '" ++ url ++ "'"
  | .badName cause => cause.message

def CatalogCause.message : CatalogCause → String
  | .empty => "empty document"
  | .noTypes => "no service types"
  | .notTypes found => "expected an object of service types, found " ++ found
  | .notServices type found => "'" ++ type ++ "' must list its services, found " ++ found
  | .badService type index reason => type ++ "[" ++ toString index ++ "]: " ++ reason
  | .unreadable reason => reason
  | .notUnicode name shown => name ++ ": environment variable was not valid unicode: " ++ shown

namespace Fault

/-- The wording of a fault. -/
def message : Fault → String
  | .lexical line cause => "Lexical error at line " ++ toString line ++ ": " ++ cause.message
  | .structural line cause => "Structural error at line " ++ toString line ++ ": " ++ cause.message
  | .included target cause => "Failed to include '" ++ target ++ "': " ++ cause.message
  | .read path cause => "Failed to read " ++ path ++ ": " ++ cause.message
  | .unresolvedReference key => "Unresolved reference '$\x7b" ++ key ++ "\x7d'"
  | .referenceCycle key => "Reference cycle detected at '" ++ key ++ "'"
  | .keyNotFound key => "Key not found: " ++ key
  | .conversion value target reason => "Cannot convert '" ++ value ++ "' to " ++ target ++ ": " ++ reason
  | .binding target reason => "Cannot bind " ++ target ++ ": " ++ reason
  | .unsupportedFormat name => "Unsupported resource type '" ++ name ++ "'"
  | .invalidCatalog cause => "Invalid service catalog: " ++ cause.message
  | .marshal reason => "Cannot marshal value: " ++ reason
  | .noSource => "No configuration source: call .resource(), .source_str() or .app_name() first"

/-- The family a fault belongs to. -/
def kind : Fault → Kind
  | .lexical .. => .lexical
  | .structural .. | .included .. | .read .. | .unsupportedFormat .. | .noSource => .structural
  | .unresolvedReference .. | .referenceCycle .. | .keyNotFound .. => .resolution
  | .conversion .. | .marshal .. => .conversion
  | .binding .. | .invalidCatalog .. => .binding

/-- The line of a document that a fault lies on. -/
def line? : Fault → Option Nat
  | .lexical line _ | .structural line _ => some line
  | _ => none

end Fault

theorem eq_ok_of_toOption {α : Type} {x : Except Fault α} {a : α} (h : x.toOption = some a) : x = .ok a := by
  cases x with
  | error => cases h
  | ok => exact congrArg Except.ok (Option.some.inj h)

theorem toOption_map {α β : Type} (f : α → β) (x : Except Fault α) : (x.map f).toOption = x.toOption.map f := by
  cases x with
  | _ => rfl

theorem toOption_bind {α β : Type} (x : Except Fault α) (f : α → Except Fault β) :
    (x >>= f).toOption = x.toOption.bind fun a => (f a).toOption := by
  cases x with
  | _ => rfl

end Settings
