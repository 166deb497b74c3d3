import Settings.Datum.Basic
import Settings.Fault

/-!
# Misfits

Why a tree does not fit a shape, and where: the path from the root to the node that does not fit. `Fit` is
the outcome of fitting a tree, with the keys that were passed over because nothing asked for them.
-/
namespace Settings

open Number (DecimalFault IntFault)

/-- Why a node does not fit. -/
inductive MisfitCause where
  /-- `found` says what there is instead. -/
  | mismatch (expected found : String)
  | outOfRange (n : Int) (target : String)
  | notInteger (raw target : String) (why : IntFault)
  | notNumber (raw : String) (why : DecimalFault)
  | notBoolean (raw : String)
  /-- A value of a kind that a type does not take. -/
  | invalidType (found expected : String)
  /-- A value of the right kind that a type does not have. -/
  | invalidValue (found expected : String)
  | unknownVariant (variant : String) (known : List String)
  | notOneVariant (name : String)
  /-- Text that should hold a map. -/
  | unreadable (fault : Fault)
  | missingField (name : String)
  | unknownField (name : String) (known : List String)
  | invalidLength (length : Nat) (expected : String)
  | wideInteger
  deriving DecidableEq, Repr

namespace MisfitCause

/-- Field names as a choice: each in backticks. -/
def oneOf : List String → String
  | [] => "there are no fields"
  | [a] => "expected `" ++ a ++ "`"
  | [a, b] => "expected `" ++ a ++ "` or `" ++ b ++ "`"
  | names => "expected one of " ++ ", ".intercalate (names.map fun n => "`" ++ n ++ "`")

def message : MisfitCause → String
  | mismatch expected found => "expected " ++ expected ++ ", found " ++ found
  | outOfRange n target => toString n ++ " is out of range for " ++ target
  | notInteger raw target why => "'" ++ raw ++ "' is not a valid " ++ target ++ ": " ++ why.message
  | notNumber raw why => "'" ++ raw ++ "' is not a valid number: " ++ why.message
  | notBoolean raw => "'" ++ raw ++ "' is not a boolean (expected true/false, yes/no or 1/0)"
  | invalidType found expected => "invalid type: " ++ found ++ ", expected " ++ expected
  | invalidValue found expected => "invalid value: " ++ found ++ ", expected " ++ expected
  | unknownVariant variant known =>
    "unknown variant '" ++ variant ++ "', expected one of [" ++ ", ".intercalate (known.map Text.shown) ++ "]"
  | notOneVariant name => "expected a single-key map naming a " ++ name ++ " variant"
  | unreadable fault => fault.message
  | missingField name => "missing field `" ++ name ++ "`"
  | unknownField name known => "unknown field `" ++ name ++ "`, " ++ oneOf known
  | invalidLength length expected => "invalid length " ++ toString length ++ ", expected " ++ expected
  | wideInteger => "i128 is not supported"

/-- The value itself does not convert, rather than its surroundings being wrong. -/
def isConversion : MisfitCause → Bool
  | missingField _ | unknownField .. | invalidLength .. | wideInteger => false
  | _ => true

end MisfitCause

/-- A cause and the path to the node it arose at. -/
structure Misfit where
  path : List PathStep
  cause : MisfitCause
  deriving DecidableEq, Repr

/-- A path as it is written: keys with dots between them, indexes in brackets. -/
def PathStep.display (path : List PathStep) : String :=
  path.foldl (fun out step =>
    match step with
    | .key k => if out = "" then k else out ++ "." ++ k
    | .index i => out ++ "[" ++ toString i ++ "]") ""

namespace Misfit

/-- A misfit with its place. -/
def message (m : Misfit) : String :=
  if m.path = [] then m.cause.message else "at '" ++ PathStep.display m.path ++ "': " ++ m.cause.message

/-- The path up to the last key on it: the innermost named field around the node. -/
def field? (m : Misfit) : Option (List PathStep) :=
  let upTo := (m.path.reverse.dropWhile fun
    | .key _ => false
    | .index _ => true).reverse
  if upTo = [] then none else some upTo

end Misfit

/-! ### Fits -/

/-- A value and the keys passed over on the way to it, each as the segments of its path; or a misfit. -/
abbrev Fit (α : Type) := Except Misfit (α × List (List String))

namespace Fit

variable {α β : Type}

/-- A value that was found without passing anything over. -/
def of (a : α) : Fit α := .ok (a, [])

/-- A misfit at the node itself. -/
def fail (cause : MisfitCause) : Fit α := .error ⟨[], cause⟩

/-- Passes a key over. -/
def passOver (key : String) : Fit Unit := .ok ((), [[key]])

/-- Goes on from a value; the keys passed over before come first. -/
def andThen (x : Fit α) (f : α → Fit β) : Fit β :=
  match x with
  | .error m => .error m
  | .ok (a, ignored) =>
    match f a with
    | .error m => .error m
    | .ok (b, more) => .ok (b, ignored ++ more)

/-- Changes the value. -/
def map (f : α → β) (x : Fit α) : Fit β :=
  match x with
  | .error m => .error m
  | .ok (a, ignored) => .ok (f a, ignored)

/-- The outcome for a node, seen from the node one step above. `segment` is how the step shows in the paths
    of keys passed over. -/
def below (step : PathStep) (segment : String) (x : Fit α) : Fit α :=
  match x with
  | .error m => .error { m with path := step :: m.path }
  | .ok (a, ignored) => .ok (a, ignored.map (segment :: ·))

/-- The outcome for a node, seen from a type that wraps the node's type. -/
def within (x : Fit α) : Fit α :=
  match x with
  | .error m => .error m
  | .ok (a, ignored) => .ok (a, ignored.map ("?" :: ·))

/-- The outcome for the content of a variant. -/
def inVariant (variant : String) (x : Fit α) : Fit α :=
  match x with
  | .error m => .error { m with path := .key variant :: m.path }
  | .ok r => .ok r

/-- Only the value. -/
def value? (x : Fit α) : Except Misfit α :=
  match x with
  | .error m => .error m
  | .ok (a, _) => .ok a

end Fit

end Settings
