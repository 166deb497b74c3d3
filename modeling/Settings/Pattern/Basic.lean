import Settings.Host.Basic
import Settings.Pattern.RegexReader

/-!
# Patterns

A pattern picks texts: one text as it is written, or all texts that an expression between slashes matches
as a whole. An exclamation mark in front of it turns the choice around. References to variables of the
environment in a pattern's text are expanded before it is read.
-/
namespace Settings

/-- What a pattern compares a text with. -/
inductive Pattern.Matcher where
  | text (s : String)
  | regex (r : Pattern.Regex)
  deriving Repr

/-- A text or an expression, or what is left by it. -/
structure Pattern where
  matcher : Pattern.Matcher
  negated : Bool
  deriving Repr

namespace Pattern

/-- A text fits what a pattern compares it with. -/
def Matcher.fits (text : String) : Matcher → Bool
  | .text s => text == s
  | .regex r => r.matchesIn text

/-- The texts that a pattern picks. -/
def picks (p : Pattern) (text : String) : Bool := p.matcher.fits text != p.negated

/-- The pattern that picks just the other texts. -/
def negate (p : Pattern) : Pattern := { p with negated := !p.negated }

@[simp] theorem picks_negate (p : Pattern) (text : String) : p.negate.picks text = !p.picks text := by
  unfold picks negate
  cases p.matcher.fits text <;> cases p.negated <;> rfl

/-- The expression between two slashes. -/
def betweenSlashes? (body : List Char) : Option (List Char) :=
  (Text.after? ['/'] body).bind (Text.beforeLast? '/')

/-- Reads what a pattern compares with. The expression has to match from the start of a text to its end. -/
def Matcher.read (body : List Char) : Except Fault Matcher :=
  match betweenSlashes? body with
  | none => .ok (.text (String.ofList body))
  | some expression =>
    match Regex.read (String.ofList ("^(?:".toList ++ expression ++ ")$".toList)) with
    | .ok r => .ok (.regex r)
    | .error cause => .error (.conversion (String.ofList body) "NegatablePattern" cause.message)

/-- Reads a pattern on a host. -/
def read (host : Host) (raw : String) : Except Fault Pattern := do
  let text ← Reference.resolve host.textVariables .keep raw
  match text.toList with
  | '!' :: body => return ⟨← Matcher.read body, true⟩
  | body => return ⟨← Matcher.read body, false⟩

end Pattern

end Settings
