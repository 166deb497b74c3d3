import Settings.Pattern.CharSet

/-!
# Regular expressions

The expressions that patterns are made of, and where in a text they match. A place in a text is what stands
before it and the rest of the text; an expression leads from places to places. Whether an expression
matches is all that counts, so it does not matter in which order its choices are tried.
-/
namespace Settings.Pattern

/-! ### Expressions -/

/-- A condition on the characters around a place. -/
inductive Look where
  | start
  | finish
  | lineStart
  | lineEnd
  /-- Lines may end in a carriage return, a line feed or both. -/
  | crlfStart
  | crlfEnd
  | wordEdge
  | noWordEdge
  | wordStart
  | wordEnd
  | halfWordStart
  | halfWordEnd
  deriving DecidableEq, Repr

/-- The condition holds between two characters; there is none at an end of the text. -/
def Look.holds (before after : Option Char) (look : Look) : Bool :=
  let word (o : Option Char) := o.any fun c => CharSet.word.has c
  match look with
  | start => before == none
  | finish => after == none
  | lineStart => before == none || before == some '\n'
  | lineEnd => after == none || after == some '\n'
  | crlfStart => before == none || before == some '\n' || (before == some '\r' && after != some '\n')
  | crlfEnd => after == none || after == some '\r' || (after == some '\n' && before != some '\r')
  | wordEdge => word before != word after
  | noWordEdge => word before == word after
  | wordStart => !word before && word after
  | wordEnd => word before && !word after
  | halfWordStart => !word before
  | halfWordEnd => !word after

/-- A regular expression. -/
inductive Regex where
  | empty
  | char (c : Char)
  /-- Any character of a set. -/
  | chars (set : CharSet)
  | look (look : Look)
  | group (r : Regex)
  | all (rs : List Regex)
  | either (rs : List Regex)
  /-- From `min` times on, and at most so many times if there is a `max`. -/
  | times (min : Nat) (max : Option Nat) (r : Regex)
  deriving Repr

/-- A place in a text: the character before it and the text behind it. -/
structure Place where
  before : Option Char
  rest : List Char
  deriving DecidableEq, Repr

namespace Place

/-- The places of a text, from one place on. -/
def allFrom (before : Option Char) : List Char → List Place
  | [] => [⟨before, []⟩]
  | c :: cs => ⟨before, c :: cs⟩ :: allFrom (some c) cs

/-- The place behind the next character, if that is a good one. -/
def behind? (good : Char → Bool) (p : Place) : Option Place :=
  match p.rest with
  | c :: cs => if good c then some ⟨some c, cs⟩ else none
  | [] => none

/-- Those of some places that are not among others; a place is known by what is left behind it. -/
def new (known places : List Place) : List Place :=
  places.filter fun p => !known.any fun q => q.rest.length == p.rest.length

/-- Applies `f` so many times, as long as there are places. -/
def repeated (f : List Place → List Place) : Nat → List Place → List Place
  | 0, places => places
  | n + 1, places => if places.isEmpty then [] else repeated f n (f places)

/-- The places that at most so many applications of `f` lead to, the first ones included. -/
def upTo (f : List Place → List Place) : Nat → List Place → List Place
  | 0, places => places
  | n + 1, places =>
    let more := new places (f places)
    if more.isEmpty then places else upTo f n (places ++ more)

/-- More than there are places behind any of some places. -/
def bound (places : List Place) : Nat := places.foldl (fun n p => max n (p.rest.length + 1)) 0

end Place

namespace Regex

mutual

/-- The places that an expression leads to. -/
def reach : Regex → List Place → List Place
  | empty, places => places
  | char c, places => places.filterMap (Place.behind? (· == c))
  | chars set, places => places.filterMap (Place.behind? set.has)
  | look l, places => places.filter fun p => l.holds p.before p.rest.head?
  | group r, places => reach r places
  | all rs, places => reachAll rs places
  | either rs, places => reachEither rs places
  | times min max r, places =>
    let places := Place.repeated (fun ps => reach r ps) min places
    match max with
    | some max => Place.upTo (fun ps => reach r ps) (max - min) places
    | none => Place.upTo (fun ps => reach r ps) (Place.bound places) places

def reachAll : List Regex → List Place → List Place
  | [], places => places
  | r :: rs, places => reachAll rs (reach r places)

def reachEither : List Regex → List Place → List Place
  | [], _ => []
  | r :: rs, places =>
    let first := reach r places
    first ++ Place.new first (reachEither rs places)

end

/-- An expression matches somewhere in a text. -/
def matchesIn (r : Regex) (text : String) : Bool := !(r.reach (Place.allFrom none text.toList)).isEmpty

/-! ### Building expressions -/

/-- Expressions one behind the other. -/
def ofItems : List Regex → Regex
  | [] => empty
  | [r] => r
  | rs => all rs

/-- Expressions to choose from. -/
def ofBranches : List Regex → Regex
  | [r] => r
  | rs => either rs

/-- A repetition; none at all is the empty expression, and one is the expression itself. -/
def repetition (min : Nat) (max : Option Nat) (r : Regex) : Regex :=
  if min = 0 ∧ max = some 0 then empty else if min = 1 ∧ max = some 1 then r else times min max r

/-! ### Limits -/

mutual

/-- How deep expressions are nested. -/
def depth : Regex → Nat
  | group r => depth r + 1
  | times _ _ r => depth r + 1
  | all rs => depths rs + 1
  | either rs => depths rs + 1
  | _ => 0

def depths : List Regex → Nat
  | [] => 0
  | r :: rs => max (depth r) (depths rs)

end

mutual

/-- An expression can match nothing at all. -/
def nullable : Regex → Bool
  | empty | look _ => true
  | char _ | chars _ => false
  | group r => nullable r
  | all rs => allNullable rs
  | either rs => someNullable rs
  | times min _ r => min == 0 || nullable r

def allNullable : List Regex → Bool
  | [] => true
  | r :: rs => nullable r && allNullable rs

def someNullable : List Regex → Bool
  | [] => false
  | r :: rs => nullable r || someNullable rs

end

mutual

/-- The bytes that an expression takes up with its repetitions written out: 32 for each state, 8 for each
    range of characters and 4 for each way out of a choice. -/
def weight : Regex → Nat
  | empty | char _ | look _ => 32
  | chars set => 32 + 8 * set.ranges.length
  | group r => 64 + weight r
  | all rs => weights rs
  | either rs => 64 + 4 * rs.length + weights rs
  | times min max r =>
    match min, max with
    | 0, none => if nullable r then weight r + 112 else weight r + 40
    | min, none => min * weight r + 40
    | 0, some 1 => weight r + 72
    | 0, some max => 64 + max * (weight r + 40)
    | min, some max => if min = max then min * weight r else min * weight r + 32 + (max - min) * (weight r + 40)

def weights : List Regex → Nat
  | [] => 0
  | r :: rs => weight r + weights rs

end

/-- The bytes of a whole expression, which counts as a group and has one state more for its end. -/
def fullWeight (r : Regex) : Nat := weight (group r) + 32

/-- The most bytes that a whole expression may take up. -/
def weightLimit : Nat := 10 * 1024 * 1024

/-- The deepest nesting of groups. -/
def depthLimit : Nat := 50

end Regex

end Settings.Pattern
