import Settings.Number.Integer
import Settings.Pattern.Cause
import Settings.Pattern.Regex
import Settings.Text.Alphanumeric
import Settings.Text.Blank

/-!
# Reading regular expressions

The written form of expressions: groups, inline flags, repetitions, escapes and classes of characters. A
reader goes through the text from left to right and keeps the groups that are open on a stack, so that
nesting costs no recursion. Each step takes at least one character.
-/
namespace Settings.Pattern

/-- What inline flags change: how a character, a dot and an anchor are meant, and whether blanks and
    comments count. -/
structure Flags where
  anyCase : Bool
  manyLines : Bool
  dotAll : Bool
  crlf : Bool
  spaced : Bool
  deriving DecidableEq, Repr

namespace Flags

def none : Flags := ⟨false, false, false, false, false⟩

/-- Switches the flag of a letter on or off. The last two do not show in whether an expression matches. -/
def set? (f : Flags) (on : Bool) : Char → Option Flags
  | 'i' => some { f with anyCase := on }
  | 'm' => some { f with manyLines := on }
  | 's' => some { f with dotAll := on }
  | 'R' => some { f with crlf := on }
  | 'x' => some { f with spaced := on }
  | 'U' | 'u' => some f
  | _ => Option.none

/-- The expression of one character. -/
def char (f : Flags) (c : Char) : Regex :=
  if f.anyCase && c.isAlpha then .chars (CharSet.single c).anyCase else .char c

/-- The expression of a dot. -/
def dot (f : Flags) : Regex :=
  let line : CharSet := if f.crlf then .ofPairs [('\n', '\n'), ('\r', '\r')] else .single '\n'
  .chars (if f.dotAll then .none else line).except

def lineStart (f : Flags) : Look := if f.manyLines then if f.crlf then .crlfStart else .lineStart else .start

def lineEnd (f : Flags) : Look := if f.manyLines then if f.crlf then .crlfEnd else .lineEnd else .finish

/-- Leaves out blanks, and comments from a hash to the end of the line. -/
def skipSpace (comment : Bool) : List Char → List Char
  | [] => []
  | c :: cs =>
    if comment then skipSpace (c != '\n') cs
    else if Text.isWhite c then skipSpace false cs
    else if c = '#' then skipSpace true cs
    else c :: cs

/-- Leaves out what does not count under the flags. -/
def skip (f : Flags) (cs : List Char) : List Char := if f.spaced then skipSpace false cs else cs

/-- The character behind a dash in a class that decides whether the dash makes a range. A comment is not
    looked behind. -/
def behind? (f : Flags) (cs : List Char) : Option Char :=
  if f.spaced then
    match cs.dropWhile Text.isWhite with
    | [] => cs.head?
    | '#' :: more => (more.dropWhile Text.isWhite).head?.or cs.head?
    | c :: _ => some c
  else cs.head?

end Flags

/-- A piece of what is read, and the text behind it. -/
abbrev Piece (α : Type) : Type := α × List Char

/-! ### Numbers -/

/-- Reads decimal digits, with what the flags leave out behind each. -/
def readDigits (f : Flags) : Nat → List Char → List Char × List Char
  | 0, cs => ([], cs)
  | n + 1, cs =>
    match cs with
    | c :: rest =>
      if c.isDigit then
        let (digits, rest) := readDigits f n (f.skip rest)
        (c :: digits, rest)
      else ([], cs)
    | [] => ([], cs)

/-- Leaves out white space, with what the flags leave out behind each. -/
def skipWhite (f : Flags) : Nat → List Char → List Char
  | 0, cs => cs
  | n + 1, cs =>
    match cs with
    | c :: rest => if Text.isWhite c then skipWhite f n (f.skip rest) else cs
    | [] => cs

/-- A number of 32 bits between white space. -/
def readCount (f : Flags) (cs : List Char) : Except Cause (Piece Nat) :=
  let (digits, rest) := readDigits f cs.length (cs.dropWhile Text.isWhite)
  if digits.isEmpty then .error .noDigits
  else
    match Number.readInt ⟨false, 32⟩ digits with
    | .ok n => .ok (n.toNat, skipWhite f rest.length rest)
    | .error _ => .error .badDecimal

/-- The character of a number in hexadecimal digits. -/
def hexChar? (digits : List Char) : Option Char :=
  (Number.readHex? 0 digits).bind Number.scalar?

/-- So many hexadecimal digits. -/
def readHexFixed (f : Flags) : Nat → List Char → Except Cause (Piece (List Char))
  | 0, cs => .ok ([], cs)
  | n + 1, cs =>
    match cs with
    | [] => .error .shortHex
    | c :: rest =>
      if (Number.hexDigit? c).isSome then (readHexFixed f n (f.skip rest)).map fun (digits, rest) => (c :: digits, rest)
      else .error .badHexDigit

/-- Hexadecimal digits up to the closing brace. -/
def readHexBraced (f : Flags) : Nat → List Char → Except Cause (Piece (List Char))
  | 0, _ => .error .openBraced
  | n + 1, cs =>
    match cs with
    | [] => .error .openBraced
    | c :: rest =>
      if c = '}' then .ok ([], f.skip rest)
      else if (Number.hexDigit? c).isSome then
        (readHexBraced f n (f.skip rest)).map fun (digits, rest) => (c :: digits, rest)
      else .error .badBracedDigit

/-- The character behind `\x`, `\u` or `\U`: so many digits, or any number of them in braces. -/
def readHexChar (f : Flags) (width : Nat) (cs : List Char) : Except Cause (Piece Regex) :=
  match f.skip cs with
  | [] => .error .missingHex
  | '{' :: rest => do
    let (digits, rest) ← readHexBraced f cs.length (f.skip rest)
    if digits.isEmpty then .error .emptyBraced
    else
      match hexChar? digits with
      | some c => .ok (f.char c, rest)
      | none => .error .badBraced
  | cs => do
    let (digits, rest) ← readHexFixed f width cs
    match hexChar? digits with
    | some c => .ok (f.char c, rest)
    | none => .error .badHex

/-! ### Escapes -/

/-- The names of word boundaries in braces. -/
def boundary? (name : String) : Option Look :=
  match name with
  | "start" => some .wordStart
  | "end" => some .wordEnd
  | "start-half" => some .halfWordStart
  | "end-half" => some .halfWordEnd
  | _ => none

/-- A character of the names of word boundaries. -/
def isBoundaryChar (c : Char) : Bool := c.isAlpha || c == '-'

/-- Reads a name of a word boundary, with what the flags leave out behind each character. -/
def readBoundaryName (f : Flags) : Nat → List Char → List Char × List Char
  | 0, cs => ([], cs)
  | n + 1, cs =>
    match cs with
    | c :: rest =>
      if isBoundaryChar c then
        let (name, rest) := readBoundaryName f n (f.skip rest)
        (c :: name, rest)
      else ([], cs)
    | [] => ([], cs)

/-- What `\b` means: a word boundary, or the one that is named in braces behind it. Braces that hold no
    name are a repetition. -/
def readBoundary (f : Flags) (cs : List Char) : Except Cause (Piece Regex) :=
  match cs with
  | '{' :: rest =>
    match f.skip rest with
    | [] => .error .openBoundary
    | c :: more =>
      if isBoundaryChar c then
        let (name, rest) := readBoundaryName f cs.length (c :: more)
        match rest with
        | '}' :: rest =>
          match boundary? (String.ofList name) with
          | some look => .ok (.look look, rest)
          | none => .error .unknownBoundary
        | _ => .error .badBoundary
      else .ok (.look .wordEdge, cs)
  | _ => .ok (.look .wordEdge, cs)

/-- A backslash before the character makes it stand for itself. -/
def isEscapable (c : Char) : Bool := c.toNat < 0x80 && !c.isAlphanum && c != '<' && c != '>'

/-- What a backslash and the characters behind it mean. -/
def readEscape (f : Flags) : List Char → Except Cause (Piece Regex)
  | [] => .error .openEscape
  | c :: cs =>
    if c.isDigit then .error .backReference
    else if isEscapable c then .ok (f.char c, cs)
    else
      match c with
      | 'p' | 'P' => .error .unicodeClass
      | 'x' => readHexChar f 2 cs
      | 'u' => readHexChar f 4 cs
      | 'U' => readHexChar f 8 cs
      | 'd' => .ok (.chars .digits, cs)
      | 's' => .ok (.chars .space, cs)
      | 'w' => .ok (.chars .word, cs)
      | 'D' => .ok (.chars CharSet.digits.except, cs)
      | 'S' => .ok (.chars CharSet.space.except, cs)
      | 'W' => .ok (.chars CharSet.word.except, cs)
      | 'a' => .ok (f.char '\x07', cs)
      | 'f' => .ok (f.char '\x0c', cs)
      | 't' => .ok (f.char '\t', cs)
      | 'n' => .ok (f.char '\n', cs)
      | 'r' => .ok (f.char '\r', cs)
      | 'v' => .ok (f.char '\x0b', cs)
      | 'A' => .ok (.look .start, cs)
      | 'z' => .ok (.look .finish, cs)
      | 'B' => .ok (.look .noWordEdge, cs)
      | '<' => .ok (.look .wordStart, cs)
      | '>' => .ok (.look .wordEnd, cs)
      | 'b' => readBoundary f cs
      | _ => .error .unknownEscape

/-! ### Classes -/

/-- One member of a class as it is written: an escape, or a character for itself. -/
def readMember (f : Flags) : List Char → Except Cause (Piece Regex)
  | [] => .error .openClass
  | '\\' :: cs => readEscape f cs
  | c :: cs => .ok (.char c, cs)

/-- A member of a class, or a range between two. -/
def readRange (f : Flags) (cs : List Char) : Except Cause (Piece CharSet) := do
  let (first, rest) ← readMember f cs
  let alone : Except Cause (Piece CharSet) :=
    match first with
    | .char c => .ok (.single c, f.skip rest)
    | .chars set => .ok (set, f.skip rest)
    | _ => .error .badClassItem
  match f.skip rest with
  | [] => .error .openClassItem
  | '-' :: more =>
    if f.behind? more = some ']' ∨ f.behind? more = some '-' then alone
    else
      match f.skip more with
      | [] => .error .openClassDash
      | more => do
        let (last, rest) ← readMember f more
        match first, last with
        | .char a, .char b =>
          match CharRange.between? a b with
          | some range => .ok (CharSet.none.insert range, rest)
          | none => .error .rangeBackwards
        | _, _ => .error .badRangeEnd
  | _ => alone

/-- A set that is named between brackets and colons, if one stands here. -/
def readNamed? (cs : List Char) : Option (CharSet × List Char) :=
  match cs with
  | '[' :: ':' :: cs =>
    let (negated, cs) := match cs with
      | '^' :: cs => (true, cs)
      | cs => (false, cs)
    match cs.dropWhile (· != ':') with
    | ':' :: ']' :: rest =>
      (CharSet.named? (String.ofList (cs.takeWhile (· != ':')))).map fun set =>
        (if negated then set.except else set, rest)
    | _ => none
  | _ => none

/-- Reads the members of a class up to its closing bracket. -/
def readMembers (f : Flags) : Nat → CharSet → List Char → Except Cause (Piece CharSet)
  | 0, _, _ => .error .openClass
  | n + 1, set, cs =>
    match f.skip cs with
    | [] => .error .openClass
    | ']' :: rest => .ok (set, rest)
    | '&' :: '&' :: _ => .error .intersection
    | '-' :: '-' :: _ => .error .difference
    | '~' :: '~' :: _ => .error .symmetricDifference
    | '[' :: rest =>
      match readNamed? ('[' :: rest) with
      | some (named, rest) => readMembers f n (set.union named) rest
      | none => .error .nestedClass
    | cs => do
      let (more, rest) ← readRange f cs
      readMembers f n (set.union more) rest

/-- Reads the dashes that a class opens with; they stand for themselves. -/
def readDashes (f : Flags) : Nat → CharSet → List Char → Except Cause (Piece CharSet)
  | 0, set, cs => .ok (set, cs)
  | n + 1, set, cs =>
    match cs with
    | '-' :: rest =>
      match f.skip rest with
      | [] => .error .openClassDash
      | rest => readDashes f n (set.insert (.single '-')) rest
    | _ => .ok (set, cs)

/-- Reads a class behind its opening bracket. A bracket that closes it at once stands for itself. The other
    case of the members comes in before all are turned into what is not in the class. -/
def readClass (f : Flags) (cs : List Char) : Except Cause (Piece Regex) := do
  let (negated, cs) ← match f.skip cs with
    | [] => (.error .openClass : Except Cause (Piece Bool))
    | '^' :: rest =>
      match f.skip rest with
      | [] => .error .openNegatedClass
      | rest => .ok (true, rest)
    | cs => .ok (false, cs)
  let (set, rest) ← match cs with
    | ']' :: rest =>
      match f.skip rest with
      | [] => (.error .openClassBracket : Except Cause (Piece CharSet))
      | rest => .ok (.single ']', rest)
    | cs => readDashes f cs.length .none cs
  let (set, rest) ← readMembers f (cs.length + 1) set rest
  let set := if f.anyCase then set.anyCase else set
  pure (.chars (if negated then set.except else set), rest)

/-! ### Groups -/

/-- What a group opens with. -/
inductive GroupHead where
  /-- A group, with its name if it has one. -/
  | captures (name : Option String)
  /-- A group only in order to group, and the flags inside. -/
  | groups (flags : Flags)
  /-- No group: the flags from here on. -/
  | switch (flags : Flags)

/-- A character that the name of a group may have. -/
def isNameChar (first : Bool) (c : Char) : Bool :=
  c == '_' || if first then Text.isAlphabetic c else c == '.' || c == '[' || c == ']' || Text.isAlphanumeric c

/-- Reads the name of a group. -/
def readName (cs : List Char) : Except Cause (Piece String) :=
  let name := cs.takeWhile (· != '>')
  if cs.isEmpty then .error .missingName
  else if name.head?.any (!isNameChar true ·) || name.tail.any (!isNameChar false ·) then .error .badName
  else
    match cs.dropWhile (· != '>') with
    | [] => .error .openName
    | _ :: rest => if name.isEmpty then .error .emptyName else .ok (String.ofList name, rest)

/-- Reads flags up to the mark that ends them; the flags in `seen` have been named. -/
def readFlags (seen : List Char) (negated last : Bool) (f : Flags) : List Char → Except Cause (Piece Flags)
  | [] => .error .openFlags
  | c :: cs =>
    if c = ':' ∨ c = ')' then if last then .error .negatedNothing else .ok (f, c :: cs)
    else if c = '-' then if negated then .error .negatedTwice else readFlags seen true true f cs
    else
      match f.set? (!negated) c with
      | none => .error .unknownFlag
      | some g => if seen.contains c then .error .flagTwice else readFlags (c :: seen) negated false g cs

/-- Reads what a group opens with, behind its parenthesis. Flags on their own end before the closing
    parenthesis. -/
def readGroupHead (f : Flags) (cs : List Char) : Except Cause (Piece GroupHead) :=
  match f.skip cs with
  | '?' :: '=' :: _ | '?' :: '!' :: _ | '?' :: '<' :: '=' :: _ | '?' :: '<' :: '!' :: _ => .error .lookAround
  | '?' :: 'P' :: '<' :: rest | '?' :: '<' :: rest => do
    let (name, rest) ← readName rest
    pure (.captures (some name), rest)
  | '?' :: [] => .error .openGroupHead
  | '?' :: ')' :: _ => .error .noFlags
  | '?' :: rest => do
    let (flags, rest) ← readFlags [] false false f rest
    match rest with
    | ':' :: rest => pure (.groups flags, rest)
    | rest => pure (.switch flags, rest)
  | cs => pure (.captures none, cs)

/-! ### Repetitions -/

/-- How often: at least so many times, and at most so many if there is an end. -/
abbrev Times : Type := Nat × Option Nat

/-- Reads a count behind its opening brace, and the mark of laziness behind it. -/
def readTimes (f : Flags) (cs : List Char) : Except Cause (Piece Times) := do
  if (f.skip cs).isEmpty then .error .openCount
  let (min, rest) ← readCount f (f.skip cs)
  let (max, rest) ← match rest with
    | [] => (.error .openCountMin : Except Cause (Piece (Option Nat)))
    | ',' :: rest =>
      match f.skip rest with
      | [] => .error .openCountComma
      | '}' :: rest => .ok (none, '}' :: rest)
      | rest => do
        let (max, rest) ← readCount f rest
        if rest.isEmpty then .error .openCountMax else .ok (some max, rest)
    | rest => .ok (some min, rest)
  match rest with
  | '}' :: rest =>
    if max.any (· < min) then .error .countBackwards
    else
      match f.skip rest with
      | '?' :: rest => pure ((min, max), rest)
      | rest => pure ((min, max), rest)
  | _ => .error .badCount

/-! ### The reader -/

/-- A group that is open: whether it is counted as one, the flags before it, and what has been read around
    it, the last first. -/
structure OpenGroup where
  captures : Bool
  flags : Flags
  items : List Regex
  branches : List Regex

/-- Where the reading of an expression stands: the text left, the flags in force, the branches and items
    of the innermost group, the last first, the groups that are open, and the names of groups. -/
structure RegexReader where
  rest : List Char
  flags : Flags
  items : List Regex
  branches : List Regex
  opened : List OpenGroup
  names : List String

namespace RegexReader

/-- The expression of the innermost group. -/
def content (r : RegexReader) : Regex := .ofBranches (Regex.ofItems r.items.reverse :: r.branches).reverse

/-- Adds an item that leaves so much of the text. -/
def push (r : RegexReader) (item : Regex × List Char) : RegexReader :=
  { r with items := item.1 :: r.items, rest := item.2 }

/-- Repeats the last item. -/
def repeatLast (r : RegexReader) (cause : Cause) (times : Except Cause (Piece Times)) : Except Cause RegexReader :=
  match r.items with
  | [] => .error cause
  | item :: items => do
    let ((min, max), rest) ← times
    pure { r with items := .repetition min max item :: items, rest }

/-- Opens a group, or changes the flags. -/
def openGroup (r : RegexReader) (head : GroupHead) (rest : List Char) : Except Cause RegexReader := do
  let opened (captures : Bool) (flags : Flags) (names : List String) : Except Cause RegexReader :=
    if Regex.depthLimit ≤ r.opened.length then .error .tooDeep
    else .ok ⟨rest, flags, [], [], ⟨captures, r.flags, r.items, r.branches⟩ :: r.opened, names⟩
  match head with
  | .captures none => opened true r.flags r.names
  | .captures (some name) =>
    if r.names.contains name then .error .nameTaken else opened true r.flags (name :: r.names)
  | .groups flags => opened false flags r.names
  | .switch flags => pure { r with flags, rest := rest.drop 1 }

/-- Closes the innermost group. -/
def close (r : RegexReader) (rest : List Char) : Except Cause RegexReader :=
  match r.opened with
  | [] => .error .strayClose
  | g :: opened =>
    let item := if g.captures then .group r.content else r.content
    .ok ⟨rest, g.flags, item :: g.items, g.branches, opened, r.names⟩

/-- The rest behind a mark of laziness, which does not show in whether an expression matches. -/
def lazily : List Char → List Char
  | '?' :: cs => cs
  | cs => cs

/-- Reads the next piece, which starts with a character that counts. -/
def step (r : RegexReader) (c : Char) (cs : List Char) : Except Cause RegexReader :=
  match c with
  | '(' => do
    let (head, rest) ← readGroupHead r.flags cs
    r.openGroup head rest
  | ')' => r.close cs
  | '|' => .ok { r with branches := .ofItems r.items.reverse :: r.branches, items := [], rest := cs }
  | '[' => (readClass r.flags cs).map r.push
  | '?' => r.repeatLast .nothingRepeated (.ok ((0, some 1), lazily cs))
  | '*' => r.repeatLast .nothingRepeated (.ok ((0, none), lazily cs))
  | '+' => r.repeatLast .nothingRepeated (.ok ((1, none), lazily cs))
  | '{' => r.repeatLast .nothingCounted (readTimes r.flags cs)
  | '\\' => (readEscape r.flags cs).map r.push
  | '.' => .ok (r.push (r.flags.dot, cs))
  | '^' => .ok (r.push (.look r.flags.lineStart, cs))
  | '$' => .ok (r.push (.look r.flags.lineEnd, cs))
  | c => .ok (r.push (r.flags.char c, cs))

/-- Reads to the end of the text, in at most so many steps. -/
def finish : Nat → RegexReader → Except Cause Regex
  | 0, _ => .error .openGroup
  | n + 1, r =>
    match r.flags.skip r.rest with
    | [] => if r.opened.isEmpty then .ok r.content else .error .openGroup
    | c :: cs => do finish n (← r.step c cs)

end RegexReader

/-- Reads an expression. It must not nest too deeply, nor grow too large when its repetitions are written
    out. -/
def Regex.read (text : String) : Except Cause Regex := do
  let cs := text.toList
  let r ← RegexReader.finish (cs.length + 1) ⟨cs, .none, [], [], [], []⟩
  if depthLimit < r.depth then .error .tooDeep
  else if weightLimit < r.fullWeight then .error .tooLarge
  else .ok r

end Settings.Pattern
