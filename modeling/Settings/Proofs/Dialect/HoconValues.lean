import Mathlib.Data.List.Chain
import Settings.Proofs.Dialect.HoconInclude
import Settings.Proofs.Dialect.HoconLayout
import Settings.Proofs.Reference.Closing
import Settings.Proofs.Text.Splitting

/-! # The value of a line

Behind the separator of a line stand bare words, texts in quotes and references. The reader puts them one behind the
other, with a space for the blanks between two of them, and in the end it trims what it has put together. It does not
know then which white space stood in quotes: that at the ends of the value is lost as well. -/

namespace Settings

open Reference (braces? braces?_append braces?_plain)

namespace Hocon

/-! ### Parts of a value -/

/-- What a reference holds, if it is read back as it stands: no quotes, no blanks one behind the other, and no comment
    behind a blank. -/
structure Verbatim (body : List Char) : Prop where
  unquoted : '"' ∉ body ∧ '\'' ∉ body
  spaces : ∀ front back, body = front ++ ' ' :: back →
    back.head? ≠ some ' ' ∧ LexRules.hocon.startsComment back = false

inductive Segment where
  | word (text : List Char)
  /-- What stands between the quotes, and what it reads as. -/
  | quoted (quote : Char) (raw text : List Char)
  | reference (body : List Char)

namespace Segment

def isWord : Segment → Bool
  | word _ => true
  | _ => false

/-- The segment as it is written. -/
def source : Segment → List Char
  | word text => text
  | quoted quote raw _ => quote :: raw ++ [quote]
  | reference body => '$' :: '{' :: body ++ ['}']

/-- The segment as it is read. -/
def text : Segment → List Char
  | word text | quoted _ _ text => text
  | reference body => '$' :: '{' :: body ++ ['}']

def Sound : Segment → Prop
  | word text => text ≠ [] ∧ ∀ c ∈ text, isBare c
  | quoted quote raw text => (quote = '"' ∨ quote = '\'') ∧ readQuoted quote (raw ++ [quote]) = (some text, [])
  | reference body => (∀ c ∈ body, Text.isControl c = false) ∧ braces? 0 body = some 0 ∧ Verbatim body

end Segment

/-- A segment and the blanks in front of it. -/
structure Part where
  gap : List Char
  segment : Segment

namespace Part

def source (p : Part) : List Char := p.gap ++ p.segment.source

/-- The blanks count as one space. -/
def text (p : Part) : List Char := (if p.gap = [] then [] else [' ']) ++ p.segment.text

structure Sound (p : Part) : Prop where
  gap : Blanks p.gap
  segment : p.segment.Sound
  noComment : p.gap ≠ [] → LexRules.hocon.startsComment p.segment.source = false

/-- Between two words there are blanks. -/
def Apart (p q : Part) : Prop := p.segment.isWord → q.segment.isWord → q.gap ≠ []

end Part

/-- The parts of a value, with single spaces between those that have blanks between them. -/
def joined : List Part → List Char
  | [] => []
  | p :: ps => p.segment.text ++ ps.flatMap Part.text

/-! ### Lines -/

/-- `Spells source key`: the text of a key on its line, which is plain in some parts and in quotes in others. -/
inductive Spells : List Char → List Char → Prop
  | nil : Spells [] []
  | plain {part source key : List Char} (hpart : ∀ c ∈ part, isPart c) (hstop : ∀ c ∈ source.head?, isPart c = false)
      (h : Spells source key) : Spells (part ++ source) (part ++ key)
  | quoted {quote : Char} {raw text source key : List Char} (hquote : quote = '"' ∨ quote = '\'')
      (hread : readQuoted quote (raw ++ [quote]) = (some text, [])) (h : Spells source key) :
      Spells (quote :: raw ++ quote :: source) (text ++ key)

/-- A line with a key, a separator and the parts of a value. -/
structure Assignment where
  indent : List Char
  source : List Char
  key : List Char
  before : List Char
  separator : Char
  parts : List Part
  trailing : List Char
  blanks : Blanks indent ∧ Blanks before ∧ Blanks trailing
  spells : Spells source key
  key_ne_nil : key ≠ []
  separates : separator = '=' ∨ separator = ':'
  sound : ∀ p ∈ parts, p.Sound
  apart : parts.IsChain Part.Apart

def Assignment.line (a : Assignment) : List Char :=
  a.indent ++ (a.source ++ (a.before ++ a.separator :: (a.parts.flatMap Part.source ++ a.trailing)))

/-- Wherever the line stands in a document, what is behind it is read as if the key were set to the value already. -/
def Sets (line : List Char) (key value : String) : Prop :=
  ∀ s scopes b after, AtLineEnd after →
    readOn b (between s scopes) (line ++ after) =
      readOn true (between (s.set (dottedKey (scopes ++ [key])) value) scopes) after

variable {s : Store} {scopes : List String} {c : Char} {cs rest key value source body after : List Char}
  {b dollar : Bool} {depth n m : Nat} {p : Part} {ps : List Part} {g : Segment}

/-! ### The end of the value -/

theorem result_run_congr {load : Nat → String → Watched Store} {r r' : Reader} {l : Lexeme} {tape : Tape}
    (h : (step load r l).result = (step load r' l).result) :
    (run load r (.cons l tape)).result = (run load r' (.cons l tape)).result := by
  rw [run, run, Noted.result_bind, Noted.result_bind, h]

theorem readOn_stored (hafter : AtLineEnd after) :
    readOn b (valued s scopes key value dollar) after =
      readOn true
        (between (s.set (dottedKey (scopes ++ [String.ofList key])) (Text.trimmed (String.ofList value))) scopes)
        after := by
  funext load line
  unfold readOn
  rw [Scanner.tape_lineEnd rfl hafter true]
  cases after with
  | nil =>
    rw [Scanner.tape_nil, run, run, Noted.result_bind, Noted.result_bind, step_stored (.inr (.inl rfl))]
  | cons c cs =>
    obtain ⟨s', htape⟩ := Scanner.exists_tape_lineEnd (r := .hocon) rfl (hafter c rfl) cs line true
    rw [htape]
    exact result_run_congr (step_stored (.inl rfl) load line)

theorem readOn_nil (s : Store) (load : Nat → String → Watched Store) (line : Nat) :
    readOn true (between s []) [] load line = .ok s := by
  rw [readOn, Scanner.tape_nil]
  rfl

/-- A line sets a key to one value only. -/
theorem Sets.unique {line : List Char} {k v v' : String} (h : Sets line k v) (h' : Sets line k v') : v = v' := by
  have hafter : AtLineEnd [] := nofun
  have heq := congrFun (congrFun ((h .empty [] true [] hafter).symm.trans (h' .empty [] true [] hafter)) refuse) 1
  rw [readOn_nil, readOn_nil, Except.ok.injEq] at heq
  have hget := congrArg (Store.get? · (dottedKey ([] ++ [k]))) heq
  simpa using hget

/-! ### Segments -/

/-- In a reference each character counts as it stands. Behind it as many braces are open as `braces?` counts, and the
    brace of the reference. -/
theorem step_spanned_char (h : braces? n (c :: cs) = some m) :
    ∃ n', braces? n' cs = some m ∧ ∀ s scopes key value dollar load line,
      (step load (spanned s scopes key value (n + 1) dollar) ⟨line, .char c⟩).result =
        .ok (spanned s scopes key (value ++ [c]) (n' + 1) (c = '$')) := by
  unfold spanned
  have hc : ∀ value, String.ofList value ++ c.toString = String.ofList (value ++ [c]) := fun value =>
    String.ofList_append.symm
  by_cases hopen : c = '{'
  · subst hopen
    refine ⟨n + 1, h, fun s scopes key value dollar load line => ?_⟩
    rw [← hc]
    simp only [step, valueToken, Nat.succ_pos, or_true, if_true]
    rfl
  by_cases hclose : c = '}'
  · subst hclose
    cases n with
    | zero => cases h
    | succ n =>
      refine ⟨n, h, fun s scopes key value dollar load line => ?_⟩
      rw [← hc]
      simp only [step, valueToken, Nat.succ_pos, if_true]
      rfl
  · refine ⟨n, ?_, fun s scopes key value dollar load line => ?_⟩
    · rwa [braces?] at h
      · exact fun e => hopen e
      · exact fun e => hclose e
    · rw [← hc]
      simp only [step, valueToken, hopen, hclose, if_false]
      rfl

theorem Verbatim.of_append {a : List Char} (h : Verbatim (a ++ body)) : Verbatim body where
  unquoted := ⟨fun hmem => h.unquoted.1 (List.mem_append_right _ hmem),
    fun hmem => h.unquoted.2 (List.mem_append_right _ hmem)⟩
  spaces front back heq := h.spaces (a ++ front) back (by rw [heq, List.append_assoc])

theorem startsComment_brace (hne : body ≠ []) :
    LexRules.hocon.startsComment (body ++ '}' :: rest) = LexRules.hocon.startsComment body :=
  Scanner.startsComment_append hne fun _ => by simp

theorem isBlank_iff (hc : Text.isControl c = false) : Text.isBlank c ↔ c = ' ' := by
  have htab : c ≠ '\t' := by
    rintro rfl
    exact absurd hc (by decide)
  simp [Text.isBlank, htab]

/-- A character of a reference that is a lexeme of its own. -/
theorem lone_of_mem (hverbatim : Verbatim body) (hmem : c ∈ body) (hcontrol : Text.isControl c = false)
    (hspace : c ≠ ' ') (hword : LexRules.hocon.isWordChar c = false) : Span.Lone .hocon c := by
  obtain ⟨hdouble, hsingle⟩ := hverbatim.unquoted
  refine ⟨?_, ?_, ?_, hcontrol, hword⟩
  · simpa using (isBlank_iff hcontrol).not.mpr hspace
  · cases hline : Text.isLineEnd c with
    | false => rfl
    | true =>
      rcases eq_of_isLineEnd hline with rfl | rfl
      · exact absurd hcontrol (by decide)
      · exact absurd hcontrol (by decide)
  · rintro hquote
    simp only [List.mem_cons, List.not_mem_nil, or_false] at hquote
    rcases hquote with rfl | rfl
    · exact hdouble hmem
    · exact hsingle hmem

theorem braces?_word {word : List Char} (hw : ∀ c ∈ word, LexRules.hocon.isWordChar c) :
    braces? n (word ++ cs) = braces? n cs := by
  have hopen : '{' ∉ word := fun hmem => absurd (hw _ hmem) (by decide)
  have hclose : '}' ∉ word := fun hmem => absurd (hw _ hmem) (by decide)
  rw [braces?_append, braces?_plain hopen hclose, Option.bind_some]

theorem readOn_space (hne : value ≠ []) (hcontrol : ∀ c ∈ body, Text.isControl c = false)
    (hnext : body.head? ≠ some ' ') :
    readOn b (spanned s scopes key value depth dollar) (' ' :: (body ++ '}' :: rest)) =
      readOn true (spanned s scopes key (value ++ [' ']) depth false) (body ++ '}' :: rest) := by
  have hend : ∀ d ∈ (body ++ '}' :: rest).head?, Text.isBlank d = false := by
    cases body with
    | nil =>
      rintro d ⟨rfl⟩
      decide
    | cons d body =>
      rintro _ ⟨rfl⟩
      simpa using (isBlank_iff (hcontrol d List.mem_cons_self)).not.mpr fun e => hnext (congrArg some e)
  rw [← spaced_of_ne_nil hne (List.cons_ne_nil ' ' [])]
  exact readOn_blank rfl (List.forall_mem_nil _) hend (step_spanned_blank ' ' [])

theorem readOn_lone (hlone : Span.Lone .hocon c) (hbraces : braces? n (c :: body) = some m)
    (hstart : b → LexRules.hocon.startsComment (c :: body) = false) (rest : List Char) :
    ∃ n', braces? n' body = some m ∧
      readOn b (spanned s scopes key value (n + 1) dollar) (c :: (body ++ '}' :: rest)) =
        readOn false (spanned s scopes key (value ++ [c]) (n' + 1) (c = '$')) (body ++ '}' :: rest) := by
  obtain ⟨n', hbraces', hstep⟩ := step_spanned_char hbraces
  refine ⟨n', hbraces', ?_⟩
  refine readOn_cons (fun _ => Scanner.tape_lone rfl hlone fun hb => ?_) (hstep s scopes key value dollar)
  exact (startsComment_brace (List.cons_ne_nil c body)).trans (hstart hb)

/-- What a reference holds is copied as it stands. -/
theorem readOn_body (b : Bool) (value : List Char) (dollar : Bool) (hcontrol : ∀ c ∈ body, Text.isControl c = false)
    (hbraces : braces? n body = some m) (hverbatim : Verbatim body) (hne : value ≠ [])
    (hstart : b → LexRules.hocon.startsComment body = false) :
    ∃ b' dollar', readOn b (spanned s scopes key value (n + 1) dollar) (body ++ '}' :: rest) =
      readOn b' (spanned s scopes key (value ++ body) (m + 1) dollar') ('}' :: rest) := by
  induction body using run_induction LexRules.hocon.isWordChar generalizing value b dollar n with
  | nil =>
    cases hbraces
    exact ⟨b, dollar, by simp only [List.nil_append, List.append_nil]⟩
  | lone c more hword ih =>
    obtain ⟨hc, hmore⟩ := List.forall_mem_cons.mp hcontrol
    have hverbatim' : Verbatim more := Verbatim.of_append (a := [c]) hverbatim
    by_cases hspace : c = ' '
    · subst hspace
      -- Behind a space the reader looks out for a comment, so what follows must not start one.
      obtain ⟨hnext, hcomment⟩ := hverbatim.spaces [] more rfl
      obtain ⟨b', dollar', heq⟩ := ih true (value ++ [' ']) false hmore hbraces hverbatim' (by simp) fun _ => hcomment
      refine ⟨b', dollar', ?_⟩
      rw [List.cons_append, readOn_space hne hmore hnext, heq, List.append_assoc, List.singleton_append]
    · have hlone : Span.Lone .hocon c := lone_of_mem hverbatim List.mem_cons_self hc hspace hword
      obtain ⟨n', hbraces', hfirst⟩ := readOn_lone (s := s) hlone hbraces hstart rest
      obtain ⟨b', dollar', heq⟩ := ih false (value ++ [c]) (c = '$') hmore hbraces' hverbatim' (by simp) nofun
      refine ⟨b', dollar', ?_⟩
      rw [List.cons_append, hfirst, heq, List.append_assoc, List.singleton_append]
  | run word more hword hall hstop ih =>
    have hclose : ∀ d ∈ ('}' :: rest).head?, LexRules.hocon.isWordChar d = false := by
      rintro d ⟨rfl⟩
      decide
    rw [braces?_word hall] at hbraces
    obtain ⟨b', dollar', heq⟩ := ih false (value ++ word) false (fun d hd => hcontrol d (List.mem_append_right _ hd))
      hbraces hverbatim.of_append (by simp [hne]) nofun
    refine ⟨b', dollar', ?_⟩
    rw [List.append_assoc, readOn_word hword hall (stops_append hstop hclose) (step_spanned_word _), heq,
      List.append_assoc]

theorem step_openReference (load : Nat → String → Watched Store) (line : Nat) :
    (step load (spanned s scopes key value 0 true) ⟨line, .char '{'⟩).result =
      .ok (spanned s scopes key (value ++ ['{']) 1 false) := by
  unfold spanned
  rw [String.ofList_append]
  rfl

theorem step_closeReference (load : Nat → String → Watched Store) (line : Nat) :
    (step load (spanned s scopes key value 1 dollar) ⟨line, .char '}'⟩).result =
      .ok (spanned s scopes key (value ++ ['}']) 0 false) := by
  unfold spanned
  rw [String.ofList_append]
  rfl

/-- A dollar sign and a brace open a reference. -/
theorem readOn_dollar :
    readOn b (valued s scopes key value dollar) ('$' :: '{' :: rest) =
      readOn false (spanned s scopes key (value ++ ['$'] ++ ['{']) 1 false) rest :=
  (readOn_char (by decide) (by decide) (step_valued_char (by decide))).trans
    (readOn_char (by decide) (by decide) step_openReference)

theorem readOn_reference (b : Bool) (value : List Char) (dollar : Bool) (hsound : (Segment.reference body).Sound) :
    readOn b (valued s scopes key value dollar) ((Segment.reference body).source ++ rest) =
      readOn false (valued s scopes key (value ++ (Segment.reference body).text) false) rest := by
  obtain ⟨hcontrol, hbraces, hverbatim⟩ := hsound
  obtain ⟨b', dollar', hbody⟩ : ∃ b' dollar',
      readOn false (spanned s scopes key (value ++ ['$'] ++ ['{']) 1 false) (body ++ '}' :: rest) =
        readOn b' (spanned s scopes key (value ++ ['$'] ++ ['{'] ++ body) 1 dollar') ('}' :: rest) :=
    readOn_body false _ false hcontrol hbraces hverbatim (by simp) nofun
  have hsource : (Segment.reference body).source ++ rest = '$' :: '{' :: (body ++ '}' :: rest) := by
    simp [Segment.source]
  have htext : value ++ (Segment.reference body).text = value ++ ['$'] ++ ['{'] ++ body ++ ['}'] := by
    simp [Segment.text]
  rw [hsource, htext]
  calc readOn b (valued s scopes key value dollar) ('$' :: '{' :: (body ++ '}' :: rest))
    _ = readOn false (spanned s scopes key (value ++ ['$'] ++ ['{']) 1 false) (body ++ '}' :: rest) := readOn_dollar
    _ = readOn b' (spanned s scopes key (value ++ ['$'] ++ ['{'] ++ body) 1 dollar') ('}' :: rest) := hbody
    _ = readOn false (valued s scopes key (value ++ ['$'] ++ ['{'] ++ body ++ ['}']) false) rest :=
      readOn_char (by decide) (by decide) step_closeReference

/-- Where a word ends: neither a word nor a comment that it starts goes on there. -/
def Stops (cs : List Char) : Prop := ∀ c ∈ cs.head?, LexRules.hocon.isWordChar c = false ∧ c ≠ '/'

theorem stops_of_not_word (hg : g.Sound) (hword : g.isWord = false) : Stops (g.source ++ rest) := by
  cases g with
  | word text => cases hword
  | quoted quote raw text =>
    obtain ⟨rfl | rfl, -⟩ := hg
    · rintro c ⟨rfl⟩
      decide
    · rintro c ⟨rfl⟩
      decide
  | reference body =>
    rintro c ⟨rfl⟩
    decide

theorem Segment.Sound.head (hg : g.Sound) : ∀ c ∈ (g.source ++ rest).head?, Text.isBlank c = false := by
  cases g with
  | word text =>
    obtain ⟨c, text, rfl⟩ := List.exists_cons_of_ne_nil hg.1
    rintro d ⟨rfl⟩
    exact not_blank_of_isBare (hg.2 c List.mem_cons_self)
  | quoted quote raw text =>
    obtain ⟨rfl | rfl, -⟩ := hg
    · rintro c ⟨rfl⟩
      decide
    · rintro c ⟨rfl⟩
      decide
  | reference body =>
    rintro c ⟨rfl⟩
    decide

theorem stops_blanks {gap : List Char} (hgap : Blanks gap) (hne : gap ≠ []) : Stops (gap ++ rest) := by
  obtain ⟨c, gap, rfl⟩ := List.exists_cons_of_ne_nil hne
  have hc := hgap c List.mem_cons_self
  rintro d ⟨rfl⟩
  refine ⟨?_, ?_⟩
  · cases hword : LexRules.hocon.isWordChar c with
    | false => rfl
    | true => exact absurd hc (by simp [(solid_of_isWordChar solid_hocon hword).not_blank])
  · rintro rfl
    exact absurd hc (by decide)

theorem stops_lineEnd (h : AtLineEnd cs) : Stops cs := by
  intro c hc
  rcases eq_of_isLineEnd (h c hc) with rfl | rfl
  · decide
  · decide

/-- A segment is put behind the value. -/
theorem readOn_segment (b : Bool) (value : List Char) (dollar : Bool) (hg : g.Sound)
    (hstart : b → LexRules.hocon.startsComment g.source = false) (hstop : g.isWord → Stops rest) :
    ∃ dollar', readOn b (valued s scopes key value dollar) (g.source ++ rest) =
      readOn false (valued s scopes key (value ++ g.text) dollar') rest := by
  cases g with
  | word text =>
    obtain ⟨hne, hbare⟩ := hg
    refine readOn_bare b value dollar hbare (fun c hc => (hstop rfl c hc).1) fun hb => ⟨hne, ?_⟩
    exact (Scanner.startsComment_append hne fun _ hslash => (hstop rfl '/' hslash).2 rfl).trans (hstart hb)
  | quoted quote raw text =>
    obtain ⟨hquote, hread⟩ := hg
    have hread' := (readQuoted_append hread rest).1
    rw [List.append_assoc, List.singleton_append, List.nil_append] at hread'
    have hsource : (Segment.quoted quote raw text).source ++ rest = quote :: raw ++ quote :: rest := by
      simp [Segment.source]
    rw [hsource]
    exact ⟨false, readOn_quoted hquote hread' (step_spanned_quoted quote text)⟩
  | reference body => exact ⟨false, readOn_reference b value dollar hg⟩

/-! ### Parts -/

/-- The value with a part behind it. -/
def Part.extend (value : List Char) (p : Part) : List Char := spaced value p.gap ++ p.segment.text

/-- Blanks in a value, in front of anything else. -/
theorem readOn_gap {gap : List Char} (value : List Char) (dollar : Bool) (hgap : Blanks gap)
    (hend : ∀ c ∈ rest.head?, Text.isBlank c = false) :
    ∃ (b' : Bool) (dollar' : Bool), (b' → gap ≠ []) ∧ readOn false (valued s scopes key value dollar) (gap ++ rest) =
      readOn b' (valued s scopes key (spaced value gap) dollar') rest := by
  cases gap with
  | nil => exact ⟨false, dollar, nofun, by simp [spaced]⟩
  | cons c gap =>
    obtain ⟨hc, hgap⟩ := List.forall_mem_cons.mp hgap
    exact ⟨true, false, fun _ => List.cons_ne_nil c gap, readOn_blank hc hgap hend (step_spanned_blank c gap)⟩

theorem readOn_part (value : List Char) (dollar : Bool) (hp : p.Sound) (hstop : p.segment.isWord → Stops rest) :
    ∃ dollar', readOn false (valued s scopes key value dollar) (p.source ++ rest) =
      readOn false (valued s scopes key (p.extend value) dollar') rest := by
  obtain ⟨b₁, dollar₁, hgap, h₁⟩ := readOn_gap (s := s) value dollar hp.gap hp.segment.head
  obtain ⟨dollar₂, h₂⟩ := readOn_segment b₁ (spaced value p.gap) dollar₁ hp.segment
    (fun hb => hp.noComment (hgap hb)) hstop
  refine ⟨dollar₂, ?_⟩
  rw [Part.source, List.append_assoc]
  exact h₁.trans h₂

theorem stops_parts (hsound : ∀ p ∈ ps, p.Sound) (hapart : (p :: ps).IsChain Part.Apart) (hword : p.segment.isWord)
    (hrest : Stops rest) : Stops (ps.flatMap Part.source ++ rest) := by
  cases ps with
  | nil => exact hrest
  | cons q ps =>
    have hq := hsound q List.mem_cons_self
    rw [List.flatMap_cons, Part.source, List.append_assoc, List.append_assoc]
    by_cases hgap : q.gap = []
    · have hsegment : q.segment.isWord = false := by
        cases hqword : q.segment.isWord with
        | false => rfl
        | true => exact absurd hgap ((List.isChain_cons_cons.mp hapart).1 hword hqword)
      rw [hgap]
      exact stops_of_not_word hq.segment hsegment
    · exact stops_blanks hq.gap hgap

theorem readOn_value (value : List Char) (dollar : Bool) (hsound : ∀ p ∈ ps, p.Sound)
    (hapart : ps.IsChain Part.Apart) (hrest : Stops rest) :
    ∃ dollar', readOn false (valued s scopes key value dollar) (ps.flatMap Part.source ++ rest) =
      readOn false (valued s scopes key (ps.foldl Part.extend value) dollar') rest := by
  induction ps generalizing value dollar with
  | nil => exact ⟨dollar, rfl⟩
  | cons p ps ih =>
    obtain ⟨hp, hps⟩ := List.forall_mem_cons.mp hsound
    obtain ⟨dollar₁, h₁⟩ := readOn_part (s := s) value dollar hp fun hword => stops_parts hps hapart hword hrest
    obtain ⟨dollar₂, h₂⟩ := ih (p.extend value) dollar₁ hps hapart.tail
    refine ⟨dollar₂, ?_⟩
    rw [List.flatMap_cons, List.append_assoc]
    exact h₁.trans h₂

/-! ### Keys -/

theorem Spells.head (h : Spells source key) (hne : key ≠ []) (rest : List Char) :
    ∀ c ∈ (source ++ rest).head?, Text.isBlank c = false := by
  induction h with
  | nil => exact absurd rfl hne
  | @plain part source key hpart hstop h ih =>
    cases part with
    | nil => exact ih hne
    | cons c part =>
      rintro d ⟨rfl⟩
      have hc := hpart c List.mem_cons_self
      rw [isPart, Bool.or_eq_true, beq_iff_eq] at hc
      rcases hc with hc | rfl
      · exact isPlain_not_blank hc
      · decide
  | quoted hquote =>
    rintro d ⟨rfl⟩
    rcases hquote with rfl | rfl
    · decide
    · decide

theorem step_inKey_quoted {mode : Mode} (hm : InKey mode) (quote : Char) (done text : List Char)
    (load : Nat → String → Watched Store) (line : Nat) :
    (step load (inKey s scopes mode done) ⟨line, .quoted quote (String.ofList text)⟩).result =
      .ok (inKey s scopes .key (done ++ text)) := by
  unfold inKey
  rw [String.ofList_append]
  rcases hm with rfl | rfl
  · rfl
  · rfl

theorem readOn_spells {mode : Mode} (s : Store) (scopes : List String) (b : Bool) (done : List Char)
    (h : Spells source key) (hm : InKey mode)
    (hnext : mode = .include → ∀ c ∈ source.head?, LexRules.hocon.isWordChar c = false) (rest : List Char)
    (hend : ∀ c ∈ rest.head?, LexRules.hocon.isWordChar c = false) :
    ∃ mode' b', InKey mode' ∧
      readOn b (inKey s scopes mode done) (source ++ rest) = readOn b' (inKey s scopes mode' (done ++ key)) rest := by
  induction h generalizing b done mode with
  | nil => exact ⟨mode, b, hm, by rw [List.nil_append, List.append_nil]⟩
  | @plain part source key hpart hstop h ih =>
    have hword : ∀ c ∈ source.head?, LexRules.hocon.isWordChar c = false := by
      intro c hc
      have hpart := hstop c hc
      rw [isPart, isPlain, Bool.or_eq_false_iff, Bool.or_eq_false_iff] at hpart
      exact hpart.1.1
    have hnext' : mode = .include → ∀ c ∈ part.head?, LexRules.hocon.isWordChar c = false := by
      intro hmode c hc
      refine hnext hmode c ?_
      obtain ⟨part, rfl⟩ := List.head?_eq_some_iff.mp hc
      rfl
    have hend' : ∀ c ∈ (source ++ rest).head?, LexRules.hocon.isWordChar c = false := by
      cases source with
      | nil => exact hend
      | cons c source => exact hword
    obtain ⟨mode₁, b₁, hm₁, h₁⟩ := readOn_parts b done hm hnext' hpart hend'
    obtain ⟨mode₂, b₂, hm₂, h₂⟩ := ih b₁ (done ++ part) hm₁ fun _ => hword
    refine ⟨mode₂, b₂, hm₂, ?_⟩
    rw [List.append_assoc, h₁, h₂, List.append_assoc]
  | @quoted quote raw text source key hquote hread h ih =>
    have hread' := (readQuoted_append hread (source ++ rest)).1
    rw [List.append_assoc, List.singleton_append, List.nil_append] at hread'
    obtain ⟨mode', b', hm', h'⟩ := ih false (done ++ text) (.inl rfl) (by simp)
    refine ⟨mode', b', hm', ?_⟩
    have hsource : quote :: raw ++ quote :: source ++ rest = quote :: raw ++ quote :: (source ++ rest) := by simp
    rw [hsource, readOn_quoted hquote hread' (step_inKey_quoted hm quote done text), h', List.append_assoc]

/-! ### Whole lines -/

/-- The value that a line puts together is the joined one, but for spaces in front of it. -/
theorem exists_lead {lead : List Char} (hlead : Blanks lead) (value : List Char) (ps : List Part) :
    ∃ lead', Blanks lead' ∧ lead ++ value ++ ps.flatMap Part.text = lead' ++ ps.foldl Part.extend value := by
  induction ps generalizing value lead with
  | nil => exact ⟨lead, hlead, List.append_nil _⟩
  | cons p ps ih =>
    rw [List.flatMap_cons, List.foldl_cons]
    by_cases hdrop : value = [] ∧ p.gap ≠ []
    · obtain ⟨rfl, hgap⟩ := hdrop
      have hlead' : Blanks (lead ++ [' ']) := List.forall_mem_append.mpr ⟨hlead, by simp [Text.isBlank]⟩
      obtain ⟨lead', hblanks, heq⟩ := ih hlead' (p.extend [])
      refine ⟨lead', hblanks, heq ▸ ?_⟩
      simp [Part.text, Part.extend, spaced, hgap]
    · obtain ⟨lead', hblanks, heq⟩ := ih hlead (p.extend value)
      refine ⟨lead', hblanks, heq ▸ ?_⟩
      rw [not_and_or, not_not] at hdrop
      rcases hdrop with hvalue | hgap
      · by_cases hgap : p.gap = []
        · simp [Part.text, Part.extend, spaced, hgap]
        · simp [Part.text, Part.extend, spaced, hgap, hvalue]
      · simp [Part.text, Part.extend, spaced, hgap]

theorem trim_joined (ps : List Part) {trailing : List Char} :
    Text.trim (spaced (ps.foldl Part.extend []) trailing) = Text.trim (joined ps) := by
  have hspaced : ∀ value, Text.trim (spaced value trailing) = Text.trim value := fun value => by
    unfold spaced
    split
    · rfl
    · have hspace : ∀ c ∈ [' '], Text.isWhite c := List.forall_mem_singleton.mpr rfl
      exact Text.trim_padded (List.forall_mem_nil _) hspace value
  rw [hspaced]
  cases ps with
  | nil => rfl
  | cons p ps =>
    have hfirst : p.extend [] = p.segment.text := by simp [Part.extend, spaced]
    obtain ⟨lead, hlead, heq⟩ := exists_lead (List.forall_mem_nil _) p.segment.text ps
    rw [List.nil_append] at heq
    rw [List.foldl_cons, hfirst, joined, heq, Text.trim_append fun c hc => Text.isWhite_of_isBlank (hlead c hc)]

/-- Up to the separator of a line. -/
theorem readOn_separator (a : Assignment) (b : Bool) (s : Store) (scopes : List String) (rest : List Char) :
    readOn b (between s scopes) (a.indent ++ (a.source ++ (a.before ++ a.separator :: rest))) =
      readOn false (valued s scopes a.key [] false) rest := by
  obtain ⟨hindent, hbefore, -⟩ := a.blanks
  have hseparator : Solid a.separator ∧ LexRules.hocon.isWordChar a.separator = false ∧
      Text.isBlank a.separator = false := by
    rcases a.separates with h | h
    · rw [h]
      decide
    · rw [h]
      decide
  obtain ⟨hsolid, hword, hblank⟩ := hseparator
  have hend : ∀ c ∈ (a.separator :: rest).head?, Text.isBlank c = false := by
    rintro c ⟨rfl⟩
    exact hblank
  obtain ⟨b₁, h₁⟩ := readOn_blanks (r := between s scopes) b hindent _ (a.spells.head a.key_ne_nil _) fun _ _ => rfl
  obtain ⟨mode, b₂, hm, h₂⟩ := readOn_spells s scopes b₁ [] a.spells (.inl rfl) nofun _
    (hbefore.atStop hword)
  obtain ⟨b₃, h₃⟩ := readOn_blanks b₂ hbefore _ hend (step_blank hm s scopes a.key)
  rw [h₁]
  refine h₂.trans (h₃.trans ?_)
  exact readOn_char hsolid hword (step_separator_char hm a.separates a.key_ne_nil)

/-- A line stores its joined value without the white space around it. -/
theorem sets_trimmed (a : Assignment) :
    Sets a.line (String.ofList a.key) (Text.trimmed (String.ofList (joined a.parts))) := by
  intro s scopes b after hafter
  obtain ⟨-, -, htrailing⟩ := a.blanks
  have hline : a.line ++ after = a.indent ++
      (a.source ++ (a.before ++ a.separator :: (a.parts.flatMap Part.source ++ (a.trailing ++ after)))) := by
    simp [Assignment.line]
  have hstops : Stops (a.trailing ++ after) := by
    by_cases h : a.trailing = []
    · rw [h]
      exact stops_lineEnd hafter
    · exact stops_blanks htrailing h
  obtain ⟨dollar₁, h₁⟩ := readOn_value (s := s) [] false a.sound a.apart hstops
  obtain ⟨b₂, dollar₂, -, h₂⟩ := readOn_gap (s := s) (a.parts.foldl Part.extend []) dollar₁ htrailing
    fun c hc => not_blank_of_isLineEnd (hafter c hc)
  have htrim : Text.trimmed (String.ofList (spaced (a.parts.foldl Part.extend []) a.trailing)) =
      Text.trimmed (String.ofList (joined a.parts)) := by
    rw [Text.trimmed, Text.trimmed, String.toList_ofList, String.toList_ofList, trim_joined]
  rw [hline, readOn_separator a, h₁, h₂, readOn_stored hafter, htrim]

/-- What a line stores is its joined value exactly if that neither starts nor ends with white space. -/
theorem sets_joined (a : Assignment) :
    Sets a.line (String.ofList a.key) (Text.trimmed (String.ofList (joined a.parts))) ∧
    (Sets a.line (String.ofList a.key) (String.ofList (joined a.parts)) ↔
      (joined a.parts).head?.any Text.isWhite = false ∧ (joined a.parts).getLast?.any Text.isWhite = false) := by
  refine ⟨sets_trimmed a, ?_⟩
  rw [← Text.trim_eq_iff]
  constructor
  · intro h
    have heq := congrArg String.toList ((sets_trimmed a).unique h)
    rwa [Text.trimmed, String.toList_ofList, String.toList_ofList] at heq
  · intro h
    have heq := sets_trimmed a
    rwa [Text.trimmed, String.toList_ofList, h] at heq

/-- `k = " a"` -/
def quotedBlank : Assignment where
  indent := []
  source := ['k']
  key := ['k']
  before := [' ']
  separator := '='
  parts := [⟨[' '], .quoted '"' [' ', 'a'] [' ', 'a']⟩]
  trailing := []
  blanks := by decide
  spells := show Spells (['k'] ++ []) (['k'] ++ []) from .plain (List.all_eq_true.mp (by decide)) nofun .nil
  key_ne_nil := by decide
  separates := .inl rfl
  sound := by
    refine List.forall_mem_singleton.mpr ⟨by decide, ⟨.inl rfl, ?_⟩, fun _ => by decide⟩
    decide +kernel
  apart := List.isChain_singleton _

/-- The blank in the quotes is lost. -/
theorem quotedBlank_trimmed :
    String.ofList quotedBlank.line = "k = \" a\"" ∧ String.ofList (joined quotedBlank.parts) = " a" ∧
    (parse refuse (String.ofList quotedBlank.line)).result.toOption.bind (·.get? "k") = some "a" := by
  decide +kernel

end Hocon

end Settings
