import Settings.Proofs.Dialect.HoconValues

/-! # References on a line

The reader takes a reference apart into lexemes and puts their texts together again. A lexeme never gets longer that
way, and only words, lone characters and single blanks keep their length. So a reference is in the stored value as
it was written exactly if nothing else is in it: no quotes, no blanks one behind the other, and no comment. -/

namespace Settings

variable {r : LexRules} {b : Bool} {q c : Char} {cs text rest body front : List Char} {span : Span}
  {spans before after : List Span}

/-! ### What is put together of spans -/

/-- What a lexeme adds to a value that is not empty. -/
def Token.copy : Token → List Char
  | .word text | .quoted _ text => text.toList
  | .char c => [c]
  | .blank => [' ']
  | .eol | .eof => []

/-- What a span adds to a value that is not empty. -/
def Span.copy : Span → List Char
  | word cs => cs
  | quoted _ _ text => text
  | char c => [c]
  | blanks _ => [' ']
  | eol _ | comment _ => []

theorem flatMap_copy (spans : List Span) :
    (spans.filterMap (Span.token? .hocon)).flatMap Token.copy = spans.flatMap Span.copy := by
  induction spans with
  | nil => rfl
  | cons span spans ih =>
    rw [List.flatMap_cons, ← ih]
    cases span with
    | word cs => simp [Span.token?, Span.copy, Token.copy]
    | quoted quote raw text => simp [Span.token?, Span.copy, Token.copy]
    | char c => rfl
    | blanks cs => rfl
    | eol cs => rfl
    | comment cs => rfl

namespace Span

/-- The spans that are put together as they were written. -/
def Kept : Span → Prop
  | word _ | char _ => True
  | blanks cs => cs.length = 1
  | quoted _ _ _ | eol _ | comment _ => False

theorem length_text_lt {raw : List Char} (h : readQuoted q (raw ++ [q]) = (some text, [])) :
    (quoted q raw text).copy.length < (quoted q raw text).chars.length := by
  obtain ⟨raw', hraw, hle, -⟩ := exists_raw h
  obtain rfl := List.append_cancel_right hraw
  simp only [copy, chars, List.length_append, List.length_cons, List.length_nil]
  omega

theorem Fits.length_copy_le (h : span.Fits r b rest) : span.copy.length ≤ span.chars.length := by
  have hpos := List.length_pos_iff.mpr h.ne_nil
  cases h with
  | word | char => exact Nat.le_refl _
  | blanks => exact hpos
  | quoted hquote hread => exact Nat.le_of_lt (length_text_lt hread)
  | eol | comment => exact Nat.zero_le _

theorem Fits.kept (h : span.Fits r b rest) (hlength : span.chars.length ≤ span.copy.length) : span.Kept := by
  have hpos := List.length_pos_iff.mpr h.ne_nil
  cases h with
  | word | char => exact trivial
  | blanks => exact Nat.le_antisymm hlength hpos
  | quoted hquote hread => exact absurd hlength (Nat.not_le.mpr (length_text_lt hread))
  | eol | comment => exact absurd hlength (Nat.not_le.mpr hpos)

/-- Spans do not get longer, and if together they keep their length, all of them are kept. -/
theorem length_flatMap_copy_le (h : ∀ span ∈ spans, ∃ b rest, span.Fits r b rest) :
    (spans.flatMap copy).length ≤ (spans.flatMap chars).length ∧
      ((spans.flatMap chars).length ≤ (spans.flatMap copy).length → ∀ span ∈ spans, span.Kept) := by
  induction spans with
  | nil => exact ⟨Nat.le_refl _, fun _ => List.forall_mem_nil _⟩
  | cons span spans ih =>
    obtain ⟨⟨b, rest, hfits⟩, hspans⟩ := List.forall_mem_cons.mp h
    obtain ⟨hle, hkept⟩ := ih hspans
    have hspan := hfits.length_copy_le
    rw [List.flatMap_cons, List.flatMap_cons, List.length_append, List.length_append]
    refine ⟨Nat.add_le_add hspan hle, fun hlength => List.forall_mem_cons.mpr ⟨hfits.kept ?_, hkept ?_⟩⟩
    · omega
    · omega

theorem Fits.not_quote (h : span.Fits .hocon b rest) (hkept : span.Kept) : '"' ∉ span.chars ∧ '\'' ∉ span.chars := by
  cases h with
  | word hne hall =>
    exact ⟨fun hmem => absurd (hall _ hmem) (by decide), fun hmem => absurd (hall _ hmem) (by decide)⟩
  | quoted => cases hkept
  | char hc =>
    obtain ⟨-, -, hquote, -⟩ := hc
    simp only [List.mem_cons, List.not_mem_nil, or_false, not_or] at hquote
    simp only [chars, List.mem_singleton]
    exact ⟨Ne.symm hquote.1, Ne.symm hquote.2⟩
  | blanks hne hall =>
    exact ⟨fun hmem => absurd (hall _ hmem) (by decide), fun hmem => absurd (hall _ hmem) (by decide)⟩
  | eol => cases hkept
  | comment => cases hkept

theorem Fits.space (h : span.Fits .hocon b rest) (hkept : span.Kept) (hspace : span.chars = front ++ ' ' :: cs) :
    front = [] ∧ cs = [] ∧ span.opens ∧ ∀ c ∈ rest.head?, Text.isBlank c = false := by
  have hmem : ' ' ∈ span.chars := by simp [hspace]
  cases h with
  | word hne hall => exact absurd (hall _ hmem) (by decide)
  | quoted => cases hkept
  | char hc =>
    have hblank := hc.1
    rw [← List.mem_singleton.mp hmem] at hblank
    exact absurd hblank (by decide)
  | blanks hne hall hstop =>
    have hlength : (front ++ ' ' :: cs).length = 1 := hspace ▸ hkept
    rw [List.length_append, List.length_cons] at hlength
    exact ⟨List.eq_nil_of_length_eq_zero (by omega), List.eq_nil_of_length_eq_zero (by omega), rfl, hstop⟩
  | eol => cases hkept
  | comment => cases hkept

theorem Fits.not_startsComment (h : span.Fits r true rest) (hkept : span.Kept)
    (hblank : ∀ c ∈ span.chars.head?, Text.isBlank c = false) : r.startsComment (span.chars ++ rest) = false := by
  cases h with
  | word hne hall hstop hstart => exact hstart rfl
  | quoted => cases hkept
  | char hc hstart => exact hstart rfl
  | blanks hne hall =>
    obtain ⟨c, cs, rfl⟩ := List.exists_cons_of_ne_nil hne
    exact absurd (hall c List.mem_cons_self) (by simp [hblank c rfl])
  | eol => cases hkept
  | comment => cases hkept

end Span

theorem Cut.fits (h : Cut r b cs spans) : ∀ span ∈ spans, ∃ b' rest, span.Fits r b' rest := by
  intro span hspan
  obtain ⟨before, after, rfl⟩ := List.append_of_mem hspan
  exact ⟨_, _, h.split⟩

/-- Behind blanks and line ends a comment may start. -/
theorem Cut.next {next : Span} (h : Cut r b cs (before ++ span :: next :: after)) :
    next.Fits r span.opens (after.flatMap Span.chars) := by
  rw [List.append_cons] at h
  have hfits := h.split
  rwa [Span.opensBehind, List.foldl_append] at hfits

theorem Cut.eol_not_mem (h : Cut r b cs spans) (hline : ∀ c ∈ cs, Text.isLineEnd c = false) :
    Token.eol ∉ spans.filterMap (Span.token? r) := by
  intro hmem
  obtain ⟨span, hspan, htok⟩ := List.mem_filterMap.mp hmem
  obtain ⟨b', rest, hfits⟩ := h.fits span hspan
  have hchars : ∀ c ∈ span.chars, Text.isLineEnd c = false := fun c hc =>
    hline c (h.flatMap_chars ▸ List.mem_flatMap.mpr ⟨span, hspan, hc⟩)
  cases hfits with
  | word | quoted | char | comment => cases htok
  | blanks =>
    rw [Span.token?] at htok
    split at htok <;> cases htok
  | eol hcs =>
    rcases hcs with rfl | rfl | ⟨rfl, -⟩
    · cases hchars '\n' (by decide)
    · cases hchars '\n' (by decide)
    · cases hchars '\r' (by decide)

/-- A text of kept spans, in front of a brace, could stand in a reference. -/
theorem Cut.verbatim (h : Cut .hocon b cs (spans ++ .char '}' :: after)) (hkept : ∀ span ∈ spans, span.Kept) :
    Hocon.Verbatim (spans.flatMap Span.chars) := by
  have hfits : ∀ span ∈ spans, ∃ b rest, span.Fits .hocon b rest :=
    fun span hspan => h.fits span (List.mem_append_left _ hspan)
  refine ⟨⟨fun hmem => ?_, fun hmem => ?_⟩, fun front back heq => ?_⟩
  · obtain ⟨span, hspan, hmem⟩ := List.mem_flatMap.mp hmem
    obtain ⟨b, rest, hfit⟩ := hfits span hspan
    exact (hfit.not_quote (hkept span hspan)).1 hmem
  · obtain ⟨span, hspan, hmem⟩ := List.mem_flatMap.mp hmem
    obtain ⟨b, rest, hfit⟩ := hfits span hspan
    exact (hfit.not_quote (hkept span hspan)).2 hmem
  · obtain ⟨before, span, behind, u, v, rfl, hspace, -, rfl⟩ := flatMap_split heq
    rw [List.append_assoc, List.cons_append] at h
    have hspan := hkept span (by simp)
    obtain ⟨-, rfl, hopens, hstop⟩ := h.split.space hspan hspace
    cases behind with
    | nil => exact ⟨nofun, rfl⟩
    | cons next behind =>
      obtain ⟨b, rest, hfit⟩ := hfits next (by simp)
      obtain ⟨c, text, hnext⟩ := List.exists_cons_of_ne_nil hfit.ne_nil
      have hrest : (next :: behind ++ .char '}' :: after).flatMap Span.chars =
          (next :: behind).flatMap Span.chars ++ '}' :: after.flatMap Span.chars := List.flatMap_append
      have hhead : ((next :: behind).flatMap Span.chars).head? = some c := by
        rw [List.flatMap_cons, hnext]
        rfl
      have hblank : Text.isBlank c = false := by
        refine hstop c ?_
        rw [hrest, List.head?_append, hhead]
        rfl
      have hne : (next :: behind).flatMap Span.chars ≠ [] := by simp [hnext]
      rw [List.nil_append, hhead, ← Hocon.startsComment_brace hne, ← hrest]
      refine ⟨?_, (hopens ▸ Cut.next h).not_startsComment (hkept next (by simp)) ?_⟩
      · rintro ⟨rfl⟩
        cases hblank
      · rw [hnext]
        rintro d ⟨rfl⟩
        exact hblank

/-- A closing brace is put together of a span that ends with it, or with a quote. -/
theorem Span.Fits.exists_end (h : span.Fits .hocon b rest) (hmem : '}' ∈ span.copy) :
    ∃ front c, span.chars = front ++ [c] ∧ c ∈ ['}', '"', '\''] ∧ (span.Kept → span = .char '}') := by
  cases h with
  | word hne hall => exact absurd (hall _ hmem) (by decide)
  | @quoted _ quote raw text _ hquote =>
    refine ⟨quote :: raw, quote, rfl, ?_, False.elim⟩
    rcases hquote with rfl | rfl
    · decide
    · decide
  | char =>
    obtain rfl := List.mem_singleton.mp hmem
    exact ⟨[], '}', rfl, by decide, fun _ => rfl⟩
  | blanks => cases List.mem_singleton.mp hmem
  | eol => cases hmem
  | comment => cases hmem

theorem length_le_of_not_mem {xs ys as bs : List Char} {d : Char} (h : xs ++ d :: ys = as ++ c :: bs) (hc : c ∉ ys) :
    as.length ≤ xs.length := by
  rcases append_split h with ⟨more, rfl, -⟩ | ⟨as', rfl, hys⟩
  · rw [List.length_append]
    omega
  · cases as' with
    | nil => rw [List.append_nil]
    | cons e as' =>
      obtain ⟨-, rfl⟩ := List.cons.inj hys
      exact absurd (List.mem_append_right as' List.mem_cons_self) hc

/-- What is put together of a reference and of the words behind it holds the reference only if that is verbatim: nothing
    in it gets longer, so that the brace that closes it comes early enough only if nothing gets shorter either. -/
theorem verbatim_of_within {value : List Char} (hcut : Cut .hocon b (body ++ '}' :: rest) spans)
    (hrest : ∀ c ∈ ['}', '"', '\''], c ∉ rest) (hvalue : '{' ∉ value)
    (h : '$' :: '{' :: body ++ ['}'] <:+: value ++ ['$'] ++ ['{'] ++ spans.flatMap Span.copy) :
    Hocon.Verbatim body := by
  obtain ⟨lead, tail, heq⟩ := h
  -- The reference can only begin where the reader saw it, or later.
  obtain ⟨front, hcopy⟩ : ∃ front, spans.flatMap Span.copy = front ++ body ++ '}' :: tail := by
    have heq' : value ++ ['$'] ++ '{' :: spans.flatMap Span.copy = lead ++ ['$'] ++ '{' :: (body ++ '}' :: tail) := by
      simpa using heq.symm
    have hnone : '{' ∉ value ++ ['$'] := by simp [hvalue]
    rcases append_split heq' with ⟨more, hmore, -⟩ | ⟨front, -, hfront⟩
    · exact absurd (by simp [hmore]) hnone
    · cases front with
      | nil => exact ⟨[], (List.cons.inj hfront).2⟩
      | cons d front => exact ⟨front ++ ['{'], by simpa using (List.cons.inj hfront).2⟩
  obtain ⟨before, span, after, u, v, rfl, hspan, hbody, -⟩ := flatMap_split hcopy
  obtain ⟨b', rest', hfits⟩ := hcut.fits span (by simp)
  obtain ⟨w, c, hchars, hc, hbrace⟩ := hfits.exists_end (by simp [hspan])
  -- It can only end where the brace is that closes it, or earlier.
  have htext := hcut.flatMap_chars
  have hsplit : body ++ '}' :: rest = before.flatMap Span.chars ++ w ++ c :: after.flatMap Span.chars := by
    rw [← htext, List.flatMap_append, List.flatMap_cons, hchars]
    simp
  have hend := length_le_of_not_mem hsplit (hrest c hc)
  obtain ⟨hle, hkept⟩ := Span.length_flatMap_copy_le fun span hmem => hcut.fits span (List.mem_append_left _ hmem)
  have hlengths := congrArg List.length hbody
  have hcopied := congrArg List.length hspan
  have hwritten := congrArg List.length hchars
  have hspanle := hfits.length_copy_le
  simp only [List.length_append, List.length_cons, List.length_nil] at hend hlengths hcopied hwritten
  have hexact : (before.flatMap Span.chars).length + span.chars.length = body.length + 1 := by omega
  obtain rfl := hbrace (hfits.kept (by omega))
  have hwhole : before.flatMap Span.chars = body := by
    rw [List.flatMap_append, List.flatMap_cons] at htext
    exact (List.append_inj htext (Nat.succ.inj hexact)).1
  exact hwhole ▸ hcut.verbatim (hkept (by omega))

namespace Hocon

variable {s store : Store} {scopes : List String} {key value : List Char} {dollar : Bool} {tok : Token} {tape : Tape}
  {ps : List Part} {r r' : Reader} {load : Nat → String → Watched Store} {line : Nat}

/-! ### What is read into a value -/

/-- Outside of all scopes each lexeme on the line of a value that is not blank is put behind it, or the document is
    refused. -/
theorem step_value_ok (hmode : r.mode = .value dollar) (hscopes : r.scopes = [])
    (hvalue : Text.trim r.value.toList ≠ []) (htok : tok ≠ .eol ∧ tok ≠ .eof)
    (h : (step load r ⟨line, tok⟩).result = .ok r') :
    ∃ depth' dollar',
      r' = { r with value := r.value ++ String.ofList tok.copy, depth := depth', mode := .value dollar' } := by
  simp only [step, hmode] at h
  cases tok with
  | word text =>
    cases h
    exact ⟨_, _, by rw [Token.copy, String.ofList_toList]⟩
  | quoted quote text =>
    cases h
    exact ⟨_, _, by rw [Token.copy, String.ofList_toList]⟩
  | blank =>
    have hne : r.value ≠ "" := by
      intro h
      rw [h] at hvalue
      exact hvalue rfl
    simp only [valueToken, if_neg hne] at h
    cases h
    exact ⟨_, _, rfl⟩
  | eol => exact absurd rfl htok.1
  | eof => exact absurd rfl htok.2
  | char c =>
    simp only [valueToken] at h
    by_cases hopen : c = '{'
    · subst hopen
      rw [if_pos rfl] at h
      split at h
      · cases h
        exact ⟨_, _, rfl⟩
      · cases h
    by_cases hclose : c = '}'
    · subst hclose
      rw [if_neg hopen, if_pos rfl] at h
      split at h
      · cases h
        exact ⟨_, _, rfl⟩
      · -- the value would end here, and with it a scope, but none is open
        obtain ⟨r₁, hstored, hclosed⟩ := Noted.result_bind_eq_ok.mp h
        cases hstored
        rw [Noted.result_of, Reader.closeScope, if_pos hscopes] at hclosed
        cases hclosed
    · rw [if_neg hopen, if_neg hclose] at h
      cases h
      exact ⟨_, _, rfl⟩

theorem fault?_of_run_ok (h : (run load r tape).result = .ok store) : tape.fault? = none := by
  by_contra hfault
  have hnone : (run load r tape).result.toOption = none := toOption_run_torn hfault
  rw [h] at hnone
  cases hnone

/-- What is read off the rest of a line, on which the document ends. -/
theorem run_value_ok {c : Char} (hc : Text.isWhite c = false) (hmem : c ∈ r.value.toList)
    (hmode : r.mode = .value dollar) (hscopes : r.scopes = []) (htoks : ∀ tok ∈ tape.tokens, tok ≠ .eol ∧ tok ≠ .eof)
    (h : (run load r tape).result = .ok store) :
    store = r.store.set (dottedKey [r.key])
      (Text.trimmed (r.value ++ String.ofList (tape.tokens.flatMap Token.copy))) := by
  induction tape generalizing r dollar with
  | torn e => cases h
  | ended line =>
    obtain ⟨r₁, hstep, h⟩ := Noted.result_bind_eq_ok.mp h
    simp only [step, endLine, hmode] at hstep
    cases hstep
    rw [if_pos hscopes] at h
    cases h
    simp only [Reader.path, hscopes, Tape.tokens, List.flatMap_nil, String.ofList_nil, String.append_empty,
      List.nil_append]
  | cons l rest ih =>
    obtain ⟨htok, hrest⟩ := List.forall_mem_cons.mp htoks
    obtain ⟨r₁, hstep, h⟩ := Noted.result_bind_eq_ok.mp h
    obtain ⟨depth', dollar', rfl⟩ := step_value_ok hmode hscopes (Text.trim_ne_nil hc hmem) htok hstep
    have hmem' : c ∈ (r.value ++ String.ofList l.token.copy).toList := by simp [hmem]
    have hstore := ih (r := { r with value := _, depth := depth', mode := .value dollar' }) hmem' rfl hscopes hrest h
    rw [hstore, Tape.tokens, List.flatMap_cons, String.ofList_append, String.append_assoc]

/-! ### Lines with a reference -/

/-- A line whose value is a reference between words. The blanks at the end of `lead` stand in front of the reference. -/
structure ReferenceLine where
  lead : Assignment
  body : List Char
  behind : List Part
  trailing : List Char
  words : ∀ p ∈ lead.parts ++ behind, p.segment.isWord
  sound : ∀ p ∈ behind, p.Sound
  apart : behind.IsChain Part.Apart
  blanks : Blanks trailing
  noControl : ∀ c ∈ body, Text.isControl c = false
  balanced : Reference.braces? 0 body = some 0

namespace ReferenceLine

/-- The reference as it is written. -/
def reference (l : ReferenceLine) : List Char := '$' :: '{' :: l.body ++ ['}']

/-- The line behind the reference. -/
def tail (l : ReferenceLine) : List Char := l.behind.flatMap Part.source ++ l.trailing

def chars (l : ReferenceLine) : List Char := l.lead.line ++ (l.reference ++ l.tail)

def parts (l : ReferenceLine) : List Part := l.lead.parts ++ ⟨l.lead.trailing, .reference l.body⟩ :: l.behind

/-- With a verbatim reference, the reference is one of the parts of the value. -/
def assignment (l : ReferenceLine) (h : Verbatim l.body) : Assignment where
  __ := l.lead
  parts := l.parts
  trailing := l.trailing
  blanks := ⟨l.lead.blanks.1, l.lead.blanks.2.1, l.blanks⟩
  sound := by
    refine List.forall_mem_append.mpr ⟨l.lead.sound, List.forall_mem_cons.mpr ⟨?_, l.sound⟩⟩
    exact ⟨l.lead.blanks.2.2, ⟨l.noControl, l.balanced, h⟩, fun _ => rfl⟩
  apart := by
    have hfirst : ∀ q ∈ l.behind.head?, Part.Apart ⟨l.lead.trailing, .reference l.body⟩ q := fun _ _ => nofun
    refine List.isChain_append.mpr ⟨l.lead.apart, List.isChain_cons.mpr ⟨hfirst, l.apart⟩, ?_⟩
    rintro p - _ ⟨rfl⟩ -
    exact nofun

theorem line_assignment (l : ReferenceLine) (h : Verbatim l.body) : (l.assignment h).line = l.chars := by
  simp [assignment, chars, Assignment.line, parts, reference, tail, Part.source, Segment.source]

theorem exists_joined (l : ReferenceLine) : ∃ front back, joined l.parts = front ++ l.reference ++ back := by
  unfold parts
  cases l.lead.parts with
  | nil => exact ⟨[], l.behind.flatMap Part.text, by simp [joined, Segment.text, reference]⟩
  | cons p ps =>
    refine ⟨p.segment.text ++ (ps.flatMap Part.text ++ if l.lead.trailing = [] then [] else [' ']),
      l.behind.flatMap Part.text, ?_⟩
    simp [joined, Part.text, Segment.text, reference]

theorem reference_within (l : ReferenceLine) : l.reference <:+: Text.trim (joined l.parts) := by
  obtain ⟨front, back, hjoined⟩ := l.exists_joined
  have hsplit : joined l.parts = front ++ '$' :: ('{' :: l.body ++ '}' :: back) := by
    rw [hjoined, reference]
    simp
  refine ⟨Text.trimStart front, Text.trimEnd back, ?_⟩
  rw [hsplit, Text.trim_around (by decide), Text.trimEnd_append (by decide), reference]
  simp

end ReferenceLine

/-- The characters of words and of the blanks between them. -/
theorem mem_sources (hsound : ∀ p ∈ ps, p.Sound) (hwords : ∀ p ∈ ps, p.segment.isWord) :
    ∀ c ∈ ps.flatMap Part.source, Text.isBlank c ∨ isBare c := by
  intro c hmem
  obtain ⟨p, hp, hmem⟩ := List.mem_flatMap.mp hmem
  obtain ⟨gap, segment⟩ := p
  obtain ⟨hgap, hsegment, -⟩ := hsound _ hp
  have hword := hwords _ hp
  cases segment with
  | word text =>
    rcases List.mem_append.mp hmem with hmem | hmem
    · exact .inl (hgap c hmem)
    · exact .inr (hsegment.2 c hmem)
  | quoted quote raw text => cases hword
  | reference body => cases hword

theorem not_mem_spaced {c : Char} {gap : List Char} (hc : c ≠ ' ') (hvalue : c ∉ value) : c ∉ spaced value gap := by
  unfold spaced
  split
  · exact hvalue
  · simp [hvalue, hc]

theorem not_mem_extend {c : Char} (hbare : isBare c = false) (hc : c ≠ ' ') (hsound : ∀ p ∈ ps, p.Sound)
    (hwords : ∀ p ∈ ps, p.segment.isWord) (hvalue : c ∉ value) : c ∉ ps.foldl Part.extend value := by
  induction ps generalizing value with
  | nil => exact hvalue
  | cons p ps ih =>
    obtain ⟨hp, hps⟩ := List.forall_mem_cons.mp hsound
    obtain ⟨hword, hwords⟩ := List.forall_mem_cons.mp hwords
    refine ih hps hwords fun hmem => ?_
    obtain ⟨gap, segment⟩ := p
    rcases List.mem_append.mp hmem with hmem | hmem
    · exact not_mem_spaced hc hvalue hmem
    · cases segment with
      | word text => exact absurd (hp.segment.2 c hmem) (by simp [hbare])
      | quoted quote raw text => cases hword
      | reference body => cases hword

namespace ReferenceLine

theorem not_mem_tail (l : ReferenceLine) {c : Char} (hblank : Text.isBlank c = false) (hbare : isBare c = false) :
    c ∉ l.tail := by
  intro hmem
  have hwords : ∀ p ∈ l.behind, p.segment.isWord := fun p hp => l.words p (List.mem_append_right _ hp)
  rcases List.mem_append.mp hmem with hmem | hmem
  · rcases mem_sources l.sound hwords c hmem with h | h
    · exact absurd h (by simp [hblank])
    · exact absurd h (by simp [hbare])
  · exact absurd (l.blanks c hmem) (by simp [hblank])

/-- Up to the brace that opens the reference. -/
theorem readOn_lead (l : ReferenceLine) (b : Bool) (s : Store) (scopes : List String) :
    ∃ value, '{' ∉ value ∧ readOn b (between s scopes) l.chars =
      readOn false (spanned s scopes l.lead.key (value ++ ['$'] ++ ['{']) 1 false) (l.body ++ '}' :: l.tail) := by
  have hchars : l.chars = l.lead.indent ++ (l.lead.source ++ (l.lead.before ++ l.lead.separator ::
      (l.lead.parts.flatMap Part.source ++ (l.lead.trailing ++ '$' :: '{' :: (l.body ++ '}' :: l.tail))))) := by
    simp [chars, Assignment.line, reference]
  have hblanks := l.lead.blanks.2.2
  have hstops : Stops (l.lead.trailing ++ '$' :: '{' :: (l.body ++ '}' :: l.tail)) := by
    by_cases h : l.lead.trailing = []
    · rw [h]
      rintro c ⟨rfl⟩
      decide
    · exact stops_blanks hblanks h
  have hend : ∀ c ∈ ('$' :: '{' :: (l.body ++ '}' :: l.tail)).head?, Text.isBlank c = false := by
    rintro c ⟨rfl⟩
    decide
  obtain ⟨dollar₁, h₁⟩ := readOn_value (s := s) [] false l.lead.sound l.lead.apart hstops
  obtain ⟨b₂, dollar₂, -, h₂⟩ := readOn_gap (s := s) (l.lead.parts.foldl Part.extend []) dollar₁ hblanks hend
  have hwords : ∀ p ∈ l.lead.parts, p.segment.isWord := fun p hp => l.words p (List.mem_append_left _ hp)
  refine ⟨spaced (l.lead.parts.foldl Part.extend []) l.lead.trailing, ?_, ?_⟩
  · exact not_mem_spaced (by decide) (not_mem_extend (by decide) (by decide) l.lead.sound hwords List.not_mem_nil)
  · rw [hchars, readOn_separator l.lead, h₁, h₂, readOn_dollar]

theorem not_lineEnd (l : ReferenceLine) : ∀ c ∈ l.body ++ '}' :: l.tail, Text.isLineEnd c = false := by
  intro c hmem
  cases hline : Text.isLineEnd c with
  | false => rfl
  | true =>
    have hcontrol : Text.isControl c = true ∧ Text.isBlank c = false ∧ isBare c = false ∧ c ≠ '}' := by
      rcases eq_of_isLineEnd hline with rfl | rfl
      · decide
      · decide
    obtain ⟨hcontrol, hblank, hbare, hne⟩ := hcontrol
    rcases List.mem_append.mp hmem with hmem | hmem
    · exact absurd hcontrol (by simp [l.noControl c hmem])
    · exact absurd hmem (by simp [hne, l.not_mem_tail hblank hbare])

/-- A document of the line alone in which the key has a value that holds the reference. -/
theorem verbatim_of_read (l : ReferenceLine) {value : String}
    (h : (parse load (String.ofList l.chars)).result = .ok store)
    (hget : store.get? (String.ofList l.lead.key) = some value)
    (hwithin : l.reference <:+: value.toList) : Verbatim l.body := by
  have hread : readOn true (between .empty []) l.chars load 1 = .ok store := by
    rw [parse, Tape.ofText, Scanner.start, String.toList_ofList] at h
    exact h
  obtain ⟨front, hfront, hlead⟩ := l.readOn_lead true .empty []
  rw [hlead, readOn] at hread
  obtain ⟨spans, hcut, htokens⟩ := Scanner.exists_cut LexRules.proper_hocon (fault?_of_run_ok hread)
  have heol := hcut.eol_not_mem l.not_lineEnd
  rw [htokens] at heol
  have htoks : ∀ tok ∈ ((⟨l.body ++ '}' :: l.tail, 1, false⟩ : Scanner).tape .hocon).tokens, tok ≠ .eol ∧ tok ≠ .eof :=
    fun tok htok => ⟨fun h => heol (h ▸ htok), fun h => Scanner.eof_not_mem_tokens _ _ (h ▸ htok)⟩
  have hstore := run_value_ok (c := '$') (by decide) (by simp [spanned]) rfl rfl htoks hread
  rw [hstore, ← htokens, flatMap_copy, spanned, ← String.ofList_append, dottedKey_singleton,
    Store.get?_set_self] at hget
  obtain rfl := Option.some.inj hget
  rw [Text.trimmed, String.toList_ofList, String.toList_ofList] at hwithin
  obtain ⟨before, behind, -, -, hpadded⟩ := Text.exists_padding (front ++ ['$'] ++ ['{'] ++ spans.flatMap Span.copy)
  have hwhole : l.reference <:+: front ++ ['$'] ++ ['{'] ++ spans.flatMap Span.copy :=
    hpadded ▸ hwithin.trans ⟨before, behind, rfl⟩
  refine verbatim_of_within hcut (fun c hc => ?_) hfront hwhole
  simp only [List.mem_cons, List.not_mem_nil, or_false] at hc
  rcases hc with rfl | rfl | rfl
  · exact l.not_mem_tail (by decide) (by decide)
  · exact l.not_mem_tail (by decide) (by decide)
  · exact l.not_mem_tail (by decide) (by decide)

/-- A reference is in the value of its line as it was written exactly if it is verbatim. -/
theorem copied_verbatim (l : ReferenceLine) :
    (Verbatim l.body →
      Sets l.chars (String.ofList l.lead.key) (Text.trimmed (String.ofList (joined l.parts))) ∧
        l.reference <:+: (Text.trimmed (String.ofList (joined l.parts))).toList) ∧
    (¬Verbatim l.body → ∀ load store value, (parse load (String.ofList l.chars)).result = .ok store →
      store.get? (String.ofList l.lead.key) = some value → ¬l.reference <:+: value.toList) := by
  refine ⟨fun h => ⟨?_, ?_⟩, fun hnot load store value h hget hwithin => hnot (l.verbatim_of_read h hget hwithin)⟩
  · rw [← l.line_assignment h]
    exact sets_trimmed (l.assignment h)
  · rw [Text.trimmed, String.toList_ofList, String.toList_ofList]
    exact l.reference_within

/-- `k = pre ${a,x  y} post` -/
def twoBlanks : ReferenceLine where
  lead :=
    { quotedBlank with
      parts := [⟨[' '], .word ['p', 'r', 'e']⟩]
      trailing := [' ']
      blanks := by decide
      sound := by
        refine List.forall_mem_singleton.mpr ⟨by decide, ⟨by decide, ?_⟩, fun _ => by decide⟩
        exact List.all_eq_true.mp (by decide)
      apart := List.isChain_singleton _ }
  body := ['a', ',', 'x', ' ', ' ', 'y']
  behind := [⟨[' '], .word ['p', 'o', 's', 't']⟩]
  trailing := []
  words := List.forall_mem_cons.mpr ⟨rfl, List.forall_mem_singleton.mpr rfl⟩
  sound := by
    refine List.forall_mem_singleton.mpr ⟨by decide, ⟨by decide, ?_⟩, fun _ => by decide⟩
    exact List.all_eq_true.mp (by decide)
  apart := List.isChain_singleton _
  blanks := by decide
  noControl := by
    have hall : ['a', ',', 'x', ' ', ' ', 'y'].all (fun c => !Text.isControl c) = true := by decide
    exact fun c hc => (Bool.not_eq_true' _).mp (List.all_eq_true.mp hall c hc)
  balanced := by decide

/-- One of the two blanks in the reference is lost. -/
theorem twoBlanks_shortened :
    String.ofList twoBlanks.chars = "k = pre $\x7ba,x  y\x7d post" ∧
    (parse refuse (String.ofList twoBlanks.chars)).result.toOption.bind (·.get? "k") =
      some "pre $\x7ba,x y\x7d post" ∧
    ¬twoBlanks.reference <:+: "pre $\x7ba,x y\x7d post".toList := by
  decide +kernel

end ReferenceLine

end Hocon

end Settings
