import Settings.Proofs.Lexeme.Lines

/-! # The spans of a text

A scan that meets no fault cuts its text into spans. Each span is a lexeme, a comment, or a run of blanks that is not
reported, and no character is in two spans or in none. Words and blank runs go as far as they can to both sides, and
comments stand only where a line begins or behind blanks. -/

namespace Settings

variable {r : LexRules} {b : Bool} {c d : Char} {cs rest : List Char}

/-- Words hold no blanks, no line ends, no quotes and no control characters. -/
def LexRules.Proper (r : LexRules) : Prop :=
  ∀ c ∈ r.wordChars, Text.isBlank c = false ∧ Text.isLineEnd c = false ∧ c ∉ ['"', '\''] ∧ Text.isControl c = false

instance : DecidablePred LexRules.Proper := fun r =>
  decidable_of_iff (r.wordChars.all fun c =>
    decide (Text.isBlank c = false ∧ Text.isLineEnd c = false ∧ c ∉ ['"', '\''] ∧ Text.isControl c = false))
    (by simp only [LexRules.Proper, List.all_eq_true, decide_eq_true_eq])

theorem LexRules.Proper.word (hr : r.Proper) (hc : r.isWordChar c) :
    Text.isBlank c = false ∧ Text.isLineEnd c = false ∧ c ∉ ['"', '\''] ∧ Text.isControl c = false := by
  rw [LexRules.isWordChar, Bool.or_eq_true, List.contains_iff_mem] at hc
  rcases hc with hc | hc
  · have hsolid := solid_of_isAlphanumeric hc
    have hquote : c ≠ '"' ∧ c ≠ '\'' := ⟨hsolid.not_mem (by decide), hsolid.not_mem (by decide)⟩
    exact ⟨hsolid.not_blank, by simp [Text.isLineEnd, hsolid.not_lineEnd], by simp [hquote], hsolid.1⟩
  · exact hr c hc

theorem LexRules.Proper.not_word (hr : r.Proper) (hc : Text.isBlank c ∨ Text.isLineEnd c ∨ c = '"' ∨ c = '\'') :
    r.isWordChar c = false := by
  cases hword : r.isWordChar c with
  | false => rfl
  | true =>
    obtain ⟨hblank, hline, hquote, -⟩ := hr.word hword
    rcases hc with hc | hc | hc
    · exact absurd hc (by simp [hblank])
    · exact absurd hc (by simp [hline])
    · exact absurd (by simpa using hc) hquote

theorem LexRules.proper_hocon : LexRules.hocon.Proper := by
  intro c hc
  rw [List.mem_singleton.mp hc]
  decide

/-! ### Spans -/

/-- A stretch of a text. -/
inductive Span where
  | word (cs : List Char)
  /-- A quoted text: what stands between the quotes, and what it reads as. -/
  | quoted (quote : Char) (raw text : List Char)
  | char (c : Char)
  | blanks (cs : List Char)
  | eol (cs : List Char)
  | comment (cs : List Char)

namespace Span

variable {span last : Span}

def chars : Span → List Char
  | word cs | blanks cs | eol cs | comment cs => cs
  | quoted quote raw _ => quote :: raw ++ [quote]
  | char c => [c]

/-- The token of a span, if it has one. -/
def token? (r : LexRules) : Span → Option Token
  | word cs => some (.word (String.ofList cs))
  | quoted quote _ text => some (.quoted quote (String.ofList text))
  | char c => some (.char c)
  | blanks _ => if r.blanks then some .blank else none
  | eol _ => some .eol
  | comment _ => none

/-- A comment may start behind the span. -/
def opens : Span → Bool
  | blanks _ | eol _ => true
  | _ => false

/-- Whether a comment may start behind some spans. -/
def opensBehind (b : Bool) (before : List Span) : Bool := before.foldl (fun _ span => span.opens) b

/-- A character that is a lexeme of its own. -/
def Lone (r : LexRules) (c : Char) : Prop :=
  Text.isBlank c = false ∧ Text.isLineEnd c = false ∧ c ∉ ['"', '\''] ∧ Text.isControl c = false ∧
    r.isWordChar c = false

/-- A line feed, a carriage return, or both as one; a line feed behind a carriage return belongs to it. -/
def IsBreak (cs rest : List Char) : Prop :=
  cs = ['\n'] ∨ cs = ['\r', '\n'] ∨ cs = ['\r'] ∧ rest.head? ≠ some '\n'

/-- What is known of a span in front of the text `rest`. `b` says whether a comment may start there. -/
inductive Fits (r : LexRules) : Bool → Span → List Char → Prop
  | word {b : Bool} {cs rest : List Char} (hne : cs ≠ []) (hall : ∀ c ∈ cs, r.isWordChar c)
      (hstop : ∀ c ∈ rest.head?, r.isWordChar c = false) (hstart : b → r.startsComment (cs ++ rest) = false) :
      Fits r b (word cs) rest
  | quoted {b : Bool} {quote : Char} {raw text rest : List Char} (hquote : quote = '"' ∨ quote = '\'')
      (hread : readQuoted quote (raw ++ [quote]) = (some text, [])) : Fits r b (quoted quote raw text) rest
  | char {b : Bool} {c : Char} {rest : List Char} (hc : Lone r c) (hstart : b → r.startsComment (c :: rest) = false) :
      Fits r b (char c) rest
  | blanks {b : Bool} {cs rest : List Char} (hne : cs ≠ []) (hall : ∀ c ∈ cs, Text.isBlank c)
      (hstop : ∀ c ∈ rest.head?, Text.isBlank c = false) : Fits r b (blanks cs) rest
  | eol {b : Bool} {cs rest : List Char} (hcs : IsBreak cs rest) : Fits r b (eol cs) rest
  | comment {cs rest : List Char} (hstart : r.startsComment cs) (hall : ∀ c ∈ cs, Text.isLineEnd c = false)
      (hend : AtLineEnd rest) : Fits r true (comment cs) rest

theorem Fits.ne_nil (h : span.Fits r b rest) : span.chars ≠ [] := by
  cases h with
  | word hne | blanks hne => exact hne
  | quoted | char => exact List.cons_ne_nil _ _
  | eol hcs => rcases hcs with rfl | rfl | ⟨rfl, -⟩ <;> exact List.cons_ne_nil _ _
  | comment hstart =>
    rintro rfl
    exact Bool.false_ne_true hstart

theorem Fits.exists_word (h : Fits r b (Span.word cs) rest) : ∃ c cs', cs = c :: cs' ∧ r.isWordChar c := by
  cases h with
  | word hne hall =>
    obtain ⟨c, cs, rfl⟩ := List.exists_cons_of_ne_nil hne
    exact ⟨c, cs, rfl, hall c List.mem_cons_self⟩

theorem Fits.exists_blank (h : Fits r b (Span.blanks cs) rest) : ∃ c cs', cs = c :: cs' ∧ Text.isBlank c := by
  cases h with
  | blanks hne hall =>
    obtain ⟨c, cs, rfl⟩ := List.exists_cons_of_ne_nil hne
    exact ⟨c, cs, rfl, hall c List.mem_cons_self⟩

/-- Only an end of a line starts with one. -/
theorem Fits.eol_of_lineEnd (hr : r.Proper) (h : span.Fits r b rest) (hend : AtLineEnd (span.chars ++ rest)) :
    ∃ cs, span = .eol cs := by
  cases h with
  | @word _ cs _ hne hall =>
    obtain ⟨c, cs, rfl⟩ := List.exists_cons_of_ne_nil hne
    exact absurd (hend c rfl) (by simp [(hr.word (hall c List.mem_cons_self)).2.1])
  | quoted hquote => exact absurd (hend _ rfl) (by simp [quote_not_lineEnd hquote])
  | char hc => exact absurd (hend _ rfl) (by simp [hc.2.1])
  | @blanks _ cs _ hne hall =>
    obtain ⟨c, cs, rfl⟩ := List.exists_cons_of_ne_nil hne
    exact absurd (hall c List.mem_cons_self) (by simp [not_blank_of_isLineEnd (hend c rfl)])
  | eol => exact ⟨_, rfl⟩
  | @comment cs rest hstart hall =>
    cases cs with
    | nil => cases hstart
    | cons c cs => exact absurd (hend c rfl) (by simp [hall c List.mem_cons_self])

theorem last_quoted (q : Char) (raw text : List Char) : (quoted q raw text).chars.getLast? = some q := by
  rw [chars, List.getLast?_concat]

/-- In front of a character of a word ends no word but a part of the same one. -/
theorem Fits.word_stops (hr : r.Proper) (h : span.Fits r b (c :: rest)) (hc : r.isWordChar c) :
    ∀ d ∈ span.chars.getLast?, r.isWordChar d = false := by
  intro d hd
  cases h with
  | word hne hall hstop => exact absurd hc (by simp [hstop c rfl])
  | quoted hquote hread =>
    rw [last_quoted] at hd
    cases hd
    exact hr.not_word (.inr (.inr hquote))
  | char hd' =>
    cases hd
    exact hd'.2.2.2.2
  | blanks hne hall => exact hr.not_word (.inl (hall d (List.mem_of_getLast? hd)))
  | eol hcs =>
    refine hr.not_word (.inr (.inl ?_))
    rcases hcs with rfl | rfl | ⟨rfl, -⟩ <;> cases hd <;> rfl
  | comment hstart hall hend => exact absurd (hend c rfl) (by simp [(hr.word hc).2.1])

/-- In front of a blank ends no run of blanks but a part of the same one. -/
theorem Fits.blank_stops (hr : r.Proper) (h : span.Fits r b (c :: rest)) (hc : Text.isBlank c) :
    ∀ d ∈ span.chars.getLast?, Text.isBlank d = false := by
  intro d hd
  cases h with
  | word hne hall => exact (hr.word (hall d (List.mem_of_getLast? hd))).1
  | quoted hquote hread =>
    rw [last_quoted] at hd
    cases hd
    rcases hquote with rfl | rfl <;> rfl
  | char hd' =>
    cases hd
    exact hd'.1
  | blanks hne hall hstop => exact absurd hc (by simp [hstop c rfl])
  | eol hcs => rcases hcs with rfl | rfl | ⟨rfl, -⟩ <;> cases hd <;> rfl
  | comment hstart hall hend => exact absurd hc (by simp [not_blank_of_isLineEnd (hend c rfl)])

end Span

/-- The spans cut a text. At its start a comment may start or not. -/
inductive Cut (r : LexRules) : Bool → List Char → List Span → Prop
  | nil {b : Bool} : Cut r b [] []
  | cons {b : Bool} {span : Span} {rest : List Char} {spans : List Span} (hfits : span.Fits r b rest)
      (h : Cut r span.opens rest spans) : Cut r b (span.chars ++ rest) (span :: spans)

namespace Cut

variable {spans before after : List Span} {span last : Span}

theorem flatMap_chars (h : Cut r b cs spans) : spans.flatMap Span.chars = cs := by
  induction h with
  | nil => rfl
  | cons hfits h ih => rw [List.flatMap_cons, ih]

/-- At the end of a line it does not count whether a comment may start. -/
theorem of_lineEnd (hr : r.Proper) (h : Cut r b cs spans) (hend : AtLineEnd cs) (b' : Bool) : Cut r b' cs spans := by
  cases h with
  | nil => exact .nil
  | cons hfits h =>
    obtain ⟨cs, rfl⟩ := hfits.eol_of_lineEnd hr hend
    cases hfits with
    | eol hcs => exact .cons (.eol hcs) h

/-- Each span fits what stands behind it. -/
theorem split (h : Cut r b cs (before ++ span :: after)) :
    span.Fits r (Span.opensBehind b before) (after.flatMap Span.chars) := by
  induction before generalizing b cs with
  | nil =>
    cases h with
    | cons hfits h =>
      rw [h.flatMap_chars]
      exact hfits
  | cons first before ih =>
    cases h with
    | cons hfits h => exact ih h

/-- As many tokens as characters at most. -/
theorem length_tokens_le (h : Cut r b cs spans) : (spans.filterMap (Span.token? r)).length ≤ cs.length := by
  induction h with
  | nil => exact Nat.le_refl 0
  | @cons b span rest spans hfits h ih =>
    have hpos := List.length_pos_iff.mpr hfits.ne_nil
    rw [List.length_append]
    cases htok : span.token? r with
    | none =>
      rw [List.filterMap_cons_none htok]
      omega
    | some tok =>
      rw [List.filterMap_cons_some htok, List.length_cons]
      omega

end Cut

/-! ### What a scan leaves out -/

namespace Scanner

variable {s s' : Scanner} {l : Lexeme} {spans : List Span}

/-- Leaves out blanks that are not reported. -/
def passBlanks (r : LexRules) (s : Scanner) : Scanner :=
  if !r.blanks && s.rest.head?.any Text.isBlank then ⟨s.rest.dropWhile Text.isBlank, s.line, true⟩ else s

/-- Leaves out a comment. -/
def passComment (r : LexRules) (s : Scanner) : Scanner :=
  if s.boundary && r.startsComment s.rest then { s with rest := s.rest.dropWhile (!Text.isLineEnd ·) } else s

theorem skip_eq_pass (r : LexRules) (s : Scanner) : s.skip r = (s.passBlanks r).passComment r := rfl

/-- Spans without tokens may stand in front of those that come behind a part that was left out. -/
def Leaves (r : LexRules) (s s' : Scanner) : Prop :=
  ∀ spans, Cut r s'.boundary s'.rest spans →
    ∃ skipped, skipped.filterMap (Span.token? r) = [] ∧ Cut r s.boundary s.rest (skipped ++ spans)

theorem Leaves.refl (r : LexRules) (s : Scanner) : Leaves r s s := fun _ h => ⟨[], rfl, h⟩

theorem Leaves.trans {s₁ s₂ s₃ : Scanner} (h₁ : Leaves r s₁ s₂) (h₂ : Leaves r s₂ s₃) : Leaves r s₁ s₃ := by
  intro spans h
  obtain ⟨second, hsecond, h⟩ := h₂ spans h
  obtain ⟨first, hfirst, h⟩ := h₁ (second ++ spans) h
  exact ⟨first ++ second, by rw [List.filterMap_append, hfirst, hsecond]; rfl, by rwa [List.append_assoc]⟩

theorem leaves_passBlanks (r : LexRules) (s : Scanner) : Leaves r s (s.passBlanks r) := by
  obtain ⟨cs, line, b⟩ := s
  unfold passBlanks
  split
  · next h =>
    intro spans hspans
    rw [Bool.and_eq_true, Bool.not_eq_true'] at h
    obtain ⟨run, rest, rfl, hall, hstop⟩ := exists_run Text.isBlank cs
    have hne : run ≠ [] := by
      rintro rfl
      obtain ⟨c, hc, hblank⟩ := (Option.any_eq_true _ _).mp h.2
      exact absurd hblank (by simp [hstop c hc])
    simp only [dropWhile_run hall hstop] at hspans
    exact ⟨[.blanks run], by simp [Span.token?, h.1], .cons (.blanks hne hall hstop) hspans⟩
  · exact .refl r _

theorem leaves_passComment (hr : r.Proper) (s : Scanner) : Leaves r s (s.passComment r) := by
  obtain ⟨cs, line, b⟩ := s
  unfold passComment
  split
  · next h =>
    intro spans hspans
    rw [Bool.and_eq_true] at h
    obtain ⟨rfl, hstart⟩ := h
    obtain ⟨text, rest, rfl, hall, hstop⟩ := exists_run (!Text.isLineEnd ·) cs
    have hend : AtLineEnd rest := fun c hc => by simpa using hstop c hc
    have hne : text ≠ [] := by
      rintro rfl
      exact absurd hstart (by simp [startsComment_of_lineEnd hend])
    simp only [dropWhile_run hall hstop] at hspans
    have hfits : (Span.comment text).Fits r true rest :=
      .comment ((Parted.startsComment hne (.inl hend)).symm.trans hstart) (fun c hc => by simpa using hall c hc) hend
    exact ⟨[.comment text], rfl, .cons hfits (hspans.of_lineEnd hr hend false)⟩
  · exact .refl r _

theorem leaves_skip (hr : r.Proper) (s : Scanner) : Leaves r s (s.skip r) :=
  (leaves_passBlanks r s).trans (leaves_passComment hr _)

/-- What is left starts with no blank that is not reported, and with no comment. -/
theorem skip_stops (r : LexRules) (s : Scanner) :
    (r.blanks = false → ∀ c ∈ (s.skip r).rest.head?, Text.isBlank c = false) ∧
      ((s.skip r).boundary → r.startsComment (s.skip r).rest = false) := by
  have hblanks : r.blanks = false → ∀ c ∈ (s.passBlanks r).rest.head?, Text.isBlank c = false := by
    intro hr c hc
    unfold passBlanks at hc
    split at hc
    · have hhead := List.head?_dropWhile_not Text.isBlank s.rest
      rw [Option.mem_def.mp hc] at hhead
      simpa using hhead
    · next h =>
      cases hblank : Text.isBlank c with
      | false => rfl
      | true => exact absurd (by simp [hr, Option.mem_def.mp hc, hblank]) h
  rw [skip_eq_pass]
  generalize s.passBlanks r = s at hblanks
  unfold passComment
  split
  · have hend : AtLineEnd (s.rest.dropWhile (!Text.isLineEnd ·)) := by
      intro c hc
      have hhead := List.head?_dropWhile_not (!Text.isLineEnd ·) s.rest
      rw [Option.mem_def.mp hc] at hhead
      simpa using hhead
    exact ⟨fun _ c hc => not_blank_of_isLineEnd (hend c hc), fun _ => startsComment_of_lineEnd hend⟩
  · next h =>
    refine ⟨hblanks, fun hboundary => ?_⟩
    rw [hboundary, Bool.true_and] at h
    simpa using h

/-! ### What a scan reads -/

/-- Where no comment starts, a character that belongs to nothing else is a lexeme. -/
theorem tape_lone {line : Nat} (hr : r.blanks) (hc : Span.Lone r c) (hstart : b → r.startsComment (c :: cs) = false) :
    (⟨c :: cs, line, b⟩ : Scanner).tape r = .cons ⟨line, .char c⟩ ((⟨cs, line, false⟩ : Scanner).tape r) := by
  obtain ⟨hblank, hline, hquote, hcontrol, hword⟩ := hc
  have hskip : (⟨c :: cs, line, b⟩ : Scanner).skip r = ⟨c :: cs, line, b⟩ := by
    rw [skip_of_blanks hr, if_neg]
    cases b with
    | false => simp
    | true => simp [hstart rfl]
  have hlf : c ≠ '\n' ∧ c ≠ '\r' := by simpa [Text.isLineEnd] using hline
  have hq : c ≠ '"' ∧ c ≠ '\'' := by simpa using hquote
  refine tape_of_next ?_ (by simp)
  rw [next, hskip]
  simp [read, hlf, hq, hblank, hcontrol, hword]

/-- The span of a lexeme. -/
theorem exists_span (h : s.read r = (.ok l, s')) (heof : l.token ≠ .eof)
    (hblanks : r.blanks = false → ∀ c ∈ s.rest.head?, Text.isBlank c = false)
    (hstart : s.boundary → r.startsComment s.rest = false) :
    ∃ span : Span, s.rest = span.chars ++ s'.rest ∧ span.Fits r s.boundary s'.rest ∧ span.opens = s'.boundary ∧
      span.token? r = some l.token := by
  obtain ⟨_ | ⟨c, cs⟩, line, b⟩ := s
  · cases h
    exact absurd rfl heof
  -- The cases come as the scanner tries them: a character that is left alone at the end is none of the kinds before.
  by_cases hlf : c = '\n'
  · subst hlf
    cases h
    exact ⟨.eol ['\n'], rfl, .eol (.inl rfl), rfl, rfl⟩
  by_cases hcr : c = '\r'
  · subst hcr
    cases h
    by_cases hcs : cs.head? = some '\n'
    · obtain ⟨cs, rfl⟩ := List.head?_eq_some_iff.mp hcs
      exact ⟨.eol ['\r', '\n'], rfl, .eol (.inr (.inl rfl)), rfl, rfl⟩
    · simp only [if_neg hcs]
      exact ⟨.eol ['\r'], rfl, .eol (.inr (.inr ⟨rfl, hcs⟩)), rfl, rfl⟩
  by_cases hblank : Text.isBlank c
  · simp only [read, if_neg hlf, if_neg hcr, if_pos hblank] at h
    cases h
    have hreported : r.blanks = true := by
      cases hb : r.blanks with
      | true => rfl
      | false => exact absurd hblank (by simp [hblanks hb c rfl])
    obtain ⟨run, rest, rfl, hall, hstop⟩ := exists_run Text.isBlank cs
    rw [dropWhile_run hall hstop]
    exact ⟨.blanks (c :: run), rfl,
      .blanks (List.cons_ne_nil _ _) (List.forall_mem_cons.mpr ⟨hblank, hall⟩) hstop, rfl, if_pos hreported⟩
  by_cases hcontrol : Text.isControl c
  · simp only [read, if_neg hlf, if_neg hcr, if_neg hblank, if_pos hcontrol] at h
    cases h
  by_cases hquote : c = '"' ∨ c = '\''
  · simp only [read, if_neg hlf, if_neg hcr, if_neg hblank, if_neg hcontrol, if_pos hquote] at h
    split at h
    · next text rest hread =>
      cases h
      obtain ⟨raw, rfl, -, hraw⟩ := exists_raw hread
      exact ⟨.quoted c raw text, by simp [Span.chars], .quoted hquote (hraw []), rfl, rfl⟩
    · cases h
  simp only [read, if_neg hlf, if_neg hcr, if_neg hblank, if_neg hcontrol, if_neg hquote] at h
  by_cases hword : r.isWordChar c
  · rw [if_pos hword] at h
    cases h
    obtain ⟨run, rest, rfl, hall, hstop⟩ := exists_run r.isWordChar cs
    rw [dropWhile_run hall hstop, takeWhile_run hall hstop]
    exact ⟨.word (c :: run), rfl,
      .word (List.cons_ne_nil _ _) (List.forall_mem_cons.mpr ⟨hword, hall⟩) hstop hstart, rfl, rfl⟩
  · rw [if_neg hword] at h
    cases h
    have hlone : Span.Lone r c := by
      refine ⟨by simpa using hblank, by simp [Text.isLineEnd, hlf, hcr], ?_, by simpa using hcontrol, ?_⟩
      · simpa using hquote
      · simpa using hword
    exact ⟨.char c, rfl, .char hlone hstart, rfl, rfl⟩

/-- A scan without a fault cuts what is left to it into spans, of which some are its tokens. -/
theorem exists_cut (hr : r.Proper) (h : (s.tape r).fault? = none) :
    ∃ spans, Cut r s.boundary s.rest spans ∧ spans.filterMap (Span.token? r) = (s.tape r).tokens := by
  fun_induction Scanner.tape r s with
  | case1 => cases h
  | case2 s l s' hnext heof =>
    obtain ⟨skipped, hskipped, hcut⟩ := leaves_skip hr s [] (by rw [rest_of_read_eof hnext heof]; exact .nil)
    rw [List.append_nil] at hcut
    exact ⟨skipped, hcut, hskipped⟩
  | case3 s l s' hnext heof ih =>
    obtain ⟨hblanks, hstart⟩ := skip_stops r s
    obtain ⟨span, hrest, hfits, hopens, htok⟩ := exists_span hnext heof hblanks hstart
    obtain ⟨spans, hcut, hspans⟩ := ih h
    have hcons : Cut r (s.skip r).boundary (s.skip r).rest (span :: spans) := hrest ▸ .cons hfits (hopens ▸ hcut)
    obtain ⟨skipped, hskipped, hcut⟩ := leaves_skip hr s _ hcons
    refine ⟨skipped ++ span :: spans, hcut, ?_⟩
    rw [List.filterMap_append, hskipped, List.nil_append, List.filterMap_cons_some htok, hspans, Tape.tokens]

end Scanner

/-! ### Partitions -/

/-- A span between those in front of it and the text behind it. A word goes on to neither side, nor does a run of
    blanks. A comment, as `Fits` has it, stands at the start of the text, or behind a line end or a run of blanks. -/
structure Span.Stands (r : LexRules) (before : List Span) (span : Span) (rest : List Char) : Prop where
  fits : span.Fits r (Span.opensBehind true before) rest
  word : ∀ cs, span = .word cs → ∀ c ∈ (before.flatMap Span.chars).getLast?, r.isWordChar c = false
  blanks : ∀ cs, span = .blanks cs → ∀ c ∈ (before.flatMap Span.chars).getLast?, Text.isBlank c = false

/-- The spans, one behind the other, are the text, and none of them is empty. -/
structure Partition (r : LexRules) (cs : List Char) (spans : List Span) : Prop where
  whole : spans.flatMap Span.chars = cs
  ne_nil : ∀ span ∈ spans, span.chars ≠ []
  stands : ∀ before span after, spans = before ++ span :: after → span.Stands r before (after.flatMap Span.chars)

theorem Cut.stands {before after : List Span} {span : Span} (hr : r.Proper)
    (h : Cut r true cs (before ++ span :: after)) : span.Stands r before (after.flatMap Span.chars) := by
  rcases List.eq_nil_or_concat before with rfl | ⟨front, last, rfl⟩
  · exact ⟨h.split, nofun, nofun⟩
  · have hfits := h.split
    rw [List.concat_eq_append, List.append_assoc, List.singleton_append] at h
    have hlast := h.split
    have hend : ((front.concat last).flatMap Span.chars).getLast? = last.chars.getLast? := by
      obtain ⟨cs, c, hcs⟩ := (List.eq_nil_or_concat last.chars).resolve_left hlast.ne_nil
      simp [List.flatMap_append, hcs]
    rw [List.flatMap_cons] at hlast
    refine ⟨hfits, ?_, ?_⟩
    · rintro word rfl
      obtain ⟨c, word, rfl, hc⟩ := hfits.exists_word
      rw [hend]
      exact hlast.word_stops hr hc
    · rintro run rfl
      obtain ⟨c, run, rfl, hc⟩ := hfits.exists_blank
      rw [hend]
      exact hlast.blank_stops hr hc

theorem Tape.lexemes_of_ended {t : Tape} (h : t.fault? = none) :
    t.lexemes.map Lexeme.token = t.tokens ++ [.eof] := by
  induction t with
  | ended line => rfl
  | torn e => cases h
  | cons l rest ih => exact congrArg (l.token :: ·) (ih h)

/-- A text that is scanned without a fault is the text of its spans, and its lexemes are, in their order, the spans that
    are no comments and no blanks that go unreported. So the scan comes to the end of the text behind as many
    lexemes as the text has characters at most. -/
theorem Tape.partition (hr : r.Proper) (text : String) (h : (Tape.ofText r text).fault? = none) :
    (∃ spans, Partition r text.toList spans ∧ spans.filterMap (Span.token? r) = (Tape.ofText r text).tokens) ∧
    (Tape.ofText r text).lexemes.map Lexeme.token = (Tape.ofText r text).tokens ++ [.eof] ∧
    (Tape.ofText r text).tokens.length ≤ text.length := by
  obtain ⟨spans, hcut, hspans⟩ := Scanner.exists_cut hr h
  have hstands : ∀ before span after, spans = before ++ span :: after →
      span.Stands r before (after.flatMap Span.chars) := by
    rintro before span after rfl
    exact hcut.stands hr
  refine ⟨⟨spans, ⟨hcut.flatMap_chars, fun span hspan => ?_, hstands⟩, hspans⟩, lexemes_of_ended h, ?_⟩
  · obtain ⟨before, after, hsplit⟩ := List.append_of_mem hspan
    exact (hstands before span after hsplit).fits.ne_nil
  · have hlength := hcut.length_tokens_le
    rwa [hspans] at hlength

/-- Words that may hold the characters of comments: they start a comment where a line starts, but not in a word. -/
theorem Tape.partition_hashes :
    (⟨['#', '/'], false, true, true⟩ : LexRules).Proper ∧
    (Tape.ofText ⟨['#', '/'], false, true, true⟩ " #x\r\n/a//b#\t// y").fault? = none ∧
    ∃ spans, Partition ⟨['#', '/'], false, true, true⟩ " #x\r\n/a//b#\t// y".toList spans ∧
      spans.filterMap (Span.token? ⟨['#', '/'], false, true, true⟩) = [.eol, .word "/a//b#"] := by
  have hproper : (⟨['#', '/'], false, true, true⟩ : LexRules).Proper := by decide
  have hfault : (Tape.ofText ⟨['#', '/'], false, true, true⟩ " #x\r\n/a//b#\t// y").fault? = none := by
    decide +kernel
  have htokens : (Tape.ofText ⟨['#', '/'], false, true, true⟩ " #x\r\n/a//b#\t// y").tokens =
      [.eol, .word "/a//b#"] := by
    decide +kernel
  refine ⟨hproper, hfault, ?_⟩
  rw [← htokens]
  exact (Tape.partition hproper _ hfault).1

end Settings
