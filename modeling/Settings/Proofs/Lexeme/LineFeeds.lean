import Settings.Proofs.Lexeme.Lines
import Settings.Proofs.Text.Cutting

/-! # Texts cut at their line feeds

A text in which nothing is at fault is the list of its tokens. Outside of quotes a line feed cuts it into two texts
that are scanned on their own. A line of blanks and a comment adds no more than blanks and a line end, and a carriage
return in front of a line feed adds nothing.

All of this is shown of the scans that report their blanks. The others read the same tokens without the blanks. -/

namespace Settings

variable {r : LexRules} {c q : Char} {cs line more blanks comment ending : List Char} {toks : List Token} {n : Nat}
  {boundary : Bool}

/-! ### The tokens of a text -/

/-- The tape without its blanks. -/
def Tape.withoutBlanks : Tape → Tape
  | .ended line => .ended line
  | .torn e => .torn e
  | .cons l rest => if l.token = .blank then rest.withoutBlanks else .cons l rest.withoutBlanks

/-- What a tape reads as: its tokens, unless it is torn. -/
def Tape.tokens? (t : Tape) : Option (List Token) := if t.fault? = none then some t.tokens else none

/-- A tape that goes on as another one, behind some tokens. -/
theorem Tape.tokens?_append {t u : Tape} (hfault : u.fault? = none ↔ t.fault? = none)
    (htokens : u.tokens = toks ++ t.tokens) : u.tokens? = t.tokens?.map (toks ++ ·) := by
  unfold tokens?
  by_cases h : t.fault? = none
  · rw [if_pos h, if_pos (hfault.mpr h), htokens]
    rfl
  · rw [if_neg h, if_neg (mt hfault.mp h)]
    rfl

theorem Tape.tokens?_cons (l : Lexeme) (t : Tape) : (Tape.cons l t).tokens? = t.tokens?.map (l.token :: ·) :=
  @tokens?_append [l.token] t (.cons l t) Iff.rfl rfl

namespace LexRules

/-- The tokens of a text, if it can be scanned to its end. -/
def scan (r : LexRules) (cs : List Char) : Option (List Token) := ((⟨cs, 1, true⟩ : Scanner).tape r).tokens?

/-- No quotes are left open at the end of a text: what comes behind it does not mend its faults. -/
def Unquoted (r : LexRules) (cs : List Char) : Prop := ∀ more, (r.scan (cs ++ more)).isSome → (r.scan cs).isSome

/-- A line end is in no word. -/
def EndsWords (r : LexRules) : Prop := ∀ c, Text.isLineEnd c → r.isWordChar c = false

/-- The same lexemes, and the blanks between them. -/
def withBlanks (r : LexRules) : LexRules := { r with blanks := true }

/-- The tokens of those that are read where blanks are reported. -/
def reported (r : LexRules) (toks : List Token) : List Token := if r.blanks then toks else toks.filter (· ≠ .blank)

theorem EndsWords.linewise (h : r.EndsWords) : r.withBlanks.Linewise := ⟨rfl, h⟩

theorem reported_append (as bs : List Token) : r.reported (as ++ bs) = r.reported as ++ r.reported bs := by
  unfold reported
  split
  · rfl
  · exact List.filter_append as bs

theorem mem_of_mem_reported {tok : Token} (h : tok ∈ r.reported toks) : tok ∈ toks := by
  unfold reported at h
  split at h
  · exact h
  · exact (List.mem_filter.mp h).1

theorem reported_eol : r.reported [.eol] = [.eol] := by
  unfold reported
  split <;> rfl

end LexRules

/-! ### Blanks that are not reported -/

theorem Tape.fault?_withoutBlanks (t : Tape) : t.withoutBlanks.fault? = t.fault? := by
  induction t with
  | ended | torn => rfl
  | cons l rest ih =>
    rw [withoutBlanks]
    split
    · exact ih
    · exact ih

theorem Tape.tokens_withoutBlanks (t : Tape) : t.withoutBlanks.tokens = t.tokens.filter (· ≠ .blank) := by
  induction t with
  | ended | torn => rfl
  | cons l rest ih =>
    rw [withoutBlanks, Tape.tokens]
    split
    · next hblank => rw [ih, List.filter_cons_of_neg (by simp [hblank])]
    · next hblank => rw [Tape.tokens, ih, List.filter_cons_of_pos (by simpa using hblank)]

namespace Scanner

variable {s s' : Scanner} {l : Lexeme}

theorem skip_of_not_blank (h : ∀ c ∈ s.rest.head?, Text.isBlank c = false) : s.skip r = s.skip r.withBlanks := by
  have hhead : s.rest.head?.any Text.isBlank = false := by
    rw [Option.any_eq_false]
    simpa using h
  simp only [skip, hhead, Bool.and_false]
  rfl

theorem head_skip (hr : r.blanks) (h : ∀ c ∈ s.rest.head?, Text.isBlank c = false) :
    ∀ c ∈ (s.skip r).rest.head?, Text.isBlank c = false := by
  rw [skip_of_blanks hr]
  split
  · intro c hc
    have hend := List.head?_dropWhile_not (!Text.isLineEnd ·) s.rest
    rw [Option.mem_def.mp hc] at hend
    exact not_blank_of_isLineEnd (by simpa using hend)
  · exact h

theorem blank_of_read (h : s.read r = (.ok l, s')) (hl : l.token = .blank) : ∃ c ∈ s.rest.head?, Text.isBlank c := by
  obtain ⟨_ | ⟨c, cs⟩, line, boundary⟩ := s
  · cases h
    cases hl
  · simp only [read] at h
    split at h
    · cases h
      cases hl
    split at h
    · cases h
      cases hl
    split at h
    · next hblank => exact ⟨c, rfl, hblank⟩
    repeat' split at h
    all_goals
      cases h
      try cases hl

/-- Where blanks are not reported, those in front make no difference. -/
theorem tape_unreported (hr : r.blanks = false) (hc : Text.isBlank c) :
    (⟨c :: cs, n, boundary⟩ : Scanner).tape r = (⟨cs.dropWhile Text.isBlank, n, true⟩ : Scanner).tape r := by
  apply tape_congr
  have hstop : (cs.dropWhile Text.isBlank).head?.any Text.isBlank = false := by
    have hhead := List.head?_dropWhile_not Text.isBlank cs
    cases h : (cs.dropWhile Text.isBlank).head? with
    | none => rfl
    | some d => simpa [h] using hhead
  simp [next, skip, hr, hc, hstop]

/-- A scan that does not report blanks reads what is left without them. -/
theorem tape_withoutBlanks (hr : r.blanks = false) (s : Scanner) : s.tape r = (s.tape r.withBlanks).withoutBlanks := by
  induction hn : s.rest.length using Nat.strongRecOn generalizing s with
  | ind n ih =>
    by_cases hblank : ∃ c ∈ s.rest.head?, Text.isBlank c
    · obtain ⟨rest, line, boundary⟩ := s
      obtain ⟨c, hc, hblank⟩ := hblank
      obtain ⟨cs, rfl⟩ := List.head?_eq_some_iff.mp hc
      rw [tape_unreported hr hblank, tape_blank rfl hblank, Tape.withoutBlanks, if_pos rfl]
      exact ih _ (hn ▸ Nat.lt_succ_of_le (List.dropWhile_sublist Text.isBlank).length_le) _ rfl
    · have hhead : ∀ c ∈ s.rest.head?, Text.isBlank c = false := by simpa using hblank
      have hnext : s.next r = s.next r.withBlanks := by
        rw [next, next, skip_of_not_blank hhead]
        rfl
      rw [tape_eq, tape_eq, ← hnext]
      rcases hres : s.next r with ⟨_ | l, s'⟩
      · rfl
      · by_cases heof : l.token = .eof
        · simp only [if_pos heof]
          rfl
        · have hne : l.token ≠ .blank := fun hl => by
            obtain ⟨c, hc, hblank⟩ := blank_of_read (hnext.symm.trans hres) hl
            exact absurd hblank (by simp [head_skip rfl hhead c hc])
          simp only [if_neg heof, Tape.withoutBlanks, if_neg hne]
          rw [ih _ (hn ▸ length_next_lt hres heof) s' rfl]

end Scanner

namespace LexRules

theorem scan_eq_reported (r : LexRules) (cs : List Char) : r.scan cs = (r.withBlanks.scan cs).map r.reported := by
  cases hr : r.blanks with
  | true =>
    have hwith : r.withBlanks = r := by
      rw [withBlanks, ← hr]
    have hid : r.reported = id := funext fun toks => if_pos hr
    rw [hwith, hid, Option.map_id_fun, id]
  | false =>
    have hfilter : r.reported = List.filter (· ≠ .blank) := funext fun toks => if_neg (by simp [hr])
    rw [scan, scan, Scanner.tape_withoutBlanks hr, Tape.tokens?, Tape.tokens?, Tape.fault?_withoutBlanks,
      Tape.tokens_withoutBlanks, hfilter]
    split
    · rfl
    · rfl

theorem isSome_scan (r : LexRules) (cs : List Char) : (r.scan cs).isSome = (r.withBlanks.scan cs).isSome := by
  rw [scan_eq_reported, Option.isSome_map]

theorem scan_eq_some_iff :
    r.scan cs = some toks ↔
      ((⟨cs, 1, true⟩ : Scanner).tape r).fault? = none ∧ ((⟨cs, 1, true⟩ : Scanner).tape r).tokens = toks := by
  rw [scan, Tape.tokens?]
  split
  · next h => simp [h]
  · next h => simp [h]

theorem scan_eq_none_iff : r.scan cs = none ↔ ((⟨cs, 1, true⟩ : Scanner).tape r).fault? ≠ none := by
  rw [scan, Tape.tokens?]
  split
  · next h => simp [h]
  · next h => simp [h]

/-! ### Two texts that meet at the end of a line -/

/-- Where the first text can be scanned and a line end parts it from the second one, the tokens of the second one come
    behind those of the first. -/
theorem scan_parted (hr : r.EndsWords) (hm : Scanner.Parted cs more) (hreturn : cs.getLast? ≠ some '\r')
    (h : r.scan cs = some toks) : r.scan (cs ++ more) = (r.scan more).map (toks ++ ·) := by
  rw [scan_eq_reported] at h
  obtain ⟨as, has, rfl⟩ := Option.map_eq_some_iff.mp h
  obtain ⟨hfault, rfl⟩ := scan_eq_some_iff.mp has
  obtain ⟨hjoins, hplain⟩ := Scanner.tape_split (s := ⟨cs, 1, true⟩) hr.linewise (.inl hm) hfault 1
  have happend : r.withBlanks.scan (cs ++ more) =
      (r.withBlanks.scan more).map (((⟨cs, 1, true⟩ : Scanner).tape r.withBlanks).tokens ++ ·) :=
    Tape.tokens?_append hjoins.fault (hplain hreturn)
  rw [scan_eq_reported, scan_eq_reported r more, happend, Option.map_map, Option.map_map]
  exact congrArg (Option.map · _) (funext fun bs => reported_append _ bs)

/-- A line feed outside of quotes cuts a text into two that are scanned on their own. -/
theorem scan_append (hr : r.EndsWords) (hend : cs.getLast? = some '\n') (hquotes : r.Unquoted cs) (more : List Char) :
    r.scan (cs ++ more) = (r.scan cs).bind fun toks => (r.scan more).map (toks ++ ·) := by
  cases h : r.scan cs with
  | none =>
    have hnone : (r.scan (cs ++ more)).isSome = false := by
      rw [← Bool.not_eq_true]
      exact fun hsome => absurd (hquotes more hsome) (by simp [h])
    simpa using hnone
  | some toks => exact scan_parted hr (.inr ⟨'\n', hend, rfl⟩) (by rw [hend]; decide) h

/-- The last token of a text that ends with a line feed is a line end. -/
theorem scan_lineFeed (hr : r.EndsWords) (hend : cs.getLast? = some '\n') (h : r.scan cs = some toks) :
    ∃ as, toks = as ++ [.eol] := by
  rw [scan_eq_reported] at h
  obtain ⟨as, has, rfl⟩ := Option.map_eq_some_iff.mp h
  obtain ⟨hfault, rfl⟩ := scan_eq_some_iff.mp has
  obtain ⟨bs, hbs⟩ := Scanner.tokens_of_endsLine (s := ⟨cs, 1, true⟩) hr.linewise ⟨'\n', hend, rfl⟩ hfault
  exact ⟨r.reported bs, by rw [hbs, reported_append, reported_eol]⟩

/-! ### Lines that hold nothing -/

/-- The end of a line: a line feed, with or without a carriage return in front of it. -/
def IsBreak (cs : List Char) : Prop := cs = ['\n'] ∨ cs = ['\r', '\n']

theorem IsBreak.getLast? (h : IsBreak ending) (cs : List Char) : (cs ++ ending).getLast? = some '\n' := by
  rcases h with rfl | rfl
  · exact List.getLast?_concat
  · rw [List.getLast?_append]
    rfl

theorem IsBreak.atLineEnd (h : IsBreak ending) : AtLineEnd ending := by
  rcases h with rfl | rfl
  all_goals
    rintro _ ⟨rfl⟩
    rfl

/-- What may stand on a line that holds no lexeme but blanks: nothing, or a comment up to the end of the line. -/
structure Remark (r : LexRules) (cs : List Char) : Prop where
  start : cs = [] ∨ r.startsComment cs
  line : ∀ c ∈ cs, Text.isLineEnd c = false

theorem Remark.nil : r.Remark [] := ⟨.inl rfl, List.forall_mem_nil _⟩

theorem Remark.head_not_blank (h : r.Remark comment) (hending : IsBreak ending) :
    ∀ c ∈ (comment ++ ending).head?, Text.isBlank c = false := by
  intro c hc
  cases comment with
  | nil => exact not_blank_of_isLineEnd (hending.atLineEnd c hc)
  | cons d comment =>
    cases hc
    have hstart := h.start.resolve_left (List.cons_ne_nil _ _)
    simp only [Scanner.startsComment_cons, Bool.or_eq_true, Bool.and_eq_true, beq_iff_eq] at hstart
    rcases hstart with ⟨rfl, -⟩ | ⟨⟨rfl, -⟩, -⟩
    all_goals rfl

theorem tape_remark (h : r.Remark comment) (hending : IsBreak ending) (n : Nat) :
    (⟨comment ++ ending, n, true⟩ : Scanner).tape r.withBlanks = .cons ⟨n, .eol⟩ (.ended (n + 1)) := by
  have hat := hending.atLineEnd
  have hskip : (⟨comment ++ ending, n, true⟩ : Scanner).skip r.withBlanks = ⟨ending, n, true⟩ := by
    rcases h.start with rfl | hstart
    · exact Scanner.skip_of_lineEnd rfl hat
    · have hne : comment ≠ [] := by
        rintro rfl
        cases hstart
      have hcomment : r.withBlanks.startsComment (comment ++ ending) :=
        (Scanner.Parted.startsComment hne (.inl hat)).trans hstart
      rw [Scanner.skip_of_blanks rfl, hcomment, dropWhile_run (by simpa using h.line) fun c hc => by simp [hat c hc]]
      rfl
  have hnext : (⟨comment ++ ending, n, true⟩ : Scanner).next r.withBlanks = (.ok ⟨n, .eol⟩, ⟨[], n + 1, true⟩) := by
    rw [Scanner.next, hskip]
    rcases hending with rfl | rfl
    all_goals rfl
  rw [Scanner.tape_of_next hnext (by simp), Scanner.tape_nil]

theorem scan_remark (h : r.Remark comment) (hending : IsBreak ending) : r.scan (comment ++ ending) = some [.eol] := by
  have hscan : r.withBlanks.scan (comment ++ ending) = some [.eol] := by
    rw [scan_eq_some_iff, tape_remark h hending]
    exact ⟨rfl, rfl⟩
  rw [scan_eq_reported, hscan, Option.map_some, reported_eol]

/-- A line of blanks and a comment holds no token but blanks. -/
theorem scan_idle (hblanks : ∀ c ∈ blanks, Text.isBlank c) (h : r.Remark comment) (hending : IsBreak ending) :
    ∃ pre, (∀ tok ∈ pre, tok = .blank) ∧ r.scan (blanks ++ comment ++ ending) = some (pre ++ [.eol]) := by
  rw [List.append_assoc]
  cases blanks with
  | nil =>
    refine ⟨[], List.forall_mem_nil _, ?_⟩
    rw [List.nil_append]
    exact scan_remark h hending
  | cons c blanks =>
    obtain ⟨hc, hblanks⟩ := List.forall_mem_cons.mp hblanks
    have hscan : r.withBlanks.scan (c :: blanks ++ (comment ++ ending)) = some ([.blank] ++ [.eol]) := by
      rw [scan_eq_some_iff, List.cons_append, Scanner.tape_blank rfl hc,
        dropWhile_run hblanks (h.head_not_blank hending), tape_remark h hending]
      exact ⟨rfl, rfl⟩
    refine ⟨r.reported [.blank], fun tok htok => List.mem_singleton.mp (mem_of_mem_reported htok), ?_⟩
    rw [scan_eq_reported, hscan, Option.map_some, reported_append, reported_eol]

/-- A reading of tokens that passes over blanks and a line end behind a line end passes over lines that hold no more than
    blanks and a comment. -/
theorem scan_bind_idle (hr : r.EndsWords) (hend : cs.getLast? = some '\n') (hquotes : r.Unquoted cs)
    (hblanks : ∀ c ∈ blanks, Text.isBlank c) (hcomment : r.Remark comment) (hending : IsBreak ending)
    {α : Type} {read : List Token → Option α}
    (hread : ∀ as bs pre, (∀ tok ∈ pre, tok = Token.blank) →
      read (as ++ [.eol] ++ (pre ++ [.eol]) ++ bs) = read (as ++ [.eol] ++ bs)) (more : List Char) :
    (r.scan (cs ++ (blanks ++ comment ++ ending) ++ more)).bind read = (r.scan (cs ++ more)).bind read := by
  rw [List.append_assoc, scan_append hr hend hquotes, scan_append hr hend hquotes]
  cases h : r.scan cs with
  | none => rfl
  | some toks =>
    obtain ⟨as, rfl⟩ := scan_lineFeed hr hend h
    obtain ⟨pre, hpre, hidle⟩ := scan_idle hblanks hcomment hending
    have hlast := hending.getLast? (blanks ++ comment)
    rw [scan_parted hr (.inr ⟨'\n', hlast, rfl⟩) (by rw [hlast]; decide) hidle]
    cases r.scan more with
    | none => rfl
    | some bs =>
      have hpassed := hread as bs pre hpre
      rwa [List.append_assoc (as ++ [Token.eol])] at hpassed

end LexRules

/-! ### Carriage returns in front of line feeds -/

/-- Characters in quotes behind which the quoted text goes on. -/
def Goes (q : Char) (front : List Char) : Prop :=
  ∃ f : List Char → List Char, ∀ cs, readQuoted q (front ++ cs) = ((readQuoted q cs).1.map f, (readQuoted q cs).2)

theorem goes_char (hend : ¬ Text.isLineEnd c) (hq : c ≠ q) (hb : c ≠ '\\') : Goes q [c] :=
  ⟨(c :: ·), fun _ => readQuoted_char (by simpa using hend) hq hb⟩

theorem goes_escape {e : Char} (hq : q ≠ '\\') (he : e ≠ 'u') : Goes q ['\\', e] :=
  ⟨(escaped e :: ·), fun _ => readQuoted_escape hq he⟩

theorem goes_four {four : List Char} (hq : q ≠ '\\') (hfour : four.length = 4) : Goes q ('\\' :: 'u' :: four) :=
  ⟨(escapedFour four ++ ·), readQuoted_four hq hfour⟩

/-- The line ends in the middle of an escape, which takes the line feed with it. -/
def Dangles (q : Char) (cs : List Char) : Prop :=
  (readQuoted q (cs ++ ['\n'])).1 = none ∧ ∃ more text, readQuoted q (cs ++ '\n' :: more) = (some text, [])

/-- The end of the line ends the quoted text. -/
def Breaks (q : Char) (cs : List Char) : Prop :=
  ∀ c more, Text.isLineEnd c → (readQuoted q (cs ++ c :: more)).1 = none

theorem Goes.cut {front : List Char} (h : Goes q front) (hcs : Dangles q cs ∨ Breaks q cs) :
    Dangles q (front ++ cs) ∨ Breaks q (front ++ cs) := by
  obtain ⟨f, hf⟩ := h
  rcases hcs with ⟨hnone, more, text, hmore⟩ | hbreaks
  · refine .inl ⟨?_, more, f text, ?_⟩
    · rw [List.append_assoc, hf, hnone]
      rfl
    · rw [List.append_assoc, hf, hmore]
      rfl
  · refine .inr fun c more hc => ?_
    rw [List.append_assoc, hf, hbreaks c more hc]
    rfl

theorem Goes.dangles {front : List Char} (hq : q = '"' ∨ q = '\'') (h : Goes q (cs ++ '\n' :: front))
    (hnone : (readQuoted q (cs ++ ['\n'])).1 = none) : Dangles q cs := by
  obtain ⟨f, hf⟩ := h
  refine ⟨hnone, front ++ [q], f [], ?_⟩
  rw [← List.cons_append, ← List.append_assoc, hf, readQuoted_quote (quote_not_lineEnd hq)]
  rfl

/-- A backslash at the end of a line takes the line feed with it, and `\u` fills up its four characters. -/
theorem dangles_four (hq : q = '"' ∨ q = '\'') (h : cs.length < 4) : Dangles q ('\\' :: 'u' :: cs) := by
  have hne := quote_ne_backslash hq
  have hfour : (cs ++ '\n' :: List.replicate (3 - cs.length) '0').length = 4 := by
    rw [List.length_append, List.length_cons, List.length_replicate]
    omega
  refine (goes_four hne hfour).dangles hq ?_
  have hdrop : (cs ++ ['\n']).drop 4 = [] := List.drop_eq_nil_of_le (by simp; omega)
  have hopen : (readQuoted q []).1 = none := by rw [readQuoted]
  rw [List.cons_append, List.cons_append, readQuoted_u hne, hdrop, hopen]
  rfl

theorem dangles_escape (hq : q = '"' ∨ q = '\'') : Dangles q ['\\'] := by
  have hne := quote_ne_backslash hq
  have hgoes : Goes q ['\\', '\n'] := goes_escape hne (by decide)
  refine hgoes.dangles hq ?_
  obtain ⟨f, hf⟩ := hgoes
  refine (congrArg Prod.fst (hf [])).trans ?_
  rw [readQuoted]
  rfl

/-- A quoted text that is open at the end of its line. -/
theorem dangles_or_breaks (hq : q = '"' ∨ q = '\'') (hline : ∀ c ∈ cs, Text.isLineEnd c = false)
    (h : (readQuoted q cs).1 = none) : Dangles q cs ∨ Breaks q cs := by
  have hne := quote_ne_backslash hq
  fun_induction readQuoted q cs with
  | case1 =>
    refine .inr fun c more hc => ?_
    rw [List.nil_append, readQuoted.eq_def]
    exact congrArg Prod.fst (if_pos hc)
  | case2 c ds hend => exact absurd hend (by simp [hline c List.mem_cons_self])
  | case3 => cases h
  | case4 => exact .inl (dangles_escape hq)
  | case5 ds done rest hread hend hq' ih =>
    by_cases hfour : ds.length < 4
    · exact .inl (dangles_four hq hfour)
    · have hlength : (ds.take 4).length = 4 := by
        rw [List.length_take]
        omega
      have hds := (goes_four hne hlength).cut
        (ih (fun d hd => hline d (by simp [List.mem_of_mem_drop hd])) (by simpa [hread] using h))
      rwa [List.cons_append, List.cons_append, List.take_append_drop] at hds
  | case6 e ds he done rest hread hend hq' ih =>
    exact (goes_escape hne he).cut (ih (fun d hd => hline d (by simp [hd])) (by simpa [hread] using h))
  | case7 c ds hend hq' hb done rest hread ih =>
    exact (goes_char hend hq' hb).cut (ih (fun d hd => hline d (by simp [hd])) (by simpa [hread] using h))

namespace Scanner

variable {s s' : Scanner} {l : Lexeme} {e : Fault}

theorem read_openQuote (hq : q = '"' ∨ q = '\'') (h : (readQuoted q cs).1 = none) (n : Nat) (boundary : Bool) :
    ∃ e s', (⟨q :: cs, n, boundary⟩ : Scanner).read r = (.error e, s') := by
  rw [read_quote hq]
  rcases hread : readQuoted q cs with ⟨_ | text, rest⟩
  · exact ⟨_, _, rfl⟩
  · rw [hread] at h
    cases h

/-- Where no lexeme can be read a control character is in front, or a quoted text that does not end. -/
theorem read_error (h : s.read r = (.error e, s')) :
    ∃ c cs, s.rest = c :: cs ∧
      ((∀ more, (s.append more).read r = (.error e, s.append more)) ∨
        (c = '"' ∨ c = '\'') ∧ (readQuoted c cs).1 = none) := by
  obtain ⟨_ | ⟨c, cs⟩, n, boundary⟩ := s
  · cases h
  refine ⟨c, cs, rfl, ?_⟩
  simp only [read, append, List.cons_append] at h ⊢
  by_cases hlf : c = '\n'
  · simp only [if_pos hlf] at h
    cases h
  by_cases hcr : c = '\r'
  · simp only [if_neg hlf, if_pos hcr] at h
    cases h
  by_cases hblank : Text.isBlank c
  · simp only [if_neg hlf, if_neg hcr, if_pos hblank] at h
    cases h
  by_cases hcontrol : Text.isControl c
  · simp only [if_neg hlf, if_neg hcr, if_neg hblank, if_pos hcontrol] at h ⊢
    cases h
    exact .inl fun more => rfl
  simp only [if_neg hlf, if_neg hcr, if_neg hblank, if_neg hcontrol] at h
  split at h
  · next hquote =>
    refine .inr ⟨hquote, ?_⟩
    split at h
    · cases h
    · next hread => rw [hread]
  · split at h
    all_goals cases h

theorem torn_of_next (h : s.next r = (.error e, s')) : (s.tape r).fault? ≠ none := by
  rw [tape_eq, h]
  exact Option.some_ne_none e

/-- A line in which a scan is at fault: either a backslash in quotes takes its line feed with it, so that more text may
    mend the fault, or no text behind the end of the line does. -/
theorem torn_line (hr : r.Linewise) (hline : ∀ c ∈ s.rest, Text.isLineEnd c = false) (h : (s.tape r).fault? ≠ none) :
    ((s.append ['\n']).tape r).fault? ≠ none ∧ (∃ more, ((s.append ('\n' :: more)).tape r).fault? = none) ∨
      ∀ c more, Text.isLineEnd c → ((s.append (c :: more)).tape r).fault? ≠ none := by
  have hat : ∀ {c : Char} (more : List Char), Text.isLineEnd c → AtLineEnd (c :: more) := by
    rintro c more hc _ ⟨rfl⟩
    exact hc
  fun_induction Scanner.tape r s with
  | case1 s e s' hnext =>
    obtain ⟨c, cs, hrest, herror⟩ := read_error hnext
    have hsuffix : c :: cs <:+ s.rest := hrest ▸ skip_suffix hr.blanks s
    have hne : s.rest ≠ [] := by
      intro hnil
      rw [hnil] at hsuffix
      cases List.suffix_nil.mp hsuffix
    have hnext' : ∀ {d : Char} (more : List Char), Text.isLineEnd d →
        (s.append (d :: more)).next r = ((s.skip r).append (d :: more)).read r := fun more hd => by
      rw [next, skip_append hr.blanks hne (.inl (hat more hd))]
    rcases herror with herror | ⟨hquote, hopen⟩
    · exact .inr fun d more hd => torn_of_next ((hnext' more hd).trans (herror _))
    · have hskip : s.skip r = ⟨c :: cs, (s.skip r).line, (s.skip r).boundary⟩ := by rw [← hrest]
      rw [hskip] at hnext'
      have hcs : ∀ d ∈ cs, Text.isLineEnd d = false := fun d hd => hline d (hsuffix.subset (List.mem_cons_of_mem c hd))
      rcases dangles_or_breaks hquote hcs hopen with ⟨hnone, more, text, hmore⟩ | hbreaks
      · -- The quotes can still be closed on the next line, and then the rest of that line is empty.
        obtain ⟨e', s'', hread⟩ := read_openQuote (r := r) hquote hnone (s.skip r).line (s.skip r).boundary
        refine .inl ⟨torn_of_next ((hnext' [] rfl).trans hread), more, ?_⟩
        have hread' := hnext' (d := '\n') more rfl
        have hquoted := read_quote (r := r) hquote (cs ++ '\n' :: more) (s.skip r).line (s.skip r).boundary
        rw [hmore] at hquoted
        rw [tape_of_next (hread'.trans hquoted) (by simp), tape_nil]
        rfl
      · refine .inr fun d more hd => ?_
        obtain ⟨e', s'', hread⟩ := read_openQuote (r := r) hquote (hbreaks d more hd) (s.skip r).line (s.skip r).boundary
        exact torn_of_next ((hnext' more hd).trans hread)
  | case2 => exact absurd rfl h
  | case3 s l s' hnext heof ih =>
    have hsplit : ∀ {c : Char} (more : List Char), Text.isLineEnd c →
        (s.append (c :: more)).next r = (.ok l, s'.append (c :: more)) := by
      intro c more hc
      refine (next_split hr (.inl (.inl (hat more hc))) hnext heof).2.2.resolve_right ?_
      rintro ⟨hlast, -⟩
      exact absurd (hline _ (List.mem_of_getLast? hlast)) (by decide)
    have hsuffix := (next_split hr (.inl (.inl (hat [] (c := '\n') rfl))) hnext heof).2.1
    refine (ih (fun c hc => hline c (hsuffix.subset hc)) h).imp ?_ ?_
    · rintro ⟨hnone, more, hmore⟩
      refine ⟨?_, more, ?_⟩
      · rwa [tape_of_next (hsplit [] rfl) heof]
      · rwa [tape_of_next (hsplit more rfl) heof]
    · intro hbreaks c more hc
      rw [tape_of_next (hsplit more hc) heof]
      exact hbreaks c more hc

end Scanner

namespace LexRules

/-- A line that can be scanned, in front of more text. Its end may be written in either way. -/
theorem scan_line (hr : r.EndsWords) (hline : ∀ c ∈ line, Text.isLineEnd c = false) (h : r.scan line = some toks)
    (hending : IsBreak ending) (more : List Char) :
    r.scan (line ++ ending ++ more) = (r.scan more).map (toks ++ [.eol] ++ ·) := by
  have hlast := hending.getLast? line
  have hreturn : line.getLast? ≠ some '\r' := fun hreturn => absurd (hline _ (List.mem_of_getLast? hreturn)) (by decide)
  have hend : r.scan ending = some [.eol] := scan_remark .nil hending
  have hended : r.scan (line ++ ending) = some (toks ++ [.eol]) := by
    rw [scan_parted hr (.inl hending.atLineEnd) hreturn h, hend]
    rfl
  exact scan_parted hr (.inr ⟨'\n', hlast, rfl⟩) (by rw [hlast]; decide) hended

/-- A line that cannot be scanned makes the whole text at fault, whichever way it ends, unless it ends in quotes. -/
theorem scan_torn_line (hr : r.EndsWords) (hline : ∀ c ∈ line, Text.isLineEnd c = false)
    (hquotes : r.Unquoted (line ++ ['\n'])) (h : r.scan line = none) (hc : Text.isLineEnd c) (more : List Char) :
    r.scan (line ++ c :: more) = none := by
  rw [scan_eq_reported, Option.map_eq_none_iff] at h ⊢
  rcases Scanner.torn_line (s := ⟨line, 1, true⟩) hr.linewise hline (scan_eq_none_iff.mp h) with
    ⟨hnone, mend, hmend⟩ | hbreaks
  · have hsome : (r.scan (line ++ ['\n'] ++ mend)).isSome := by
      rw [isSome_scan, List.append_assoc]
      exact Option.isSome_iff_exists.mpr ⟨_, scan_eq_some_iff.mpr ⟨hmend, rfl⟩⟩
    have hsome' := hquotes mend hsome
    have hnone' : r.withBlanks.scan (line ++ ['\n']) = none := scan_eq_none_iff.mpr hnone
    rw [isSome_scan, hnone'] at hsome'
    cases hsome'
  · exact scan_eq_none_iff.mpr (hbreaks c more hc)

/-- A carriage return in front of each line feed changes nothing, if no line feed stands in quotes. -/
theorem scan_withReturns (hr : r.EndsWords) (hreturn : '\r' ∉ cs)
    (hquotes : ∀ before after, cs = before ++ '\n' :: after → r.Unquoted (before ++ ['\n'])) :
    r.scan (Text.withReturns cs) = r.scan cs := by
  induction cs using Text.line_induction with
  | last cs hmem => rw [Text.withReturns_of_not_mem hmem]
  | line line rest hmem ih =>
    simp only [List.mem_append, List.mem_cons, not_or] at hreturn
    have hline : ∀ c ∈ line, Text.isLineEnd c = false := by
      intro c hc
      rw [Bool.eq_false_iff]
      intro hend
      rcases eq_of_isLineEnd hend with rfl | rfl
      · exact hmem hc
      · exact hreturn.1 hc
    rw [Text.withReturns_line hmem]
    cases h : r.scan line with
    | none =>
      have htorn := fun {c : Char} => scan_torn_line (c := c) hr hline (hquotes line rest rfl) h
      rw [List.append_assoc, List.singleton_append, htorn rfl, htorn rfl]
    | some toks =>
      have hfeed := scan_line hr hline h (.inl rfl)
      have hreturned := scan_line hr hline h (.inr rfl) (Text.withReturns rest)
      have hrest : r.scan (Text.withReturns rest) = r.scan rest := by
        refine ih hreturn.2.2 fun before after heq more hsome => ?_
        -- The line in front can be scanned, so quotes that are open behind it are open in the whole text.
        have hall := hquotes (line ++ '\n' :: before) after (by rw [heq, List.append_assoc, List.cons_append]) more
        simp only [List.append_assoc, List.cons_append, List.nil_append] at hall hfeed hsome
        rw [hfeed, hfeed, Option.isSome_map, Option.isSome_map] at hall
        exact hall hsome
      simp only [List.append_assoc, List.cons_append, List.nil_append] at hfeed hreturned ⊢
      rw [hfeed, hreturned, hrest]

end LexRules

end Settings
