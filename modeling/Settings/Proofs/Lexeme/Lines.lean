import Settings.Proofs.Lexeme.Tape

/-! # Scanning line after line

A scan takes no lexeme across the end of a line, so a text may be scanned in parts that meet at one. The parts have the
lexemes of the whole, but for a carriage return and a line feed that come together where the parts meet. This holds of
the dialects that report their blanks. -/

namespace Settings

variable {r : LexRules} {c q : Char} {cs ds more rest text : List Char} {line line' : Nat} {boundary : Bool}

namespace Tape

variable {t u v : Tape} {l l' : Lexeme}

/-- The same tokens, on whatever lines, and a fault behind both or behind none. -/
structure Alike (t u : Tape) : Prop where
  tokens : t.tokens = u.tokens
  fault : t.fault? = none ↔ u.fault? = none

theorem Alike.cons (hl : l.token = l'.token) (h : t.Alike u) : (Tape.cons l t).Alike (.cons l' u) :=
  ⟨by rw [Tape.tokens, Tape.tokens, hl, h.tokens], h.fault⟩

/-- One list of tokens behind another. Two line ends that meet may have become one. -/
inductive Spliced : List Token → List Token → List Token → Prop
  | plain (as bs : List Token) : Spliced as bs (as ++ bs)
  | merged (as bs : List Token) : Spliced (as ++ [.eol]) (.eol :: bs) (as ++ .eol :: bs)

theorem Spliced.cons {as bs cs : List Token} (tok : Token) (h : Spliced as bs cs) :
    Spliced (tok :: as) bs (tok :: cs) := by
  cases h with
  | plain => exact .plain (tok :: as) bs
  | merged as bs => exact .merged (tok :: as) bs

/-- A tape whose tokens are those of two others, and which is torn if the second one is. -/
structure Joins (t u v : Tape) : Prop where
  tokens : Spliced t.tokens u.tokens v.tokens
  fault : v.fault? = none ↔ u.fault? = none

theorem Joins.cons (l : Lexeme) (h : Joins t u v) : Joins (.cons l t) u (.cons l v) :=
  ⟨h.tokens.cons l.token, h.fault⟩

end Tape

/-! ### Runs of characters -/

section Run
variable {p : Char → Bool}

theorem exists_run_append (h : (∃ c ∈ cs, p c = false) ∨ ∀ c ∈ more.head?, p c = false) :
    ∃ word rest, cs = word ++ rest ∧ (∀ c ∈ word, p c) ∧ (∀ c ∈ rest.head?, p c = false) ∧
      ∀ c ∈ (rest ++ more).head?, p c = false := by
  obtain ⟨word, rest, rfl, hall, hstop⟩ := exists_run p cs
  refine ⟨word, rest, rfl, hall, hstop, ?_⟩
  cases rest with
  | nil =>
    refine h.resolve_left ?_
    rintro ⟨c, hc, hpc⟩
    rw [List.append_nil] at hc
    exact absurd (hall c hc) (by simp [hpc])
  | cons c rest => exact hstop

theorem dropWhile_append (h : (∃ c ∈ cs, p c = false) ∨ ∀ c ∈ more.head?, p c = false) :
    (cs ++ more).dropWhile p = cs.dropWhile p ++ more := by
  obtain ⟨word, rest, rfl, hall, hstop, hstop'⟩ := exists_run_append h
  rw [List.append_assoc, dropWhile_run hall hstop', dropWhile_run hall hstop]

theorem takeWhile_append (h : (∃ c ∈ cs, p c = false) ∨ ∀ c ∈ more.head?, p c = false) :
    (cs ++ more).takeWhile p = cs.takeWhile p := by
  obtain ⟨word, rest, rfl, hall, hstop, hstop'⟩ := exists_run_append h
  rw [List.append_assoc, takeWhile_run hall hstop', takeWhile_run hall hstop]

end Run

theorem length_escapedFour_le (four : List Char) : (escapedFour four).length ≤ four.length + 1 := by
  unfold escapedFour
  split
  · simp
  · exact Nat.le_refl _

/-- A quoted text that is read ends with its quote, and what stands behind the quote does not count. What it reads as is
    no longer than what is written. -/
theorem exists_raw (h : readQuoted q cs = (some text, rest)) :
    ∃ raw, cs = raw ++ q :: rest ∧ text.length ≤ raw.length ∧
      ∀ more, readQuoted q (raw ++ q :: more) = (some text, more) := by
  fun_induction readQuoted q cs generalizing text with
  | case1 => cases h
  | case2 => cases h
  | case3 cs hend =>
    cases h
    refine ⟨[], rfl, Nat.le_refl 0, fun more => ?_⟩
    rw [List.nil_append, readQuoted_quote (by simpa using hend)]
  | case4 => cases h
  | case5 ds done rest' hread hend hq ih =>
    obtain ⟨hdone, rfl⟩ := Prod.mk.inj h
    obtain ⟨done, rfl, rfl⟩ := Option.map_eq_some_iff.mp hdone
    obtain ⟨raw, hraw, hle, hmore⟩ := ih hread
    have hfour : (ds.take 4).length = 4 := by
      have hlength := congrArg List.length hraw
      rw [List.length_drop, List.length_append, List.length_cons] at hlength
      rw [List.length_take]
      omega
    refine ⟨'\\' :: 'u' :: ds.take 4 ++ raw, ?_, ?_, fun more => ?_⟩
    · rw [List.append_assoc, ← hraw, List.cons_append, List.cons_append, List.take_append_drop]
    · have hescaped := length_escapedFour_le (ds.take 4)
      simp only [List.length_append, List.length_cons]
      omega
    · rw [List.append_assoc, readQuoted_four (Ne.symm hq) hfour, hmore]
      rfl
  | case6 e ds he done rest' hread hend hq ih =>
    obtain ⟨hdone, rfl⟩ := Prod.mk.inj h
    obtain ⟨done, rfl, rfl⟩ := Option.map_eq_some_iff.mp hdone
    obtain ⟨raw, rfl, hle, hmore⟩ := ih hread
    refine ⟨'\\' :: e :: raw, rfl, Nat.succ_le_succ (Nat.le_succ_of_le hle), fun more => ?_⟩
    rw [List.cons_append, List.cons_append, readQuoted_escape (Ne.symm hq) he, hmore]
    rfl
  | case7 c ds hend hq hb done rest' hread ih =>
    obtain ⟨hdone, rfl⟩ := Prod.mk.inj h
    obtain ⟨done, rfl, rfl⟩ := Option.map_eq_some_iff.mp hdone
    obtain ⟨raw, rfl, hle, hmore⟩ := ih hread
    refine ⟨c :: raw, rfl, Nat.succ_le_succ hle, fun more => ?_⟩
    rw [List.cons_append, readQuoted_char (by simpa using hend) hq hb, hmore]
    rfl

theorem readQuoted_append (h : readQuoted q cs = (some text, rest)) (more : List Char) :
    readQuoted q (cs ++ more) = (some text, rest ++ more) ∧ ∃ pre, cs = pre ++ q :: rest := by
  obtain ⟨raw, rfl, -, hraw⟩ := exists_raw h
  refine ⟨?_, raw, rfl⟩
  rw [List.append_assoc]
  exact hraw (rest ++ more)

/-- A text ends with the end of a line. -/
def EndsLine (cs : List Char) : Prop := ∃ c ∈ cs.getLast?, Text.isLineEnd c

/-- A text is empty or starts with the end of a line. -/
def AtLineEnd (cs : List Char) : Prop := ∀ c ∈ cs.head?, Text.isLineEnd c

theorem EndsLine.append {c : Char} {pre rest : List Char} (h : EndsLine (pre ++ c :: rest)) :
    rest = [] ∧ Text.isLineEnd c ∨ EndsLine rest := by
  obtain ⟨d, hd, hend⟩ := h
  rcases List.eq_nil_or_concat rest with rfl | ⟨cs, e, rfl⟩
  · rw [List.getLast?_concat] at hd
    cases hd
    exact .inl ⟨rfl, hend⟩
  · rw [List.concat_eq_append, ← List.cons_append, ← List.append_assoc, List.getLast?_concat] at hd
    cases hd
    exact .inr ⟨d, by rw [List.concat_eq_append, List.getLast?_concat]; rfl, hend⟩

theorem eq_of_isLineEnd (h : Text.isLineEnd c) : c = '\n' ∨ c = '\r' := by
  rwa [Text.isLineEnd, Bool.or_eq_true, beq_iff_eq, beq_iff_eq] at h

theorem not_blank_of_isLineEnd (h : Text.isLineEnd c) : Text.isBlank c = false := by
  rcases eq_of_isLineEnd h with rfl | rfl
  · decide
  · decide

namespace LexRules

/-- Blanks are reported, and no word holds a line end. -/
structure Linewise (r : LexRules) : Prop where
  blanks : r.blanks
  words : ∀ c, Text.isLineEnd c → r.isWordChar c = false

theorem linewise_hocon : LexRules.hocon.Linewise := by
  refine ⟨rfl, fun c hc => ?_⟩
  rcases eq_of_isLineEnd hc with rfl | rfl
  · decide
  · decide

end LexRules

namespace Scanner

variable {s s' : Scanner} {l : Lexeme}

/-- The scan with more text behind what is left to it. -/
def append (s : Scanner) (more : List Char) : Scanner := { s with rest := s.rest ++ more }

/-- A lexeme and the scan behind it, without their lines. -/
def sight : Except Fault Lexeme × Scanner → Option (Token × List Char × Bool)
  | (.ok l, s) => some (l.token, s.rest, s.boundary)
  | (.error _, _) => none

theorem skip_of_blanks (hr : r.blanks) (s : Scanner) :
    s.skip r =
      if s.boundary && r.startsComment s.rest then { s with rest := s.rest.dropWhile (!Text.isLineEnd ·) } else s := by
  simp [skip, hr]

theorem skip_eq_with (hr : r.blanks) (s : Scanner) : s.skip r = { s with rest := (s.skip r).rest } := by
  rw [skip_of_blanks hr]
  split
  · rfl
  · rfl

theorem sight_next (hr : r.blanks) (cs : List Char) (boundary : Bool) (line line' : Nat) :
    sight ((⟨cs, line, boundary⟩ : Scanner).next r) = sight ((⟨cs, line', boundary⟩ : Scanner).next r) := by
  have hread : ∀ cs,
      sight ((⟨cs, line, boundary⟩ : Scanner).read r) = sight ((⟨cs, line', boundary⟩ : Scanner).read r) := by
    intro cs
    cases cs with
    | nil => rfl
    | cons c cs =>
      simp only [read]
      repeat' split
      all_goals rfl
  rw [next, next, skip_of_blanks hr, skip_of_blanks hr]
  split
  · exact hread _
  · exact hread _

/-- On another line a text has the same tokens. -/
theorem tape_line (hr : r.blanks) (cs : List Char) (boundary : Bool) (line line' : Nat) :
    ((⟨cs, line, boundary⟩ : Scanner).tape r).Alike ((⟨cs, line', boundary⟩ : Scanner).tape r) := by
  induction hn : cs.length using Nat.strongRecOn generalizing cs boundary line line' with
  | ind n ih =>
    have hsight := sight_next hr cs boundary line line'
    rw [tape_eq, tape_eq]
    rcases hnext : (⟨cs, line, boundary⟩ : Scanner).next r with ⟨_ | l, rest, line₁, boundary₁⟩ <;>
      rcases hnext' : (⟨cs, line', boundary⟩ : Scanner).next r with ⟨_ | l', rest', line₂, boundary₂⟩ <;>
      rw [hnext, hnext'] at hsight
    · exact ⟨rfl, nofun, nofun⟩
    · cases hsight
    · cases hsight
    · simp only [sight, Option.some.injEq, Prod.mk.injEq] at hsight
      obtain ⟨htok, rfl, rfl⟩ := hsight
      simp only [← htok]
      split
      · exact ⟨rfl, Iff.rfl⟩
      · next heof => exact .cons htok (ih _ (hn ▸ length_next_lt hnext heof) rest boundary₁ line₁ line₂ rfl)

theorem startsComment_of_lineEnd (h : AtLineEnd more) : r.startsComment more = false := by
  unfold LexRules.startsComment
  split
  · exact absurd (h '#' rfl) (by decide)
  · exact absurd (h '/' rfl) (by decide)
  · rfl

theorem skip_of_lineEnd (hr : r.blanks) (h : AtLineEnd more) :
    (⟨more, line, boundary⟩ : Scanner).skip r = ⟨more, line, boundary⟩ := by
  rw [skip_of_blanks hr, startsComment_of_lineEnd h, Bool.and_false]
  rfl

theorem tape_lineEnd (hr : r.blanks) (h : AtLineEnd more) (boundary' : Bool) :
    (⟨more, line, boundary⟩ : Scanner).tape r = (⟨more, line, boundary'⟩ : Scanner).tape r := by
  cases more with
  | nil => rw [tape_nil, tape_nil]
  | cons c cs =>
    apply tape_congr
    rw [next, next, skip_of_lineEnd hr h, skip_of_lineEnd hr h]
    rcases eq_of_isLineEnd (h c rfl) with rfl | rfl
    · rfl
    · rfl

/-! ### Lexemes in front of more text -/

/-- The text that is left ends with a line end, or what comes behind it starts with one. -/
def Parted (cs more : List Char) : Prop := AtLineEnd more ∨ EndsLine cs

theorem Parted.stops {p : Char → Bool} (hp : ∀ d, Text.isLineEnd d → p d = false) (h : Parted (c :: cs) more)
    (hc : p c) : (∃ d ∈ cs, p d = false) ∨ ∀ d ∈ more.head?, p d = false := by
  rcases h with h | ⟨d, hd, hend⟩
  · exact .inr fun d hd => hp d (h d hd)
  · rcases List.mem_cons.mp (List.mem_of_getLast? hd) with rfl | hd
    · exact absurd hc (by simp [hp d hend])
    · exact .inl ⟨d, hd, hp d hend⟩

theorem exists_last {p : Char → Bool} (hc : p c) (cs : List Char) :
    ∃ pre d, c :: cs = pre ++ d :: cs.dropWhile p ∧ p d := by
  induction cs generalizing c with
  | nil => exact ⟨[], c, rfl, hc⟩
  | cons d cs ih =>
    cases hd : p d with
    | false => exact ⟨[], c, by rw [List.dropWhile_cons_of_neg (by simp [hd])]; rfl, hc⟩
    | true =>
      obtain ⟨pre, e, heq, he⟩ := ih hd
      exact ⟨c :: pre, e, by rw [List.dropWhile_cons_of_pos hd, heq]; rfl, he⟩

/-- What is left behind a carriage return: a line feed belongs to it. -/
def behindReturn (cs : List Char) : List Char := if cs.head? = some '\n' then cs.tail else cs

theorem exists_return (cs : List Char) : ∃ pre c, '\r' :: cs = pre ++ c :: behindReturn cs := by
  rcases cs with _ | ⟨d, ds⟩
  · exact ⟨[], '\r', rfl⟩
  · by_cases hd : d = '\n'
    · exact ⟨['\r'], d, by simp [behindReturn, hd]⟩
    · exact ⟨[], '\r', by simp [behindReturn, hd]⟩

theorem behindReturn_append (cs more : List Char) :
    behindReturn (cs ++ more) = behindReturn cs ++ more ∨
      cs = [] ∧ ∃ ds, more = '\n' :: ds ∧ behindReturn more = ds := by
  rcases cs with _ | ⟨c, cs⟩
  · rcases more with _ | ⟨d, ds⟩
    · exact .inl rfl
    · by_cases hd : d = '\n'
      · exact .inr ⟨rfl, ds, by rw [hd], if_pos (congrArg some hd)⟩
      · exact .inl (if_neg fun h => hd (Option.some.inj h))
  · by_cases hc : c = '\n'
    · exact .inl (by simp [behindReturn, hc])
    · exact .inl (by simp [behindReturn, hc])

/-- The characters of a lexeme end with a line end only if the lexeme is one. More text behind them makes no difference,
    except that a line feed is taken together with a carriage return in front of it. -/
theorem read_split (hr : r.Linewise) (h : s.read r = (.ok l, s')) (heof : l.token ≠ .eof) :
    (∃ pre c, s.rest = pre ++ c :: s'.rest ∧ (Text.isLineEnd c → l.token = .eol ∧ s'.boundary)) ∧
      ∀ more, Parted s.rest more →
        (s.append more).read r = (.ok l, s'.append more) ∨
          s.rest = ['\r'] ∧ l.token = .eol ∧ s'.rest = [] ∧ s'.boundary ∧
            ∃ ds, more = '\n' :: ds ∧ (s.append more).read r = (.ok l, { s' with rest := ds }) := by
  obtain ⟨_ | ⟨c, cs⟩, line, boundary⟩ := s
  · cases h
    exact absurd rfl heof
  simp only [append, List.cons_append]
  by_cases hlf : c = '\n'
  · simp only [read, if_pos hlf] at h ⊢
    cases h
    exact ⟨⟨[], c, rfl, fun _ => ⟨rfl, rfl⟩⟩, fun more _ => .inl rfl⟩
  by_cases hcr : c = '\r'
  · subst hcr
    cases h
    obtain ⟨pre, d, heq⟩ := exists_return cs
    refine ⟨⟨pre, d, heq, fun _ => ⟨rfl, rfl⟩⟩, fun more _ => ?_⟩
    have hread : (⟨'\r' :: (cs ++ more), line, boundary⟩ : Scanner).read r =
        (.ok ⟨line, .eol⟩, ⟨behindReturn (cs ++ more), line + 1, true⟩) := rfl
    rw [hread]
    rcases behindReturn_append cs more with heq | ⟨rfl, ds, rfl, hds⟩
    · exact .inl (by rw [heq]; rfl)
    · exact .inr ⟨rfl, rfl, rfl, rfl, ds, rfl, rfl⟩
  have hend : Text.isLineEnd c = false := by simp [Text.isLineEnd, hlf, hcr]
  -- The other lexemes are of one character, of quotes, or of a run of characters that a line end stops.
  have hrun : ∀ {p : Char → Bool}, (∀ d, Text.isLineEnd d → p d = false) → p c →
      ∃ pre d, c :: cs = pre ++ d :: cs.dropWhile p ∧ Text.isLineEnd d = false := by
    intro p hp hc
    obtain ⟨pre, d, heq, hd⟩ := exists_last hc cs
    exact ⟨pre, d, heq, Bool.eq_false_iff.mpr fun he => by simp [hp d he] at hd⟩
  by_cases hblank : Text.isBlank c
  · simp only [read, if_neg hlf, if_neg hcr, if_pos hblank] at h ⊢
    cases h
    obtain ⟨pre, d, heq, hd⟩ := hrun (fun d => not_blank_of_isLineEnd) hblank
    refine ⟨⟨pre, d, heq, fun he => absurd he (by simp [hd])⟩, fun more hm => ?_⟩
    rw [dropWhile_append (hm.stops (fun d => not_blank_of_isLineEnd) hblank)]
    exact .inl rfl
  by_cases hcontrol : Text.isControl c
  · simp only [read, if_neg hlf, if_neg hcr, if_neg hblank, if_pos hcontrol] at h
    cases h
  by_cases hquote : c = '"' ∨ c = '\''
  · simp only [read, if_neg hlf, if_neg hcr, if_neg hblank, if_neg hcontrol, if_pos hquote] at h ⊢
    split at h
    · next hread =>
      cases h
      obtain ⟨pre, hpre⟩ := (readQuoted_append hread []).2
      refine ⟨⟨c :: pre, c, by rw [hpre]; rfl, fun he => absurd he (by simp [hend])⟩, fun more _ => ?_⟩
      rw [(readQuoted_append hread more).1]
      exact .inl rfl
    · cases h
  simp only [read, if_neg hlf, if_neg hcr, if_neg hblank, if_neg hcontrol, if_neg hquote] at h ⊢
  by_cases hword : r.isWordChar c
  · rw [if_pos hword] at h
    cases h
    obtain ⟨pre, d, heq, hd⟩ := hrun hr.words hword
    refine ⟨⟨pre, d, heq, fun he => absurd he (by simp [hd])⟩, fun more hm => ?_⟩
    have hstops := hm.stops hr.words hword
    rw [if_pos hword, dropWhile_append hstops, takeWhile_append hstops]
    exact .inl rfl
  · rw [if_neg hword] at h
    cases h
    refine ⟨⟨[], c, rfl, fun he => absurd he (by simp [hend])⟩, fun more _ => ?_⟩
    rw [if_neg hword]
    exact .inl rfl

theorem Parted.dropWhile (h : Parted cs more) :
    (cs ++ more).dropWhile (!Text.isLineEnd ·) = cs.dropWhile (!Text.isLineEnd ·) ++ more := by
  apply dropWhile_append
  rcases h with h | ⟨c, hc, hend⟩
  · exact .inr fun c hc => by simp [h c hc]
  · exact .inl ⟨c, List.mem_of_getLast? hc, by simp [hend]⟩

theorem startsComment_cons :
    r.startsComment (c :: cs) =
      (c == '#' && r.hashComments || c == '/' && cs.head? == some '/' && r.slashComments) := by
  unfold LexRules.startsComment
  split
  · next heq =>
    cases heq
    simp
  · next heq =>
    cases heq
    simp
  · next hhash hslash =>
    have hc : c ≠ '#' := fun hc => hhash cs (by rw [hc])
    have hcs : c = '/' → cs.head? ≠ some '/' := by
      rintro rfl hd
      obtain ⟨ds, rfl⟩ := List.head?_eq_some_iff.mp hd
      exact hslash ds rfl
    by_cases hd : c = '/'
    · simp [hc, hcs hd]
    · simp [hc, hd]

theorem startsComment_append (hne : cs ≠ []) (h : cs = ['/'] → more.head? ≠ some '/') :
    r.startsComment (cs ++ more) = r.startsComment cs := by
  rcases cs with _ | ⟨c, _ | ⟨d, cs⟩⟩
  · exact absurd rfl hne
  · rw [List.singleton_append, startsComment_cons, startsComment_cons]
    by_cases hc : c = '/'
    · simp [hc, h (congrArg ([·]) hc)]
    · simp [hc]
  · rw [List.cons_append, List.cons_append, startsComment_cons, startsComment_cons]
    rfl

theorem Parted.startsComment (hne : cs ≠ []) (h : Parted cs more) :
    r.startsComment (cs ++ more) = r.startsComment cs := by
  refine startsComment_append hne ?_
  rintro rfl hmore
  rcases h with h | ⟨d, hd, hend⟩
  · exact absurd (h '/' hmore) (by decide)
  · cases hd
    exact absurd hend (by decide)

theorem skip_append (hr : r.blanks) (hne : s.rest ≠ []) (hm : Parted s.rest more) :
    (s.append more).skip r = (s.skip r).append more := by
  rw [skip_of_blanks hr, skip_of_blanks hr, append, hm.startsComment hne, hm.dropWhile]
  split
  · rfl
  · rfl

/-- A comment is left out up to the end of its line, which stays. -/
theorem endsLine_skip (hr : r.blanks) (h : EndsLine s.rest) : EndsLine (s.skip r).rest := by
  rw [skip_of_blanks hr]
  split
  · obtain ⟨c, hc, hend⟩ := h
    obtain ⟨cs, hcs⟩ := List.getLast?_eq_some_iff.mp hc
    refine ⟨c, ?_, hend⟩
    rw [hcs, dropWhile_append (.inr fun d hd => by cases hd; simp [hend])]
    exact List.getLast?_concat
  · exact h

theorem Parted.skip (hr : r.blanks) (hm : Parted s.rest more) : Parted (s.skip r).rest more :=
  hm.imp_right (endsLine_skip hr)

/-! ### Texts in parts -/

/-- Where a scan is done with what is left to it, `more` starts a line, or it starts with the end of one. -/
def Meets (s : Scanner) (more : List Char) : Prop := Parted s.rest more ∨ s.rest = [] ∧ s.boundary

theorem rest_of_read_eof (h : s.read r = (.ok l, s')) (heof : l.token = .eof) : s.rest = [] := by
  obtain ⟨_ | ⟨c, cs⟩, line, boundary⟩ := s
  · rfl
  · simp only [read] at h
    repeat' split at h
    all_goals
      cases h
      try cases heof

theorem Meets.parted (hr : r.blanks) (hm : s.Meets more) (h : s.next r = (.ok l, s')) (heof : l.token ≠ .eof) :
    s.rest ≠ [] ∧ Parted s.rest more := by
  have hne : s.rest ≠ [] := by
    intro hnil
    obtain ⟨rest, line, boundary⟩ := s
    cases hnil
    rw [next, skip_of_lineEnd hr (by simp [AtLineEnd])] at h
    cases h
    exact heof rfl
  exact ⟨hne, hm.resolve_right fun h => hne h.1⟩

theorem skip_suffix (hr : r.blanks) (s : Scanner) : (s.skip r).rest <:+ s.rest := by
  rw [skip_of_blanks hr]
  split
  · exact List.dropWhile_suffix _
  · exact List.suffix_rfl

/-- One lexeme of a text in front of more text, with the comment that is left out in front of it. -/
theorem next_split (hr : r.Linewise) (hm : s.Meets more) (h : s.next r = (.ok l, s')) (heof : l.token ≠ .eof) :
    s'.Meets more ∧ s'.rest <:+ s.rest ∧
      ((s.append more).next r = (.ok l, s'.append more) ∨
        s.rest.getLast? = some '\r' ∧ l.token = .eol ∧ s'.rest = [] ∧ s'.boundary ∧
          ∃ ds, more = '\n' :: ds ∧ (s.append more).next r = (.ok l, { s' with rest := ds })) := by
  obtain ⟨hne, hm⟩ := hm.parted hr.blanks h heof
  obtain ⟨⟨pre, c, hrest, hend⟩, happend⟩ := read_split hr h heof
  have hsuffix := skip_suffix hr.blanks s
  refine ⟨?_, ?_, ?_⟩
  · rcases hm with hm | hm
    · exact .inl (.inl hm)
    · rcases (hrest ▸ endsLine_skip hr.blanks hm).append with ⟨hnil, hc⟩ | hm
      · exact .inr ⟨hnil, (hend hc).2⟩
      · exact .inl (.inr hm)
  · exact .trans ⟨pre ++ [c], by rw [hrest, List.append_assoc, List.singleton_append]⟩ hsuffix
  · rw [next, skip_append hr.blanks hne hm]
    refine (happend more (hm.skip hr.blanks)).imp_right fun h => ⟨?_, h.2⟩
    obtain ⟨pre, hpre⟩ := h.1 ▸ hsuffix
    rw [← hpre, List.getLast?_concat]

/-- Where a scan has come to the end of its own text, it goes on with the text behind. -/
theorem tape_append_of_done (hr : r.blanks) (hm : s.Meets more) (h : (s.skip r).rest = []) (line : Nat) :
    ((s.append more).tape r).Alike ((⟨more, line, true⟩ : Scanner).tape r) := by
  rcases hm with hm | ⟨hnil, hboundary⟩
  · have hstart : AtLineEnd more := (h ▸ hm.skip hr).resolve_right (by simp [EndsLine])
    have hnext : (s.append more).next r = (⟨more, s.line, s.boundary⟩ : Scanner).next r := by
      rw [next, next, skip_of_lineEnd hr hstart]
      by_cases hnil : s.rest = []
      · rw [append, hnil, List.nil_append, skip_of_lineEnd hr hstart]
      · rw [skip_append hr hnil hm, skip_eq_with hr, h]
        rfl
    rw [tape_congr hnext, tape_lineEnd hr hstart true]
    exact tape_line hr more true s.line line
  · rw [append, hnil, hboundary]
    exact tape_line hr more true s.line line

/-- The tape of two texts that meet at the end of a line. No line end is lost where the first text does not end with a
    carriage return. -/
theorem tape_split (hr : r.Linewise) (hm : s.Meets more) (h : (s.tape r).fault? = none) (line : Nat) :
    (s.tape r).Joins ((⟨more, line, true⟩ : Scanner).tape r) ((s.append more).tape r) ∧
      (s.rest.getLast? ≠ some '\r' →
        ((s.append more).tape r).tokens = (s.tape r).tokens ++ ((⟨more, line, true⟩ : Scanner).tape r).tokens) := by
  fun_induction Scanner.tape r s with
  | case1 => cases h
  | case2 s l s' hnext heof =>
    have halike := tape_append_of_done hr.blanks hm (rest_of_read_eof hnext heof) line
    exact ⟨⟨halike.tokens ▸ .plain [] _, halike.fault⟩, fun _ => halike.tokens⟩
  | case3 s l s' hnext heof ih =>
    obtain ⟨hm', hsuffix, hnext' | ⟨hreturn, htok, hrest, hboundary, ds, rfl, hnext'⟩⟩ := next_split hr hm hnext heof
    · obtain ⟨hjoins, hplain⟩ := ih hm' h
      rw [tape_of_next hnext' heof]
      refine ⟨hjoins.cons l, fun hlast => congrArg (l.token :: ·) (hplain fun hlast' => hlast ?_)⟩
      obtain ⟨pre, hpre⟩ := hsuffix
      rw [← hpre, List.getLast?_append, hlast', Option.some_or]
    -- The first text ends with a carriage return, and the second one starts with a line feed.
    · obtain ⟨rest, line', boundary⟩ := s'
      cases hrest
      cases hboundary
      have halike := tape_line hr.blanks ds true line' (line + 1)
      rw [tape_of_next hnext' heof, tape_nil, tape_eol]
      refine ⟨⟨?_, halike.fault⟩, fun hlast => absurd hreturn hlast⟩
      simp only [Tape.tokens, htok, halike.tokens]
      exact .merged [] _

theorem tape_joins (hr : r.Linewise) (hm : s.Meets more) (h : (s.tape r).fault? = none) (line : Nat) :
    (s.tape r).Joins ((⟨more, line, true⟩ : Scanner).tape r) ((s.append more).tape r) := (tape_split hr hm h line).1

/-! ### Line ends at the ends of a text -/

/-- The end of a line is a lexeme, wherever it stands. -/
theorem exists_tape_lineEnd (hr : r.blanks) (hc : Text.isLineEnd c) (cs : List Char) (line : Nat) (boundary : Bool) :
    ∃ s' : Scanner, (⟨c :: cs, line, boundary⟩ : Scanner).tape r = .cons ⟨line, .eol⟩ (s'.tape r) := by
  have hend : AtLineEnd (c :: cs) := by
    rintro d ⟨rfl⟩
    exact hc
  obtain ⟨s', hnext⟩ : ∃ s', (⟨c :: cs, line, boundary⟩ : Scanner).next r = (.ok ⟨line, .eol⟩, s') := by
    rw [next, skip_of_lineEnd hr hend]
    rcases eq_of_isLineEnd hc with rfl | rfl
    · exact ⟨_, rfl⟩
    · exact ⟨_, rfl⟩
  exact ⟨s', tape_of_next hnext (by simp)⟩

theorem tokens_of_lineEnd (hr : r.blanks) (h : AtLineEnd more) :
    ((⟨more, line, boundary⟩ : Scanner).tape r).tokens = [] ∨
      ∃ toks, ((⟨more, line, boundary⟩ : Scanner).tape r).tokens = .eol :: toks := by
  cases more with
  | nil =>
    rw [tape_nil]
    exact .inl rfl
  | cons c cs =>
    obtain ⟨s', htape⟩ := exists_tape_lineEnd hr (h c rfl) cs line boundary
    exact .inr ⟨(s'.tape r).tokens, by rw [htape, Tape.tokens]⟩

theorem tokens_of_endsLine (hr : r.Linewise) (hend : EndsLine s.rest) (h : (s.tape r).fault? = none) :
    ∃ toks, (s.tape r).tokens = toks ++ [.eol] := by
  fun_induction Scanner.tape r s with
  | case1 => cases h
  | case2 s l s' hnext heof =>
    have hskip := endsLine_skip hr.blanks hend
    rw [rest_of_read_eof hnext heof] at hskip
    exact absurd hskip (by simp [EndsLine])
  | case3 s l s' hnext heof ih =>
    obtain ⟨pre, c, hrest, hc⟩ := (read_split hr hnext heof).1
    rcases (hrest ▸ endsLine_skip hr.blanks hend).append with ⟨hnil, hcend⟩ | hend'
    · obtain ⟨rest, line, boundary⟩ := s'
      cases hnil
      rw [tape_nil, Tape.tokens, (hc hcend).1]
      exact ⟨[], rfl⟩
    · obtain ⟨toks, htoks⟩ := ih hend' h
      exact ⟨l.token :: toks, by rw [Tape.tokens, htoks, List.cons_append]⟩

end Scanner

end Settings
