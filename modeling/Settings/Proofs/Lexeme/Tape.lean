import Settings.Proofs.Lexeme.Quoting

/-! # What a scan reads first

The tape of a text, unrolled by one lexeme. What the lexeme is depends on the character in front: a blank, a
line end or a quote, or else a solid character, which a word starts with or which stands alone. -/

namespace Settings

variable {r : LexRules} {c : Char} {cs word rest text : List Char} {line : Nat} {boundary : Bool}

/-! ### Characters -/

/-- Neither a control character nor a space, no quote, and no start of a comment. -/
def Solid (c : Char) : Prop := Text.isControl c = false ∧ c ∉ [' ', '"', '\'', '#', '/']

instance : DecidablePred Solid := fun c => by unfold Solid; infer_instance

theorem Solid.not_mem (h : Solid c) {d : Char} (hd : d ∈ [' ', '"', '\'', '#', '/']) : c ≠ d :=
  fun e => h.2 (e ▸ hd)

theorem Solid.not_blank (h : Solid c) : Text.isBlank c = false := by
  have htab : c ≠ '\t' := fun e => absurd (e ▸ h.1) (by decide)
  simp [Text.isBlank, h.not_mem (d := ' ') (by decide), htab]

theorem Solid.not_lineEnd (h : Solid c) : c ≠ '\n' ∧ c ≠ '\r' :=
  ⟨fun e => absurd (e ▸ h.1) (by decide), fun e => absurd (e ▸ h.1) (by decide)⟩

theorem le_of_inRanges {ranges : List (Nat × Nat)} {least n : Nat} (hall : ∀ p ∈ ranges, least ≤ p.1)
    (h : Text.inRanges ranges n) : least ≤ n := by
  simp only [Text.inRanges, List.any_eq_true, Bool.and_eq_true, decide_eq_true_eq] at h
  obtain ⟨p, hp, hlo, -⟩ := h
  exact Nat.le_trans (hall p hp) hlo

theorem solid_of_le (h : 0xA0 ≤ c.toNat) : Solid c := by
  refine ⟨?_, fun hmem => ?_⟩
  · simp only [Text.isControl, Bool.or_eq_false_iff, Bool.and_eq_false_iff, decide_eq_false_iff_not]
    omega
  · simp only [List.mem_cons, List.not_mem_nil, or_false] at hmem
    rcases hmem with rfl | rfl | rfl | rfl | rfl
    all_goals exact absurd h (by decide)

/-- Letters and numbers of any script are solid. -/
theorem solid_of_isAlphanumeric (h : Text.isAlphanumeric c) : Solid c := by
  by_cases hascii : c.toNat < 0x80
  · have hall : ∀ n < 0x80, (Char.ofNat n).isAlphanum → Solid (Char.ofNat n) := by decide +kernel
    rw [Text.isAlphanumeric_of_ascii hascii] at h
    simpa using hall c.toNat hascii (by simpa using h)
  · simp only [Text.isAlphanumeric, Text.isAlphabetic, Text.isNumeric, if_neg hascii, Bool.or_eq_true] at h
    rcases h with h | h
    · exact solid_of_le (le_of_inRanges (by decide +kernel) h)
    · exact solid_of_le (le_of_inRanges (by decide +kernel) h)

theorem solid_of_isWordChar (hr : ∀ d ∈ r.wordChars, Solid d) (h : r.isWordChar c) : Solid c := by
  simp only [LexRules.isWordChar, Bool.or_eq_true, List.contains_iff_mem] at h
  rcases h with h | h
  · exact solid_of_isAlphanumeric h
  · exact hr c h

/-! ### Runs of characters -/

section Run
variable {p : Char → Bool}

theorem dropWhile_run (hall : ∀ c ∈ word, p c) (hstop : ∀ c ∈ rest.head?, p c = false) :
    (word ++ rest).dropWhile p = rest := by
  rw [List.dropWhile_append_of_pos hall]
  cases rest with
  | nil => rfl
  | cons c cs => rw [List.dropWhile_cons_of_neg (by simp [hstop c rfl])]

theorem takeWhile_run (hall : ∀ c ∈ word, p c) (hstop : ∀ c ∈ rest.head?, p c = false) :
    (word ++ rest).takeWhile p = word := by
  rw [List.takeWhile_append_of_pos hall]
  cases rest with
  | nil => exact List.append_nil word
  | cons c cs => rw [List.takeWhile_cons_of_neg (by simp [hstop c rfl]), List.append_nil]

/-- Each text is a run of characters of a kind, and a rest that does not go on with it. -/
theorem exists_run (p : Char → Bool) (cs : List Char) :
    ∃ word rest, cs = word ++ rest ∧ (∀ c ∈ word, p c) ∧ ∀ c ∈ rest.head?, p c = false := by
  induction cs with
  | nil => exact ⟨[], [], rfl, nofun, nofun⟩
  | cons c cs ih =>
    cases hc : p c with
    | false => exact ⟨[], c :: cs, rfl, nofun, by simpa using hc⟩
    | true =>
      obtain ⟨word, rest, hcs, hall, hstop⟩ := ih
      exact ⟨c :: word, rest, by rw [hcs, List.cons_append], List.forall_mem_cons.mpr ⟨hc, hall⟩, hstop⟩

theorem stops_append {more : List Char} (hstop : ∀ c ∈ rest.head?, p c = false)
    (hmore : ∀ c ∈ more.head?, p c = false) : ∀ c ∈ (rest ++ more).head?, p c = false := by
  cases rest with
  | nil => exact hmore
  | cons c rest => exact hstop

/-- A text by its runs: it is empty, or a character of another kind is in front, or a whole run is. -/
theorem run_induction (p : Char → Bool) {motive : List Char → Prop} (nil : motive [])
    (lone : ∀ c rest, p c = false → motive rest → motive (c :: rest))
    (run : ∀ word rest, word ≠ [] → (∀ c ∈ word, p c) → (∀ c ∈ rest.head?, p c = false) → motive rest →
      motive (word ++ rest)) (cs : List Char) : motive cs := by
  induction hn : cs.length using Nat.strongRecOn generalizing cs with
  | ind n ih =>
    obtain ⟨word, rest, rfl, hall, hstop⟩ := exists_run p cs
    by_cases hword : word = []
    · subst hword
      cases rest with
      | nil => exact nil
      | cons c rest => exact lone c rest (hstop c rfl) (ih rest.length (by simp [← hn]) rest rfl)
    · have hlt : rest.length < n := by
        rw [← hn, List.length_append]
        exact Nat.lt_add_of_pos_left (List.length_pos_iff.mpr hword)
      exact run word rest hword hall hstop (ih rest.length hlt rest rfl)

end Run

/-! ### One lexeme -/

namespace Scanner

theorem tape_eq (s : Scanner) :
    s.tape r =
      match s.next r with
      | (.error e, _) => .torn e
      | (.ok l, s') => if l.token = .eof then .ended l.line else .cons l (s'.tape r) := by
  rw [tape]
  split
  · next h => rw [h]
  · next h =>
    rw [h]
    rfl

theorem tape_congr {s s' : Scanner} (h : s.next r = s'.next r) : s.tape r = s'.tape r := by
  rw [tape_eq, h, ← tape_eq]

theorem tape_of_next {s s' : Scanner} {l : Lexeme} (h : s.next r = (.ok l, s')) (hl : l.token ≠ .eof) :
    s.tape r = .cons l (s'.tape r) := by
  rw [tape_eq, h]
  exact if_neg hl

/-- Where no blank is left out and no comment starts, the character in front belongs to the lexeme. -/
theorem skip_eq (hb : Text.isBlank c = false ∨ r.blanks) (hc : c ≠ '#' ∧ c ≠ '/') :
    (⟨c :: cs, line, boundary⟩ : Scanner).skip r = ⟨c :: cs, line, boundary⟩ := by
  have hstart : r.startsComment (c :: cs) = false := by
    unfold LexRules.startsComment
    split
    · next heq => exact absurd (List.cons.inj heq).1 hc.1
    · next heq => exact absurd (List.cons.inj heq).1 hc.2
    · rfl
  have hblank : (!r.blanks && Text.isBlank c) = false := by
    rcases hb with hb | hb
    · rw [hb, Bool.and_false]
    · rw [hb, Bool.not_true, Bool.false_and]
  simp [skip, hblank, hstart]

theorem next_eq (hb : Text.isBlank c = false ∨ r.blanks) (hc : c ≠ '#' ∧ c ≠ '/') :
    (⟨c :: cs, line, boundary⟩ : Scanner).next r = (⟨c :: cs, line, boundary⟩ : Scanner).read r := by
  rw [next, skip_eq hb hc]

theorem tape_nil : (⟨[], line, boundary⟩ : Scanner).tape r = .ended line := by
  have hnext : (⟨[], line, boundary⟩ : Scanner).next r = (.ok ⟨line, .eof⟩, ⟨[], line, boundary⟩) := by
    simp [next, skip, LexRules.startsComment, read]
  rw [tape_eq, hnext]
  rfl

theorem tape_eol :
    (⟨'\n' :: cs, line, boundary⟩ : Scanner).tape r = .cons ⟨line, .eol⟩ ((⟨cs, line + 1, true⟩ : Scanner).tape r) :=
  tape_of_next ((next_eq (.inl (by decide)) (by decide)).trans rfl) nofun

/-- A run of blanks is one lexeme where blanks are reported. -/
theorem tape_blank (hr : r.blanks) (hc : Text.isBlank c) :
    (⟨c :: cs, line, boundary⟩ : Scanner).tape r =
      .cons ⟨line, .blank⟩ ((⟨cs.dropWhile Text.isBlank, line, true⟩ : Scanner).tape r) := by
  refine tape_of_next ((next_eq (.inr hr) ?_).trans ?_) nofun
  · constructor
    all_goals
      rintro rfl
      exact absurd hc (by decide)
  · have hline : c ≠ '\n' ∧ c ≠ '\r' := by
      constructor
      all_goals
        rintro rfl
        exact absurd hc (by decide)
    simp [read, hline, hc]

/-- Where blanks are not reported, one in front makes no difference. -/
theorem tape_space (hr : r.blanks = false) :
    (⟨' ' :: cs, line, boundary⟩ : Scanner).tape r = (⟨cs, line, true⟩ : Scanner).tape r := by
  apply tape_congr
  have hspace : Text.isBlank ' ' = true := by decide
  have hskip : (⟨' ' :: cs, line, boundary⟩ : Scanner).skip r = (⟨cs, line, true⟩ : Scanner).skip r := by
    cases cs with
    | nil => simp [skip, hr, hspace]
    | cons c cs =>
      cases hc : Text.isBlank c with
      | true => simp [skip, hr, hspace, hc]
      | false => simp [skip, hr, hspace, hc]
  rw [next, next, hskip]

theorem tape_quoted {q : Char} (hq : q = '"' ∨ q = '\'') (h : readQuoted q cs = (some text, rest)) :
    (⟨q :: cs, line, boundary⟩ : Scanner).tape r =
      .cons ⟨line, .quoted q (String.ofList text)⟩ ((⟨rest, line, false⟩ : Scanner).tape r) := by
  have hfront : Text.isBlank q = false ∧ Text.isControl q = false ∧ q ≠ '#' ∧ q ≠ '/' ∧ q ≠ '\n' ∧ q ≠ '\r' := by
    rcases hq with rfl | rfl
    · decide
    · decide
  obtain ⟨hblank, hcontrol, hhash, hslash, hlf, hcr⟩ := hfront
  refine tape_of_next ((next_eq (.inl hblank) ⟨hhash, hslash⟩).trans ?_) nofun
  simp [read, hblank, hcontrol, hlf, hcr, hq, h]

theorem read_solid (hc : Solid c) :
    (⟨c :: cs, line, boundary⟩ : Scanner).read r =
      if r.isWordChar c then
        (.ok ⟨line, .word (String.ofList (c :: cs.takeWhile r.isWordChar))⟩,
          ⟨cs.dropWhile r.isWordChar, line, false⟩)
      else (.ok ⟨line, .char c⟩, ⟨cs, line, false⟩) := by
  have hquote : c ≠ '"' ∧ c ≠ '\'' := ⟨hc.not_mem (by decide), hc.not_mem (by decide)⟩
  simp [read, hc.not_lineEnd, hc.not_blank, hc.1, hquote]

theorem next_solid (hc : Solid c) :
    (⟨c :: cs, line, boundary⟩ : Scanner).next r = (⟨c :: cs, line, boundary⟩ : Scanner).read r :=
  next_eq (.inl hc.not_blank) ⟨hc.not_mem (by decide), hc.not_mem (by decide)⟩

theorem tape_char (hc : Solid c) (hw : r.isWordChar c = false) :
    (⟨c :: cs, line, boundary⟩ : Scanner).tape r =
      .cons ⟨line, .char c⟩ ((⟨cs, line, false⟩ : Scanner).tape r) :=
  tape_of_next ((next_solid hc).trans ((read_solid hc).trans (if_neg (by simp [hw])))) nofun

theorem tape_word (hr : ∀ d ∈ r.wordChars, Solid d) (hne : word ≠ []) (hw : ∀ d ∈ word, r.isWordChar d)
    (hend : ∀ d ∈ rest.head?, r.isWordChar d = false) :
    (⟨word ++ rest, line, boundary⟩ : Scanner).tape r =
      .cons ⟨line, .word (String.ofList word)⟩ ((⟨rest, line, false⟩ : Scanner).tape r) := by
  cases word with
  | nil => exact absurd rfl hne
  | cons c cs =>
    obtain ⟨hc, hcs⟩ := List.forall_mem_cons.mp hw
    have hsolid := solid_of_isWordChar hr hc
    rw [List.cons_append]
    refine tape_of_next ((next_solid hsolid).trans ?_) nofun
    rw [read_solid hsolid, if_pos hc, takeWhile_run hcs hend, dropWhile_run hcs hend]

end Scanner

/-! ### Tokens -/

/-- The tokens of a tape, without the end of the text. -/
def Tape.tokens : Tape → List Token
  | .ended _ | .torn _ => []
  | .cons l rest => l.token :: rest.tokens

theorem Scanner.eof_not_mem_tokens (r : LexRules) (s : Scanner) : Token.eof ∉ (s.tape r).tokens := by
  fun_induction Scanner.tape r s with
  | case1 => exact List.not_mem_nil
  | case2 => exact List.not_mem_nil
  | case3 s l s' hnext heof ih =>
    rw [Tape.tokens, List.mem_cons, not_or]
    exact ⟨Ne.symm heof, ih⟩

theorem Scanner.word_of_read {s s' : Scanner} {l : Lexeme} {w : String} (h : s.read r = (.ok l, s'))
    (hl : l.token = .word w) : ∀ ch ∈ w.toList, r.isWordChar ch = true := by
  obtain ⟨rest, line, boundary⟩ := s
  cases rest with
  | nil =>
    cases h
    cases hl
  | cons ch cs =>
    simp only [read] at h
    split at h
    · cases h
      cases hl
    split at h
    · cases h
      cases hl
    split at h
    · cases h
      cases hl
    split at h
    · cases h
    split at h
    · split at h
      · cases h
        cases hl
      · cases h
    split at h
    · next hword =>
      cases h
      cases hl
      intro d hd
      rw [String.toList_ofList] at hd
      rcases List.mem_cons.mp hd with rfl | hd
      · exact hword
      · exact List.all_eq_true.mp List.all_takeWhile d hd
    · cases h
      cases hl

/-- The words of a tape hold word characters only. -/
theorem Scanner.word_of_mem {s : Scanner} {l : Lexeme} {w : String} (h : l ∈ (s.tape r).lexemes)
    (hl : l.token = .word w) : ∀ ch ∈ w.toList, r.isWordChar ch = true := by
  fun_induction Scanner.tape r s with
  | case1 => cases h
  | case2 s l' s' hnext heof =>
    obtain rfl := List.mem_singleton.mp h
    cases hl
  | case3 s l' s' hnext heof ih =>
    rcases List.mem_cons.mp h with rfl | h
    · exact Scanner.word_of_read hnext hl
    · exact ih h

end Settings
