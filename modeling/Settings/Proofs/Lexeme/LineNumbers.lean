import Settings.Proofs.Lexeme.Spans

/-! # The lines of lexemes

A scan counts the line breaks that it reads as lexemes. Those that it takes into a word, or in quotes behind a
backslash, it does not count. So a lexeme and a fault stand on the line that they name unless one in front of them
holds a line break, and otherwise they name a line too far up. -/

namespace Settings

variable {r : LexRules} {cs ds rest : List Char}

/-! ### Line breaks -/

namespace Text

/-- The line breaks of `cs` in front of `rest`. A carriage return and a line feed behind it are one line break, which is
    behind when the line feed is. -/
def breaks (rest : List Char) : List Char → Nat
  | [] => 0
  | c :: cs => (if c = '\n' ∨ c = '\r' ∧ (cs ++ rest).head? ≠ some '\n' then 1 else 0) + breaks rest cs

theorem breaks_append (rest cs ds : List Char) : breaks rest (cs ++ ds) = breaks (ds ++ rest) cs + breaks rest ds := by
  induction cs with
  | nil => rw [List.nil_append, breaks, Nat.zero_add]
  | cons c cs ih => rw [List.cons_append, breaks, breaks, ih, List.append_assoc, Nat.add_assoc]

theorem breaks_of_not_lineEnd (h : ∀ c ∈ cs, isLineEnd c = false) : breaks rest cs = 0 := by
  induction cs with
  | nil => rfl
  | cons c cs ih =>
    obtain ⟨hc, hcs⟩ := List.forall_mem_cons.mp h
    have hline : c ≠ '\n' ∧ c ≠ '\r' := by simpa [isLineEnd] using hc
    rw [breaks, ih hcs, if_neg (by simp [hline])]

end Text

/-! ### One lexeme -/

/-- The line that a lexeme or a lexical fault names. -/
def lineOf? : Except Fault Lexeme → Option Nat
  | .ok l => some l.line
  | .error (.lexical line _) => some line
  | .error _ => none

/-- Words and quoted texts, also those that are not closed: nothing else takes more than a blank run, a line break or a
    single character. -/
def mayHoldBreaks : Except Fault Lexeme → Bool
  | .ok ⟨_, .word _⟩ | .ok ⟨_, .quoted _ _⟩ | .error (.lexical _ (.openQuote _)) => true
  | _ => false

namespace Scanner

variable {s s' : Scanner}

theorem suffix_readQuoted (q : Char) (cs : List Char) : (readQuoted q cs).2 <:+ cs := by
  fun_induction readQuoted q cs with
  | case1 => exact List.suffix_rfl
  | case2 c cs | case3 cs => exact List.suffix_cons _ _
  | case4 => exact List.nil_suffix
  | case5 ds text rest hread _ _ ih =>
    rw [hread] at ih
    exact (ih.trans (List.drop_suffix 4 ds)).trans (List.suffix_append ['\\', 'u'] ds)
  | case6 e ds _ text rest hread _ _ ih =>
    rw [hread] at ih
    exact ih.trans (List.suffix_append ['\\', e] ds)
  | case7 c cs _ _ _ text rest hread ih =>
    rw [hread] at ih
    exact ih.trans (List.suffix_cons c cs)

theorem exists_dropped {p : Char → Bool} (hp : ∀ c, p c → Text.isLineEnd c = false) (cs : List Char) :
    ∃ run, cs = run ++ cs.dropWhile p ∧ ∀ c ∈ run, Text.isLineEnd c = false := by
  obtain ⟨run, rest, rfl, hall, hstop⟩ := exists_run p cs
  exact ⟨run, by rw [dropWhile_run hall hstop], fun c hc => hp c (hall c hc)⟩

theorem not_lineEnd_of_isBlank (c : Char) (h : Text.isBlank c) : Text.isLineEnd c = false := by
  cases hend : Text.isLineEnd c with
  | false => rfl
  | true => exact absurd h (by simp [not_blank_of_isLineEnd hend])

/-- What is left out in front of a lexeme ends no line. -/
theorem exists_skipped (r : LexRules) (s : Scanner) :
    ∃ skipped, s.rest = skipped ++ (s.skip r).rest ∧ (∀ c ∈ skipped, Text.isLineEnd c = false) ∧
      (s.skip r).line = s.line := by
  have hblanks : ∃ run, s.rest = run ++ (s.passBlanks r).rest ∧ (∀ c ∈ run, Text.isLineEnd c = false) ∧
      (s.passBlanks r).line = s.line := by
    unfold passBlanks
    split
    · obtain ⟨run, hrun, hall⟩ := exists_dropped not_lineEnd_of_isBlank s.rest
      exact ⟨run, hrun, hall, rfl⟩
    · exact ⟨[], rfl, List.forall_mem_nil _, rfl⟩
  rw [skip_eq_pass]
  obtain ⟨run, hrun, hall, hline⟩ := hblanks
  generalize s.passBlanks r = s₁ at hrun hline
  unfold passComment
  split
  · obtain ⟨comment, hcomment, hall'⟩ := exists_dropped (p := (!Text.isLineEnd ·)) (by simp) s₁.rest
    exact ⟨run ++ comment, by rw [List.append_assoc, ← hcomment, hrun], List.forall_mem_append.mpr ⟨hall, hall'⟩,
      hline⟩
  · exact ⟨run, hrun, hall, hline⟩

/-- A lexeme or a fault names the line of its scan, and the scan goes on to the next line exactly at a line break that
    is a lexeme. -/
theorem read_line (r : LexRules) (s : Scanner) :
    ∃ taken, s.rest = taken ++ (s.read r).2.rest ∧ lineOf? (s.read r).1 = some s.line ∧
      (s.read r).2.line + (if mayHoldBreaks (s.read r).1 then Text.breaks (s.read r).2.rest taken else 0) =
        s.line + Text.breaks (s.read r).2.rest taken := by
  obtain ⟨_ | ⟨c, cs⟩, line, boundary⟩ := s
  · exact ⟨[], rfl, rfl, rfl⟩
  by_cases hlf : c = '\n'
  · subst hlf
    exact ⟨['\n'], rfl, rfl, rfl⟩
  by_cases hcr : c = '\r'
  · subst hcr
    rcases cs with _ | ⟨d, cs⟩
    · exact ⟨['\r'], rfl, rfl, rfl⟩
    · by_cases hd : d = '\n'
      · subst hd
        exact ⟨['\r', '\n'], rfl, rfl, rfl⟩
      · refine ⟨['\r'], ?_, rfl, ?_⟩ <;> simp [read, hd, Text.breaks, mayHoldBreaks]
  have hend : Text.isLineEnd c = false := by simp [Text.isLineEnd, hlf, hcr]
  by_cases hblank : Text.isBlank c
  · obtain ⟨run, hrun, hall⟩ := exists_dropped not_lineEnd_of_isBlank cs
    simp only [read, if_neg hlf, if_neg hcr, if_pos hblank]
    have hall' : ∀ d ∈ c :: run, Text.isLineEnd d = false := List.forall_mem_cons.mpr ⟨hend, hall⟩
    exact ⟨c :: run, by rw [List.cons_append, ← hrun], rfl, by rw [Text.breaks_of_not_lineEnd hall']; rfl⟩
  by_cases hcontrol : Text.isControl c
  · simp only [read, if_neg hlf, if_neg hcr, if_neg hblank, if_pos hcontrol]
    exact ⟨[], rfl, rfl, rfl⟩
  by_cases hquote : c = '"' ∨ c = '\''
  · obtain ⟨raw, hraw⟩ := suffix_readQuoted c cs
    rw [read_quote hquote]
    rcases hread : readQuoted c cs with ⟨_ | text, rest⟩
    · rw [hread] at hraw
      exact ⟨c :: raw, by rw [List.cons_append, hraw], rfl, rfl⟩
    · rw [hread] at hraw
      exact ⟨c :: raw, by rw [List.cons_append, hraw], rfl, rfl⟩
  simp only [read, if_neg hlf, if_neg hcr, if_neg hblank, if_neg hcontrol, if_neg hquote]
  by_cases hword : r.isWordChar c
  · obtain ⟨run, hrun⟩ := List.dropWhile_suffix (l := cs) r.isWordChar
    rw [if_pos hword]
    exact ⟨c :: run, by rw [List.cons_append, hrun], rfl, rfl⟩
  · rw [if_neg hword]
    have hall : ∀ d ∈ [c], Text.isLineEnd d = false := List.forall_mem_singleton.mpr hend
    exact ⟨[c], rfl, rfl, by rw [Text.breaks_of_not_lineEnd hall]; rfl⟩

/-! ### A whole scan -/

/-- The scan behind `n` lexemes or faults. -/
def after (r : LexRules) (s : Scanner) : Nat → Scanner
  | 0 => s
  | n + 1 => (s.next r).2.after r n

/-- The characters of the next lexeme. -/
def taken (r : LexRules) (s : Scanner) : List Char :=
  (s.skip r).rest.take ((s.skip r).rest.length - (s.next r).2.rest.length)

/-- The line breaks inside of the next lexeme, if it is a word or a quoted text. -/
def breaksInside (r : LexRules) (s : Scanner) : Nat :=
  if mayHoldBreaks (s.next r).1 then Text.breaks (s.next r).2.rest (s.taken r) else 0

/-- The line breaks inside of the next `n` lexemes. -/
def breaksWithin (r : LexRules) (s : Scanner) : Nat → Nat
  | 0 => 0
  | n + 1 => s.breaksInside r + (s.next r).2.breaksWithin r n

theorem next_line (r : LexRules) (s : Scanner) :
    (s.skip r).rest = s.taken r ++ (s.next r).2.rest ∧ lineOf? (s.next r).1 = some s.line ∧
      (s.next r).2.line + s.breaksInside r = s.line + Text.breaks (s.next r).2.rest (s.taken r) := by
  obtain ⟨_, -, -, hline⟩ := exists_skipped r s
  obtain ⟨taken, hrest, hline', hbreaks⟩ := read_line r (s.skip r)
  have htaken : s.taken r = taken := by
    rw [Scanner.taken, next, hrest]
    simp
  rw [← hline, breaksInside, htaken]
  exact ⟨hrest, hline', hbreaks⟩

theorem breaksWithin_eq_zero_iff {n : Nat} :
    s.breaksWithin r n = 0 ↔ ∀ i < n, (s.after r i).breaksInside r = 0 := by
  induction n generalizing s with
  | zero => simp [breaksWithin]
  | succ n ih =>
    rw [breaksWithin, Nat.add_eq_zero_iff, ih]
    constructor
    · rintro ⟨hfirst, hrest⟩ (_ | i) hi
      · exact hfirst
      · exact hrest i (Nat.lt_of_succ_lt_succ hi)
    · intro h
      exact ⟨h 0 (Nat.succ_pos n), fun i hi => h (i + 1) (Nat.succ_lt_succ hi)⟩

/-- The scan counts all line breaks in front of a lexeme but those inside of the lexemes before. -/
theorem line_after (r : LexRules) (s : Scanner) (n : Nat) :
    ∃ before, s.rest = before ++ ((s.after r n).skip r).rest ∧
      (s.after r n).line + s.breaksWithin r n = s.line + Text.breaks ((s.after r n).skip r).rest before := by
  induction n generalizing s with
  | zero =>
    obtain ⟨skipped, hskipped, hall, -⟩ := exists_skipped r s
    exact ⟨skipped, hskipped, by rw [Text.breaks_of_not_lineEnd hall]; rfl⟩
  | succ n ih =>
    obtain ⟨skipped, hskipped, hall, -⟩ := exists_skipped r s
    obtain ⟨htaken, -, hline⟩ := next_line r s
    obtain ⟨before, hbefore, hcount⟩ := ih (s.next r).2
    refine ⟨skipped ++ s.taken r ++ before, ?_, ?_⟩
    · rw [after, List.append_assoc, ← hbefore, List.append_assoc, ← htaken, ← hskipped]
    · rw [after, breaksWithin, Text.breaks_append, Text.breaks_append, Text.breaks_of_not_lineEnd hall, ← hbefore]
      omega

/-- Each lexeme and each fault names a line that is too small by the number of the line breaks inside of the words and
    quoted texts in front of it, so the right one exactly if there are none. -/
theorem lineOf?_after (r : LexRules) (text : String) (n : Nat) :
    ∃ before line, text.toList = before ++ (((start text).after r n).skip r).rest ∧
      lineOf? (((start text).after r n).next r).1 = some line ∧
      line + (start text).breaksWithin r n = 1 + Text.breaks (((start text).after r n).skip r).rest before ∧
      (line = 1 + Text.breaks (((start text).after r n).skip r).rest before ↔
        ∀ i < n, ((start text).after r i).breaksInside r = 0) := by
  obtain ⟨before, htext, hcount⟩ := line_after r (start text) n
  replace hcount : ((start text).after r n).line + (start text).breaksWithin r n =
      1 + Text.breaks (((start text).after r n).skip r).rest before := hcount
  obtain ⟨-, hline, -⟩ := next_line r ((start text).after r n)
  refine ⟨before, _, htext, hline, hcount, ?_⟩
  rw [← breaksWithin_eq_zero_iff]
  constructor
  · intro h
    omega
  · intro h
    rw [h] at hcount
    exact hcount

/-- Behind a line feed that a backslash has taken into a quoted text. -/
theorem lineOf?_escapedBreak :
    "\"\\\n\" a".toList = ['"', '\\', '\n', '"', ' '] ++ (((start "\"\\\n\" a").after .tree 1).skip .tree).rest ∧
    (((start "\"\\\n\" a").after .tree 1).next .tree).1.toOption = some ⟨1, .word "a"⟩ ∧
    1 + Text.breaks (((start "\"\\\n\" a").after .tree 1).skip .tree).rest ['"', '\\', '\n', '"', ' '] = 2 := by
  decide +kernel

end Scanner

end Settings
