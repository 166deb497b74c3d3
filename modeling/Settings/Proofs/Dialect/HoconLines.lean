import Settings.Dialect.Hocon
import Settings.Proofs.Lexeme.Tape
import Settings.Proofs.Text.Cutting

/-! # Reading the lines of a HOCON document

Between two lines the reader holds nothing but the store and the open scopes. The lines that a renderer
writes take it from one such place to the next: a line that closes a scope, one that opens a scope, and one
that sets a key. -/

namespace Settings.Hocon

/-- Reading goes on over a text to its end and results in a store, whatever is included and on whatever line
    it starts. The text may start with a comment at a boundary only. -/
def YieldsFrom (boundary : Bool) (r : Reader) (cs : List Char) (s : Store) : Prop :=
  ∀ load line, (run load r ((⟨cs, line, boundary⟩ : Scanner).tape .hocon)).result = .ok s

/-- Reading goes on over a text, whether or not it starts at a boundary. -/
def Yields (r : Reader) (cs : List Char) (s : Store) : Prop := ∀ boundary, YieldsFrom boundary r cs s

/-- What reading on over a text results in, whatever that is. -/
def readOn (boundary : Bool) (r : Reader) (cs : List Char) (load : Nat → String → Watched Store) (line : Nat) :
    Except Fault Store :=
  (run load r ((⟨cs, line, boundary⟩ : Scanner).tape .hocon)).result

/-- The reader between two lines. -/
def between (s : Store) (scopes : List String) : Reader := ⟨s, scopes, "", "", 0, .key⟩

/-- A part of a key is read, and perhaps it may still turn out to be a directive. -/
def InKey (m : Mode) : Prop := m = .key ∨ m = .include

variable {r r' : Reader} {s t : Store} {scopes : List String} {c : Char} {cs cs' key : List Char} {m : Mode}
  {b b' : Bool} {tok : Token}

/-! ### One lexeme -/

theorem solid_hocon : ∀ c ∈ LexRules.hocon.wordChars, Solid c := by
  intro c hc
  rw [List.mem_singleton.mp hc]
  decide

theorem result_run_cons {load : Nat → String → Watched Store} {l : Lexeme} {tape : Tape}
    (h : (step load r l).result = .ok r') : (run load r (.cons l tape)).result = (run load r' tape).result := by
  rw [run, Noted.result_bind, h]
  rfl

theorem YieldsFrom.eol (hs : ∀ load line, (step load r ⟨line, .eol⟩).result = .ok r') (h : YieldsFrom true r' cs t) :
    Yields r ('\n' :: cs) t := fun _ load line => by
  rw [Scanner.tape_eol, result_run_cons (hs load line)]
  exact h load (line + 1)

theorem Yields.eol (hs : ∀ load line, (step load r ⟨line, .eol⟩).result = .ok r') (h : Yields r' cs t) :
    Yields r ('\n' :: cs) t := YieldsFrom.eol hs (h true)

theorem YieldsFrom.of_readOn (heq : readOn b r cs = readOn b' r' cs') (h : YieldsFrom b' r' cs' t) :
    YieldsFrom b r cs t := fun load line =>
  (congrFun (congrFun heq load) line).trans (h load line)

/-- A lexeme is taken, and reading goes on behind it. -/
theorem readOn_cons
    (htape : ∀ line, (⟨cs, line, b⟩ : Scanner).tape .hocon = .cons ⟨line, tok⟩ ((⟨cs', line, b'⟩ : Scanner).tape .hocon))
    (hs : ∀ load line, (step load r ⟨line, tok⟩).result = .ok r') : readOn b r cs = readOn b' r' cs' := by
  funext load line
  rw [readOn, htape, result_run_cons (hs load line)]
  rfl

theorem readOn_char (hc : Solid c) (hw : LexRules.hocon.isWordChar c = false)
    (hs : ∀ load line, (step load r ⟨line, .char c⟩).result = .ok r') :
    readOn b r (c :: cs) = readOn false r' cs :=
  readOn_cons (fun _ => Scanner.tape_char hc hw) hs

theorem readOn_word {word : List Char} (hne : word ≠ []) (hw : ∀ c ∈ word, LexRules.hocon.isWordChar c)
    (hend : ∀ c ∈ cs.head?, LexRules.hocon.isWordChar c = false)
    (hs : ∀ load line, (step load r ⟨line, .word (String.ofList word)⟩).result = .ok r') :
    readOn b r (word ++ cs) = readOn false r' cs :=
  readOn_cons (fun _ => Scanner.tape_word solid_hocon hne hw hend) hs

theorem readOn_quoted {q : Char} {raw text : List Char} (hq : q = '"' ∨ q = '\'')
    (hread : readQuoted q (raw ++ q :: cs) = (some text, cs))
    (hs : ∀ load line, (step load r ⟨line, .quoted q (String.ofList text)⟩).result = .ok r') :
    readOn b r (q :: raw ++ q :: cs) = readOn false r' cs :=
  readOn_cons (fun _ => Scanner.tape_quoted hq hread) hs

theorem YieldsFrom.char (hc : Solid c) (hw : LexRules.hocon.isWordChar c = false)
    (hs : ∀ load line, (step load r ⟨line, .char c⟩).result = .ok r') (h : YieldsFrom false r' cs t) :
    Yields r (c :: cs) t := fun _ =>
  .of_readOn (readOn_char hc hw hs) h

theorem Yields.char (hc : Solid c) (hw : LexRules.hocon.isWordChar c = false)
    (hs : ∀ load line, (step load r ⟨line, .char c⟩).result = .ok r') (h : Yields r' cs t) :
    Yields r (c :: cs) t := YieldsFrom.char hc hw hs (h false)

theorem Yields.quoted {text : List Char}
    (hs : ∀ load line, (step load r ⟨line, .quoted '"' (String.ofList text)⟩).result = .ok r') (h : Yields r' cs t) :
    Yields r (quoted text ++ cs) t := fun _ => by
  have hread : readQuoted '"' (text.flatMap quotedChar ++ '"' :: cs) = (some text, cs) :=
    readQuoted_flatMap readQuoted_quotedChar text cs
  have htext : Settings.quoted text ++ cs = '"' :: text.flatMap quotedChar ++ '"' :: cs := by
    simp [Settings.quoted]
  rw [htext]
  exact .of_readOn (readOn_quoted (.inl rfl) hread hs) (h false)

/-- Some blanks, or none. -/
def Blanks (cs : List Char) : Prop := ∀ c ∈ cs, Text.isBlank c

instance : DecidablePred Blanks := fun cs => decidable_of_iff (cs.all Text.isBlank = true) List.all_eq_true

theorem readOn_blank {blanks : List Char} (hc : Text.isBlank c) (hblanks : Blanks blanks)
    (hend : ∀ c ∈ cs.head?, Text.isBlank c = false) (hs : ∀ load line, (step load r ⟨line, .blank⟩).result = .ok r') :
    readOn b r (c :: blanks ++ cs) = readOn true r' cs := by
  refine readOn_cons (fun _ => ?_) hs
  rw [List.cons_append, Scanner.tape_blank rfl hc, dropWhile_run hblanks hend]

/-- One or more blanks in front of anything else. -/
theorem Yields.blank {blanks : List Char} (hc : Text.isBlank c) (hblanks : Blanks blanks)
    (hend : ∀ c ∈ cs.head?, Text.isBlank c = false) (hs : ∀ load line, (step load r ⟨line, .blank⟩).result = .ok r')
    (h : YieldsFrom true r' cs t) : Yields r (c :: blanks ++ cs) t := fun _ =>
  .of_readOn (readOn_blank hc hblanks hend hs) h

/-- Blanks that do not count. -/
theorem readOn_blanks {blanks : List Char} (b : Bool) (hblanks : Blanks blanks)
    (cs : List Char) (hend : ∀ c ∈ cs.head?, Text.isBlank c = false)
    (hs : ∀ load line, (step load r ⟨line, .blank⟩).result = .ok r) :
    ∃ b', readOn b r (blanks ++ cs) = readOn b' r cs := by
  cases blanks with
  | nil => exact ⟨b, rfl⟩
  | cons c blanks =>
    obtain ⟨hc, hblanks⟩ := List.forall_mem_cons.mp hblanks
    exact ⟨true, readOn_blank hc hblanks hend hs⟩

theorem Yields.blanks {blanks : List Char} (hblanks : Blanks blanks) (hend : ∀ c ∈ cs.head?, Text.isBlank c = false)
    (hs : ∀ load line, (step load r ⟨line, .blank⟩).result = .ok r) (h : Yields r cs t) :
    Yields r (blanks ++ cs) t := fun b => by
  obtain ⟨b', heq⟩ := readOn_blanks b hblanks cs hend hs
  exact .of_readOn heq (h b')

theorem blanks_replicate (n : Nat) : Blanks (List.replicate n ' ') := fun _ hc => List.eq_of_mem_replicate hc ▸ rfl

/-- Spaces in front of a line do not count. -/
theorem Yields.indent (n : Nat) (hend : ∀ c ∈ cs.head?, Text.isBlank c = false) (h : Yields (between s scopes) cs t) :
    Yields (between s scopes) (List.replicate n ' ' ++ cs) t :=
  Yields.blanks (blanks_replicate n) hend (fun _ _ => rfl) h

/-! ### Keys -/

/-- The characters of keys that need no quotes. -/
def isPlain (c : Char) : Bool := LexRules.hocon.isWordChar c || c == '-'

/-- The characters of dotted keys without quotes. -/
def isPart (c : Char) : Bool := isPlain c || c == '.'

/-- The reader inside a key. -/
def inKey (s : Store) (scopes : List String) (m : Mode) (key : List Char) : Reader :=
  ⟨s, scopes, String.ofList key, "", 0, m⟩

theorem step_word (s : Store) (scopes : List String) (done word : List Char) :
    ∃ m, InKey m ∧ ∀ load line, (step load (inKey s scopes .key done) ⟨line, .word (String.ofList word)⟩).result =
      .ok (inKey s scopes m (done ++ word)) := by
  unfold inKey
  by_cases hi : String.ofList done = "" ∧ String.ofList word = "include"
  · refine ⟨.include, .inr rfl, fun load line => ?_⟩
    have hdone : done = [] := String.ofList_inj.mp hi.1
    rw [hdone, List.nil_append]
    exact if_pos ⟨rfl, hi.2⟩
  · refine ⟨.key, .inl rfl, fun load line => ?_⟩
    rw [String.ofList_append]
    exact if_neg hi

theorem step_joint (hc : c = '-' ∨ c = '.') (hm : InKey m) (s : Store) (scopes : List String) (done : List Char)
    (load : Nat → String → Watched Store) (line : Nat) :
    (step load (inKey s scopes m done) ⟨line, .char c⟩).result = .ok (inKey s scopes .key (done ++ [c])) := by
  have hpush : (String.ofList done).push c = String.ofList (done ++ [c]) := by
    rw [← String.toList_inj, String.toList_push, String.toList_ofList, String.toList_ofList]
  unfold inKey
  rw [← hpush]
  rcases hc with rfl | rfl
  · rcases hm with rfl | rfl
    · rfl
    · rfl
  · rcases hm with rfl | rfl
    · rfl
    · rfl

/-- A key without quotes is read run by run. While it may still turn out to be a directive, no word comes next. -/
theorem readOn_parts (b : Bool) (done : List Char) (hm : InKey m)
    (hnext : m = .include → ∀ c ∈ key.head?, LexRules.hocon.isWordChar c = false) (hk : ∀ c ∈ key, isPart c)
    (hend : ∀ c ∈ cs.head?, LexRules.hocon.isWordChar c = false) :
    ∃ m' b', InKey m' ∧
      readOn b (inKey s scopes m done) (key ++ cs) = readOn b' (inKey s scopes m' (done ++ key)) cs := by
  induction key using run_induction LexRules.hocon.isWordChar generalizing done m b with
  | nil => exact ⟨m, b, hm, by simp only [List.nil_append, List.append_nil]⟩
  | lone c rest hword ih =>
    obtain ⟨hc, hrest⟩ := List.forall_mem_cons.mp hk
    have hjoint : c = '-' ∨ c = '.' := by simpa [isPart, isPlain, hword] using hc
    have hsolid : Solid c := by
      rcases hjoint with rfl | rfl
      · decide
      · decide
    obtain ⟨m', b', hm', heq⟩ := ih false (done ++ [c]) (.inl rfl) nofun hrest
    refine ⟨m', b', hm', ?_⟩
    rw [List.cons_append, readOn_char hsolid hword (step_joint hjoint hm s scopes done), heq, List.append_assoc,
      List.singleton_append]
  | run word rest hne hall hstop ih =>
    -- No word stands behind the word `include`, so the reader is not in wait of a directive here.
    have hkey : m = .key := by
      rcases hm with rfl | rfl
      · rfl
      · obtain ⟨c, word, rfl⟩ := List.exists_cons_of_ne_nil hne
        exact absurd (hall c List.mem_cons_self) (by simp [hnext rfl c rfl])
    subst hkey
    obtain ⟨m, hm, hstep⟩ := step_word s scopes done word
    obtain ⟨m', b', hm', heq⟩ := ih false (done ++ word) hm (fun _ => hstop)
      (fun d hd => hk d (List.mem_append_right _ hd))
    refine ⟨m', b', hm', ?_⟩
    rw [List.append_assoc, readOn_word hne hall (stops_append hstop hend) hstep, heq, List.append_assoc]

theorem yields_parts {done : List Char} (hm : InKey m)
    (hnext : m = .include → ∀ c ∈ key.head?, LexRules.hocon.isWordChar c = false) (hk : ∀ c ∈ key, isPart c)
    (hend : ∀ c ∈ cs.head?, LexRules.hocon.isWordChar c = false)
    (h : ∀ m, InKey m → Yields (inKey s scopes m (done ++ key)) cs t) :
    Yields (inKey s scopes m done) (key ++ cs) t := fun b => by
  obtain ⟨m', b', hm', heq⟩ := readOn_parts b done hm hnext hk hend
  exact .of_readOn heq (h m' hm' b')

theorem isPlain_eq : isPlain c = (Text.isAlphanumeric c || c == '_' || c == '-') := by
  rw [Bool.eq_iff_iff]
  simp [isPlain, LexRules.isWordChar, LexRules.hocon]

theorem isPlain_not_blank (h : isPlain c) : Text.isBlank c = false := by
  rw [isPlain, Bool.or_eq_true, beq_iff_eq] at h
  rcases h with h | rfl
  · exact (solid_of_isWordChar solid_hocon h).not_blank
  · decide

theorem head_hoconKey (key cs : List Char) : ∀ c ∈ (hoconKey key ++ cs).head?, Text.isBlank c = false := by
  unfold hoconKey
  split
  · next hplain =>
    obtain ⟨c, key, rfl⟩ := List.exists_cons_of_ne_nil hplain.1
    rintro d ⟨rfl⟩
    exact isPlain_not_blank (isPlain_eq.trans (List.all_eq_true.mp hplain.2 c List.mem_cons_self))
  · rintro d ⟨rfl⟩
    decide

/-- The key of a line, in quotes or plain, and the space behind it. -/
theorem yields_key (h : ∀ m, InKey m → Yields (inKey s scopes m key) (' ' :: cs) t) :
    Yields (between s scopes) (hoconKey key ++ ' ' :: cs) t := by
  unfold hoconKey
  split
  · next hplain =>
    refine yields_parts (.inl rfl) nofun (fun c hc => ?_) (by rintro c ⟨rfl⟩; decide) h
    rw [isPart, isPlain_eq, List.all_eq_true.mp hplain.2 c hc, Bool.true_or]
  · refine Yields.quoted (fun _ _ => ?_) (h .key (.inl rfl))
    exact congrArg (fun k => Except.ok (⟨s, scopes, k, "", 0, .key⟩ : Reader)) String.empty_append

/-! ### Lines -/

theorem step_blank (hm : InKey m) (s : Store) (scopes : List String) (key : List Char)
    (load : Nat → String → Watched Store) (line : Nat) :
    (step load (inKey s scopes m key) ⟨line, .blank⟩).result = .ok (inKey s scopes m key) := by
  rcases hm with rfl | rfl
  · rfl
  · rfl

theorem step_open (hm : InKey m) (s : Store) (scopes : List String) (key : List Char)
    (load : Nat → String → Watched Store) (line : Nat) :
    (step load (inKey s scopes m key) ⟨line, .char '{'⟩).result =
      .ok (between s (scopes ++ [String.ofList key])) := by
  rcases hm with rfl | rfl
  · rfl
  · rfl

theorem step_close (s : Store) (scopes : List String) (scope : String) (load : Nat → String → Watched Store)
    (line : Nat) :
    (step load (between s (scopes ++ [scope])) ⟨line, .char '}'⟩).result = .ok (between s scopes) := by
  have hne : scopes ++ [scope] ≠ [] := by simp
  have hdrop : (step load (between s (scopes ++ [scope])) ⟨line, .char '}'⟩).result =
      .ok (between s (scopes ++ [scope]).dropLast) := if_neg hne
  rw [hdrop, List.dropLast_concat]

/-- The end of a line on which nothing is left to store. -/
theorem step_eol (s : Store) (scopes : List String) (load : Nat → String → Watched Store) (line : Nat) :
    (step load (between s scopes) ⟨line, .eol⟩).result = .ok (between s scopes) := rfl

/-- A line that closes the innermost scope. -/
theorem yields_closeLine {scope : String} (depth : Nat) (h : Yields (between s scopes) cs t) :
    Yields (between s (scopes ++ [scope])) (Style.hocon.line depth ['}'] ++ cs) t := by
  simp only [Style.line, List.append_assoc]
  refine Yields.indent _ (by rintro c ⟨rfl⟩; decide) ?_
  refine Yields.char (by decide) (by decide) (step_close s scopes scope) ?_
  exact Yields.eol (step_eol s scopes) h

/-- A line that opens a scope. -/
theorem yields_openLine (depth : Nat) (h : Yields (between s (scopes ++ [String.ofList key])) cs t) :
    Yields (between s scopes) (Style.hocon.line depth (Style.hocon.openLine key) ++ cs) t := by
  simp only [Style.line, Style.hocon, List.append_assoc]
  refine Yields.indent _ (head_hoconKey _ _) (yields_key fun m hm => ?_)
  refine Yields.blanks (blanks_replicate 1) (by rintro c ⟨rfl⟩; decide) (step_blank hm s scopes key) ?_
  refine Yields.char (by decide) (by decide) (step_open hm s scopes key) ?_
  exact Yields.eol (step_eol s _) h

/-- The reader inside the value of a key. -/
def inValue (s : Store) (scopes : List String) (key : List Char) (value : String) : Reader :=
  ⟨s, scopes, String.ofList key, value, 0, .value false⟩

theorem step_separator (hm : InKey m) (hne : key ≠ []) (s : Store) (scopes : List String)
    (load : Nat → String → Watched Store) (line : Nat) :
    (step load (inKey s scopes m key) ⟨line, .char '='⟩).result = .ok (inValue s scopes key "") := by
  have hkey : String.ofList key ≠ "" := fun h => hne (String.ofList_inj.mp h)
  rcases hm with rfl | rfl
  · exact if_neg hkey
  · exact if_neg hkey

theorem step_space (s : Store) (scopes : List String) (key : List Char) (load : Nat → String → Watched Store)
    (line : Nat) : (step load (inValue s scopes key "") ⟨line, .blank⟩).result = .ok (inValue s scopes key "") := rfl

theorem step_text (s : Store) (scopes : List String) (key : List Char) (value : String)
    (load : Nat → String → Watched Store) (line : Nat) :
    (step load (inValue s scopes key "") ⟨line, .quoted '"' (String.ofList value.toList)⟩).result =
      .ok (inValue s scopes key value) := by
  rw [String.ofList_toList]
  exact congrArg (fun v => Except.ok (inValue s scopes key v)) String.empty_append

theorem step_store {value : String} (hv : Text.trimmed value = value) (s : Store) (scopes : List String)
    (key : List Char) (load : Nat → String → Watched Store) (line : Nat) :
    (step load (inValue s scopes key value) ⟨line, .eol⟩).result =
      .ok (between (s.set (dottedKey (scopes ++ [String.ofList key])) value) scopes) := by
  have hstore : (step load (inValue s scopes key value) ⟨line, .eol⟩).result =
      .ok (between (s.set (dottedKey (scopes ++ [String.ofList key])) (Text.trimmed value)) scopes) := rfl
  rw [hstore, hv]

/-- A line that sets a key. -/
theorem yields_leafLine {value : String} (depth : Nat) (hne : key ≠ []) (hv : Text.trimmed value = value)
    (h : Yields (between (s.set (dottedKey (scopes ++ [String.ofList key])) value) scopes) cs t) :
    Yields (between s scopes) (Style.hocon.line depth (Style.hocon.leafLine key value.toList) ++ cs) t := by
  simp only [Style.line, Style.hocon, List.append_assoc]
  refine Yields.indent _ (head_hoconKey _ _) (yields_key fun m hm => ?_)
  refine Yields.blanks (blanks_replicate 1) (by rintro c ⟨rfl⟩; decide) (step_blank hm s scopes key) ?_
  refine Yields.char (by decide) (by decide) (step_separator hm hne s scopes) ?_
  refine Yields.blanks (blanks_replicate 1) (by rintro c ⟨rfl⟩; decide) (step_space s scopes key) ?_
  refine Yields.quoted (step_text s scopes key value) ?_
  exact Yields.eol (step_store hv s scopes key) h

end Settings.Hocon
