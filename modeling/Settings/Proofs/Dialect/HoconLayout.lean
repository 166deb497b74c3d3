import Settings.Proofs.Dialect.HoconRoundTrip
import Settings.Proofs.Dialect.HoconTokens
import Settings.Proofs.Lexeme.Spans

/-! # Documents in any layout

A document is a tree: its leaves hold values of bare words, and its scopes hold more entries. A text may lay it out in
many ways. Wherever the reader stands between two entries, or in a value, what it knows does not depend on the layout,
so that all layouts of a document set the same pairs in the same order. -/

namespace Settings.Hocon

/-! ### Documents -/

/-- A key that needs no quotes. -/
structure Key where
  text : String
  ne_empty : text ≠ "" := by decide
  parts : ∀ c ∈ text.toList, isPart c := by exact List.all_eq_true.mp (by decide)

/-- The characters of words that need no quotes. -/
def isBare (c : Char) : Bool := !(Text.isControl c || Text.isWhite c || ['"', '\'', '{', '}'].contains c)

/-- A word that needs no quotes, and that starts no comment. -/
structure Word where
  text : List Char
  ne_nil : text ≠ [] := by decide
  bare : ∀ c ∈ text, isBare c := by exact List.all_eq_true.mp (by decide)
  noComment : LexRules.hocon.startsComment text = false := by decide

/-- One or more words. -/
structure Words where
  first : Word
  more : List Word

/-- The words with single spaces between them. -/
def Words.text (v : Words) : List Char := v.first.text ++ v.more.flatMap fun w => ' ' :: w.text

inductive Entry where
  | leaf (key : Key) (value : Words)
  | scope (key : Key) (entries : List Entry)

mutual

/-- The dotted paths of the leaves of an entry and their values. -/
def Entry.settings : Entry → List (String × String)
  | .leaf key value => [(key.text, String.ofList value.text)]
  | .scope key entries => (settingsOf entries).map fun (k, v) => (key.text ++ "." ++ k, v)

def settingsOf : List Entry → List (String × String)
  | [] => []
  | e :: es => e.settings ++ settingsOf es

end

/-- Two keys with a dot between them. -/
def Key.join (a b : Key) : Key where
  text := a.text ++ "." ++ b.text
  ne_empty := by simp [b.ne_empty]
  parts := by
    intro c hc
    simp only [String.toList_append, List.mem_append] at hc
    rcases hc with (hc | hc) | hc
    · exact a.parts c hc
    · rw [List.mem_singleton.mp hc]
      decide
    · exact b.parts c hc

/-- The entry with a key in front of its own. -/
def Entry.behind (key : Key) : Entry → Entry
  | .leaf k value => .leaf (key.join k) value
  | .scope k entries => .scope (key.join k) entries

/-! ### Layouts -/

/-- `=` or `:`, with blanks around it or without. -/
def Separator (cs : List Char) : Prop :=
  ∃ before c behind, Blanks before ∧ (c = '=' ∨ c = ':') ∧ Blanks behind ∧ cs = before ++ c :: behind

/-- What stands between the key of a scope and its brace. -/
def Opening (cs : List Char) : Prop := Blanks cs ∨ Separator cs

/-- A comment up to the end of its line. -/
def Comment (cs : List Char) : Prop :=
  LexRules.hocon.startsComment cs = true ∧ ∀ c ∈ cs, Text.isLineEnd c = false

instance : DecidablePred Comment := fun cs =>
  decidable_of_iff (LexRules.hocon.startsComment cs = true ∧ cs.all (fun c => !Text.isLineEnd c) = true)
    (by simp [Comment])

/-- `Gap boundary cs rest`: blanks, line ends and comments `cs` in front of the text `rest`. A comment stands at the
    start of a line or behind a blank, and nothing else follows it on its line. -/
inductive Gap : Bool → List Char → List Char → Prop
  | nil {b : Bool} {rest : List Char} : Gap b [] rest
  | blank {b : Bool} {c : Char} {cs rest : List Char} (hc : Text.isBlank c) (h : Gap true cs rest) : Gap b (c :: cs) rest
  | lineEnd {b : Bool} {cs rest : List Char} (h : Gap true cs rest) : Gap b ('\n' :: cs) rest
  | comment {text cs rest : List Char} (htext : Comment text) (hend : AtLineEnd (cs ++ rest)) (h : Gap true cs rest) :
      Gap true (text ++ cs) rest

/-- `Laid entries cs rest`: the text `cs` lays out the entries one behind the other, and goes on with `rest`. The line
    of a leaf ends, or the scope around the leaf closes on it. A scope with one entry may be left out, with its
    key in front of the key of the entry. -/
inductive Laid : List Entry → List Char → List Char → Prop
  | nil {rest : List Char} : Laid [] rest rest
  | leaf {key : Key} {value : Words} {es : List Entry} {separator gap after rest : List Char}
      (hseparator : Separator separator) (hgap : Gap false gap after)
      (hend : '\n' ∈ gap ∨ ∀ c ∈ after.head?, c = '}') (h : Laid es after rest) :
      Laid (.leaf key value :: es) (key.text.toList ++ (separator ++ (value.text ++ (gap ++ after)))) rest
  | scope {key : Key} {entries es : List Entry} {opening inner body gap after rest : List Char}
      (hopening : Opening opening) (hinner : Gap false inner body) (hentries : Laid entries body ('}' :: (gap ++ after)))
      (hgap : Gap false gap after) (h : Laid es after rest) :
      Laid (.scope key entries :: es) (key.text.toList ++ (opening ++ '{' :: (inner ++ body))) rest
  | dotted {key : Key} {e : Entry} {es : List Entry} {cs rest : List Char} (h : Laid (e.behind key :: es) cs rest) :
      Laid (.scope key [e] :: es) cs rest

/-- A text lays out the entries of a document. -/
def Lays (text : String) (entries : List Entry) : Prop :=
  ∃ gap body, text.toList = gap ++ body ∧ Gap true gap body ∧ Laid entries body []

variable {r : Reader} {s t : Store} {scopes : List String} {c d : Char} {cs gap after rest key value text : List Char}
  {b dollar : Bool} {depth : Nat} {es : List Entry}

/-! ### Blanks and comments -/

theorem Comment.ne_lineEnd (h : Comment text) : '\n' ∉ text := fun hmem => absurd (h.2 _ hmem) (by decide)

/-- A comment is left out. -/
theorem YieldsFrom.comment (htext : Comment text) (hend : AtLineEnd cs) (h : YieldsFrom true r cs t) :
    YieldsFrom true r (text ++ cs) t := by
  intro load line
  have hstart : LexRules.hocon.startsComment (text ++ cs) = true := by
    obtain ⟨hstart, -⟩ := htext
    unfold LexRules.startsComment at hstart
    split at hstart
    · rfl
    · rfl
    · cases hstart
  have hdrop : (text ++ cs).dropWhile (!Text.isLineEnd ·) = cs :=
    dropWhile_run (fun c hc => by simp [htext.2 c hc]) fun c hc => by simp [hend c hc]
  have hskip : (⟨text ++ cs, line, true⟩ : Scanner).skip .hocon = ⟨cs, line, true⟩ := by
    rw [Scanner.skip_of_blanks rfl, hstart, hdrop]
    rfl
  have htape : (⟨text ++ cs, line, true⟩ : Scanner).tape .hocon = (⟨cs, line, true⟩ : Scanner).tape .hocon := by
    apply Scanner.tape_congr
    rw [Scanner.next, Scanner.next, hskip, Scanner.skip_of_lineEnd rfl hend]
  rw [htape]
  exact h load line

theorem Yields.oneBlank {r' : Reader} (hc : Text.isBlank c) (hend : ∀ d ∈ cs.head?, Text.isBlank d = false)
    (hs : ∀ load line, (step load r ⟨line, .blank⟩).result = .ok r') (h : YieldsFrom true r' cs t) :
    Yields r (c :: cs) t := by
  show Yields r (c :: [] ++ cs) t
  exact Yields.blank hc nofun hend hs h

/-- Reading goes on over a blank if it goes on behind it, whether or not there are more blanks. -/
theorem YieldsFrom.blank (hc : Text.isBlank c) (h : YieldsFrom true r cs t)
    (hstep : ∃ r', (∀ load line, (step load r ⟨line, .blank⟩).result = .ok r') ∧ YieldsFrom true r' cs t) :
    Yields r (c :: cs) t := by
  obtain ⟨r', hs, h'⟩ := hstep
  cases cs with
  | nil => exact Yields.oneBlank hc nofun hs h'
  | cons d cs =>
    cases hd : Text.isBlank d with
    | false => exact Yields.oneBlank hc (by rintro _ ⟨rfl⟩; exact hd) hs h'
    | true =>
      intro b load line
      have hmore : (⟨c :: d :: cs, line, b⟩ : Scanner).tape .hocon = (⟨d :: cs, line, true⟩ : Scanner).tape .hocon := by
        rw [Scanner.tape_blank rfl hc, Scanner.tape_blank rfl hd, List.dropWhile_cons_of_pos hd]
      rw [hmore]
      exact h load line

theorem Gap.yields_between (h : Gap b gap after) (hafter : Yields (between s scopes) after t) :
    YieldsFrom b (between s scopes) (gap ++ after) t := by
  induction h with
  | nil => exact hafter _
  | blank hc _ ih => exact (ih hafter).blank hc ⟨_, fun _ _ => rfl, ih hafter⟩ _
  | lineEnd _ ih => exact (ih hafter).eol (step_eol s scopes) _
  | comment htext hend _ ih =>
    rw [List.append_assoc]
    exact (ih hafter).comment htext hend

/-! ### Words -/

theorem isBare_iff :
    isBare c ↔ Text.isControl c = false ∧ Text.isWhite c = false ∧ c ∉ ['"', '\'', '{', '}'] := by
  simp [isBare, and_assoc]

theorem not_blank_of_isBare (hc : isBare c) : Text.isBlank c = false := by
  obtain ⟨-, hwhite, -⟩ := isBare_iff.mp hc
  cases hb : Text.isBlank c with
  | false => rfl
  | true => exact absurd (Text.isWhite_of_isBlank hb) (by simp [hwhite])

/-- A text goes on with a character that no word goes on with. -/
def AtStop (cs : List Char) : Prop := ∀ c ∈ cs.head?, Text.isBlank c ∨ c = '\n' ∨ c = '}'

theorem AtStop.not_wordChar (h : AtStop cs) : ∀ c ∈ cs.head?, LexRules.hocon.isWordChar c = false := by
  intro c hc
  cases hw : LexRules.hocon.isWordChar c with
  | false => rfl
  | true =>
    have hsolid : Solid c := solid_of_isWordChar solid_hocon hw
    rcases h c hc with hb | rfl | rfl
    · exact absurd hb (by simp [hsolid.not_blank])
    · exact absurd hw (by decide)
    · exact absurd hw (by decide)

theorem Word.startsComment_append (w : Word) (h : AtStop cs) :
    LexRules.hocon.startsComment (w.text ++ cs) = false := by
  have hno := w.noComment
  obtain ⟨c, word, hword⟩ := List.exists_cons_of_ne_nil w.ne_nil
  rw [hword] at hno ⊢
  rw [Scanner.startsComment_cons] at hno
  rw [List.cons_append, Scanner.startsComment_cons]
  cases word with
  | nil =>
    have hslash : cs.head? ≠ some '/' := fun hhead => by
      rcases h '/' hhead with hb | hb | hb
      · exact absurd hb (by decide)
      · exact absurd hb (by decide)
      · exact absurd hb (by decide)
    simpa [hslash] using hno
  | cons d word => exact hno

theorem Words.flush (v : Words) :
    v.text ≠ [] ∧ v.text.head?.any Text.isWhite = false ∧ v.text.getLast?.any Text.isWhite = false := by
  obtain ⟨first, more⟩ := v
  have hwhite : ∀ (w : Word), ∀ c ∈ w.text, Text.isWhite c = false := fun w c hc => (isBare_iff.mp (w.bare c hc)).2.1
  refine ⟨?_, ?_, ?_⟩
  · simp [Words.text, first.ne_nil]
  · obtain ⟨c, cs, hcs⟩ := List.exists_cons_of_ne_nil first.ne_nil
    have hc := hwhite first c (by simp [hcs])
    simpa [Words.text, hcs] using hc
  · -- the last character is one of the last word
    have hlast : ∀ w : Word, w.text.getLast?.any Text.isWhite = false := fun w => by
      obtain ⟨cs, c, hcs⟩ := (List.eq_nil_or_concat w.text).resolve_left w.ne_nil
      have hc := hwhite w c (by simp [hcs])
      simpa [hcs] using hc
    rcases List.eq_nil_or_concat more with rfl | ⟨front, w, rfl⟩
    · simpa [Words.text] using hlast first
    · have hw := hlast w
      obtain ⟨cs, c, hcs⟩ := (List.eq_nil_or_concat w.text).resolve_left w.ne_nil
      have hback : (' ' :: (cs ++ [c])).getLast? = some c := by rw [← List.cons_append, List.getLast?_concat]
      rw [hcs, List.concat_eq_append, List.getLast?_concat] at hw
      simpa [Words.text, hcs, List.getLast?_append, hback] using hw

/-! ### Values -/

/-- The reader inside the value of a key, with some braces of references open, and perhaps behind a dollar sign. -/
def spanned (s : Store) (scopes : List String) (key value : List Char) (depth : Nat) (dollar : Bool) : Reader :=
  ⟨s, scopes, String.ofList key, String.ofList value, depth, .value dollar⟩

/-- The reader inside the value of a key, perhaps behind a dollar sign. -/
def valued (s : Store) (scopes : List String) (key value : List Char) (dollar : Bool) : Reader :=
  ⟨s, scopes, String.ofList key, String.ofList value, 0, .value dollar⟩

/-- A value behind blanks: they count only where something stands in front of them. -/
def spaced (value gap : List Char) : List Char := if value = [] ∨ gap = [] then value else value ++ [' ']

theorem lone_of_isBare (hc : isBare c) (hw : LexRules.hocon.isWordChar c = false) : Span.Lone .hocon c := by
  obtain ⟨hcontrol, -, hmem⟩ := isBare_iff.mp hc
  refine ⟨not_blank_of_isBare hc, ?_, ?_, hcontrol, hw⟩
  · cases hline : Text.isLineEnd c with
    | false => rfl
    | true =>
      rcases eq_of_isLineEnd hline with rfl | rfl
      · exact absurd hcontrol (by decide)
      · exact absurd hcontrol (by decide)
  · simp only [List.mem_cons, not_or] at hmem ⊢
    exact ⟨hmem.1, hmem.2.1, List.not_mem_nil⟩

theorem step_spanned_word (word : List Char) (load : Nat → String → Watched Store) (line : Nat) :
    (step load (spanned s scopes key value depth dollar) ⟨line, .word (String.ofList word)⟩).result =
      .ok (spanned s scopes key (value ++ word) depth false) := by
  unfold spanned
  rw [String.ofList_append]
  rfl

theorem step_spanned_quoted (quote : Char) (text : List Char) (load : Nat → String → Watched Store) (line : Nat) :
    (step load (spanned s scopes key value depth dollar) ⟨line, .quoted quote (String.ofList text)⟩).result =
      .ok (spanned s scopes key (value ++ text) depth false) := by
  unfold spanned
  rw [String.ofList_append]
  rfl

theorem step_spanned_blank (c : Char) (gap : List Char) (load : Nat → String → Watched Store) (line : Nat) :
    (step load (spanned s scopes key value depth dollar) ⟨line, .blank⟩).result =
      .ok (spanned s scopes key (spaced value (c :: gap)) depth false) := by
  unfold spanned spaced
  by_cases hvalue : value = []
  · subst hvalue
    rfl
  · have hne : String.ofList value ≠ "" := fun h => hvalue (String.ofList_inj.mp h)
    simp only [step, valueToken, hvalue, hne, if_false, false_or, List.cons_ne_nil, String.ofList_append]
    rfl

theorem spaced_of_ne_nil {gap : List Char} (hvalue : value ≠ []) (hgap : gap ≠ []) : spaced value gap = value ++ [' '] :=
  if_neg (not_or.mpr ⟨hvalue, hgap⟩)

theorem step_valued_char (hc : isBare c) (load : Nat → String → Watched Store) (line : Nat) :
    (step load (valued s scopes key value dollar) ⟨line, .char c⟩).result =
      .ok (valued s scopes key (value ++ [c]) (c = '$')) := by
  have hbrace : c ≠ '{' ∧ c ≠ '}' := by
    obtain ⟨-, -, hmem⟩ := isBare_iff.mp hc
    constructor
    all_goals
      rintro rfl
      exact absurd hmem (by decide)
  have hc' : c.toString = String.ofList [c] := rfl
  unfold valued
  rw [String.ofList_append, ← hc']
  simp only [step, valueToken, hbrace, if_false]
  rfl

theorem step_valued_blank (hne : value ≠ []) (load : Nat → String → Watched Store) (line : Nat) :
    (step load (valued s scopes key value dollar) ⟨line, .blank⟩).result =
      .ok (valued s scopes key (value ++ [' ']) false) := by
  rw [← spaced_of_ne_nil hne (List.cons_ne_nil ' ' [])]
  exact step_spanned_blank ' ' [] load line

/-- A word of a value is read run by run. -/
theorem readOn_bare {word : List Char} (b : Bool) (value : List Char) (dollar : Bool) (hw : ∀ c ∈ word, isBare c)
    (hend : ∀ c ∈ cs.head?, LexRules.hocon.isWordChar c = false)
    (hstart : b = true → word ≠ [] ∧ LexRules.hocon.startsComment (word ++ cs) = false) :
    ∃ dollar', readOn b (valued s scopes key value dollar) (word ++ cs) =
      readOn false (valued s scopes key (value ++ word) dollar') cs := by
  induction word using run_induction LexRules.hocon.isWordChar generalizing value b dollar with
  | nil =>
    have hb : b = false := by
      cases b with
      | false => rfl
      | true => exact absurd rfl (hstart rfl).1
    exact ⟨dollar, by simp only [hb, List.nil_append, List.append_nil]⟩
  | lone c rest hword ih =>
    obtain ⟨hc, hrest⟩ := List.forall_mem_cons.mp hw
    have hfirst : readOn b (valued s scopes key value dollar) (c :: (rest ++ cs)) =
        readOn false (valued s scopes key (value ++ [c]) (c = '$')) (rest ++ cs) :=
      readOn_cons (fun _ => Scanner.tape_lone rfl (lone_of_isBare hc hword) fun hb => (hstart hb).2)
        (step_valued_char hc)
    obtain ⟨dollar', heq⟩ := ih false (value ++ [c]) (c = '$') hrest nofun
    refine ⟨dollar', ?_⟩
    rw [List.cons_append, hfirst, heq, List.append_assoc, List.singleton_append]
  | run word rest hne hall hstop ih =>
    obtain ⟨dollar', heq⟩ := ih false (value ++ word) false (fun d hd => hw d (List.mem_append_right _ hd)) nofun
    have hfirst : readOn b (valued s scopes key value dollar) (word ++ (rest ++ cs)) =
        readOn false (valued s scopes key (value ++ word) false) (rest ++ cs) :=
      readOn_word hne hall (stops_append hstop hend) (step_spanned_word _)
    refine ⟨dollar', ?_⟩
    rw [List.append_assoc, hfirst, heq, List.append_assoc]

theorem yields_bare {word : List Char} (hw : ∀ c ∈ word, isBare c) (hend : AtStop cs)
    (hstart : b = true → word ≠ [] ∧ LexRules.hocon.startsComment (word ++ cs) = false)
    (h : ∀ dollar, YieldsFrom false (valued s scopes key (value ++ word) dollar) cs t) :
    YieldsFrom b (valued s scopes key value dollar) (word ++ cs) t := by
  obtain ⟨dollar', heq⟩ := readOn_bare b value dollar hw hend.not_wordChar hstart
  exact .of_readOn heq (h dollar')

theorem yields_more (ws : List Word) (hne : value ≠ []) (hend : AtStop cs)
    (h : ∀ dollar, YieldsFrom false (valued s scopes key (value ++ ws.flatMap fun w => ' ' :: w.text) dollar) cs t) :
    YieldsFrom false (valued s scopes key value dollar) (ws.flatMap (fun w => ' ' :: w.text) ++ cs) t := by
  induction ws generalizing value dollar with
  | nil => simpa using h dollar
  | cons w ws ih =>
    have hstop : AtStop (ws.flatMap (fun w => ' ' :: w.text) ++ cs) := by
      cases ws with
      | nil => exact hend
      | cons w ws =>
        rintro c ⟨rfl⟩
        exact .inl rfl
    have hhead : ∀ c ∈ (w.text ++ (ws.flatMap (fun w => ' ' :: w.text) ++ cs)).head?, Text.isBlank c = false := by
      obtain ⟨c, word, hword⟩ := List.exists_cons_of_ne_nil w.ne_nil
      rw [hword]
      rintro d ⟨rfl⟩
      exact not_blank_of_isBare (w.bare c (by simp [hword]))
    rw [List.flatMap_cons, List.append_assoc, List.cons_append]
    refine Yields.oneBlank rfl hhead (step_valued_blank hne) ?_ false
    refine yields_bare w.bare hstop (fun _ => ⟨w.ne_nil, w.startsComment_append hstop⟩) fun dollar => ?_
    refine ih (by simp) fun dollar => ?_
    simpa using h dollar

theorem Words.yields (v : Words) (hend : AtStop cs)
    (h : ∀ dollar, YieldsFrom false (valued s scopes key v.text dollar) cs t) :
    Yields (valued s scopes key [] false) (v.text ++ cs) t := by
  intro b
  have hstop : AtStop (v.more.flatMap (fun w => ' ' :: w.text) ++ cs) := by
    cases v.more with
    | nil => exact hend
    | cons w ws =>
      rintro c ⟨rfl⟩
      exact .inl rfl
  rw [Words.text, List.append_assoc]
  refine yields_bare v.first.bare hstop (fun _ => ⟨v.first.ne_nil, v.first.startsComment_append hstop⟩) fun dollar => ?_
  exact yields_more v.more (by simpa using v.first.ne_nil) hend h

/-! ### Behind a value -/

/-- At the end of a line or a scope the reader goes on as if the value were stored already. -/
theorem step_stored {tok : Token} (htok : tok = .eol ∨ tok = .eof ∨ tok = .char '}')
    (load : Nat → String → Watched Store) (line : Nat) :
    (step load (valued s scopes key value dollar) ⟨line, tok⟩).result =
      (step load (between (s.set (dottedKey (scopes ++ [String.ofList key])) (Text.trimmed (String.ofList value))) scopes)
        ⟨line, tok⟩).result := by
  rcases htok with rfl | rfl | rfl
  · rfl
  · rfl
  · rfl

theorem Yields.stored (hcs : ∀ c ∈ cs.head?, c = '}')
    (h : Yields (between (s.set (dottedKey (scopes ++ [String.ofList key])) (Text.trimmed (String.ofList value))) scopes)
      cs t) : Yields (valued s scopes key value dollar) cs t := by
  intro b load line
  have hyields := h b load line
  cases cs with
  | nil =>
    rw [Scanner.tape_nil, run, Noted.result_bind] at hyields ⊢
    rw [step_stored (.inr (.inl rfl))]
    exact hyields
  | cons c cs =>
    rw [hcs c rfl, Scanner.tape_char (by decide) (by decide), run, Noted.result_bind] at hyields ⊢
    rw [step_stored (.inr (.inr rfl))]
    exact hyields

/-- The gap behind a value, which ends its line or stands before the end of its scope. -/
theorem Gap.yields_valued {white : List Char} (h : Gap b gap after)
    (hend : '\n' ∈ gap ∨ ∀ c ∈ after.head?, c = '}') (v : Words) (hwhite : ∀ c ∈ white, Text.isWhite c)
    (hafter : Yields (between (s.set (dottedKey (scopes ++ [String.ofList key])) (String.ofList v.text)) scopes) after t) :
    YieldsFrom b (valued s scopes key (v.text ++ white) dollar) (gap ++ after) t := by
  obtain ⟨hne, hfirst, hlast⟩ := v.flush
  have htrim : ∀ white, (∀ c ∈ white, Text.isWhite c) →
      Text.trimmed (String.ofList (v.text ++ white)) = String.ofList v.text := fun white hwhite => by
    rw [Text.trimmed, String.toList_ofList, Text.trim_append_white hne hfirst hlast hwhite]
  induction h generalizing white dollar with
  | nil =>
    refine Yields.stored (hend.resolve_left (by simp)) ?_ _
    rwa [htrim white hwhite]
  | @blank b c cs rest hc _ ih =>
    have hend' : '\n' ∈ cs ∨ ∀ c ∈ rest.head?, c = '}' := by
      refine hend.imp_left fun hmem => (List.mem_cons.mp hmem).resolve_left ?_
      rintro rfl
      exact absurd hc (by decide)
    refine (ih hend' hwhite hafter).blank hc ⟨_, step_valued_blank (by simp [hne]), ?_⟩ b
    rw [List.append_assoc]
    refine ih hend' (fun c hc => ?_) hafter
    rcases List.mem_append.mp hc with hc | hc
    · exact hwhite c hc
    · rw [List.mem_singleton.mp hc]
      decide
  | lineEnd hgap _ =>
    refine YieldsFrom.eol (fun load line => ?_) (hgap.yields_between hafter) _
    rw [step_stored (.inl rfl), htrim white hwhite]
    rfl
  | @comment text cs rest htext hline _ ih =>
    have hend' : '\n' ∈ cs ∨ ∀ c ∈ rest.head?, c = '}' :=
      hend.imp_left fun hmem => (List.mem_append.mp hmem).resolve_left htext.ne_lineEnd
    rw [List.append_assoc]
    exact (ih hend' hwhite hafter).comment htext hline

/-! ### Entries -/

theorem Entry.settings_behind (key : Key) (e : Entry) :
    (e.behind key).settings = e.settings.map fun (k, v) => (key.text ++ "." ++ k, v) := by
  cases e with
  | leaf k value => simp [Entry.behind, Entry.settings, Key.join]
  | scope k entries => simp [Entry.behind, Entry.settings, Key.join, String.append_assoc]

theorem ne_empty_of_mem_settings {p : String × String} (h : p ∈ settingsOf es) : p.1 ≠ "" := by
  induction es with
  | nil => cases h
  | cons e es ih =>
    rcases List.mem_append.mp h with h | h
    · cases e with
      | leaf key value =>
        cases List.mem_singleton.mp h
        exact key.ne_empty
      | scope key entries =>
        obtain ⟨q, -, rfl⟩ := List.mem_map.mp h
        simp [key.ne_empty]
    · exact ih h

/-- The settings of a scope are those of its entries behind one scope more. -/
theorem map_settings_scope (scopes : List String) (key : Key) (entries : List Entry) :
    (Entry.scope key entries).settings.map (prefixed scopes) =
      (settingsOf entries).map (prefixed (scopes ++ [key.text])) := by
  rw [Entry.settings, List.map_map]
  refine List.map_congr_left fun p hp => ?_
  have hpair : dottedKey [key.text, p.1] = key.text ++ "." ++ p.1 :=
    dottedKey_pair key.ne_empty (ne_empty_of_mem_settings hp)
  have hjoin : dottedKey (scopes ++ [key.text ++ "." ++ p.1]) = dottedKey (scopes ++ [key.text] ++ [p.1]) := by
    rw [dottedKey_append, dottedKey_singleton, List.append_assoc, dottedKey_append scopes, List.singleton_append, hpair]
  exact congrArg (·, p.2) hjoin

theorem Key.yields (key : Key) (hend : ∀ c ∈ cs.head?, LexRules.hocon.isWordChar c = false)
    (h : ∀ m, InKey m → Yields (inKey s scopes m key.text.toList) cs t) :
    Yields (between s scopes) (key.text.toList ++ cs) t :=
  yields_parts (.inl rfl) nofun key.parts hend h

theorem Blanks.atStop {blanks : List Char} (h : Blanks blanks) (hc : LexRules.hocon.isWordChar c = false) :
    ∀ d ∈ (blanks ++ c :: cs).head?, LexRules.hocon.isWordChar d = false := by
  cases blanks with
  | nil =>
    rintro d ⟨rfl⟩
    exact hc
  | cons e blanks =>
    rintro d ⟨rfl⟩
    have hstop : AtStop [e] := by
      rintro d ⟨rfl⟩
      exact .inl (h e List.mem_cons_self)
    exact hstop.not_wordChar e rfl

theorem step_separator_char {m : Mode} (hm : InKey m) (hc : c = '=' ∨ c = ':') (hne : key ≠ [])
    (load : Nat → String → Watched Store) (line : Nat) :
    (step load (inKey s scopes m key) ⟨line, .char c⟩).result = .ok (valued s scopes key [] false) := by
  have hkey : String.ofList key ≠ "" := fun h => hne (String.ofList_inj.mp h)
  rcases hm with rfl | rfl
  · rcases hc with rfl | rfl
    · exact if_neg hkey
    · exact if_neg hkey
  · rcases hc with rfl | rfl
    · exact if_neg hkey
    · exact if_neg hkey

/-- Behind the separator of a key the reader is in a value that is empty so far. -/
theorem Separator.yields {separator : List Char} (h : Separator separator) (k : Key)
    (hcs : ∀ c ∈ cs.head?, Text.isBlank c = false)
    (hrest : Yields (valued s scopes k.text.toList [] false) cs t) :
    Yields (between s scopes) (k.text.toList ++ (separator ++ cs)) t := by
  obtain ⟨before, c, behind, hbefore, hc, hbehind, rfl⟩ := h
  have hchar : Solid c ∧ LexRules.hocon.isWordChar c = false ∧ Text.isBlank c = false := by
    rcases hc with rfl | rfl
    · decide
    · decide
  have hne : k.text.toList ≠ [] := fun he => k.ne_empty (String.toList_eq_nil_iff.mp he)
  rw [List.append_assoc, List.cons_append]
  refine k.yields (hbefore.atStop hchar.2.1) fun m hm => ?_
  refine Yields.blanks hbefore (by rintro d ⟨rfl⟩; exact hchar.2.2) (step_blank hm s scopes _) ?_
  refine Yields.char hchar.1 hchar.2.1 (step_separator_char hm hc hne) ?_
  exact Yields.blanks hbehind hcs (fun _ _ => rfl) hrest

theorem Opening.yields {opening : List Char} (h : Opening opening) (k : Key)
    (hrest : YieldsFrom false (between s (scopes ++ [k.text])) cs t) :
    Yields (between s scopes) (k.text.toList ++ (opening ++ '{' :: cs)) t := by
  rcases h with hblanks | hseparator
  · refine k.yields (hblanks.atStop (by decide)) fun m hm => ?_
    refine Yields.blanks hblanks (by rintro d ⟨rfl⟩; decide) (step_blank hm s scopes _) ?_
    refine YieldsFrom.char (by decide) (by decide) (step_open hm s scopes _) ?_
    rwa [String.ofList_toList]
  · refine hseparator.yields k (by rintro d ⟨rfl⟩; decide) ?_
    have hstep : ∀ load line, (step load (valued s scopes k.text.toList [] false) ⟨line, .char '{'⟩).result =
        .ok (between s (scopes ++ [k.text])) := fun load line => by
      rw [valued, String.ofList_toList]
      rfl
    exact YieldsFrom.char (by decide) (by decide) hstep hrest

theorem atStop_gap (h : Gap false gap after) (hend : '\n' ∈ gap ∨ ∀ c ∈ after.head?, c = '}') :
    AtStop (gap ++ after) := by
  cases h with
  | nil => exact fun c hc => .inr (.inr (hend.resolve_left (by simp) c hc))
  | blank hc _ =>
    rintro d ⟨rfl⟩
    exact .inl hc
  | lineEnd _ =>
    rintro d ⟨rfl⟩
    exact .inr (.inl rfl)

theorem Words.head_not_blank (v : Words) : ∀ c ∈ (v.text ++ cs).head?, Text.isBlank c = false := by
  obtain ⟨c, word, hword⟩ := List.exists_cons_of_ne_nil v.first.ne_nil
  have hc : isBare c := v.first.bare c (by simp [hword])
  rw [Words.text, hword]
  rintro d ⟨rfl⟩
  exact not_blank_of_isBare hc

/-- Behind its entries the reader has set their settings in the scopes that are open. -/
theorem Laid.yields (h : Laid es cs rest)
    (hrest : Yields (between (s.setAll ((settingsOf es).map (prefixed scopes))) scopes) rest t) :
    Yields (between s scopes) cs t := by
  induction h generalizing s scopes with
  | nil => exact hrest
  | @leaf key value es separator gap after rest hseparator hgap hend _ ih =>
    refine hseparator.yields key value.head_not_blank ?_
    refine value.yields (atStop_gap hgap hend) fun dollar => ?_
    have hstored : Yields (between (s.set (dottedKey (scopes ++ [String.ofList key.text.toList]))
        (String.ofList value.text)) scopes) after t := by
      rw [String.ofList_toList]
      exact ih hrest
    have hvalued : YieldsFrom false (valued s scopes key.text.toList (value.text ++ []) dollar) (gap ++ after) t :=
      hgap.yields_valued hend value nofun hstored
    rwa [List.append_nil] at hvalued
  | @scope key entries es opening inner body gap after rest hopening hinner _ hgap _ ihentries ih =>
    refine hopening.yields key (hinner.yields_between (ihentries ?_))
    refine YieldsFrom.char (by decide) (by decide) (step_close _ scopes key.text) (hgap.yields_between (ih ?_))
    rw [settingsOf, List.map_append, map_settings_scope, Store.setAll_append] at hrest
    exact hrest
  | @dotted key e es cs rest _ ih =>
    refine ih ?_
    have hone : (Entry.scope key [e]).settings = (e.behind key).settings := by
      rw [e.settings_behind key, Entry.settings, settingsOf, settingsOf, List.append_nil]
    rw [settingsOf, ← hone]
    exact hrest

end Settings.Hocon

namespace Settings.Document

/-- Whatever the layout of a document, it reads as the store in which the path of each leaf has been set to its value,
    one after the other. -/
theorem read_laid {text : String} {entries : List Hocon.Entry} (h : Hocon.Lays text entries) (lib : Library)
    (source : String) (dir : Option String) :
    ((Document.mk source .hocon text dir).read lib).result = .ok (.ofPairs (Hocon.settingsOf entries)) := by
  refine readWithin_hocon (fun load => ?_) lib includeLimit
  obtain ⟨gap, body, htext, hgap, hbody⟩ := h
  have hpairs : (Hocon.settingsOf entries).map (Hocon.prefixed []) = Hocon.settingsOf entries := by
    refine List.map_id'' (fun p => ?_) _
    simp [Hocon.prefixed]
  have hend := Hocon.yields_end (Store.ofPairs (Hocon.settingsOf entries))
  rw [Store.ofPairs, ← hpairs] at hend
  have hyields := hgap.yields_between (hbody.yields hend)
  rw [hpairs] at hyields
  rw [Hocon.parse, Tape.ofText, Scanner.start, htext]
  exact hyields load 1

/-- A document with a scope in a scope that holds nothing else. -/
def inventory : List Hocon.Entry :=
  [.scope { text := "a" } [.scope { text := "b" } [
    .leaf { text := "x" } ⟨{ text := ['1'] }, [{ text := ['y'] }]⟩,
    .scope { text := "c" } [.leaf { text := "d-e" } ⟨{ text := ['2'] }, []⟩]]]]

/-- The scope `a` is a part of the key, and the other two close on the line of the last leaf. -/
theorem lays_inventory : Hocon.Lays "# all\na.b : \x7b\n x=1 y // one\n\n\tc\x7b d-e = 2 \x7d \x7d" inventory := by
  have hspace : Hocon.Blanks [' '] := by decide
  refine ⟨"# all\n".toList, "a.b : \x7b\n x=1 y // one\n\n\tc\x7b d-e = 2 \x7d \x7d".toList, by decide, ?_, .dotted ?_⟩
  · refine @Hocon.Gap.comment "# all".toList ['\n'] _ (by decide) ?_ (.lineEnd .nil)
    rintro c ⟨rfl⟩
    rfl
  · refine @Hocon.Laid.scope _ _ _ " : ".toList "\n ".toList _ [] [] _ ?_ ?_ ?_ .nil .nil
    · exact .inr ⟨[' '], ':', [' '], hspace, .inr rfl, hspace, rfl⟩
    · exact .lineEnd (.blank rfl .nil)
    refine @Hocon.Laid.leaf _ _ _ ['='] " // one\n\n\t".toList _ _ ?_ ?_ (.inl (by decide)) ?_
    · exact ⟨[], '=', [], nofun, .inl rfl, nofun, rfl⟩
    · refine .blank rfl (@Hocon.Gap.comment "// one".toList "\n\n\t".toList _ (by decide) ?_ ?_)
      · rintro c ⟨rfl⟩
        rfl
      · exact .lineEnd (.lineEnd (.blank rfl .nil))
    refine @Hocon.Laid.scope _ _ _ [] [' '] _ [' '] ['}'] _ (.inl nofun) ?_ ?_ ?_ .nil
    · exact .blank rfl .nil
    · refine @Hocon.Laid.leaf _ _ _ " = ".toList [' '] _ _ ?_ (.blank rfl .nil) (.inr ?_) .nil
      · exact ⟨[' '], '=', [' '], hspace, .inl rfl, hspace, rfl⟩
      · rintro c ⟨rfl⟩
        rfl
    · exact .blank rfl .nil

theorem read_inventory :
    ((Document.mk "text" .hocon "# all\na.b : \x7b\n x=1 y // one\n\n\tc\x7b d-e = 2 \x7d \x7d" none).read
      ⟨⟨"/", fun _ => .error .missing, [], none, fun _ => none⟩, []⟩).result = .ok (.ofPairs [("a.b.x", "1 y"), ("a.b.c.d-e", "2")]) :=
  read_laid lays_inventory _ _ _

end Settings.Document
