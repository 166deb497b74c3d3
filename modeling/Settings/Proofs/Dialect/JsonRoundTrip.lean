import Settings.Proofs.Dialect.Rendering
import Settings.Proofs.Lexeme.Tape

/-! # A rendered document of the flat JSON dialect reads back

The document stands in braces of its own, so below all scopes of the renderer the reader holds an anonymous one. A
value is read as text up to the end of its line: the renderer puts one comma behind it, and the reader takes just one
comma away, whatever the value itself ends in. -/

namespace Settings

namespace FlatJson

/-- Reading goes on over a text to its end and results in a store, on whatever line it starts. -/
def Yields (r : Reader) (cs : List Char) (t : Store) : Prop :=
  ∀ line boundary, (run r ((⟨cs, line, boundary⟩ : Scanner).tape .json)).result = .ok t

/-- The reader inside a key, between two lines if there is none. -/
def inKey (s : Store) (scopes : List String) (key : String) : Reader := ⟨s, scopes, key, "", false, false, 0⟩

/-- The reader behind the separator of a key. -/
def inValue (s : Store) (scopes : List String) (key value : String) : Reader := ⟨s, scopes, key, value, true, false, 0⟩

variable {r r' : Reader} {s t : Store} {scopes : List String} {scope key value : String} {c : Char} {cs : List Char}

/-! ### One lexeme -/

theorem result_run_cons {l : Lexeme} {tape : Tape} (h : (step r l).result = .ok r') :
    (run r (.cons l tape)).result = (run r' tape).result := by
  rw [run, Noted.result_bind, h]
  rfl

theorem Yields.eol (hs : ∀ line, (step r ⟨line, .eol⟩).result = .ok r') (h : Yields r' cs t) :
    Yields r ('\n' :: cs) t := by
  intro line boundary
  rw [Scanner.tape_eol, result_run_cons (hs line)]
  exact h (line + 1) true

theorem Yields.spaces (n : Nat) (h : Yields r cs t) : Yields r (List.replicate n ' ' ++ cs) t := by
  induction n with
  | zero => exact h
  | succ n ih =>
    intro line boundary
    rw [List.replicate_succ, List.cons_append, Scanner.tape_space rfl]
    exact ih line true

theorem Yields.char (hc : Solid c) (hw : LexRules.json.isWordChar c = false)
    (hs : ∀ line, (step r ⟨line, .char c⟩).result = .ok r') (h : Yields r' cs t) : Yields r (c :: cs) t := by
  intro line boundary
  rw [Scanner.tape_char hc hw, result_run_cons (hs line)]
  exact h line false

theorem Yields.quoted {text : List Char}
    (hs : ∀ line, (step r ⟨line, .quoted '"' (String.ofList text)⟩).result = .ok r') (h : Yields r' cs t) :
    Yields r (quoted text ++ cs) t := by
  intro line boundary
  have hread : readQuoted '"' (text.flatMap quotedChar ++ '"' :: cs) = (some text, cs) :=
    readQuoted_flatMap readQuoted_quotedChar text cs
  have htext : Settings.quoted text ++ cs = '"' :: (text.flatMap quotedChar ++ '"' :: cs) := by
    simp [Settings.quoted]
  rw [htext, Scanner.tape_quoted (.inl rfl) hread, result_run_cons (hs line)]
  exact h line false

/-! ### Steps -/

theorem step_key (s : Store) (scopes : List String) (key : List Char) (line : Nat) :
    (step (inKey s scopes "") ⟨line, .quoted '"' (String.ofList key)⟩).result =
      .ok (inKey s scopes (String.ofList key)) :=
  congrArg (fun k => Except.ok (inKey s scopes k)) String.empty_append

theorem step_separator (hkey : key ≠ "") (s : Store) (scopes : List String) (line : Nat) :
    (step (inKey s scopes key) ⟨line, .char ':'⟩).result = .ok (inValue s scopes key "") := if_neg hkey

theorem step_text (s : Store) (scopes : List String) (key value : String) (line : Nat) :
    (step (inValue s scopes key "") ⟨line, .quoted '"' value⟩).result = .ok (inValue s scopes key value) :=
  congrArg (fun v => Except.ok (inValue s scopes key v)) String.empty_append

theorem step_comma (s : Store) (scopes : List String) (key value : String) (line : Nat) :
    (step (inValue s scopes key value) ⟨line, .char ','⟩).result = .ok (inValue s scopes key (value ++ ",")) := rfl

/-- Of what stands behind the key, one comma at the end does not belong to the value. -/
theorem trimValue_comma (h : value.toList.head?.any Text.isWhite = false) : trimValue (value ++ ",") = value := by
  have htext : (value ++ ",").toList = value.toList ++ [','] := String.toList_append
  have hstart : (value.toList ++ [',']).head?.any Text.isWhite = false := by
    cases hv : value.toList with
    | nil => decide
    | cons c cs => simpa [hv] using h
  have hend : (value.toList ++ [',']).getLast?.any Text.isWhite = false := by
    rw [List.getLast?_concat]
    decide
  rw [trimValue, htext, Text.trim_eq hstart hend]
  simp [Text.beforeLast?]

theorem step_store (h : value.toList.head?.any Text.isWhite = false) (s : Store) (scopes : List String) (key : String)
    (line : Nat) :
    (step (inValue s scopes key (value ++ ",")) ⟨line, .eol⟩).result =
      .ok (inKey (s.set (dottedKey (scopes ++ [key])) value) scopes "") := by
  have hbegun : ({ inValue s scopes key (value ++ ",") with dollar := false } : Reader).hasValue = true := by
    simp [Reader.hasValue, inValue]
  have hstore : (step (inValue s scopes key (value ++ ",")) ⟨line, .eol⟩).result =
      (inValue s scopes key (value ++ ",")).storeValue.result :=
    congrArg Noted.result (if_pos hbegun)
  have hset : (inValue s scopes key (value ++ ",")).storeValue.result =
      .ok (inKey (s.set (dottedKey (scopes ++ [key])) (trimValue (value ++ ","))) scopes "") := rfl
  rw [hstore, hset, trimValue_comma h]

/-- The end of a line on which nothing is left to store. -/
theorem step_eol (s : Store) (scopes : List String) (line : Nat) :
    (step (inKey s scopes "") ⟨line, .eol⟩).result = .ok (inKey s scopes "") := rfl

theorem step_open (s : Store) (scopes : List String) (key : String) (line : Nat) :
    (step (inKey s scopes key) ⟨line, .char '{'⟩).result = .ok (inKey s (scopes ++ [key]) "") := rfl

theorem step_openValue (s : Store) (scopes : List String) (key : String) (line : Nat) :
    (step (inValue s scopes key "") ⟨line, .char '{'⟩).result = .ok (inKey s (scopes ++ [key]) "") := rfl

theorem step_close (s : Store) (scopes : List String) (scope : String) (line : Nat) :
    (step (inKey s (scopes ++ [scope]) "") ⟨line, .char '}'⟩).result = .ok (inKey s scopes "") := by
  have hne : scopes ++ [scope] ≠ [] := by simp
  have hdrop : (step (inKey s (scopes ++ [scope]) "") ⟨line, .char '}'⟩).result =
      .ok (inKey s (scopes ++ [scope]).dropLast "") := congrArg Noted.result (if_neg hne)
  rw [hdrop, List.dropLast_concat]

/-! ### Lines -/

/-- A line that closes the innermost scope. -/
theorem yields_closeLine (depth : Nat) (h : Yields (inKey s scopes "") cs t) :
    Yields (inKey s (scopes ++ [scope]) "") (Style.json.line depth ['}'] ++ cs) t := by
  simp only [Style.line, List.append_assoc]
  refine Yields.spaces _ ?_
  refine Yields.char (by decide) (by decide) (step_close s scopes scope) ?_
  exact Yields.eol (step_eol s scopes) h

/-- A line that opens a scope. -/
theorem yields_openLine {scope : List Char} (depth : Nat) (hne : scope ≠ [])
    (h : Yields (inKey s (scopes ++ [String.ofList scope]) "") cs t) :
    Yields (inKey s scopes "") (Style.json.line depth (Style.json.openLine scope) ++ cs) t := by
  have hscope : String.ofList scope ≠ "" := fun he => hne (String.ofList_inj.mp he)
  simp only [Style.line, Style.json, List.append_assoc]
  refine Yields.spaces _ (Yields.quoted (step_key s scopes scope) (Yields.spaces 1 ?_))
  refine Yields.char (by decide) (by decide) (step_separator hscope s scopes) (Yields.spaces 1 ?_)
  refine Yields.char (by decide) (by decide) (step_openValue s scopes _) ?_
  exact Yields.eol (step_eol s _) h

/-- A line that sets a key. -/
theorem yields_leafLine {key : List Char} (depth : Nat) (hne : key ≠ [])
    (hvalue : value.toList.head?.any Text.isWhite = false)
    (h : Yields (inKey (s.set (dottedKey (scopes ++ [String.ofList key])) value) scopes "") cs t) :
    Yields (inKey s scopes "") (Style.json.line depth (Style.json.leafLine key value.toList) ++ cs) t := by
  have hkey : String.ofList key ≠ "" := fun he => hne (String.ofList_inj.mp he)
  simp only [Style.line, Style.json, List.append_assoc]
  refine Yields.spaces _ (Yields.quoted (step_key s scopes key) (Yields.spaces 1 ?_))
  refine Yields.char (by decide) (by decide) (step_separator hkey s scopes) (Yields.spaces 1 ?_)
  refine Yields.quoted (step_text s scopes _ _) ?_
  rw [String.ofList_toList]
  refine Yields.char (by decide) (by decide) (step_comma s scopes _ _) ?_
  exact Yields.eol (step_store hvalue s scopes _) h

/-! ### Documents -/

/-- The reader of documents goes on over each line of the renderer, in the anonymous scope that the braces around the
    document open. -/
theorem followed (t : Store) : Style.json.Followed (· ≠ []) (fun value => value.toList.head?.any Text.isWhite = false)
    fun s scopes cs => Yields (inKey s ("" :: scopes.map String.ofList) "") (cs ++ ['}', '\n']) t where
  ne_nil hne := hne
  leave hcs := by
    rw [List.map_append, List.append_assoc]
    exact yields_closeLine _ hcs
  enter hne hcs := by
    rw [List.map_append] at hcs
    rw [List.append_assoc]
    exact yields_openLine _ hne hcs
  leaf hne hvalue hcs := by
    have hanonymous : ∀ ks, dottedKey ("" :: ks) = dottedKey ks := fun ks => by simp [dottedKey]
    rw [List.append_assoc]
    refine yields_leafLine _ hne hvalue ?_
    rwa [List.cons_append, hanonymous]

/-- The brace behind the last line closes the anonymous scope. -/
theorem yields_end (s : Store) : Yields (inKey s [""] "") ['}', '\n'] s := by
  refine Yields.char (by decide) (by decide) (step_close s [] "") ?_
  refine Yields.eol (step_eol s []) ?_
  intro line boundary
  rw [Scanner.tape_nil]
  rfl

/-- A document that was rendered from a store sets just the pairs of that store. -/
theorem parse_render {store : Store} (hkeys : ∀ k ∈ store.keys, Segmented k)
    (hvalues : ∀ p ∈ store.pairs, p.2.toList.head?.any Text.isWhite = false) :
    (parse (store.render .json)).result = .ok store := by
  have hpairs := (followed store).store hkeys hvalues (yields_end store)
  have htext : (store.render .json).toList = '{' :: '\n' :: (Style.json.pairs [] store.pairs ++ ['}', '\n']) :=
    String.toList_ofList
  have hdocument : Yields Reader.start ('{' :: '\n' :: (Style.json.pairs [] store.pairs ++ ['}', '\n'])) store := by
    refine Yields.char (by decide) (by decide) (step_open .empty [] "") ?_
    exact Yields.eol (step_eol .empty [""]) hpairs
  rw [parse, Tape.ofText, Scanner.start, htext]
  exact hdocument 1 true

end FlatJson

namespace Document

/-- The flat JSON document of a store reads back as the store, with its pairs in their order, wherever its keys have no
    empty segment and its values do not start with white space. -/
theorem read_render_json {store : Store} (hkeys : ∀ k ∈ store.keys, Segmented k)
    (hvalues : ∀ p ∈ store.pairs, p.2.toList.head?.any Text.isWhite = false) (lib : Library) (source : String)
    (dir : Option String) : ((Document.mk source .json (store.render .json) dir).read lib).result = .ok store :=
  result_read (fun _ => rfl) (FlatJson.parse_render hkeys hvalues) lib

/-- A store of which the scope `a` closes and opens again and is a key of its own too, with values that end in commas
    and blanks. -/
def trailing : Store where
  pairs := [("a.b", "x,"), ("c", ""), ("a.\"d: ", ",, \n\t"), ("a", "$\x7be,\x7bf\x7d\x7d "), ("a.#.g\\", "\"")]
  nodup := by decide

theorem read_trailing :
    ((Document.mk "store" .json (trailing.render .json) none).read ⟨⟨"/", fun _ => .error .missing, [], none, fun _ => none⟩, []⟩).result =
      .ok trailing := by
  refine read_render_json ?_ (by decide) _ _ _
  unfold Segmented
  decide

end Document

end Settings
