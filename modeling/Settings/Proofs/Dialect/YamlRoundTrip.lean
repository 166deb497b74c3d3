import Settings.Document
import Settings.Proofs.Dialect.Rendering
import Settings.Proofs.Lexeme.Tape

/-! # A rendered YAML document reads back

Scopes of this dialect are closed by the indentation of the next line alone. Behind each line the scopes that the
renderer holds open are therefore the first of the reader's scopes, and a line of the renderer's depth leads both
to the same ones. -/

namespace Settings

namespace Yaml

variable {cs key body : List Char} {s t : Store} {scopes : List String}

/-- A part of a key that may stand on a line as it is. -/
structure Segment (key : List Char) : Prop where
  ne_nil : key ≠ []
  flush : Flush (String.ofList key)
  colon : ':' ∉ key
  lineFeed : '\n' ∉ key
  hash : '#' ∉ key
  item : ¬['-', ' '] <+: key

/-- A value that may stand on a line as it is. -/
structure Value (value : String) : Prop where
  ne_empty : value ≠ ""
  flush : Flush value
  lineFeed : '\n' ∉ value.toList
  hash : '#' ∉ value.toList

instance : DecidablePred Segment := fun key =>
  decidable_of_iff
    (key ≠ [] ∧ Flush (String.ofList key) ∧ ':' ∉ key ∧ '\n' ∉ key ∧ '#' ∉ key ∧ ¬['-', ' '] <+: key)
    ⟨fun ⟨ne_nil, flush, colon, lineFeed, hash, item⟩ => ⟨ne_nil, flush, colon, lineFeed, hash, item⟩,
      fun h => ⟨h.ne_nil, h.flush, h.colon, h.lineFeed, h.hash, h.item⟩⟩

instance : DecidablePred Value := fun value =>
  decidable_of_iff (value ≠ "" ∧ Flush value ∧ '\n' ∉ value.toList ∧ '#' ∉ value.toList)
    ⟨fun ⟨ne_empty, flush, lineFeed, hash⟩ => ⟨ne_empty, flush, lineFeed, hash⟩,
      fun h => ⟨h.ne_empty, h.flush, h.lineFeed, h.hash⟩⟩

/-! ### One line -/

theorem withoutComment_eq (h : '#' ∉ cs) (quote : Option Char) (blank : Bool) :
    withoutComment quote blank cs = cs := by
  induction cs generalizing quote blank with
  | nil => rfl
  | cons c cs ih =>
    obtain ⟨hc, hcs⟩ := not_or.mp (mt List.mem_cons.mpr h)
    cases quote with
    | some q => simp [withoutComment, ih hcs]
    | none =>
      by_cases hq : c = '"' ∨ c = '\''
      · simp [withoutComment, hq, ih hcs]
      · simp [withoutComment, hq, Ne.symm hc, ih hcs]

theorem indentation_eq (line n : Nat) (hspace : cs.head? ≠ some ' ') (htab : cs.head? ≠ some '\t') :
    indentation line (List.replicate n ' ' ++ cs) = .ok (n, cs) := by
  have hbody : (List.replicate n ' ' ++ cs).dropWhile (· = ' ') = cs := by
    refine dropWhile_run (by simp) fun c hc => ?_
    have hne : c ≠ ' ' := by
      rintro rfl
      exact hspace hc
    simpa using hne
  rw [indentation]
  simp [hbody, htab]

theorem item?_eq_none (h : ¬['-', ' '] <+: key) (value : List Char) : item? (key ++ ':' :: value) = none := by
  cases key with
  | nil => rfl
  | cons c key =>
    by_cases hc : c = '-'
    · subst hc
      have hnext : (key ++ ':' :: value).head? ≠ some ' ' := by
        cases key with
        | nil => simp
        | cons d key =>
          rintro ⟨⟩
          exact h ⟨key, rfl⟩
      exact if_neg (by simpa using hnext)
    · simp [item?, hc]

/-- A line of a key is read as such, whatever its indentation. -/
theorem step_key {value : List Char} (h : Segment key) (hhash : '#' ∉ value)
    (hlast : (key ++ ':' :: value).getLast?.any Text.isWhite = false) {r : Reader} (hlist : r.list = none)
    (line n : Nat) :
    step r line (List.replicate n ' ' ++ (key ++ ':' :: value)) = keyLine r line n (key ++ ':' :: value) := by
  obtain ⟨c, tail, rfl⟩ := List.exists_cons_of_ne_nil h.ne_nil
  have hc : Text.isWhite c = false := by simpa [Flush] using h.flush.1
  have hcontent : withoutComment none true (List.replicate n ' ' ++ (c :: tail ++ ':' :: value)) =
      List.replicate n ' ' ++ (c :: tail ++ ':' :: value) := by
    refine withoutComment_eq ?_ none true
    simpa [hhash] using h.hash
  have htrim : Text.trim (List.replicate n ' ' ++ (c :: tail ++ ':' :: value)) ≠ [] := by
    rw [Text.trim_append (by simp [Text.isWhite]), Text.trim_eq (by simpa using hc) hlast]
    exact List.cons_ne_nil _ _
  have hindent : indentation line (List.replicate n ' ' ++ (c :: tail ++ ':' :: value)) =
      .ok (n, c :: tail ++ ':' :: value) := by
    refine indentation_eq line n ?_ ?_
    all_goals
      rintro ⟨⟩
      exact absurd hc (by decide)
  rw [step, hcontent, if_neg htrim, hindent]
  have hof : (.of (.ok (n, c :: tail ++ ':' :: value)) : Watched _) = pure (n, c :: tail ++ ':' :: value) := rfl
  have hend : r.endList = pure r := by rw [Reader.endList, hlist]
  rw [hof, pure_bind]
  simp only [item?_eq_none h.item, hend, pure_bind]

/-- A key without a value opens a scope at the depth of its line. -/
theorem result_keyLine_scope (h : Segment key) {r : Reader} {depth : Nat} (hdepth : depth ≤ r.scopes.length)
    (line : Nat) :
    (keyLine r line (2 * depth) (key ++ [':'])).result =
      .ok { r with scopes := r.scopes.take depth ++ [String.ofList key], opened := true } := by
  have hkey : String.ofList (Text.trim key) = String.ofList key := by
    rw [Text.trim_eq (by simpa using h.flush.1) (by simpa using h.flush.2)]
  have hne : String.ofList key ≠ "" := fun he => h.ne_nil (String.ofList_inj.mp he)
  have hempty : String.ofList (Text.trim []) = "" := by decide
  rw [keyLine, Text.cut?_append h.colon]
  simp [indentStep, hkey, hne, hempty, Nat.not_lt.mpr hdepth]

/-- A key with a value is set in the scopes at the depth of its line. -/
theorem result_keyLine_leaf (h : Segment key) {value : String} (hvalue : Value value) {r : Reader} {depth : Nat}
    (hdepth : depth ≤ r.scopes.length) (line : Nat) :
    (keyLine r line (2 * depth) (key ++ ':' :: ' ' :: value.toList)).result =
      .ok { r with
        scopes := r.scopes.take depth, opened := false,
        store := r.store.set (dottedKey (r.scopes.take depth ++ [String.ofList key])) value } := by
  have hkey : String.ofList (Text.trim key) = String.ofList key := by
    rw [Text.trim_eq (by simpa using h.flush.1) (by simpa using h.flush.2)]
  have hne : String.ofList key ≠ "" := fun he => h.ne_nil (String.ofList_inj.mp he)
  have htext : String.ofList (Text.trim (' ' :: value.toList)) = value := by
    have hspace : Text.trim ([' '] ++ value.toList) = Text.trim value.toList := Text.trim_append (List.all_eq_true.mp (by decide)) _
    rw [List.singleton_append] at hspace
    rw [hspace, Text.trim_eq hvalue.flush.1 hvalue.flush.2, String.ofList_toList]
  rw [keyLine, Text.cut?_append h.colon]
  simp [indentStep, hkey, hne, htext, hvalue.ne_empty, Nat.not_lt.mpr hdepth, Reader.set]
  rfl

/-! ### Lines -/

/-- Reading goes on over a text and results in a store, whatever scopes are open behind these ones. -/
def Yields (s : Store) (scopes : List (List Char)) (cs : List Char) (t : Store) : Prop :=
  ∀ r : Reader, r.store = s → r.list = none → scopes.map String.ofList <+: r.scopes →
    ∀ line, (run r line (Text.lines cs)).result = .ok t

variable {scopes : List (List Char)} {rest : List Char}

/-- Reading goes on behind the line of a key as its key line has it. -/
theorem run_line (h : Segment key) (value : List Char) (hline : '\n' ∉ value) (hhash : '#' ∉ value)
    (hlast : (key ++ ':' :: value).getLast?.any Text.isWhite = false) {r r' : Reader} (hlist : r.list = none)
    {depth line : Nat} (hkey : (keyLine r line (2 * depth) (key ++ ':' :: value)).result = .ok r') (rest : List Char) :
    (run r line (Text.lines (Style.yaml.line depth (key ++ ':' :: value) ++ rest))).result =
      (run r' (line + 1) (Text.lines rest)).result := by
  have hbreak : '\n' ∉ List.replicate (2 * depth) ' ' ++ (key ++ ':' :: value) := by simp [h.lineFeed, hline]
  have hret : (List.replicate (2 * depth) ' ' ++ (key ++ ':' :: value)).getLast? ≠ some '\r' := by
    intro hr
    have hback : (key ++ ':' :: value).getLast? = some '\r' := by simpa [List.getLast?_append] using hr
    rw [hback] at hlast
    exact absurd hlast (by decide)
  have hlines : Text.lines (Style.yaml.line depth (key ++ ':' :: value) ++ rest) =
      (List.replicate (2 * depth) ' ' ++ (key ++ ':' :: value)) :: Text.lines rest := by
    rw [← Text.lines_append hbreak hret rest]
    simp [Style.line, Style.yaml]
  rw [hlines, run, Noted.result_bind, step_key h hhash hlast hlist, hkey]
  rfl

theorem take_scopes {r : Reader} (h : scopes.map String.ofList <+: r.scopes) :
    scopes.length ≤ r.scopes.length ∧ r.scopes.take scopes.length = scopes.map String.ofList := by
  have hlength := h.length_le
  have htake := List.prefix_iff_eq_take.mp h
  rw [List.length_map] at hlength htake
  exact ⟨hlength, htake.symm⟩

theorem yields_enter (h : Segment key) (hrest : Yields s (scopes ++ [key]) rest t) :
    Yields s scopes (Style.yaml.line scopes.length (Style.yaml.openLine key) ++ rest) t := by
  intro r hs hlist hopen line
  obtain ⟨hdepth, htake⟩ := take_scopes hopen
  have hresult := result_keyLine_scope h hdepth line
  rw [htake] at hresult
  have hlast : (key ++ [':']).getLast?.any Text.isWhite = false := by
    rw [List.getLast?_concat]
    decide
  refine (run_line h [] (by simp) (by simp) hlast hlist hresult rest).trans ?_
  exact hrest ⟨r.store, scopes.map String.ofList ++ [String.ofList key], true, r.list⟩ hs hlist (by simp) (line + 1)

theorem yields_leaf (h : Segment key) {value : String} (hvalue : Value value)
    (hrest : Yields (s.set (dottedKey (scopes.map String.ofList ++ [String.ofList key])) value) scopes rest t) :
    Yields s scopes (Style.yaml.line scopes.length (Style.yaml.leafLine key value.toList) ++ rest) t := by
  intro r hs hlist hopen line
  obtain ⟨hdepth, htake⟩ := take_scopes hopen
  have hresult := result_keyLine_leaf h hvalue hdepth line
  rw [htake] at hresult
  have hlast : (key ++ ':' :: ' ' :: value.toList).getLast?.any Text.isWhite = false := by
    have hne : value.toList ≠ [] := fun he => hvalue.ne_empty (String.toList_eq_nil_iff.mp he)
    obtain ⟨last, hl⟩ := Option.isSome_iff_exists.mp (List.getLast?_isSome.mpr hne)
    have hflush := hvalue.flush.2
    simpa [List.getLast?_append, List.getLast?_cons, hl] using hflush
  have htext : Style.yaml.leafLine key value.toList = key ++ ':' :: ' ' :: value.toList := by simp [Style.yaml]
  rw [htext]
  refine (run_line h _ (by simp [hvalue.lineFeed]) (by simp [hvalue.hash]) hlast hlist hresult rest).trans ?_
  subst hs
  exact hrest ⟨_, scopes.map String.ofList, false, r.list⟩ rfl hlist (List.prefix_refl _) (line + 1)

/-! ### Documents -/

/-- The reader of documents goes on over each line of the renderer. -/
theorem followed (t : Store) : Style.yaml.Followed Segment Value fun s scopes cs => Yields s scopes cs t where
  ne_nil h := h.ne_nil
  leave hcs r hs hlist hopen := by
    rw [List.map_append] at hopen
    exact hcs r hs hlist ((List.prefix_append _ _).trans hopen)
  enter h hcs := yields_enter h hcs
  leaf h hvalue hcs := yields_leaf h hvalue hcs

theorem yields_end (s : Store) : Yields s [] [] s := by
  intro r hs hlist _ line
  subst hs
  rw [Text.lines_nil, run, Reader.endList, hlist]
  rfl

end Yaml

namespace Document

/-- The YAML document of a store reads back as the store, with its pairs in their order, wherever its keys and values
    may stand on a line as they are. -/
theorem read_render_yaml {store : Store}
    (hkeys : ∀ k ∈ store.keys, ∀ segment ∈ Text.pieces '.' k.toList, Yaml.Segment segment)
    (hvalues : ∀ p ∈ store.pairs, Yaml.Value p.2) (lib : Library) (source : String) (dir : Option String) :
    ((Document.mk source .yaml (store.render .yaml) dir).read lib).result = .ok store := by
  have hpairs := (Yaml.followed store).store hkeys hvalues (Yaml.yields_end store)
  have htext : (store.render .yaml).toList = Style.yaml.pairs [] store.pairs := String.toList_ofList
  have hparse : (Yaml.parse (store.render .yaml)).result = .ok store := by
    rw [Yaml.parse, htext]
    exact hpairs Yaml.Reader.start rfl rfl (List.prefix_refl _) 1
  have hread : ∀ included,
      ((Document.mk source .yaml (store.render .yaml) dir).readWith included).result = .ok store := by
    intro included
    unfold readWith
    rw [Noted.result_bind]
    change ((Yaml.parse (store.render .yaml)).result >>= _) = _
    rw [hparse]
    rfl
  exact hread fun directive => do
    let resource ← .of (lib.load dir directive)
    let inner ← .of (ofResource resource)
    readWithin lib 15 inner

/-- A store of which the scope `a` closes and opens again, and is a key of its own too. -/
def regrouped : Store where
  pairs := [("a.b.-", "x: \"y"), ("-1", "-"), ("a.b.c \r d", "'"), ("a", "[1,  2]"), ("a.-x", "- z")]
  nodup := by decide

theorem read_regrouped :
    ((Document.mk "store" .yaml (regrouped.render .yaml) none).read ⟨⟨"/", fun _ => .error .missing, [], none, fun _ => none⟩, []⟩).result =
      .ok regrouped :=
  read_render_yaml (by decide) (by decide) _ _ _

end Document

end Settings
