import Mathlib.Tactic.SplitIfs
import Settings.Document
import Settings.Proofs.Dialect.Rendering

/-! # A rendered properties document reads back

An escaped text is read back in four ways: it is cut into lines, a line is joined with those it goes on in, it is cut
into a key and a value, and these are unescaped. Each of them looks at the backslashes in its own way. None is misled
by an escaped character, so behind each character all of them go on as if it stood there alone. -/

namespace Settings

namespace Properties

variable {c e : Char} {cs out line rest text : List Char} {isKey first : Bool} {n : Nat}

/-! ### One character -/

/-- A character is written behind a backslash, or as it is because nothing takes it for something else. -/
theorem escapeChar_cases (isKey first : Bool) (c : Char) :
    (∃ e, escapeChar isKey first c = ['\\', e] ∧ escaped e = c ∧ e ∉ ['u', '\n', '\r']) ∨
      escapeChar isKey first c = [c] ∧ c ∉ ['\\', '\n', '\r', '\t'] ∧ (isKey → c ∉ ['=', ':', ' ']) ∧
        (first → c ∉ ['#', '!']) := by
  unfold escapeChar
  split_ifs with hb hn hr ht hf hk hm
  · exact .inl ⟨'\\', rfl, hb.symm, by decide⟩
  · exact .inl ⟨'n', rfl, hn.symm, by decide⟩
  · exact .inl ⟨'r', rfl, hr.symm, by decide⟩
  · exact .inl ⟨'t', rfl, ht.symm, by decide⟩
  · exact .inl ⟨'f', rfl, hf.symm, by decide⟩
  · obtain ⟨hc, -⟩ := hk
    refine .inl ⟨c, rfl, ?_⟩
    rcases hc with rfl | rfl | rfl
    all_goals decide
  · obtain ⟨hc, -⟩ := hm
    refine .inl ⟨c, rfl, ?_⟩
    rcases hc with rfl | rfl
    all_goals decide
  · refine .inr ⟨rfl, by simp [hb, hn, hr, ht], ?_, ?_⟩
    · intro h
      simpa [h] using hk
    · intro h
      simpa [h] using hm

theorem splitPair_escape (e : Char) (cs : List Char) :
    splitPair ('\\' :: e :: cs) = ('\\' :: e :: (splitPair cs).1, (splitPair cs).2) := rfl

theorem splitPair_char (hb : c ≠ '\\') (hs : ¬(c = '=' ∨ c = ':')) (hw : Text.isBlank c = false) (cs : List Char) :
    splitPair (c :: cs) = (c :: (splitPair cs).1, (splitPair cs).2) := by
  rw [splitPair]
  · rw [if_neg hs, if_neg (by simp [hw])]
  · rintro e ds rfl
    exact absurd rfl hb

theorem unescape_escape (hu : e ≠ 'u') : unescape n ('\\' :: e :: cs) = (unescape n cs).map (escaped e :: ·) := by
  rw [unescape]
  simp [hu]

theorem unescape_char (hb : c ≠ '\\') : unescape n (c :: cs) = (unescape n cs).map (c :: ·) := by
  rw [unescape.eq_def]
  simp [hb]

theorem continues_backslash (cs : List Char) : continues (cs ++ ['\\']) = !continues cs := by
  have hparity : ∀ k : Nat, ((k + 1) % 2 == 1) = !(k % 2 == 1) := by
    intro k
    rw [Bool.eq_iff_iff, Bool.not_eq_true', beq_iff_eq, beq_eq_false_iff_ne]
    omega
  simp [continues, hparity]

theorem continues_char (hb : c ≠ '\\') (cs : List Char) : continues (cs ++ [c]) = false := by simp [continues, hb]

/-! ### Escaped text -/

/-- A text and how it is written, character by character. -/
inductive Escapes (isKey : Bool) : List Char → List Char → Prop
  | nil : Escapes isKey [] []
  | cons (first : Bool) (c : Char) {cs out : List Char} (h : Escapes isKey cs out) :
      Escapes isKey (c :: cs) (escapeChar isKey first c ++ out)

theorem escapes_flatMap (isKey : Bool) (text : List Char) : Escapes isKey text (text.flatMap (escapeChar isKey false)) := by
  induction text with
  | nil => exact .nil
  | cons c text ih =>
    rw [List.flatMap_cons]
    exact .cons false c ih

theorem escapes_escape (isKey : Bool) (text : List Char) : Escapes isKey text (escape isKey text) := by
  cases text with
  | nil => exact .nil
  | cons c text => exact .cons true c (escapes_flatMap isKey text)

/-- A key that was escaped ends at the first separator behind it. -/
theorem Escapes.splitPair (h : Escapes true text out) (rest : List Char) :
    splitPair (out ++ '=' :: rest) = (out, rest) := by
  induction h with
  | nil => rfl
  | cons first c h ih =>
    rcases escapeChar_cases true first c with ⟨e, heq, -, -⟩ | ⟨heq, hplain, hkey, -⟩
    · rw [heq, List.append_assoc]
      simp only [List.cons_append, List.nil_append, splitPair_escape, ih]
    · simp only [List.mem_cons, List.not_mem_nil, or_false, not_or] at hplain
      have hsep := hkey rfl
      simp only [List.mem_cons, List.not_mem_nil, or_false, not_or] at hsep
      have hblank : Text.isBlank c = false := by simp [Text.isBlank, hsep, hplain]
      rw [heq, List.singleton_append, List.cons_append, splitPair_char hplain.1 (by simp [hsep]) hblank, ih]

theorem Escapes.unescape (h : Escapes isKey text out) : unescape n out = .ok text := by
  induction h with
  | nil => rw [Properties.unescape]
  | cons first c h ih =>
    rcases escapeChar_cases isKey first c with ⟨e, heq, he, hne⟩ | ⟨heq, hplain, -, -⟩
    · have hu : e ≠ 'u' := by
        rintro rfl
        exact hne List.mem_cons_self
      rw [heq, List.cons_append, List.singleton_append, unescape_escape hu, ih, he]
      rfl
    · have hb : c ≠ '\\' := by
        rintro rfl
        exact hplain List.mem_cons_self
      rw [heq, List.singleton_append, unescape_char hb, ih]
      rfl

/-- Escaped text never ends in the middle of an escape, so its line does not go on. -/
theorem Escapes.continues (h : Escapes isKey text out) (hline : continues line = false) :
    continues (line ++ out) = false := by
  induction h generalizing line with
  | nil => simpa using hline
  | cons first c h ih =>
    rw [← List.append_assoc]
    apply ih
    rcases escapeChar_cases isKey first c with ⟨e, heq, -, -⟩ | ⟨heq, hplain, -, -⟩
    · have hsplit : line ++ ['\\', e] = line ++ ['\\'] ++ [e] := by simp
      rw [heq, hsplit]
      by_cases he : e = '\\'
      · rw [he, continues_backslash, continues_backslash, hline]
        rfl
      · exact continues_char he _
    · rw [heq]
      refine continues_char ?_ line
      rintro rfl
      exact hplain List.mem_cons_self

/-- No escaped text breaks its line. -/
theorem Escapes.lineFree (h : Escapes isKey text out) : '\n' ∉ out ∧ '\r' ∉ out := by
  induction h with
  | nil => simp
  | cons first c h ih =>
    rcases escapeChar_cases isKey first c with ⟨e, heq, -, hne⟩ | ⟨heq, hplain, -, -⟩
    · simp only [List.mem_cons, List.not_mem_nil, or_false, not_or] at hne
      simp [heq, ih, Ne.symm hne.2.1, Ne.symm hne.2.2]
    · simp only [List.mem_cons, List.not_mem_nil, or_false, not_or] at hplain
      simp [heq, ih, Ne.symm hplain.2.1, Ne.symm hplain.2.2.1]

/-! ### Lines -/

/-- The line of a key and its value. -/
def pairLine (p : String × String) : List Char := escape true p.1.toList ++ '=' :: escape false p.2.toList

/-- A line that is a logical line of its own. -/
structure Whole (line : List Char) : Prop where
  start : Text.trimStart line = line
  held : isSkipped line = false
  ends : continues line = false

theorem logicalLines_eq {numbered : List (Nat × List Char)} (h : ∀ l ∈ numbered, Whole l.2) :
    logicalLines numbered = numbered := by
  induction numbered with
  | nil => rw [logicalLines]
  | cons l numbered ih =>
    obtain ⟨n, line⟩ := l
    obtain ⟨hline, hnumbered⟩ := List.forall_mem_cons.mp h
    have hjoin : join line numbered = (line, numbered) := by
      cases numbered with
      | nil => simp [join, hline.ends]
      | cons next numbered => simp [join, hline.ends]
    rw [logicalLines, hline.start]
    simp [hline.held, hjoin, ih hnumbered]

/-- A line starts with its key as it is written, or with the separator. -/
theorem head_pairLine {p : String × String} (hkey : Flush p.1) :
    ∃ c cs, pairLine p = c :: cs ∧ Text.isWhite c = false ∧ c ∉ ['#', '!'] := by
  unfold pairLine
  cases hp : p.1.toList with
  | nil => exact ⟨'=', _, rfl, by decide, by decide⟩
  | cons c key =>
    have hwhite : Text.isWhite c = false := by simpa [Flush, hp] using hkey.1
    rw [escape]
    rcases escapeChar_cases true true c with ⟨e, heq, -, -⟩ | ⟨heq, -, -, hmark⟩
    · rw [heq]
      exact ⟨'\\', _, rfl, by decide, by decide⟩
    · rw [heq]
      exact ⟨c, _, rfl, hwhite, hmark rfl⟩

theorem whole_pairLine {p : String × String} (hkey : Flush p.1) : Whole (pairLine p) := by
  obtain ⟨c, cs, hline, hwhite, hmark⟩ := head_pairLine hkey
  simp only [List.mem_cons, List.not_mem_nil, or_false, not_or] at hmark
  refine ⟨?_, ?_, ?_⟩
  · exact Text.trimStart_eq (by simp [hline, hwhite])
  · simp [hline, isSkipped, hmark]
  · have hsep : continues (escape true p.1.toList ++ ['=']) = false := continues_char (by decide) _
    have hvalue := (escapes_escape false p.2.toList).continues hsep
    simpa [pairLine] using hvalue

theorem pair_pairLine {p : String × String} (hkey : Flush p.1) (hvalue : Flush p.2) (n : Nat) :
    pair n (pairLine p) = .ok p := by
  have hk : String.ofList (Text.trim p.1.toList) = p.1 := Text.trimmed_eq hkey.1 hkey.2
  have hv : String.ofList (Text.trim p.2.toList) = p.2 := Text.trimmed_eq hvalue.1 hvalue.2
  rw [pair, pairLine, (escapes_escape true p.1.toList).splitPair]
  simp only [(escapes_escape true p.1.toList).unescape, (escapes_escape false p.2.toList).unescape, bind, Except.bind, hk,
    hv]
  rfl

/-! ### Documents -/

theorem document_cons (p : String × String) (pairs : List (String × String)) :
    document (p :: pairs) = pairLine p ++ '\n' :: document pairs := by simp [document, pairLine]

theorem lines_document (pairs : List (String × String)) : Text.lines (document pairs) = pairs.map pairLine := by
  induction pairs with
  | nil => simp [document, Text.lines_nil]
  | cons p pairs ih =>
    have hkey := (escapes_escape true p.1.toList).lineFree
    have hvalue := (escapes_escape false p.2.toList).lineFree
    have hfeed : '\n' ∉ pairLine p := by simp [pairLine, hkey, hvalue]
    have hreturn : (pairLine p).getLast? ≠ some '\r' := by
      intro hlast
      have hmem := List.mem_of_getLast? hlast
      simp [pairLine, hkey, hvalue] at hmem
    rw [document_cons, Text.lines_append hfeed hreturn, ih, List.map_cons]

/-- Lines that were written for pairs set these pairs, whatever their numbers. -/
theorem result_setLines {pairs : List (String × String)} (hflush : ∀ p ∈ pairs, Flush p.1 ∧ Flush p.2)
    {numbered : List (Nat × List Char)} (h : numbered.map Prod.snd = pairs.map pairLine) (s : Store) :
    (numbered.foldlM (fun store (line, text) => do
      let (key, value) ← Noted.of (pair line text)
      store.enter key value) s : Watched Store).result = .ok (s.setAll pairs) := by
  induction pairs generalizing numbered s with
  | nil =>
    rw [List.map_eq_nil_iff.mp h]
    rfl
  | cons p pairs ih =>
    obtain ⟨⟨n, line⟩, numbered, rfl, rfl, hrest⟩ := List.map_eq_cons_iff.mp h
    obtain ⟨⟨hkey, hvalue⟩, hflush⟩ := List.forall_mem_cons.mp hflush
    rw [List.foldlM_cons, Noted.result_bind, Noted.result_bind, Noted.result_of, pair_pairLine hkey hvalue]
    exact ih hflush hrest (s.set p.1 p.2)

theorem parse_render {store : Store} (hflush : ∀ p ∈ store.pairs, Flush p.1 ∧ Flush p.2) :
    (parse (store.render .properties)).result = .ok store := by
  have htext : (store.render .properties).toList = document store.pairs := String.toList_ofList
  have hall : Store.empty.setAll store.pairs = store :=
    Store.ext' (Assoc.insertAll_of_nodup (by simpa [Store.empty] using store.nodup))
  have hsnd : ((store.pairs.map pairLine).mapIdx fun i l => (i + 1, l)).map Prod.snd = store.pairs.map pairLine := by
    apply List.ext_getElem
    · simp
    · intro i _ _
      simp
  have hwhole : ∀ l ∈ (store.pairs.map pairLine).mapIdx fun i l => (i + 1, l), Whole l.2 := by
    intro l hl
    obtain ⟨p, hp, hline⟩ := List.mem_map.mp (hsnd ▸ List.mem_map_of_mem hl)
    exact hline ▸ whole_pairLine (hflush p hp).1
  rw [parse, htext, lines_document, logicalLines_eq hwhole]
  exact (result_setLines hflush hsnd Store.empty).trans (congrArg _ hall)

end Properties

namespace Document

/-- The properties document of a store reads back as the store, with its pairs in their order, wherever its keys and
    values have no white space at their ends. -/
theorem read_render_properties {store : Store} (hflush : ∀ p ∈ store.pairs, Flush p.1 ∧ Flush p.2) (lib : Library)
    (source : String) (dir : Option String) :
    ((Document.mk source .properties (store.render .properties) dir).read lib).result = .ok store :=
  result_read (fun _ => rfl) (Properties.parse_render hflush) lib

/-- Keys and values with what an escape must not mistake: separators, comment marks, line ends, and backslashes at the
    end and in front of a letter. -/
def awkward : Store where
  pairs := [("#a=b: c", "!x\\\\\\"), ("\\u0041\\", "= \t\r\n\x0c:"), ("", "#"), ("! k\\", "")]
  nodup := by decide

theorem read_awkward :
    ((Document.mk "store" .properties (awkward.render .properties) none).read
      ⟨⟨"/", fun _ => .error .missing, [], none, fun _ => none⟩, []⟩).result = .ok awkward := by
  refine read_render_properties ?_ _ _ _
  unfold Flush
  decide

end Document

end Settings
