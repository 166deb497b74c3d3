import Settings.Proofs.Dialect.PropertiesLines

/-! # Lines of a properties document that are cut

A line may be cut into pieces, each on a line of its own behind some indentation, if each but the last is followed by a
backslash. It is one logical line still, as long as the pieces end in even numbers of backslashes, so that the added one
is not escaped, and start with something else than white space, which would be taken for indentation. -/

namespace Settings.Properties

open Text (LineAt)

variable {before line after text piece indent cs : List Char}

/-! ### Pieces -/

/-- A place where a line is cut: the line end and the indentation that are put there, and the piece behind them. -/
structure Cut where
  ending : List Char
  indent : List Char
  piece : List Char

/-- A line may be cut here, behind this piece. -/
structure Cut.Follows (c : Cut) (piece : List Char) : Prop where
  filled : ∃ d ∈ piece, Text.isWhite d = false
  even : continues piece = false
  ending : c.ending = ['\n'] ∨ c.ending = ['\r', '\n']
  indent : ∀ d ∈ c.indent, Text.isBlank d
  flush : c.piece.head?.any Text.isWhite = false

/-- A line may be cut into a piece and the pieces behind it. -/
def Fit (piece : List Char) : List Cut → Prop
  | [] => True
  | c :: cuts => c.Follows piece ∧ Fit c.piece cuts

/-- The lines that a line is cut into. -/
def written (piece : List Char) : List Cut → List Char
  | [] => piece
  | c :: cuts => piece ++ '\\' :: (c.ending ++ (c.indent ++ written c.piece cuts))

/-- The line that is cut. -/
def whole (piece : List Char) (cuts : List Cut) : List Char := piece ++ cuts.flatMap Cut.piece

/-! ### Lines -/

theorem whole_cons (piece : List Char) (c : Cut) (cuts : List Cut) :
    whole piece (c :: cuts) = piece ++ whole c.piece cuts := by
  rw [whole, whole, List.flatMap_cons]

theorem lines_continued {c : Cut} (hending : c.ending = ['\n'] ∨ c.ending = ['\r', '\n']) (hcs : '\n' ∉ cs)
    (rest : List Char) : Text.lines (cs ++ '\\' :: (c.ending ++ rest)) = (cs ++ ['\\']) :: Text.lines rest := by
  have hline : '\n' ∉ cs ++ ['\\'] := by simp [hcs]
  rcases hending with hc | hc
  · have hsplit : cs ++ '\\' :: (c.ending ++ rest) = cs ++ ['\\'] ++ '\n' :: rest := by simp [hc]
    rw [hsplit, Text.lines_append hline (by simp)]
  · have hsplit : cs ++ '\\' :: (c.ending ++ rest) = cs ++ ['\\'] ++ ['\r'] ++ '\n' :: rest := by simp [hc]
    rw [hsplit, Text.lines_cons (by simp [hcs]), Text.withoutReturn_return]

theorem trimStart_indented (hindent : ∀ d ∈ indent, Text.isBlank d) (hflush : piece.head?.any Text.isWhite = false) :
    Text.trimStart (indent ++ piece) = piece := by
  rw [Text.trimStart, List.dropWhile_append_of_pos fun d hd => Text.isWhite_of_isBlank (hindent d hd)]
  exact Text.trimStart_eq hflush

/-- A text that goes on, joined with the next line. -/
theorem join_next (h : continues text = false) (n : Nat) (next : List Char) (rest : List (Nat × List Char)) :
    join (text ++ ['\\']) ((n, next) :: rest) = join (text ++ Text.trimStart next) rest := by
  rw [join, if_pos (by rw [continues_backslash, h]; rfl), List.dropLast_concat]

theorem continues_flush (h : continues text = false) (hflush : piece.head?.any Text.isWhite = false) :
    continues (text ++ piece) = continues piece := by
  have hjoined := continues_trimStart h piece
  rwa [Text.trimStart_eq hflush] at hjoined

/-- A text that goes on in a line that is cut is joined with all of it. -/
theorem join_written (hat : LineAt before line after) (htext : continues text = false)
    (hindent : ∀ d ∈ indent, Text.isBlank d) (hflush : piece.head?.any Text.isWhite = false) (hfit : Fit piece cuts)
    (hfeed : '\n' ∉ whole piece cuts) (hreturn : (whole piece cuts).getLast? = some '\r' → line.getLast? = some '\r') :
    join (text ++ ['\\']) ((Text.lines (indent ++ written piece cuts ++ after)).map (1, ·)) =
      join (text ++ whole piece cuts) ((Text.lines after).tail.map (1, ·)) := by
  -- The text read so far ends in an even number of backslashes at each cut, whatever the pieces before it hold.
  have hblank : '\n' ∉ indent ∧ '\r' ∉ indent :=
    ⟨fun hmem => absurd (hindent _ hmem) (by decide), fun hmem => absurd (hindent _ hmem) (by decide)⟩
  induction cuts generalizing text indent piece with
  | nil =>
    have hwhole : whole piece [] = piece := List.append_nil piece
    rw [hwhole] at hfeed hreturn ⊢
    by_cases hnone : indent ++ piece = [] ∧ after = []
    · obtain ⟨hline, rfl⟩ := hnone
      obtain ⟨rfl, rfl⟩ := List.append_eq_nil_iff.mp hline
      -- The text ends behind a backslash, and the last piece has no line of its own.
      have hlines : Text.lines ([] ++ written [] [] ++ []) = [] := Text.lines_nil
      rw [hlines, Text.lines_nil, List.append_nil, List.map_nil, List.tail_nil, List.map_nil, join, join, htext,
        if_pos (by rw [continues_backslash, htext]; rfl), List.dropLast_concat]
      rfl
    · have hlast : (indent ++ piece).getLast? = some '\r' → line.getLast? = some '\r' := by
        intro hlast
        rw [List.getLast?_append] at hlast
        cases hpiece : piece.getLast? with
        | some d =>
          rw [hpiece] at hlast hreturn
          exact hreturn hlast
        | none =>
          rw [hpiece] at hlast
          exact absurd (List.mem_of_getLast? hlast) hblank.2
      have hlines : Text.lines (indent ++ written piece [] ++ after) =
          (indent ++ piece) :: (Text.lines after).tail := by
        rw [written]
        refine hat.lines_ended_eq (by simp [hblank, hfeed]) ?_ hlast
        by_contra hne
        rw [not_or, not_not, not_not] at hne
        exact hnone hne
      rw [hlines, List.map_cons, join_next htext, trimStart_indented hindent hflush]
  | cons c cuts ih =>
    obtain ⟨hc, hfit⟩ := hfit
    rw [whole_cons] at hfeed hreturn ⊢
    simp only [List.mem_append, not_or] at hfeed
    have hsplit : indent ++ written piece (c :: cuts) ++ after =
        indent ++ piece ++ '\\' :: (c.ending ++ (c.indent ++ written c.piece cuts ++ after)) := by
      simp [written]
    have htrim : Text.trimStart (indent ++ piece ++ ['\\']) = piece ++ ['\\'] := by
      rw [Text.trimStart_append (by decide), trimStart_indented hindent hflush]
    have hnext : continues (text ++ piece) = false := (continues_flush htext hflush).trans hc.even
    have hlast : (whole c.piece cuts).getLast? = some '\r' → line.getLast? = some '\r' := by
      intro hlast
      exact hreturn (by rw [List.getLast?_append, hlast]; rfl)
    rw [hsplit, lines_continued hc.ending (by simp [hblank, hfeed]), List.map_cons, join_next htext, htrim,
      ← List.append_assoc, ← List.append_assoc]
    exact ih hnext hc.indent hc.flush hfit hfeed.2 hlast
      ⟨fun hmem => absurd (hc.indent _ hmem) (by decide), fun hmem => absurd (hc.indent _ hmem) (by decide)⟩

/-- A line that holds a pair, joined with those that it goes on in. -/
theorem texts_pair {raw : List Char} (h : isSkipped (Text.trimStart raw) = false) (more : List (List Char)) :
    texts (raw :: more) = (join (Text.trimStart raw) (more.map (1, ·))).1 ::
      (logicalLines (join (Text.trimStart raw) (more.map (1, ·))).2).map Prod.snd := by
  rw [texts, List.map_cons, logicalLines, if_neg (by simp [h]), List.map_cons]

/-- A piece that holds more than white space decides alone whether its line is skipped. -/
theorem isSkipped_append (h : ∃ d ∈ piece, Text.isWhite d = false) (more : List Char) :
    Text.trimStart (piece ++ more) = Text.trimStart piece ++ more ∧
      isSkipped (Text.trimStart (piece ++ more)) = isSkipped (Text.trimStart piece) := by
  obtain ⟨d, hd, hwhite⟩ := h
  obtain ⟨front, back, rfl⟩ := List.append_of_mem hd
  rw [List.append_assoc, List.cons_append, Text.trimStart_append hwhite, Text.trimStart_append hwhite]
  refine ⟨by simp, ?_⟩
  cases Text.trimStart front with
  | _ => rfl

/-- The logical lines of a document are those of the document where a line is cut. -/
theorem texts_written (hat : LineAt before (whole piece cuts) after) (hon : goesOn false (Text.lines before) = false)
    (hfit : Fit piece cuts) (hpair : isSkipped (Text.trimStart (whole piece cuts)) = false) :
    texts (Text.lines (before ++ written piece cuts ++ after)) =
      texts (Text.lines (before ++ whole piece cuts ++ after)) := by
  cases cuts with
  | nil => rw [written, whole, List.flatMap_nil, List.append_nil]
  | cons c cuts =>
    obtain ⟨hc, hfit⟩ := hfit
    have hne : whole piece (c :: cuts) ≠ [] := fun hnil => by simp [hnil, Text.trimStart, isSkipped] at hpair
    have hlines := hat.lines_eq hne
    have hfeed := hat.feed
    have hlast : (whole c.piece cuts).getLast? = some '\r' → (whole piece (c :: cuts)).getLast? = some '\r' := by
      intro hlast
      rw [whole_cons, List.getLast?_append, hlast]
      rfl
    rw [whole_cons] at hfeed hpair hlines ⊢
    simp only [List.mem_append, not_or] at hfeed
    obtain ⟨hjoined, hskip⟩ := isSkipped_append hc.filled (whole c.piece cuts)
    obtain ⟨hfirst, hskip'⟩ := isSkipped_append hc.filled ['\\']
    have hsplit : before ++ written piece (c :: cuts) ++ after =
        before ++ (piece ++ '\\' :: (c.ending ++ (c.indent ++ written c.piece cuts ++ after))) := by
      simp [written]
    have hpiece : continues ([] ++ Text.trimStart piece) = continues piece := continues_trimStart rfl piece
    have htext : continues (Text.trimStart piece) = false := hpiece.trans hc.even
    rw [hsplit, hat.lines_front, lines_continued hc.ending hfeed.1, hlines, texts_append hon, texts_append hon,
      texts_pair hpair, texts_pair (hskip'.trans (hskip.symm.trans hpair)), hfirst, hjoined,
      join_written hat htext hc.indent hc.flush hfit hfeed.2 hlast]

/-! ### Documents -/

/-- A line that is no comment may be cut into any number of pieces, on lines that are indented in any way: the document
    still reads as the same store, or it still fails. Each piece but the last holds more than white space and ends in an
    even number of backslashes, and one more is put behind it; each but the first starts with something else than white
    space. -/
theorem parse_written {before after : String} (hat : LineAt before.toList (whole piece cuts) after.toList)
    (hon : goesOn false (Text.lines before.toList) = false) (hfit : Fit piece cuts)
    (hpair : isSkipped (Text.trimStart (whole piece cuts)) = false) :
    (parse (before ++ String.ofList (written piece cuts) ++ after)).result.toOption =
      (parse (before ++ String.ofList (whole piece cuts) ++ after)).result.toOption := by
  rw [toOption_parse, toOption_parse]
  simp only [String.toList_append, String.toList_ofList]
  rw [texts_written hat hon hfit hpair]

/-- The first line is a comment, which does not go on. The last piece is empty. -/
theorem parse_written_key :
    (parse ("# c\\\n" ++ "  k\\\r\n\t ey = a\\\\\\\nb\\\n" ++ "\nz: 1")).result.toOption.map Store.pairs =
      some [("key", "a\\b"), ("z", "1")] := by
  have hfit : Fit "  k".toList
      [⟨['\r', '\n'], ['\t', ' '], "ey = a\\\\".toList⟩, ⟨['\n'], [], ['b']⟩, ⟨['\n'], [], []⟩] := by
    refine ⟨⟨⟨'k', by decide, rfl⟩, rfl, .inr rfl, List.all_eq_true.mp rfl, rfl⟩, ?_⟩
    refine ⟨⟨⟨'a', by decide, rfl⟩, rfl, .inl rfl, List.forall_mem_nil _, rfl⟩, ?_⟩
    exact ⟨⟨⟨'b', by decide, rfl⟩, rfl, .inl rfl, List.forall_mem_nil _, rfl⟩, trivial⟩
  have hat : LineAt "# c\\\n".toList "  key = a\\\\b".toList "\nz: 1".toList :=
    ⟨.inr (by decide), by decide, .inr (.inr ⟨⟨_, rfl⟩, by decide⟩)⟩
  refine (congrArg (Option.map Store.pairs) (parse_written hat (by decide +kernel) hfit (by decide))).trans ?_
  decide +kernel

end Settings.Properties
