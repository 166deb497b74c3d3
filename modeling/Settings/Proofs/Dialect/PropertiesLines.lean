import Settings.Proofs.Dialect.PropertiesRoundTrip

/-! # The logical lines of a properties document

Lines of which the last one does not go on are joined on their own, whatever comes behind them. What a document reads
as, if it reads as anything, depends on the texts of its logical lines only and not on their numbers. -/

namespace Settings.Properties

variable {lines : List (List Char)}

/-! ### Lines that go on -/

/-- The last of some lines goes on in the next line; `on` says whether a line before them goes on in the first one. A line
    that is skipped does not go on, unless the one before it does. -/
def goesOn (on : Bool) (lines : List (List Char)) : Bool :=
  lines.foldl (fun on raw => (on || !isSkipped (Text.trimStart raw)) && continues raw) on

/-- Only what stands at the end of a line says whether it goes on. -/
theorem continues_trimStart {text : List Char} (h : continues text = false) (raw : List Char) :
    continues (text ++ Text.trimStart raw) = continues raw := by
  induction raw using List.reverseRecOn with
  | nil => rw [Text.trimStart, List.dropWhile_nil, List.append_nil, h]; rfl
  | append_singleton raw c ih =>
    by_cases hb : c = '\\'
    · subst hb
      rw [Text.trimStart_append (by decide), ← List.append_assoc, continues_backslash, continues_backslash, ih]
    · rw [continues_char hb, Text.trimStart, List.dropWhile_append]
      split
      · by_cases hwhite : Text.isWhite c
        · rw [List.dropWhile_cons_of_pos hwhite, List.dropWhile_nil, List.append_nil, h]
        · rw [List.dropWhile_cons_of_neg hwhite, continues_char hb]
      · rw [← List.append_assoc, continues_char hb]

theorem continues_dropLast {text : List Char} (h : continues text) : continues text.dropLast = false := by
  rcases List.eq_nil_or_concat text with rfl | ⟨init, c, rfl⟩
  · exact absurd h (by decide)
  · rw [List.concat_eq_append] at h ⊢
    by_cases hb : c = '\\'
    · rw [hb, continues_backslash] at h
      rw [List.dropLast_concat]
      simpa using h
    · rw [continues_char hb] at h
      cases h

/-- What is joined ends before the lines that come behind. -/
theorem join_append (text : List Char) (ls ms : List (Nat × List Char))
    (h : goesOn (continues text) (ls.map Prod.snd) = false) :
    join text (ls ++ ms) = ((join text ls).1, (join text ls).2 ++ ms) ∧
      goesOn false ((join text ls).2.map Prod.snd) = false := by
  induction ls generalizing text with
  | nil =>
    have htext : continues text = false := h
    cases ms with
    | nil => simp [join, goesOn]
    | cons m ms => simp [join, htext, goesOn]
  | cons p ls ih =>
    obtain ⟨n, next⟩ := p
    by_cases htext : continues text
    · have hnext : continues (text.dropLast ++ Text.trimStart next) = continues next :=
        continues_trimStart (continues_dropLast htext) next
      rw [List.cons_append, join, join, if_pos htext, if_pos htext]
      refine ih _ ?_
      rw [hnext]
      simpa [goesOn, htext] using h
    · rw [List.cons_append, join, join, if_neg htext, if_neg htext]
      exact ⟨rfl, by simpa [htext] using h⟩

/-- Lines of which the last one does not go on are read on their own. -/
theorem logicalLines_append (ls ms : List (Nat × List Char)) (h : goesOn false (ls.map Prod.snd) = false) :
    logicalLines (ls ++ ms) = logicalLines ls ++ logicalLines ms := by
  fun_induction logicalLines ls with
  | case1 => rfl
  | case2 n raw rest hskip ih =>
    rw [List.cons_append, logicalLines, if_pos hskip]
    refine ih ?_
    simpa [goesOn, hskip] using h
  | case3 n raw rest hskip joined ih =>
    have hraw : continues (Text.trimStart raw) = continues raw := @continues_trimStart [] rfl raw
    obtain ⟨hjoin, hrest⟩ := join_append (Text.trimStart raw) rest ms (by
      rw [hraw]
      simpa [goesOn, hskip] using h)
    rw [List.cons_append, logicalLines, if_neg hskip]
    simp only [hjoin, List.cons_append]
    rw [ih hrest]

/-! ### Lines without their numbers -/

/-- The same lines, all with one number. -/
def unnumbered (p : Nat × List Char) : Nat × List Char := (1, p.2)

theorem join_unnumbered (text : List Char) (ls : List (Nat × List Char)) :
    join text (ls.map unnumbered) = ((join text ls).1, (join text ls).2.map unnumbered) := by
  induction ls generalizing text with
  | nil => rfl
  | cons p ls ih =>
    obtain ⟨n, next⟩ := p
    rw [List.map_cons, unnumbered, join, join]
    split
    · exact ih _
    · rfl

theorem logicalLines_unnumbered (ls : List (Nat × List Char)) :
    logicalLines (ls.map unnumbered) = (logicalLines ls).map unnumbered := by
  fun_induction logicalLines ls with
  | case1 => rw [List.map_nil, logicalLines]
  | case2 n raw rest hskip ih => rw [List.map_cons, unnumbered, logicalLines, if_pos hskip, ih]
  | case3 n raw rest hskip joined ih =>
    rw [List.map_cons, unnumbered, logicalLines, if_neg hskip, join_unnumbered]
    simp only [List.map_cons, ← ih]
    rfl

/-- The logical lines, without their numbers. -/
def texts (lines : List (List Char)) : List (List Char) := (logicalLines (lines.map (1, ·))).map Prod.snd

theorem texts_append (h : goesOn false lines = false) (more : List (List Char)) :
    texts (lines ++ more) = texts lines ++ texts more := by
  have hlines : (lines.map ((1 : Nat), ·)).map Prod.snd = lines := (List.map_map ..).trans (List.map_id _)
  rw [texts, List.map_append, logicalLines_append _ _ (by rw [hlines, h]), List.map_append]
  rfl

theorem texts_skipped {raw : List Char} (h : isSkipped (Text.trimStart raw)) (more : List (List Char)) :
    texts (raw :: more) = texts more := by
  rw [texts, List.map_cons, logicalLines, if_pos h]
  rfl

/-! ### The store of a document -/

/-- Sets the pair of a logical line. -/
def put? (s : Store) (text : List Char) : Option Store := (pair 1 text).toOption.map fun p => s.set p.1 p.2

theorem toOption_unescape (n n' : Nat) (cs : List Char) : (unescape n cs).toOption = (unescape n' cs).toOption := by
  fun_induction unescape n cs with
  | case1 => rw [unescape]
  | case2 c cs hc ih =>
    rw [unescape.eq_def n']
    simp only [if_pos hc, toOption_map, ih]
  | case3 c hc =>
    rw [unescape.eq_def n']
    simp only [if_neg hc]
  | case4 c hc ds d hd ih =>
    rw [unescape.eq_def n']
    simp only [if_neg hc, if_pos, hd, toOption_map, ih]
  | case5 c hc ds hd =>
    rw [unescape.eq_def n']
    simp only [if_neg hc, if_pos, hd]
    rfl
  | case6 c hc e ds he ih =>
    rw [unescape.eq_def n']
    simp only [if_neg hc, if_neg he, toOption_map, ih]

theorem toOption_pair (n n' : Nat) (text : List Char) : (pair n text).toOption = (pair n' text).toOption := by
  unfold pair
  simp only [toOption_bind, toOption_unescape n n']

/-- The logical lines of a document, each with the number of its first line. -/
def logical (text : String) : List (Nat × List Char) :=
  logicalLines ((Text.lines text.toList).mapIdx fun i l => (i + 1, l))

theorem texts_lines (text : String) : texts (Text.lines text.toList) = (logical text).map Prod.snd := by
  rw [logical]
  generalize Text.lines text.toList = lines
  have hnumbers : lines.map (1, ·) = (lines.mapIdx fun i l => (i + 1, l)).map unnumbered :=
    List.ext_getElem (by simp) fun i hi hi' => by simp [unnumbered]
  rw [texts, hnumbers, logicalLines_unnumbered, List.map_map]
  rfl

/-- Sets the pair of a logical line that has a number. -/
def put (s : Store) (p : Nat × List Char) : Watched Store := do
  let (key, value) ← Noted.of (pair p.1 p.2)
  s.enter key value

theorem parse_eq (text : String) : parse text = (logical text).foldlM put Store.empty := rfl

theorem toOption_put (s : Store) (p : Nat × List Char) : (put s p).result.toOption = put? s p.2 := by
  rw [put, put?, ← toOption_pair p.1 1, Noted.result_bind, Noted.result_of]
  cases pair p.1 p.2 with
  | _ => rfl

/-- The numbers of lines count for faults only. -/
theorem toOption_parse (text : String) :
    (parse text).result.toOption = (texts (Text.lines text.toList)).foldlM put? Store.empty := by
  rw [texts_lines, parse_eq]
  generalize logical text = ls
  generalize Store.empty = s
  induction ls generalizing s with
  | nil => rfl
  | cons p ls ih =>
    rw [List.map_cons, List.foldlM_cons, List.foldlM_cons, Noted.result_bind, toOption_bind, toOption_put]
    exact congrArg (Option.bind _) (funext ih)

end Settings.Properties
