import Settings.Proofs.Text.Listing

/-! # Splitting undoes joining

The scan of a list keeps a count of open brackets, the quote that is open, and whether its element has begun; behind a
comma that separates, it starts anew. So a text behind which it stands outside of quotes and brackets again is one
element of every list that it is a part of, and the elements of parts that are joined with commas are those of the
parts. White space at either end of a list does not count. -/

namespace Settings.Text

variable {q c : Char} {a b cs front back item part text : List Char} {parts : List (List Char)}
  {depth : Nat} {quote : Option Char} {fresh : Bool}

/-! ### White space around a text -/

theorem trim_padded (hfront : ∀ c ∈ front, isWhite c) (hback : ∀ c ∈ back, isWhite c) (cs : List Char) :
    trim (front ++ cs ++ back) = trim cs := by
  have hend : ∀ cs : List Char, trimEnd (cs ++ back) = trimEnd cs := fun cs => by
    rw [trimEnd, List.reverse_append, List.dropWhile_append_of_pos (by simpa using hback), trimEnd]
  rw [List.append_assoc, trim_append hfront, trim, trimStart, List.dropWhile_append]
  split
  · next hblank =>
    have hstart : cs.dropWhile isWhite = [] := List.isEmpty_iff.mp hblank
    have hnone : back.dropWhile isWhite = [] := List.dropWhile_eq_nil_iff.mpr hback
    rw [hnone, trim, trimStart, hstart]
  · rw [hend, trim, trimStart]

/-- A text stands between the white space that is trimmed from it. -/
theorem exists_padding (cs : List Char) :
    ∃ front back, (∀ c ∈ front, isWhite c) ∧ (∀ c ∈ back, isWhite c) ∧ cs = front ++ trim cs ++ back := by
  refine ⟨cs.takeWhile isWhite, ((trimStart cs).reverse.takeWhile isWhite).reverse,
    fun c hc => List.mem_takeWhile_imp hc, fun c hc => List.mem_takeWhile_imp (List.mem_reverse.mp hc), ?_⟩
  rw [List.append_assoc, trim, trimEnd, ← List.reverse_append, List.takeWhile_append_dropWhile, List.reverse_reverse,
    trimStart, List.takeWhile_append_dropWhile]

theorem trim_trim (cs : List Char) : trim (trim cs) = trim cs := by
  obtain ⟨front, back, hfront, hback, hcs⟩ := exists_padding cs
  have htrim := trim_padded hfront hback (trim cs)
  rwa [← hcs, eq_comm] at htrim

/-- A text that is trimmed to itself neither starts nor ends with white space. -/
theorem trim_eq_iff :
    trim cs = cs ↔ cs.head?.any isWhite = false ∧ cs.getLast?.any isWhite = false := by
  refine ⟨fun h => ⟨?_, ?_⟩, fun h => trim_eq h.1 h.2⟩
  · cases cs with
    | nil => rfl
    | cons c cs =>
      cases hc : isWhite c with
      | false => simpa using hc
      | true =>
        have htrim : trim (c :: cs) = trim cs := trim_append (a := [c]) (by simpa using hc) cs
        have hle := (trim_sublist cs).length_le
        rw [← htrim, h, List.length_cons] at hle
        omega
  · rcases List.eq_nil_or_concat cs with rfl | ⟨front, c, rfl⟩
    · rfl
    · rw [List.concat_eq_append] at h ⊢
      cases hc : isWhite c with
      | false => simpa using hc
      | true =>
        have htrim : trim ([] ++ front ++ [c]) = trim front :=
          trim_padded (List.forall_mem_nil _) (by simpa using hc) front
        have hle := (trim_sublist front).length_le
        rw [← htrim, List.nil_append, h, List.length_append, List.length_singleton] at hle
        omega

theorem trim_ne_nil (hc : isWhite c = false) (hmem : c ∈ cs) : trim cs ≠ [] :=
  List.ne_nil_of_mem ((mem_trim hc).mpr hmem)

/-- An element is told by its text without the white space around it. -/
theorem element_congr (h : trim a = trim b) : element a = element b := by
  by_cases hquoted : Quoted a
  · obtain ⟨q, inner, hq, ha⟩ := hquoted
    rw [element, element, unquote_of_trim hq ha, unquote_of_trim hq (h ▸ ha)]
  · have hb : ¬ Quoted b := by
      rintro ⟨q, inner, hq, hb⟩
      exact hquoted ⟨q, inner, hq, h ▸ hb⟩
    rw [element, element, unquote_eq_iff.mpr hquoted, unquote_eq_iff.mpr hb, h]

/-- A text that does not begin with a quote is only trimmed. -/
theorem element_of_front (hfront : ∀ c ∈ front, isWhite c) (hc : isWhite c = false) (hquote : c ≠ '"' ∧ c ≠ '\'')
    (cs : List Char) : element (front ++ c :: cs) = c :: trimEnd cs := by
  have htrim : trim (front ++ c :: cs) = c :: trimEnd cs := (trim_append hfront _).trans (trim_around hc [] cs)
  have hplain : ¬ Quoted (front ++ c :: cs) := by
    rintro ⟨q, inner, hq, hquoted⟩
    rw [htrim, List.cons_append] at hquoted
    obtain ⟨rfl, -⟩ := List.cons.inj hquoted
    exact not_or.mpr hquote hq
  rw [element, unquote_eq_iff.mpr hplain, htrim]

/-! ### White space at the ends of a list -/

theorem ne_of_isWhite (hc : isWhite c) (hq : isWhite q = false) : c ≠ q := by
  rintro rfl
  rw [hc] at hq
  cases hq

theorem not_mem_white (hfront : ∀ c ∈ front, isWhite c) (hq : isWhite q = false) : q ∉ front :=
  fun hmem => ne_of_isWhite (hfront q hmem) hq rfl

/-- White space is added to the element and changes nothing else. -/
theorem elements_white (hfront : ∀ c ∈ front, isWhite c) (depth : Nat) (fresh : Bool) (item cs : List Char) :
    elements depth none fresh item (front ++ cs) = elements depth none fresh (item ++ front) cs := by
  induction front generalizing item with
  | nil => rw [List.nil_append, List.append_nil]
  | cons c front ih =>
    obtain ⟨hc, hfront⟩ := List.forall_mem_cons.mp hfront
    have hne : ∀ q, isWhite q = false → c ≠ q := fun _ => ne_of_isWhite hc
    rw [List.cons_append, elements]
    simp only [hne ',' rfl, hne '"' rfl, hne '\'' rfl, hne '[' rfl, hne '{' rfl, hne ']' rfl, hne '}' rfl, hc,
      or_self, false_and, if_false, Bool.and_true, ih hfront, List.append_assoc, List.singleton_append]

theorem elements_front (hfront : ∀ c ∈ front, isWhite c) (depth : Nat) (quote : Option Char) (fresh : Bool)
    (item cs : List Char) :
    elements depth quote fresh (front ++ item) cs = elements depth quote fresh item cs := by
  have helement : ∀ item, element (front ++ item) = element item := fun item => element_congr (trim_append hfront item)
  induction cs generalizing depth quote fresh item with
  | nil => rw [elements, elements, helement]
  | cons c cs ih =>
    cases quote with
    | some q => rw [elements, elements, List.append_assoc, ih]
    | none => simp only [elements, List.append_assoc, ih, helement]

/-- In a quote that is not closed, everything belongs to the element. -/
theorem elements_of_openQuote (h : q ∉ cs) (depth : Nat) (fresh : Bool) (item : List Char) :
    elements depth (some q) fresh item cs = [element (item ++ cs)] := by
  induction cs generalizing item with
  | nil => rw [elements, List.append_nil]
  | cons c cs ih =>
    obtain ⟨hc, hcs⟩ := not_or.mp (mt List.mem_cons.mpr h)
    rw [elements, if_neg (Ne.symm hc), ih hcs, List.append_assoc, List.singleton_append]

theorem elements_back (hback : ∀ c ∈ back, isWhite c) (hquote : ∀ q ∈ quote, isWhite q = false) (depth : Nat)
    (fresh : Bool) (item cs : List Char) :
    elements depth quote fresh item (cs ++ back) = elements depth quote fresh item cs := by
  have hnone : ∀ q ∈ (none : Option Char), isWhite q = false := nofun
  induction cs generalizing depth quote fresh item with
  | nil =>
    have hitem : element (item ++ back) = element item :=
      element_congr (trim_padded (List.forall_mem_nil _) hback item)
    rw [List.nil_append, elements, ← hitem]
    cases quote with
    | none =>
      have hwhite := elements_white hback depth fresh item []
      rwa [List.append_nil, elements] at hwhite
    | some q => exact elements_of_openQuote (not_mem_white hback (hquote q rfl)) depth fresh item
  | cons c cs ih =>
    cases quote with
    | some q =>
      have hstays : ∀ p ∈ (if c = q then none else some q), isWhite p = false := by
        split
        · exact hnone
        · exact hquote
      rw [List.cons_append, elements, elements, ih hstays]
    | none =>
      rw [List.cons_append, elements, elements]
      split
      · rw [ih hnone]
      split
      · next hq =>
        have hopened : ∀ p ∈ some c, isWhite p = false := by
          rintro p hp
          cases hp
          rcases hq.1 with rfl | rfl
          · rfl
          · rfl
        rw [ih hopened]
      · rw [ih hnone]

/-- The elements of a list do not depend on the white space at its ends. -/
theorem elements_trim (cs : List Char) : elements 0 none true [] (trim cs) = elements 0 none true [] cs := by
  obtain ⟨front, back, hfront, hback, hcs⟩ := exists_padding cs
  have hnone : ∀ q ∈ (none : Option Char), isWhite q = false := nofun
  have hpadded : elements 0 none true [] (front ++ (trim cs ++ back)) = elements 0 none true [] (trim cs) := by
    have hitem := elements_front hfront 0 none true [] (trim cs ++ back)
    rw [List.append_nil] at hitem
    rw [elements_white hfront, List.nil_append, hitem, elements_back hback hnone]
  rw [← List.append_assoc, ← hcs] at hpadded
  exact hpadded.symm

/-- White space around a list does not count. -/
theorem splitList_trim (cs : List Char) : splitList (String.ofList (trim cs)) = splitList (String.ofList cs) := by
  simp only [splitList, String.toList_ofList, trim_trim]

/-- A list that stands in no brackets is split into its elements. -/
theorem splitList_open (hopen : encloses (trim cs) = false) (hne : trim cs ≠ []) :
    splitList (String.ofList cs) = (elements 0 none true [] cs).map String.ofList := by
  simp only [splitList, String.toList_ofList, hopen, Bool.false_eq_true, if_false, trim_trim, if_neg hne, elements_trim]

/-- A list that stands in brackets is split into the elements between them. -/
theorem splitList_enclosed (hfront : ∀ c ∈ front, isWhite c) (hback : ∀ c ∈ back, isWhite c)
    (hclosed : encloses ('[' :: cs ++ [']']) = true) :
    splitList (String.ofList (front ++ ('[' :: cs ++ [']']) ++ back)) =
      if trim cs = [] then [] else (elements 0 none true [] cs).map String.ofList := by
  have htrim : trim ('[' :: cs ++ [']']) = '[' :: cs ++ [']'] := trim_between rfl rfl cs
  have hbody : ('[' :: cs ++ [']']).tail.dropLast = cs := by simp
  simp only [splitList, String.toList_ofList, trim_padded hfront hback, htrim, hclosed, if_true, hbody]

/-! ### Parts of a list -/

/-- A text that is one element of a list: behind it the scan stands outside of quotes and brackets, as before it. -/
def Unbroken (part : List Char) : Prop :=
  ∃ fresh, ∀ cs, elements 0 none true [] (part ++ cs) = elements 0 none fresh part cs

theorem Unbroken.comma (h : Unbroken part) (cs : List Char) :
    elements 0 none true [] (part ++ ',' :: cs) = element part :: elements 0 none true [] cs := by
  obtain ⟨fresh, hscan⟩ := h
  rw [hscan, elements, if_pos ⟨rfl, rfl⟩]

theorem Unbroken.last (h : Unbroken part) : elements 0 none true [] part = [element part] := by
  obtain ⟨fresh, hscan⟩ := h
  have hend := hscan []
  rwa [List.append_nil, elements] at hend

theorem exists_intercalate (sep part : List Char) (parts : List (List Char)) :
    ∃ more, sep.intercalate (part :: parts) = part ++ more := by
  cases parts with
  | nil => exact ⟨[], by simp⟩
  | cons p parts => exact ⟨sep ++ sep.intercalate (p :: parts), by rw [List.intercalate_cons_cons, List.append_assoc]⟩

/-- The elements of parts that are joined with commas are those of the parts. -/
theorem elements_intercalate (hne : parts ≠ []) (h : ∀ p ∈ parts, Unbroken p) :
    elements 0 none true [] ([','].intercalate parts) = parts.map element := by
  induction parts with
  | nil => exact absurd rfl hne
  | cons p parts ih =>
    obtain ⟨hp, hparts⟩ := List.forall_mem_cons.mp h
    cases parts with
    | nil => simpa using hp.last
    | cons p' parts =>
      rw [List.intercalate_cons_cons, List.append_assoc, List.singleton_append, hp.comma,
        ih (List.cons_ne_nil p' parts) hparts]
      rfl

/-- In front of anything but a quote it does not count whether the element has begun, as long as it begins there. -/
theorem elements_begun (hc : isWhite c = false) (hquote : c ≠ '"' ∧ c ≠ '\'') (depth : Nat) (item cs : List Char) :
    elements depth none true item (c :: cs) = elements depth none false item (c :: cs) := by
  simp only [elements, hquote, hc, or_self, false_and, if_false, Bool.and_false]

/-- A text without a quote at its front and without a comma outside of brackets, all of which are closed. -/
theorem Unbroken.of_opened (hfront : ∀ c ∈ front, isWhite c) (hc : isWhite c = false) (hquote : c ≠ '"' ∧ c ≠ '\'')
    (hopened : opened 0 (c :: text) = some 0) : Unbroken (front ++ c :: text) := by
  refine ⟨false, fun cs => ?_⟩
  rw [List.append_assoc, elements_white hfront, List.cons_append, elements_begun hc hquote, ← List.cons_append,
    elements_of_opened hopened, List.nil_append]

/-- A text in quotes that it does not hold, with white space around them. -/
theorem Unbroken.of_quotes (hfront : ∀ c ∈ front, isWhite c) (hback : ∀ c ∈ back, isWhite c)
    (hq : q = '"' ∨ q = '\'') (htext : q ∉ text) : Unbroken (front ++ (q :: text ++ [q]) ++ back) := by
  refine ⟨false, fun cs => ?_⟩
  have hcomma : ¬(q = ',' ∧ (0 : Nat) = 0) := by
    rcases hq with rfl | rfl
    · decide
    · decide
  have hsplit : front ++ (q :: text ++ [q]) ++ back ++ cs = front ++ q :: (text ++ q :: (back ++ cs)) := by simp
  rw [hsplit, elements_white hfront, elements, if_neg hcomma, if_pos ⟨hq, rfl⟩, elements_of_quote htext,
    elements_white hback]
  simp

theorem opened_of_not_mem (h : ∀ c ∈ [',', '[', ']', '{', '}'], c ∉ text) (depth : Nat) :
    opened depth text = some depth := by
  induction text with
  | nil => rfl
  | cons c text ih =>
    have hne : ∀ d ∈ [',', '[', ']', '{', '}'], c ≠ d := by
      rintro d hd rfl
      exact h c hd List.mem_cons_self
    have hrest : opened depth text = some depth := ih fun d hd hmem => h d hd (List.mem_cons_of_mem c hmem)
    simp only [List.forall_mem_cons] at hne
    simp only [opened, hne, or_self, false_and, if_false, hrest]

theorem opened_white (hfront : ∀ c ∈ front, isWhite c) (depth : Nat) : opened depth front = some depth := by
  have hmarks : ∀ d ∈ [',', '[', ']', '{', '}'], (!isWhite d) = true := List.all_eq_true.mp (by decide)
  exact opened_of_not_mem (fun d hd => not_mem_white hfront (by simpa using hmarks d hd)) depth

/-! ### Elements as they are written -/

/-- An element as it is written: perhaps in quotes, and with white space around it. -/
structure Written where
  quote : Option Char
  text : List Char
  front : List Char
  back : List Char

namespace Written

def chars (w : Written) : List Char :=
  w.front ++ (match w.quote with
    | some q => q :: w.text ++ [q]
    | none => w.text) ++ w.back

/-- The quotes do not occur between them. Without quotes the text is not blank, begins with none, and holds no commas
    and no brackets of either kind. -/
structure Sound (w : Written) : Prop where
  front : ∀ c ∈ w.front, isWhite c
  back : ∀ c ∈ w.back, isWhite c
  quoted : ∀ q ∈ w.quote, (q = '"' ∨ q = '\'') ∧ q ∉ w.text
  nonblank : w.quote = none → trim w.text ≠ []
  begins : w.quote = none → ∀ c ∈ (trimStart w.text).head?, c ≠ '"' ∧ c ≠ '\''
  plain : w.quote = none → ∀ c ∈ [',', '[', ']', '{', '}'], c ∉ w.text

instance : DecidablePred Sound := fun w =>
  -- Not by way of all characters there are.
  haveI (o : Option Char) (p : Char → Prop) [DecidablePred p] : Decidable (∀ c ∈ o, p c) := Option.decidableForallMem o
  haveI (cs : List Char) (p : Char → Prop) [DecidablePred p] : Decidable (∀ c ∈ cs, p c) := List.decidableBAll p cs
  decidable_of_iff
    (w.front.all isWhite ∧ w.back.all isWhite ∧ (∀ q ∈ w.quote, (q = '"' ∨ q = '\'') ∧ q ∉ w.text) ∧
      (w.quote = none → trim w.text ≠ []) ∧
      (w.quote = none → ∀ c ∈ (trimStart w.text).head?, c ≠ '"' ∧ c ≠ '\'') ∧
      (w.quote = none → ∀ c ∈ [',', '[', ']', '{', '}'], c ∉ w.text))
    ⟨fun ⟨front, back, quoted, nonblank, begins, plain⟩ =>
        ⟨List.all_eq_true.mp front, List.all_eq_true.mp back, quoted, nonblank, begins, plain⟩,
      fun h => ⟨List.all_eq_true.mpr h.front, List.all_eq_true.mpr h.back, h.quoted, h.nonblank, h.begins, h.plain⟩⟩

variable {w : Written} {ws : List Written}

/-- The front of an element without quotes. -/
theorem Sound.exists_text (h : w.Sound) (hbare : w.quote = none) :
    ∃ blank c text, (∀ c ∈ blank, isWhite c) ∧ isWhite c = false ∧ (c ≠ '"' ∧ c ≠ '\'') ∧ w.text = blank ++ c :: text := by
  cases hstart : trimStart w.text with
  | nil =>
    refine absurd ?_ (h.nonblank hbare)
    rw [trim, hstart]
    rfl
  | cons c text =>
    have hsplit := List.takeWhile_append_dropWhile (p := isWhite) (l := w.text)
    unfold trimStart at hstart
    rw [hstart] at hsplit
    have hc : isWhite c = false := by
      have hhead := List.head?_dropWhile_not isWhite w.text
      rw [hstart] at hhead
      simpa using hhead
    exact ⟨_, c, text, fun _ hmem => List.mem_takeWhile_imp hmem, hc, h.begins hbare c (by simp [trimStart, hstart]),
      hsplit.symm⟩

theorem Sound.unbroken (h : w.Sound) : Unbroken w.chars := by
  unfold chars
  cases hquote : w.quote with
  | some q =>
    obtain ⟨hq, htext⟩ := h.quoted q hquote
    exact .of_quotes h.front h.back hq htext
  | none =>
    obtain ⟨blank, c, text, hblank, hc, hne, htext⟩ := h.exists_text hquote
    have hplain : opened 0 (c :: text) = some 0 :=
      opened_of_not_mem (fun d hd hmem => h.plain hquote d hd (htext ▸ List.mem_append_right _ hmem)) 0
    have hopened : opened 0 (c :: text ++ w.back) = some 0 := by rw [opened_append hplain, opened_white h.back]
    have hfront : ∀ c ∈ w.front ++ blank, isWhite c := List.forall_mem_append.mpr ⟨h.front, hblank⟩
    have hsplit : w.front ++ w.text ++ w.back = w.front ++ blank ++ c :: (text ++ w.back) := by
      rw [htext]
      simp
    rw [hsplit]
    exact .of_opened hfront hc hne hopened

/-- An element is its text, without the quotes around it and without white space at its ends. -/
theorem Sound.element_chars (h : w.Sound) : element w.chars = trim w.text := by
  unfold chars
  cases hquote : w.quote with
  | some q =>
    obtain ⟨hq, -⟩ := h.quoted q hquote
    have hwhite : isWhite q = false := by
      rcases hq with rfl | rfl
      · rfl
      · rfl
    have htrim : trim (w.front ++ (q :: w.text ++ [q]) ++ w.back) = q :: w.text ++ [q] :=
      (trim_padded h.front h.back _).trans (trim_between hwhite hwhite w.text)
    rw [element, unquote_of_trim hq htrim]
  | none =>
    obtain ⟨blank, c, text, hblank, hc, hne, htext⟩ := h.exists_text hquote
    have htrim : trim w.text = c :: trimEnd text := by
      rw [htext, trim_append hblank]
      exact trim_around hc [] text
    have hpadded : element (w.front ++ w.text ++ w.back) = element w.text :=
      element_congr (trim_padded h.front h.back w.text)
    rw [hpadded, htrim, htext, element_of_front hblank hc hne]

/-- No element begins with a bracket, and none is blank. -/
theorem Sound.exists_front (h : w.Sound) :
    ∃ blank c cs, (∀ c ∈ blank, isWhite c) ∧ isWhite c = false ∧ c ≠ '[' ∧ w.chars = blank ++ c :: cs := by
  unfold chars
  cases hquote : w.quote with
  | some q =>
    obtain ⟨hq, -⟩ := h.quoted q hquote
    refine ⟨w.front, q, w.text ++ [q] ++ w.back, h.front, ?_, ?_, by simp⟩
    all_goals
      rcases hq with rfl | rfl
      · decide
      · decide
  | none =>
    obtain ⟨blank, c, text, hblank, hc, -, htext⟩ := h.exists_text hquote
    have hbracket : c ≠ '[' := by
      rintro rfl
      exact h.plain hquote '[' (by decide) (htext ▸ List.mem_append_right _ List.mem_cons_self)
    exact ⟨w.front ++ blank, c, text ++ w.back, List.forall_mem_append.mpr ⟨h.front, hblank⟩, hc, hbracket,
      by simp [htext]⟩

end Written

variable {ws : List Written}

/-- Elements that are joined with commas are split again: as many as there were and in their order, each without its
    quotes and trimmed. -/
theorem splitList_join (hne : ws ≠ []) (h : ∀ w ∈ ws, w.Sound) :
    splitList (String.ofList ([','].intercalate (ws.map Written.chars))) =
      ws.map fun w => String.ofList (trim w.text) := by
  obtain ⟨w, rest, rfl⟩ := List.exists_cons_of_ne_nil hne
  obtain ⟨blank, c, cs, hblank, hc, hbracket, hchars⟩ := (h w List.mem_cons_self).exists_front
  obtain ⟨more, hmore⟩ := exists_intercalate [','] w.chars (rest.map Written.chars)
  have htrim : trim ([','].intercalate ((w :: rest).map Written.chars)) = c :: trimEnd (cs ++ more) := by
    rw [List.map_cons, hmore, hchars, List.append_assoc, trim_append hblank]
    exact trim_around hc [] (cs ++ more)
  have hopen : encloses (trim ([','].intercalate ((w :: rest).map Written.chars))) = false := by
    rw [htrim]
    unfold encloses
    split
    · next heq => exact absurd (List.cons.inj heq).1 hbracket
    · rfl
  have hnonblank : trim ([','].intercalate ((w :: rest).map Written.chars)) ≠ [] := htrim ▸ List.cons_ne_nil c _
  have hunbroken : ∀ p ∈ (w :: rest).map Written.chars, Unbroken p :=
    List.forall_mem_map.mpr fun w' hw' => (h w' hw').unbroken
  have hparts : (w :: rest).map Written.chars ≠ [] := List.cons_ne_nil _ _
  rw [splitList_open hopen hnonblank, elements_intercalate hparts hunbroken, List.map_map, List.map_map]
  exact List.map_congr_left fun w' hw' => congrArg String.ofList (h w' hw').element_chars

/-- A comma, a bracket and a quote of the other kind in quotes, empty quotes, and quotes inside of a bare text. -/
theorem splitList_join_quotes :
    splitList "\t\"a, [b' \" , it's \"x\"\n,'','say \"\x7b\"'" = ["a, [b'", "it's \"x\"", "", "say \"\x7b\""] := by
  let ws : List Written :=
    [⟨some '"', "a, [b' ".toList, ['\t'], [' ']⟩, ⟨none, "it's \"x\"".toList, [' '], ['\n']⟩, ⟨some '\'', [], [], []⟩,
      ⟨some '\'', "say \"\x7b\"".toList, [], []⟩]
  have hsound : ∀ w ∈ ws, w.Sound := by decide
  have hjoin := splitList_join (List.cons_ne_nil _ _) hsound
  have htext : [','].intercalate (ws.map Written.chars) = "\t\"a, [b' \" , it's \"x\"\n,'','say \"\x7b\"'".toList := by
    decide
  rw [htext, String.ofList_toList] at hjoin
  rw [hjoin]
  decide

end Settings.Text
