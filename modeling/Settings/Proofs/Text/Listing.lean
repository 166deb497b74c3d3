import Mathlib.Data.List.DropRight
import Settings.Proofs.Text.Cutting
import Settings.Proofs.Text.Elements

/-! # Items in quotes

A list may be written as its items in double quotes, with commas between them. A text without quotes comes back from
it as it was, whatever else it holds. A text that stands in double quotes already does not: the quote in front of it is
closed by its own, so that what follows is scanned as if it stood in no quotes at all. Its commas cut it, and a bracket
that it leaves open takes in the next item. -/

namespace Settings.Text

variable {q : Char} {a b cs rest item : List Char} {depth d : Nat} {fresh : Bool}

/-! ### Brackets -/

/-- The brackets of either kind that are open behind a text, `depth` of them in front of it; none if a comma in the text
    stands in no brackets. -/
def opened (depth : Nat) : List Char → Option Nat
  | [] => some depth
  | c :: cs =>
    if c = ',' ∧ depth = 0 then none
    else opened (if c = '[' ∨ c = '{' then depth + 1 else if c = ']' ∨ c = '}' then depth - 1 else depth) cs

/-- Inside an element, a text without a comma outside of brackets only adds to it. -/
theorem elements_of_opened (h : opened depth a = some d) (item cs : List Char) :
    elements depth none false item (a ++ cs) = elements d none false (item ++ a) cs := by
  induction a generalizing depth item with
  | nil =>
    cases h
    rw [List.append_nil, List.nil_append]
  | cons c a ih =>
    rw [opened] at h
    split at h
    · cases h
    · next hcomma =>
      rw [List.cons_append, elements, if_neg hcomma, if_neg (by simp), Bool.false_and, ih h, List.append_assoc,
        List.singleton_append]

/-- A comma outside of brackets ends the element. -/
theorem elements_of_opened_eq_none (h : opened depth a = none) (item cs : List Char) :
    ∃ b c, a = b ++ ',' :: c ∧
      elements depth none false item (a ++ cs) = element (item ++ b) :: elements 0 none true [] (c ++ cs) := by
  induction a generalizing depth item with
  | nil => cases h
  | cons c a ih =>
    rw [opened] at h
    split at h
    · next hcomma =>
      refine ⟨[], a, by rw [hcomma.1, List.nil_append], ?_⟩
      rw [List.cons_append, elements, if_pos hcomma, List.append_nil]
    · next hcomma =>
      obtain ⟨b, rest, rfl, helements⟩ := ih h (item ++ [c])
      refine ⟨c :: b, rest, rfl, ?_⟩
      rw [List.cons_append, elements, if_neg hcomma, if_neg (by simp), Bool.false_and, helements, List.append_assoc,
        List.singleton_append]

/-! ### Quotes -/

/-- Inside a quote, everything up to the next one of its kind belongs to the element. -/
theorem elements_of_quote (h : q ∉ a) (depth : Nat) (fresh : Bool) (item cs : List Char) :
    elements depth (some q) fresh item (a ++ q :: cs) = elements depth none fresh (item ++ a ++ [q]) cs := by
  induction a generalizing item with
  | nil => rw [List.nil_append, elements, if_pos rfl, List.append_nil]
  | cons c a ih =>
    obtain ⟨hc, ha⟩ := not_or.mp (mt List.mem_cons.mpr h)
    rw [List.cons_append, elements, if_neg (Ne.symm hc), ih ha]
    simp

/-- The first element holds what has been read of it. -/
theorem head?_elements (depth : Nat) (quote : Option Char) (fresh : Bool) (item cs : List Char) :
    ∃ more, (elements depth quote fresh item cs).head? = some (element (item ++ more)) := by
  fun_induction elements depth quote fresh item cs with
  | case1 depth quote fresh item => exact ⟨[], by rw [List.append_nil]; rfl⟩
  | case3 depth fresh item c cs h ih => exact ⟨[], by rw [List.append_nil]; rfl⟩
  | case2 depth fresh item c cs q ih | case4 depth fresh item c cs h hq ih
  | case5 depth fresh item c cs h hq depth' ih =>
    obtain ⟨more, hmore⟩ := ih
    exact ⟨c :: more, by rw [hmore, List.append_assoc, List.singleton_append]⟩

/-! ### How many quotes are taken off -/

theorem count_trim (hq : isWhite q = false) (cs : List Char) : (trim cs).count q = cs.count q := by
  have hstart : ∀ cs : List Char, (trimStart cs).count q = cs.count q := by
    intro cs
    induction cs with
    | nil => rfl
    | cons c cs ih =>
      unfold trimStart at ih ⊢
      rw [List.dropWhile_cons]
      split
      · next hc =>
        have hne : c ≠ q := by
          rintro rfl
          rw [hq] at hc
          cases hc
        rw [ih, List.count_cons_of_ne hne]
      · rfl
  have hend : ∀ cs : List Char, (trimEnd cs).count q = cs.count q := fun cs => by
    have hreverse := hstart cs.reverse
    unfold trimStart at hreverse
    rw [trimEnd, List.count_reverse, hreverse, List.count_reverse]
  rw [trim, hend, hstart]

theorem mem_trim (hq : isWhite q = false) : q ∈ trim cs ↔ q ∈ cs := by
  rw [← List.count_pos_iff, count_trim hq, List.count_pos_iff]

/-- At most one quote is taken off at either end. -/
theorem count_le_count_unquote (hq : isWhite q = false) (cs : List Char) : cs.count q ≤ (unquote cs).count q + 2 := by
  by_cases h : Quoted cs
  · obtain ⟨p, inner, hp, htrim⟩ := h
    rw [unquote_of_trim hp htrim, ← count_trim hq, htrim, List.count_append, List.count_cons, List.count_singleton]
    split
    · omega
    · omega
  · rw [unquote_eq_iff.mpr h]
    omega

theorem count_le_count_element (hq : isWhite q = false) (cs : List Char) : cs.count q ≤ (element cs).count q + 2 := by
  rw [element, count_trim hq]
  exact count_le_count_unquote hq cs

/-! ### Items -/

/-- A text, and whether it is written in a pair of double quotes. -/
structure Item where
  text : List Char
  quoted : Bool

namespace Item

def written (i : Item) : List Char := if i.quoted then '"' :: i.text ++ ['"'] else i.text

/-- A text that holds no quotes and neither starts nor ends with white space. -/
structure Plain (i : Item) : Prop where
  ne_nil : i.text ≠ []
  double : '"' ∉ i.text
  single : '\'' ∉ i.text
  front : i.text.head?.any isWhite = false
  back : i.text.getLast?.any isWhite = false

/-- An item in double quotes. -/
def listed (i : Item) : List Char := '"' :: i.written ++ ['"']

end Item

variable {i j : Item} {items : List Item}

/-- The items of a list, each in double quotes, with commas between them. -/
def listing (items : List Item) : List Char := [','].intercalate (items.map Item.listed)

/-- No item that is in quotes already is cut at a comma or runs on into the next item. -/
def Whole : List Item → Prop
  | [] => True
  | [i] => i.quoted → (opened 0 i.text).isSome
  | i :: items => (i.quoted → opened 0 i.text = some 0) ∧ Whole items

theorem listing_cons_cons (i j : Item) (items : List Item) :
    listing (i :: j :: items) = i.listed ++ ',' :: listing (j :: items) := by
  simp [listing, List.intercalate_cons_cons]

/-- A list of items starts and ends with a quote. -/
theorem exists_listing (hne : items ≠ []) : ∃ cs, listing items = '"' :: cs ++ ['"'] := by
  induction items with
  | nil => exact absurd rfl hne
  | cons i items ih =>
    cases items with
    | nil => exact ⟨i.written, by simp [listing, Item.listed]⟩
    | cons j items =>
      obtain ⟨cs, hcs⟩ := ih (List.cons_ne_nil j items)
      exact ⟨i.written ++ '"' :: ',' :: '"' :: cs, by rw [listing_cons_cons, hcs]; simp [Item.listed]⟩

theorem Item.Plain.unquote_text (h : i.Plain) : unquote i.text = i.text := by
  refine unquote_eq_iff.mpr ?_
  rintro ⟨q, inner, hq, htrim⟩
  rw [trim_eq h.front h.back] at htrim
  have hmem : q ∈ i.text := htrim ▸ List.mem_cons_self
  rcases hq with rfl | rfl
  · exact h.double hmem
  · exact h.single hmem

/-- Between two characters that are no white space nothing is trimmed. -/
theorem trim_between {p : Char} (hp : isWhite p = false) (hq : isWhite q = false) (cs : List Char) :
    trim (p :: cs ++ [q]) = p :: cs ++ [q] := by
  refine trim_eq (by simp [hp]) ?_
  rw [List.getLast?_concat]
  simp [hq]

theorem unquote_quotes (cs : List Char) : unquote ('"' :: cs ++ ['"']) = cs :=
  unquote_of_trim (.inl rfl) (trim_between rfl rfl cs)

theorem Item.Plain.element_listed (h : i.Plain) : unquote (element i.listed) = i.text := by
  have hwritten : trim i.written = i.written := by
    unfold Item.written
    split
    · exact trim_between rfl rfl i.text
    · exact trim_eq h.front h.back
  rw [element, Item.listed, unquote_quotes, hwritten]
  unfold Item.written
  split
  · exact unquote_quotes i.text
  · exact h.unquote_text

/-! ### The scan of an item -/

theorem opened_append (h : opened depth a = some d) : opened depth (a ++ b) = opened d b := by
  induction a generalizing depth with
  | nil =>
    cases h
    rfl
  | cons c a ih =>
    rw [opened] at h
    rw [List.cons_append, opened]
    split at h
    · cases h
    · next hcomma =>
      rw [if_neg hcomma]
      exact ih h

/-- An item that stands in no quotes of its own is scanned inside of those around it. -/
theorem elements_listed_bare (h : i.Plain) (hbare : i.quoted = false) (cs : List Char) :
    elements 0 none true [] (i.listed ++ cs) = elements 0 none false i.listed cs := by
  have hlisted : i.listed ++ cs = '"' :: (i.text ++ '"' :: cs) := by simp [Item.listed, Item.written, hbare]
  rw [hlisted, elements, if_neg (by decide), if_pos (by decide), elements_of_quote h.double]
  simp [Item.listed, Item.written, hbare]

/-- The quote around an item that stands in quotes of its own is closed before the item begins. -/
theorem elements_listed_quoted (hquoted : i.quoted = true) (cs : List Char) :
    elements 0 none true [] (i.listed ++ cs) = elements 0 none false ['"', '"'] (i.text ++ '"' :: '"' :: cs) := by
  have hlisted : i.listed ++ cs = '"' :: ([] ++ '"' :: (i.text ++ '"' :: '"' :: cs)) := by
    simp [Item.listed, Item.written, hquoted]
  rw [hlisted, elements, if_neg (by decide), if_pos (by decide), elements_of_quote (List.not_mem_nil)]
  rfl

theorem elements_listed_opened (hquoted : i.quoted = true) (hopen : opened 0 i.text = some d) (cs : List Char) :
    elements 0 none true [] (i.listed ++ cs) = elements d none false i.listed cs := by
  have hclose : opened 0 (i.text ++ ['"', '"']) = some d := by
    rw [opened_append hopen]
    simp [opened]
  have hlisted : ['"', '"'] ++ (i.text ++ ['"', '"']) = i.listed := by simp [Item.listed, Item.written, hquoted]
  rw [elements_listed_quoted hquoted, ← hlisted, ← elements_of_opened hclose]
  simp

/-- A whole item is one element up to the comma behind it. -/
theorem elements_listed_comma (h : i.Plain) (hwhole : i.quoted → opened 0 i.text = some 0) (cs : List Char) :
    elements 0 none true [] (i.listed ++ ',' :: cs) = element i.listed :: elements 0 none true [] cs := by
  have hscan : elements 0 none true [] (i.listed ++ ',' :: cs) = elements 0 none false i.listed (',' :: cs) := by
    cases hquoted : i.quoted with
    | false => exact elements_listed_bare h hquoted _
    | true => exact elements_listed_opened hquoted (hwhole hquoted) _
  rw [hscan, elements, if_pos ⟨rfl, rfl⟩]

/-- In the last item brackets may stay open. -/
theorem elements_listed_last (h : i.Plain) (hwhole : i.quoted → (opened 0 i.text).isSome) :
    elements 0 none true [] i.listed = [element i.listed] := by
  have hscan : ∃ d, elements 0 none true [] (i.listed ++ []) = elements d none false i.listed [] := by
    cases hquoted : i.quoted with
    | false => exact ⟨0, elements_listed_bare h hquoted _⟩
    | true =>
      obtain ⟨d, hd⟩ := Option.isSome_iff_exists.mp (hwhole hquoted)
      exact ⟨d, elements_listed_opened hquoted hd _⟩
  obtain ⟨d, hd⟩ := hscan
  rw [List.append_nil] at hd
  rw [hd, elements]

/-! ### Items that do not come back -/

theorem trimEnd_trimEnd (cs : List Char) : trimEnd (trimEnd cs) = trimEnd cs := by
  unfold trimEnd
  rw [List.reverse_reverse, List.dropWhile_idempotent]

theorem trim_doubled (cs : List Char) : trim ('"' :: '"' :: cs) = '"' :: '"' :: trimEnd cs :=
  trim_around (c := '"') rfl ['"'] cs

/-- Two quotes in front of a text without quotes are not taken off. -/
theorem unquote_doubled (hdouble : '"' ∉ cs) (hsingle : '\'' ∉ cs) (hne : trimEnd cs ≠ []) :
    unquote ('"' :: '"' :: cs) = '"' :: '"' :: cs := by
  refine unquote_eq_iff.mpr ?_
  rintro ⟨q, inner, hq, htrim⟩
  rw [trim_doubled] at htrim
  have hlast : (trimEnd cs).getLast? = some q := by
    have hwhole := congrArg List.getLast? htrim
    rw [List.getLast?_concat] at hwhole
    obtain ⟨c, rest, hcs⟩ := List.exists_cons_of_ne_nil hne
    rw [hcs] at hwhole ⊢
    simpa using hwhole
  have hmem : q ∈ cs := (trimEnd_sublist cs).subset (List.mem_of_getLast? hlast)
  rcases hq with rfl | rfl
  · exact hdouble hmem
  · exact hsingle hmem

/-- A comma outside of brackets cuts an item that stands in quotes of its own. -/
theorem elements_listed_cut (h : i.Plain) (hquoted : i.quoted = true) (hcut : opened 0 i.text = none) (cs : List Char) :
    ∃ e, (elements 0 none true [] (i.listed ++ cs)).head? = some e ∧ unquote e ≠ i.text := by
  obtain ⟨b, c, htext, helements⟩ := elements_of_opened_eq_none hcut ['"', '"'] ('"' :: '"' :: cs)
  refine ⟨element ('"' :: '"' :: b), ?_, ?_⟩
  · rw [elements_listed_quoted hquoted, helements]
    rfl
  have hdouble : '"' ∉ b := fun hb => h.double (htext ▸ List.mem_append_left _ hb)
  have hsingle : '\'' ∉ b := fun hb => h.single (htext ▸ List.mem_append_left _ hb)
  by_cases hne : trimEnd b = []
  · have hempty : unquote ('"' :: '"' :: b) = [] := unquote_of_trim (.inl rfl) (by rw [trim_doubled, hne]; rfl)
    rw [element, hempty]
    exact fun heq => h.ne_nil heq.symm
  · have helement : element ('"' :: '"' :: b) = '"' :: '"' :: trimEnd b := by
      rw [element, unquote_doubled hdouble hsingle hne, trim_doubled]
    have htrimmed : unquote ('"' :: '"' :: trimEnd b) = '"' :: '"' :: trimEnd b := by
      have hsubset := (trimEnd_sublist b).subset
      exact unquote_doubled (mt (hsubset ·) hdouble) (mt (hsubset ·) hsingle) (by rwa [trimEnd_trimEnd])
    rw [helement, htrimmed]
    exact fun heq => h.double (heq ▸ List.mem_cons_self)

/-- A bracket that stays open in an item in quotes of its own takes in the next item. -/
theorem elements_listed_runsOn (hquoted : i.quoted = true) (hopen : opened 0 i.text = some (d + 1))
    (hdouble : '"' ∉ i.text) (cs : List Char) :
    ∃ e, (elements 0 none true [] (i.listed ++ ',' :: '"' :: cs)).head? = some e ∧ unquote e ≠ i.text := by
  have hscan : elements 0 none true [] (i.listed ++ ',' :: '"' :: cs) =
      elements (d + 1) none false (i.listed ++ [',', '"']) cs := by
    have hpast : opened (d + 1) [',', '"'] = some (d + 1) := by simp [opened]
    rw [elements_listed_opened hquoted hopen, ← elements_of_opened hpast]
    rfl
  obtain ⟨more, hmore⟩ := head?_elements (d + 1) none false (i.listed ++ [',', '"']) cs
  refine ⟨_, hscan ▸ hmore, fun heq => ?_⟩
  have hcount : 5 ≤ (i.listed ++ [',', '"'] ++ more).count '"' := by
    simp [Item.listed, Item.written, hquoted]
    omega
  have helement := count_le_count_element (q := '"') rfl (i.listed ++ [',', '"'] ++ more)
  have hunquote := count_le_count_unquote (q := '"') rfl (element (i.listed ++ [',', '"'] ++ more))
  rw [heq, List.count_eq_zero_of_not_mem hdouble] at hunquote
  omega

/-! ### Lists -/

/-- The elements of a list of items are their texts just where every item that is in quotes already is whole. -/
theorem elements_listing_iff (hplain : ∀ i ∈ items, i.Plain) (hne : items ≠ []) :
    (elements 0 none true [] (listing items)).map unquote = items.map Item.text ↔ Whole items := by
  induction items with
  | nil => exact absurd rfl hne
  | cons i items ih =>
    obtain ⟨hi, hrest⟩ := List.forall_mem_cons.mp hplain
    -- If the first item comes back as another text, no count of what follows is needed.
    have hhead : ∀ {e cs}, (elements 0 none true [] (i.listed ++ cs)).head? = some e ∧ unquote e ≠ i.text →
        (elements 0 none true [] (i.listed ++ cs)).map unquote ≠ (i :: items).map Item.text := by
      rintro e cs ⟨he, hother⟩ heq
      obtain ⟨es, hes⟩ := List.head?_eq_some_iff.mp he
      rw [hes] at heq
      exact hother (List.cons.inj heq).1
    cases items with
    | nil =>
      have hlisting : listing [i] = i.listed ++ [] := by simp [listing]
      by_cases hwhole : i.quoted → (opened 0 i.text).isSome
      · rw [hlisting, List.append_nil, elements_listed_last hi hwhole, List.map_singleton, hi.element_listed]
        exact iff_of_true rfl hwhole
      · refine iff_of_false ?_ hwhole
        obtain ⟨hquoted, hnone⟩ := Classical.not_imp.mp hwhole
        obtain ⟨e, he⟩ := elements_listed_cut hi hquoted (by simpa using hnone) []
        rw [hlisting]
        exact hhead he
    | cons j items =>
      rw [listing_cons_cons]
      by_cases hwhole : i.quoted → opened 0 i.text = some 0
      · rw [elements_listed_comma hi hwhole, List.map_cons, List.map_cons, hi.element_listed]
        simp only [List.cons.injEq, true_and, ih hrest (List.cons_ne_nil j items), Whole]
        exact ⟨fun h => ⟨hwhole, h⟩, fun h => h.2⟩
      · refine iff_of_false ?_ fun h => hwhole h.1
        obtain ⟨hquoted, hopen⟩ := Classical.not_imp.mp hwhole
        obtain ⟨cs, hcs⟩ := exists_listing (List.cons_ne_nil j items)
        rw [hcs, List.cons_append]
        cases hscan : opened 0 i.text with
        | none =>
          obtain ⟨e, he⟩ := elements_listed_cut hi hquoted hscan (',' :: '"' :: (cs ++ ['"']))
          exact hhead he
        | some d =>
          cases d with
          | zero => exact absurd hscan hopen
          | succ d =>
            obtain ⟨e, he⟩ := elements_listed_runsOn hquoted hscan hi.double (cs ++ ['"'])
            exact hhead he

/-- The list that is split from the text of a listing. -/
theorem splitList_listing (hne : items ≠ []) :
    splitList (String.ofList (listing items)) = (elements 0 none true [] (listing items)).map String.ofList := by
  obtain ⟨cs, hcs⟩ := exists_listing hne
  have hencloses : encloses (listing items) = false := by
    rw [hcs]
    rfl
  have htrim : trim (listing items) = listing items := by
    rw [hcs]
    exact trim_between rfl rfl cs
  have hnonempty : listing items ≠ [] := by simp [hcs]
  simp only [splitList, String.toList_ofList, htrim, hencloses, Bool.false_eq_true, if_false, if_neg hnonempty]

end Settings.Text
