import Settings.Proofs.Dialect.Rendering
import Settings.Proofs.Text.Splitting
import Settings.Tree.Printer

/-! # Lists of texts in brackets

As the text of a setting, a list of texts has its items in double quotes and a pair of brackets around them. Whether
these brackets stand around the whole text is told from all brackets in it, those of the items included. So the items
come back just where their brackets match each other, taken all together; otherwise the brackets around the list become
part of its elements. -/

namespace Settings

namespace Text

variable {cs : List Char} {depth d : Nat} {texts : List String}

/-! ### Brackets that match -/

/-- The brackets that are open behind a text, `depth` of them in front of it; none if one is closed too many. -/
def unclosed? (depth : Nat) : List Char → Option Nat
  | [] => some depth
  | c :: cs =>
    if c = '[' then unclosed? (depth + 1) cs
    else if c = ']' then (if depth = 0 then none else unclosed? (depth - 1) cs)
    else unclosed? depth cs

/-- Each bracket of a text is closed behind it, and each that closes one is opened before. -/
def Balanced (cs : List Char) : Prop :=
  cs.count ']' = cs.count '[' ∧ ∀ front, front <+: cs → front.count ']' ≤ front.count '['

theorem forall_prefix_cons {c : Char} {p : List Char → Prop} :
    (∀ front, front <+: c :: cs → p front) ↔ p [] ∧ ∀ front, front <+: cs → p (c :: front) := by
  constructor
  · exact fun h => ⟨h [] (List.nil_prefix), fun front hfront => h _ (List.cons_prefix_cons.mpr ⟨rfl, hfront⟩)⟩
  · rintro ⟨hnil, hcons⟩ front hfront
    rcases List.prefix_cons_iff.mp hfront with rfl | ⟨rest, rfl, hrest⟩
    · exact hnil
    · exact hcons rest hrest

/-- What is open behind a text is told by counting, as long as no front of it closes more than is open. -/
theorem unclosed?_eq_some_iff :
    unclosed? depth cs = some d ↔
      d + cs.count ']' = depth + cs.count '[' ∧ ∀ front, front <+: cs → front.count ']' ≤ depth + front.count '[' := by
  induction cs generalizing depth with
  | nil => simp [unclosed?, eq_comm]
  | cons c cs ih =>
    rw [unclosed?, forall_prefix_cons]
    by_cases hopening : c = '['
    · subst hopening
      rw [if_pos rfl, ih]
      simp [Nat.add_assoc, Nat.add_comm 1]
    by_cases hclosing : c = ']'
    · subst hclosing
      rw [if_neg hopening, if_pos rfl]
      cases depth with
      | zero =>
        refine iff_of_false (by simp) ?_
        rintro ⟨-, -, hfront⟩
        simpa using hfront [] List.nil_prefix
      | succ depth =>
        rw [if_neg (Nat.succ_ne_zero depth), Nat.add_sub_cancel, ih]
        simp [Nat.add_right_comm depth 1, ← Nat.add_assoc]
    · rw [if_neg hopening, if_neg hclosing, ih]
      simp [List.count_cons_of_ne hopening, List.count_cons_of_ne hclosing]

theorem balanced_iff : Balanced cs ↔ unclosed? 0 cs = some 0 := by
  rw [unclosed?_eq_some_iff]
  simp [Balanced]

theorem unclosed?_append (depth : Nat) (a b : List Char) :
    unclosed? depth (a ++ b) = (unclosed? depth a).bind fun d => unclosed? d b := by
  induction a generalizing depth with
  | nil => rfl
  | cons c a ih =>
    rw [List.cons_append, unclosed?, unclosed?]
    split
    · exact ih _
    split
    · split
      · rfl
      · exact ih _
    · exact ih _

theorem unclosed?_of_not_mem (hopening : '[' ∉ cs) (hclosing : ']' ∉ cs) (depth : Nat) :
    unclosed? depth cs = some depth := by
  refine unclosed?_eq_some_iff.mpr ⟨?_, fun front hfront => ?_⟩
  · rw [List.count_eq_zero_of_not_mem hopening, List.count_eq_zero_of_not_mem hclosing]
  · rw [List.count_eq_zero_of_not_mem (mt (hfront.subset ·) hclosing)]
    exact Nat.zero_le _

/-- The first bracket is closed by the last character just where those between them match. -/
theorem closesAtEnd_iff : closesAtEnd (depth + 1) (cs ++ [']']) = true ↔ unclosed? depth cs = some 0 := by
  induction cs generalizing depth with
  | nil => cases depth <;> simp [closesAtEnd, unclosed?]
  | cons c cs ih =>
    rw [List.cons_append, closesAtEnd, unclosed?]
    split
    · exact ih
    split
    · cases depth with
      | zero => simp
      | succ depth => simpa using ih
    · exact ih

theorem encloses_iff : encloses ('[' :: cs ++ [']']) = true ↔ Balanced cs := by
  rw [balanced_iff, ← closesAtEnd_iff]
  rfl

/-! ### Items in double quotes -/

theorem unclosed?_quotes (cs : List Char) (depth : Nat) : unclosed? depth ('"' :: cs ++ ['"']) = unclosed? depth cs := by
  have hfirst : unclosed? depth ('"' :: (cs ++ ['"'])) = unclosed? depth (cs ++ ['"']) := rfl
  rw [List.cons_append, hfirst, unclosed?_append]
  cases unclosed? depth cs with
  | none => rfl
  | some d => rfl

/-- Texts in double quotes, with commas between them. -/
def joined (texts : List String) : List Char := [','].intercalate (texts.map fun s => '"' :: s.toList ++ ['"'])

theorem joined_cons_cons (s t : String) (texts : List String) :
    joined (s :: t :: texts) = '"' :: s.toList ++ ['"'] ++ ',' :: joined (t :: texts) := by
  rw [joined, List.map_cons, List.map_cons, List.intercalate_cons_cons, List.append_assoc]
  rfl

theorem exists_joined (hne : texts ≠ []) : ∃ more, joined texts = '"' :: more := by
  obtain ⟨s, texts, rfl⟩ := List.exists_cons_of_ne_nil hne
  obtain ⟨more, hmore⟩ := exists_intercalate [','] ('"' :: s.toList ++ ['"']) (texts.map fun s => '"' :: s.toList ++ ['"'])
  exact ⟨_, hmore⟩

/-- The quotes and commas of a list hold no brackets. -/
theorem unclosed?_joined (texts : List String) (depth : Nat) :
    unclosed? depth (joined texts) = unclosed? depth (texts.flatMap String.toList) := by
  induction texts generalizing depth with
  | nil => rfl
  | cons s texts ih =>
    rw [List.flatMap_cons, unclosed?_append]
    cases texts with
    | nil =>
      rw [joined, List.map_singleton, List.intercalate_singleton, unclosed?_quotes]
      cases unclosed? depth s.toList with
      | none => rfl
      | some d => rfl
    | cons t texts =>
      rw [joined_cons_cons, unclosed?_append, unclosed?_quotes]
      cases unclosed? depth s.toList with
      | none => rfl
      | some d => exact ih d

theorem encloses_joined : encloses ('[' :: joined texts ++ [']']) = true ↔ Balanced (texts.flatMap String.toList) := by
  rw [encloses_iff, balanced_iff, balanced_iff, unclosed?_joined]

theorem elements_joined (hne : texts ≠ []) (hquote : ∀ s ∈ texts, '"' ∉ s.toList) :
    elements 0 none true [] (joined texts) = texts.map fun s => trim s.toList := by
  have hunbroken : ∀ p ∈ texts.map fun s => '"' :: s.toList ++ ['"'], Unbroken p := by
    refine List.forall_mem_map.mpr fun s hs => ?_
    have hpart := Unbroken.of_quotes (List.forall_mem_nil _) (List.forall_mem_nil _) (.inl rfl) (hquote s hs)
    rwa [List.nil_append, List.append_nil] at hpart
  rw [joined, elements_intercalate (by simpa using hne) hunbroken, List.map_map]
  exact List.map_congr_left fun s _ => congrArg trim (unquote_quotes s.toList)

/-- Where the brackets of the texts match, those around the list are taken off, and nothing else is. -/
theorem splitList_joined (h : Balanced (texts.flatMap String.toList)) (hquote : ∀ s ∈ texts, '"' ∉ s.toList)
    (hflush : ∀ s ∈ texts, Flush s) : splitList (String.ofList ('[' :: joined texts ++ [']'])) = texts := by
  have hsplit := splitList_enclosed (List.forall_mem_nil _) (List.forall_mem_nil _) (encloses_joined.mpr h)
  rw [List.nil_append, List.append_nil] at hsplit
  rw [hsplit]
  by_cases hne : texts = []
  · subst hne
    rfl
  obtain ⟨more, hmore⟩ := exists_joined hne
  have hnonblank : trim (joined texts) ≠ [] := trim_ne_nil (c := '"') rfl (hmore ▸ List.mem_cons_self)
  have hback : ∀ s ∈ texts, String.ofList (trim s.toList) = s := fun s hs => by
    rw [trim_eq (hflush s hs).1 (hflush s hs).2, String.ofList_toList]
  rw [if_neg hnonblank, elements_joined hne hquote, List.map_map]
  exact (List.map_congr_left hback).trans (List.map_id' texts)

theorem quote_mem_element (cs : List Char) : '"' ∈ element (['[', '"'] ++ cs) := by
  have helement : element ([] ++ '[' :: '"' :: cs) = '[' :: trimEnd ([] ++ '"' :: cs) :=
    element_of_front (List.forall_mem_nil _) rfl (by decide) _
  rw [trimEnd_append rfl] at helement
  exact helement ▸ List.mem_cons_of_mem _ List.mem_cons_self

/-- Where they do not match, the first element begins with the bracket in front of the list. -/
theorem splitList_joined_ne (h : ¬ Balanced (texts.flatMap String.toList)) (hquote : ∀ s ∈ texts, '"' ∉ s.toList) :
    splitList (String.ofList ('[' :: joined texts ++ [']'])) ≠ texts := by
  have hne : texts ≠ [] := by
    rintro rfl
    exact h (balanced_iff.mpr rfl)
  obtain ⟨more, hmore⟩ := exists_joined hne
  have hopen : encloses (trim ('[' :: joined texts ++ [']'])) = false := by
    rw [trim_between rfl rfl]
    exact Bool.eq_false_iff.mpr (mt encloses_joined.mp h)
  have hnonblank : trim ('[' :: joined texts ++ [']']) ≠ [] := trim_ne_nil (c := '[') rfl List.mem_cons_self
  have hscan : elements 0 none true [] ('[' :: joined texts ++ [']']) = elements 1 none false ['[', '"'] (more ++ [']']) := by
    rw [hmore]
    rfl
  obtain ⟨rest, hfirst⟩ := head?_elements 1 none false ['[', '"'] (more ++ [']'])
  obtain ⟨es, hes⟩ := List.head?_eq_some_iff.mp hfirst
  rw [splitList_open hopen hnonblank, hscan, hes, List.map_cons]
  intro heq
  have hmem : String.ofList (element (['[', '"'] ++ rest)) ∈ texts := heq ▸ List.mem_cons_self
  refine hquote _ hmem ?_
  rw [String.toList_ofList]
  exact quote_mem_element rest

end Text

namespace Tree

open Text (Balanced joined)

variable {texts : List String}

/-- The compact text of a list: the texts of its items with commas between them, in brackets. -/
theorem write_compact_list (ts : List Tree) (level : Nat) :
    (list ts).write .compact level = '[' :: [','].intercalate (ts.map (write .compact (level + 1))) ++ [']'] := by
  have hitems : ∀ (t : Tree) (ts : List Tree), t.write .compact (level + 1) ++ writeItems .compact (level + 1) ts =
      [','].intercalate ((t :: ts).map (write .compact (level + 1))) := by
    intro t ts
    induction ts generalizing t with
    | nil => simp [writeItems]
    | cons t' ts ih =>
      rw [List.map_cons, List.map_cons, List.intercalate_cons_cons, ← List.map_cons, ← ih]
      simp [writeItems, Layout.newline]
  cases ts with
  | nil => rfl
  | cons t ts =>
    rw [← hitems]
    simp [write, Layout.newline]

/-- A text without quotes, backslashes and control characters is written as it is. -/
theorem quote_eq {s : String} (h : ∀ c ∈ s.toList, c ≠ '"' ∧ c ≠ '\\' ∧ Text.isControl c = false) :
    quote s = '"' :: s.toList ++ ['"'] := by
  have hescape : ∀ c ∈ s.toList, escape c = [c] := by
    intro c hc
    obtain ⟨hquote, hslash, hcontrol⟩ := h c hc
    have hlow : ¬ c.toNat < 0x20 := by
      simp only [Text.isControl, Bool.or_eq_false_iff, decide_eq_false_iff_not] at hcontrol
      exact hcontrol.1
    have hne : ∀ d : Char, d.toNat < 0x20 → c ≠ d := by
      rintro d hd rfl
      exact hlow hd
    simp [escape, hquote, hslash, hlow, hne '\n' (by decide), hne '\r' (by decide), hne '\t' (by decide)]
  rw [quote, List.flatMap_congr hescape, List.flatMap_singleton']

theorem property_texts (h : ∀ s ∈ texts, ∀ c ∈ s.toList, c ≠ '"' ∧ c ≠ '\\' ∧ Text.isControl c = false) :
    (list (texts.map text)).property = String.ofList ('[' :: joined texts ++ [']']) := by
  have hitems : (texts.map text).map (write .compact 1) = texts.map fun s => '"' :: s.toList ++ ['"'] := by
    rw [List.map_map]
    exact List.map_congr_left fun s hs => quote_eq (h s hs)
  rw [property, print, write_compact_list, hitems, joined]
  exact nofun

/-- A list of texts without quotes, backslashes and control characters comes back from its text as a setting just where
    the square brackets of its texts, one text behind the other, match each other. -/
theorem splitList_property_iff
    (hplain : ∀ s ∈ texts, ∀ c ∈ s.toList, c ≠ '"' ∧ c ≠ '\\' ∧ Text.isControl c = false)
    (hflush : ∀ s ∈ texts, Flush s) :
    Text.splitList (list (texts.map text)).property = texts ↔ Balanced (texts.flatMap String.toList) := by
  have hquote : ∀ s ∈ texts, '"' ∉ s.toList := fun s hs hmem => (hplain s hs '"' hmem).1 rfl
  rw [property_texts hplain]
  by_cases h : Balanced (texts.flatMap String.toList)
  · exact iff_of_true (Text.splitList_joined h hquote hflush) h
  · exact iff_of_false (Text.splitList_joined_ne h hquote) h

/-- Brackets that match across texts, an empty text, a brace and an apostrophe. -/
theorem splitList_property_matching :
    Text.splitList (list [text "[a,b", text "c]", text "", text "it's \x7b[]"]).property =
      ["[a,b", "c]", "", "it's \x7b[]"] := by
  have hplain : ∀ s ∈ ["[a,b", "c]", "", "it's \x7b[]"], ∀ c ∈ s.toList, c ≠ '"' ∧ c ≠ '\\' ∧ Text.isControl c = false := by
    have hall : ["[a,b", "c]", "", "it's \x7b[]"].all fun s =>
        s.toList.all fun c => c ≠ '"' ∧ c ≠ '\\' ∧ Text.isControl c = false := by decide
    exact fun s hs c hc => of_decide_eq_true (List.all_eq_true.mp (List.all_eq_true.mp hall s hs) c hc)
  have hmatching : Balanced (["[a,b", "c]", "", "it's \x7b[]"].flatMap String.toList) :=
    Text.balanced_iff.mpr (by decide)
  exact (splitList_property_iff hplain (by decide)).mpr hmatching

/-- A bracket in quotes closes the one in front of the list. -/
theorem splitList_property_closing :
    Text.splitList (list [text "]"]).property = ["[\"]\"]"] ∧ Text.splitList (list [text "]"]).property ≠ ["]"] := by
  have hproperty : (list [text "]"]).property = "[\"]\"]" := by decide
  have hsplit : Text.splitList "[\"]\"]" = ["[\"]\"]"] := by decide
  rw [hproperty, hsplit]
  decide

end Tree

end Settings
