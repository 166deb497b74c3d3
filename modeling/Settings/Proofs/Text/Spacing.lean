import Settings.Proofs.Text.Brackets

/-! # White space in nested lists

The text of nested lists may have white space around its commas and brackets. It is split into the texts of the items,
white space included, and each of them stands for the same item as without it: the brackets around the list are closed
by its last bracket, since each item closes all that it opens, and the commas of an item stand in its brackets. -/

namespace Settings

namespace Text

variable {c : Char} {a b cs ds t : List Char} {parts : List (List Char)} {depth : Nat}

/-! ### White space around commas and brackets -/

/-- The second text is the first one with white space around commas and square brackets. -/
inductive Spaced : List Char → List Char → Prop
  | nil : Spaced [] []
  | char (c : Char) {cs ds : List Char} (h : Spaced cs ds) : Spaced (c :: cs) (c :: ds)
  | mark {c : Char} {cs ds front back : List Char} (hc : c ∈ [',', '[', ']']) (hfront : ∀ c ∈ front, isWhite c)
      (hback : ∀ c ∈ back, isWhite c) (h : Spaced cs ds) : Spaced (c :: cs) (front ++ c :: (back ++ ds))

theorem Spaced.cons_inv (h : Spaced (c :: cs) t) :
    ∃ front back ds, (∀ c ∈ front, isWhite c) ∧ (∀ c ∈ back, isWhite c) ∧ t = front ++ c :: (back ++ ds) ∧
      Spaced cs ds := by
  cases h with
  | char c h => exact ⟨[], [], _, List.forall_mem_nil _, List.forall_mem_nil _, rfl, h⟩
  | mark hc hfront hback h => exact ⟨_, _, _, hfront, hback, rfl, h⟩

theorem Spaced.append_inv (h : Spaced (a ++ b) t) : ∃ s u, t = s ++ u ∧ Spaced a s ∧ Spaced b u := by
  induction a generalizing t with
  | nil => exact ⟨[], t, rfl, .nil, h⟩
  | cons c a ih =>
    cases h with
    | char c h =>
      obtain ⟨s, u, rfl, hs, hu⟩ := ih h
      exact ⟨c :: s, u, rfl, .char c hs, hu⟩
    | mark hc hfront hback h =>
      obtain ⟨s, u, rfl, hs, hu⟩ := ih h
      exact ⟨_, u, by simp, .mark hc hfront hback hs, hu⟩

theorem Spaced.eq_of_plain (h : Spaced cs t) (hplain : ∀ c ∈ [',', '[', ']'], c ∉ cs) : t = cs := by
  induction h with
  | nil => rfl
  | char c h ih => rw [ih fun d hd hmem => hplain d hd (List.mem_cons_of_mem c hmem)]
  | mark hc hfront hback h ih => exact absurd List.mem_cons_self (hplain _ hc)

/-- A text in brackets with white space around them and inside of them. -/
theorem Spaced.brackets_inv (h : Spaced ('[' :: cs ++ [']']) t) :
    ∃ front left s right back, (∀ c ∈ front, isWhite c) ∧ (∀ c ∈ left, isWhite c) ∧ Spaced cs s ∧
      (∀ c ∈ right, isWhite c) ∧ (∀ c ∈ back, isWhite c) ∧
      t = front ++ ('[' :: (left ++ s ++ right) ++ [']']) ++ back := by
  obtain ⟨front, left, ds, hfront, hleft, rfl, hinner⟩ := Spaced.cons_inv h
  obtain ⟨s, u, rfl, hs, hlast⟩ := Spaced.append_inv hinner
  obtain ⟨right, back, ds, hright, hback, rfl, hnil⟩ := hlast.cons_inv
  cases hnil
  exact ⟨front, left, s, right, back, hfront, hleft, hs, hright, hback, by simp⟩

/-- The second text is the first one with white space around it, and around commas and brackets in it. -/
def Padded (cs t : List Char) : Prop :=
  ∃ front s back, (∀ c ∈ front, isWhite c) ∧ Spaced cs s ∧ (∀ c ∈ back, isWhite c) ∧ t = front ++ s ++ back

theorem intercalate_append_left (sep front a : List Char) (texts : List (List Char)) :
    front ++ sep.intercalate (a :: texts) = sep.intercalate ((front ++ a) :: texts) := by
  cases texts with
  | nil => simp
  | cons b texts => simp [List.intercalate_cons_cons]

/-- What white space around the commas between some parts belongs to the parts. -/
theorem Spaced.intercalate_inv (hne : parts ≠ []) (h : Spaced ([','].intercalate parts) t) :
    ∃ texts, t = [','].intercalate texts ∧ List.Forall₂ Padded parts texts := by
  induction parts generalizing t with
  | nil => exact absurd rfl hne
  | cons p parts ih =>
    cases parts with
    | nil =>
      rw [List.intercalate_singleton] at h
      exact ⟨[t], by simp, .cons ⟨[], t, [], List.forall_mem_nil _, h, List.forall_mem_nil _, by simp⟩ .nil⟩
    | cons p' parts =>
      rw [List.intercalate_cons_cons, List.append_assoc] at h
      obtain ⟨s, u, rfl, hs, hcomma⟩ := h.append_inv
      obtain ⟨front, back, ds, hfront, hback, rfl, hrest⟩ := Spaced.cons_inv hcomma
      obtain ⟨texts, rfl, htexts⟩ := ih (List.cons_ne_nil p' parts) hrest
      cases htexts with
      | cons hpadded htexts =>
        obtain ⟨left, s', right, hleft, hs', hright, rfl⟩ := hpadded
        refine ⟨(s ++ front) :: (back ++ (left ++ s' ++ right)) :: _, ?_, .cons ?_ (.cons ?_ htexts)⟩
        · rw [List.intercalate_cons_cons, ← intercalate_append_left [','] back]
          simp
        · exact ⟨[], s, front, List.forall_mem_nil _, hs, hfront, by simp⟩
        · exact ⟨back ++ left, s', right, List.forall_mem_append.mpr ⟨hback, hleft⟩, hs', hright, by simp⟩

/-! ### Texts that bring no brackets and commas of their own -/

/-- A text that stands among the items of a list as one of them: it closes all brackets that it opens, its commas stand
    in them, and it does not begin with a quote. -/
structure Contained (t : List Char) : Prop where
  kept : ∀ depth, opened depth t = some depth
  closed : ∀ depth, unclosed? depth t = some depth
  begins : ∃ blank c cs, (∀ c ∈ blank, isWhite c) ∧ isWhite c = false ∧ (c ≠ '"' ∧ c ≠ '\'') ∧ t = blank ++ c :: cs

theorem unclosed?_white {front : List Char} (hfront : ∀ c ∈ front, isWhite c) (depth : Nat) :
    unclosed? depth front = some depth :=
  unclosed?_of_not_mem (not_mem_white hfront rfl) (not_mem_white hfront rfl) depth

variable {t : List Char}

theorem Contained.padded {front back : List Char} (h : Contained t) (hfront : ∀ c ∈ front, isWhite c)
    (hback : ∀ c ∈ back, isWhite c) : Contained (front ++ t ++ back) where
  kept depth := by
    rw [opened_append (opened_append (opened_white hfront depth) ▸ h.kept depth), opened_white hback]
  closed depth := by
    rw [unclosed?_append, unclosed?_append, unclosed?_white hfront, Option.bind_some, h.closed, Option.bind_some,
      unclosed?_white hback]
  begins := by
    obtain ⟨blank, c, cs, hblank, hc, hquote, rfl⟩ := h.begins
    exact ⟨front ++ blank, c, cs ++ back, List.forall_mem_append.mpr ⟨hfront, hblank⟩, hc, hquote, by simp⟩

theorem Contained.unbroken (h : Contained t) : Unbroken t := by
  obtain ⟨blank, c, cs, hblank, hc, hquote, rfl⟩ := h.begins
  have hopened := h.kept 0
  rw [opened_append (opened_white hblank 0)] at hopened
  exact .of_opened hblank hc hquote hopened

/-- As an element it is only trimmed. -/
theorem Contained.element_eq (h : Contained t) : element t = trim t := by
  obtain ⟨blank, c, cs, hblank, hc, hquote, rfl⟩ := h.begins
  rw [element_of_front hblank hc hquote, trim_append hblank]
  exact (trim_around hc [] cs).symm

/-- The items of a list, with commas between them, in its brackets. -/
theorem Contained.join {texts : List (List Char)} (h : ∀ t ∈ texts, Contained t) (depth : Nat) :
    opened (depth + 1) ([','].intercalate texts) = some (depth + 1) ∧
      unclosed? depth ([','].intercalate texts) = some depth := by
  induction texts with
  | nil => exact ⟨rfl, rfl⟩
  | cons t texts ih =>
    obtain ⟨ht, htexts⟩ := List.forall_mem_cons.mp h
    cases texts with
    | nil =>
      rw [List.intercalate_singleton]
      exact ⟨ht.kept (depth + 1), ht.closed depth⟩
    | cons t' texts =>
      obtain ⟨hopened, hunclosed⟩ := ih htexts
      rw [List.intercalate_cons_cons, List.append_assoc, opened_append (ht.kept _), unclosed?_append, ht.closed]
      exact ⟨hopened, hunclosed⟩

theorem Contained.brackets (hopened : ∀ depth, opened (depth + 1) cs = some (depth + 1))
    (hunclosed : ∀ depth, unclosed? depth cs = some depth) : Contained ('[' :: cs ++ [']']) where
  kept depth := by
    have hfirst : opened depth ('[' :: (cs ++ [']'])) = opened (depth + 1) (cs ++ [']']) := rfl
    rw [List.cons_append, hfirst, opened_append (hopened depth)]
    rfl
  closed depth := by
    have hfirst : unclosed? depth ('[' :: (cs ++ [']'])) = unclosed? (depth + 1) (cs ++ [']']) := rfl
    rw [List.cons_append, hfirst, unclosed?_append, hunclosed]
    rfl
  begins := ⟨[], '[', cs ++ [']'], List.forall_mem_nil _, rfl, by decide, rfl⟩

/-! ### Lists with white space in them -/

theorem Padded.contained (h : Padded cs t) (hcs : ∀ t, Spaced cs t → Contained t) : Contained t := by
  obtain ⟨front, s, back, hfront, hs, hback, rfl⟩ := h
  exact (hcs s hs).padded hfront hback

theorem contained_of_padded {texts : List (List Char)} (h : List.Forall₂ Padded parts texts)
    (hparts : ∀ p ∈ parts, ∀ t, Spaced p t → Contained t) : ∀ t ∈ texts, Contained t := by
  induction h with
  | nil => exact List.forall_mem_nil _
  | cons hpadded _ ih =>
    obtain ⟨hp, hparts⟩ := List.forall_mem_cons.mp hparts
    exact List.forall_mem_cons.mpr ⟨hpadded.contained hp, ih hparts⟩

/-- A list with white space around its commas and brackets is split into its items, each with white space around it and
    around its own commas and brackets. -/
theorem splitList_spaced (hparts : ∀ p ∈ parts, ∀ t, Spaced p t → Contained t)
    (h : Spaced ('[' :: [','].intercalate parts ++ [']']) t) :
    Contained t ∧ ∃ texts, List.Forall₂ Padded parts texts ∧
      splitList (String.ofList t) = (texts.map element).map String.ofList := by
  obtain ⟨front, left, s, right, back, hfront, hleft, hs, hright, hback, rfl⟩ := h.brackets_inv
  have htexts : ∃ texts, s = [','].intercalate texts ∧ List.Forall₂ Padded parts texts := by
    cases parts with
    | nil =>
      cases hs
      exact ⟨[], rfl, .nil⟩
    | cons p parts => exact hs.intercalate_inv (List.cons_ne_nil p parts)
  obtain ⟨texts, rfl, htexts⟩ := htexts
  have hcontained := contained_of_padded htexts hparts
  have hinner : ∀ depth, opened (depth + 1) (left ++ [','].intercalate texts ++ right) = some (depth + 1) ∧
      unclosed? depth (left ++ [','].intercalate texts ++ right) = some depth := by
    intro depth
    obtain ⟨hkept, hclosed⟩ := Contained.join hcontained depth
    rw [List.append_assoc, opened_append (opened_white hleft _), opened_append hkept, opened_white hright,
      unclosed?_append, unclosed?_white hleft, Option.bind_some, unclosed?_append, hclosed, Option.bind_some,
      unclosed?_white hright]
    exact ⟨rfl, rfl⟩
  refine ⟨(Contained.brackets (fun depth => (hinner depth).1) fun depth => (hinner depth).2).padded hfront hback,
    texts, htexts, ?_⟩
  have hclosed : encloses ('[' :: (left ++ [','].intercalate texts ++ right) ++ [']']) = true :=
    encloses_iff.mpr (balanced_iff.mpr (hinner 0).2)
  rw [splitList_enclosed hfront hback hclosed, trim_padded hleft hright, ← elements_trim, trim_padded hleft hright,
    elements_trim]
  cases texts with
  | nil => rfl
  | cons t texts =>
    have hunbroken : ∀ t' ∈ t :: texts, Unbroken t' := fun t' ht' => (hcontained t' ht').unbroken
    have hne : trim ([','].intercalate (t :: texts)) ≠ [] := by
      obtain ⟨blank, c, cs, -, hc, -, rfl⟩ := (hcontained t List.mem_cons_self).begins
      obtain ⟨more, hmore⟩ := exists_intercalate [','] (blank ++ c :: cs) texts
      exact trim_ne_nil hc (by simp [hmore])
    rw [if_neg hne, elements_intercalate (List.cons_ne_nil t texts) hunbroken]

end Text

end Settings
