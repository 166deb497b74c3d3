import Settings.Proofs.Tree.RoundTrip
import Settings.Proofs.Tree.StrictGrammar

/-! # A tree's text is strict

Both layouts of a tree are made of the same tokens. The compact one has nothing else in it, and the other one only white
space. The tokens are derived in the strict grammar, whatever the tree holds: numbers are written without superfluous
zeros, a float that is no number as `null`, and every character of a text is escaped that has to be. -/

namespace Settings.Tree

open Strict (IsWhole IsFraction IsNumber IsScalar IsBody IsDigits Laid IsText)

/-! ### Numbers -/

theorem isWhole_toDigits (n : Nat) : IsWhole (Nat.toDigits 10 n) := by
  rcases Nat.eq_zero_or_pos n with rfl | hn
  · exact .zero
  · obtain ⟨c, cs, hcs, hne⟩ := Number.head_toDigits hn
    have hdigits : ∀ d ∈ c :: cs, d.isDigit := hcs ▸ fun _ => Nat.isDigit_of_mem_toDigits (by decide) (by decide)
    obtain ⟨hc, hcs'⟩ := List.forall_mem_cons.mp hdigits
    rw [hcs]
    exact .digits hc hne hcs'

theorem isNumber_signed {negative : Prop} [Decidable negative] {whole fraction : List Char} (hwhole : IsWhole whole)
    (hfraction : IsFraction fraction) : IsNumber ((if negative then ['-'] else []) ++ whole ++ fraction) := by
  have hsign : (if negative then ['-'] else []) = [] ∨ (if negative then ['-'] else []) = ['-'] := by
    split
    · exact .inr rfl
    · exact .inl rfl
  have hnumber := IsNumber.mk hsign hwhole hfraction .none
  rwa [List.append_nil] at hnumber

theorem isNumber_intText (i : Int) : IsNumber (Number.intText i) := by
  have htext : Number.intText i = (if i < 0 then ['-'] else []) ++ Nat.toDigits 10 i.natAbs ++ [] := by
    unfold Number.intText
    split <;> simp
  rw [htext]
  exact isNumber_signed (isWhole_toDigits _) .none

theorem exists_byPlace (d : Nat) (e : Int) :
    ∃ whole fraction, Number.Binary64.byPlace d e = whole ++ fraction ∧ IsWhole whole ∧ IsFraction fraction := by
  rcases lt_or_ge e 0 with he | he
  · by_cases hd : d = 0
    · exact ⟨['0'], [], if_pos hd, .zero, .none⟩
    · obtain ⟨whole, places, htext, hfirst, hwhole, hplaces, -, hlength⟩ := Number.Binary64.byPlace_of_neg he hd
      have hne : places ≠ [] := by
        rintro rfl
        simp at hlength
        omega
      refine ⟨whole, '.' :: places, htext, ?_, .point ⟨hne, hplaces⟩⟩
      rcases hfirst with rfl | ⟨c, cs, rfl, hc⟩
      · exact .zero
      · obtain ⟨hdigit, hdigits⟩ := List.forall_mem_cons.mp hwhole
        exact .digits hdigit hc hdigits
  · exact ⟨_, [], by rw [Number.Binary64.byPlace_of_nonneg he, List.append_nil], isWhole_toDigits _, .none⟩

theorem isNumber_floatText {x : Number.Binary64} (hf : x.isFinite = true) : IsNumber (floatText x) := by
  by_cases h : x.isIntegral = true ∧ x.truncate.natAbs < 10 ^ 16
  · rw [floatText_pointed h.1 h.2, Number.Binary64.byPlace_of_nonneg (Number.Binary64.shortest_of_isIntegral h.1 h.2),
      ← List.append_assoc]
    exact isNumber_signed (isWhole_toDigits _) (.point ⟨List.cons_ne_nil _ _, List.forall_mem_singleton.mpr rfl⟩)
  · obtain ⟨whole, fraction, htext, hwhole, hfraction⟩ := exists_byPlace x.shortest.1 x.shortest.2
    rw [floatText_unpointed hf h, htext, ← List.append_assoc]
    exact isNumber_signed hwhole hfraction

theorem isScalar_floatText (x : Number.Binary64) : IsScalar (floatText x) := by
  cases hf : x.isFinite with
  | true => exact .inr (.inr (.inr (isNumber_floatText hf)))
  | false =>
    refine .inl ?_
    simp [floatText, hf]

/-! ### Strings -/

theorem isHex_digitChar {n : Nat} (h : n < 16) : Strict.IsHex n.digitChar := by
  have hall : ∀ m < 16, m.digitChar.isDigit ∨ 'a' ≤ m.digitChar ∧ m.digitChar ≤ 'f' := by decide
  exact (hall n h).imp id .inl

theorem isCharacter_escape (c : Char) : Strict.IsCharacter (escape c) := by
  unfold escape
  split
  · next h => rcases h with rfl | rfl <;> exact .escape (by decide)
  next hquoted =>
  split
  · exact .escape (by decide)
  split
  · exact .escape (by decide)
  split
  · exact .escape (by decide)
  split
  · exact .code (.inl (by decide)) (.inl (by decide)) (isHex_digitChar (by omega)) (isHex_digitChar (by omega))
  · next h =>
    obtain ⟨hquote, hback⟩ := not_or.mp hquoted
    exact .plain (Nat.not_lt.mp h) hquote hback

theorem isBody_escape (cs : List Char) : IsBody (cs.flatMap escape) := by
  induction cs with
  | nil => exact .nil
  | cons c cs ih =>
    rw [List.flatMap_cons]
    exact .cons (isCharacter_escape c) ih

/-! ### The tokens of a tree -/

/-- A text as a token. -/
def stringToken (s : String) : Strict.Token := .string (s.toList.flatMap escape)

mutual

/-- The tokens that a tree is written as. -/
def tokens : Tree → List Strict.Token
  | null => [.scalar ['n', 'u', 'l', 'l']]
  | bool true => [.scalar ['t', 'r', 'u', 'e']]
  | bool false => [.scalar ['f', 'a', 'l', 's', 'e']]
  | int n => [.scalar (Number.intText n.toInt)]
  | float x => [.scalar (floatText x)]
  | text s => [stringToken s]
  | list [] => [.mark '[', .mark ']']
  | list (t :: ts) => .mark '[' :: (tokens t ++ itemTokens ts) ++ [.mark ']']
  | map [] => [.mark '{', .mark '}']
  | map ((k, t) :: ms) => .mark '{' :: (stringToken k :: .mark ':' :: tokens t ++ memberTokens ms) ++ [.mark '}']

/-- The tokens of the items behind the first one. -/
def itemTokens : List Tree → List Strict.Token
  | [] => []
  | t :: ts => .mark ',' :: tokens t ++ itemTokens ts

/-- The tokens of the members behind the first one. -/
def memberTokens : List (String × Tree) → List Strict.Token
  | [] => []
  | (k, t) :: ms => .mark ',' :: stringToken k :: .mark ':' :: tokens t ++ memberTokens ms

end

mutual

theorem derives_tokens (t : Tree) : Strict.Derives .value t.tokens := by
  cases t with
  | list ts =>
    cases ts with
    | nil => exact .noElements
    | cons t ts =>
      rw [tokens]
      exact .list (derives_items ts (derives_tokens t))
  | map ms =>
    cases ms with
    | nil => exact .noMembers
    | cons m ms =>
      obtain ⟨k, t⟩ := m
      rw [tokens]
      exact .map (derives_members ms _ (derives_tokens t))
  | bool b => cases b <;> exact .scalar
  | text s => exact .string
  | null | int n | float x => exact .scalar

theorem derives_items (ts : List Tree) {toks : List Strict.Token} (h : Strict.Derives .value toks) :
    Strict.Derives .elements (toks ++ itemTokens ts) := by
  cases ts with
  | nil =>
    rw [itemTokens, List.append_nil]
    exact .lastElement h
  | cons t ts =>
    rw [itemTokens]
    exact .element h (derives_items ts (derives_tokens t))

theorem derives_members (ms : List (String × Tree)) (body : List Char) {toks : List Strict.Token}
    (h : Strict.Derives .value toks) :
    Strict.Derives .members (.string body :: .mark ':' :: toks ++ memberTokens ms) := by
  cases ms with
  | nil =>
    rw [memberTokens, List.append_nil]
    exact .lastMember h
  | cons m ms =>
    obtain ⟨k, t⟩ := m
    rw [memberTokens]
    exact .member h (derives_members ms _ (derives_tokens t))

end

theorem valid_mark {c : Char} (h : c ∈ ['[', ']', '{', '}', ':', ',']) : (Strict.Token.mark c).Valid := .mark h

theorem valid_stringToken (s : String) : (stringToken s).Valid := .string (isBody_escape s.toList)

mutual

theorem valid_tokens (t : Tree) : ∀ tok ∈ t.tokens, tok.Valid := by
  cases t with
  | list ts =>
    cases ts with
    | nil => simp [tokens, valid_mark]
    | cons t ts =>
      simp only [tokens, List.forall_mem_cons, List.forall_mem_append, List.cons_append]
      exact ⟨valid_mark (by decide), ⟨valid_tokens t, valid_itemTokens ts⟩, valid_mark (by decide), nofun⟩
  | map ms =>
    cases ms with
    | nil => simp [tokens, valid_mark]
    | cons m ms =>
      obtain ⟨k, t⟩ := m
      simp only [tokens, List.forall_mem_cons, List.forall_mem_append, List.cons_append]
      exact ⟨valid_mark (by decide), valid_stringToken k, valid_mark (by decide),
        ⟨valid_tokens t, valid_memberTokens ms⟩, valid_mark (by decide), nofun⟩
  | null => exact List.forall_mem_singleton.mpr (.scalar (.inl rfl))
  | bool b =>
    cases b with
    | true => exact List.forall_mem_singleton.mpr (.scalar (.inr (.inl rfl)))
    | false => exact List.forall_mem_singleton.mpr (.scalar (.inr (.inr (.inl rfl))))
  | int n => exact List.forall_mem_singleton.mpr (.scalar (.inr (.inr (.inr (isNumber_intText n.toInt)))))
  | float x => exact List.forall_mem_singleton.mpr (.scalar (isScalar_floatText x))
  | text s => exact List.forall_mem_singleton.mpr (valid_stringToken s)

theorem valid_itemTokens (ts : List Tree) : ∀ tok ∈ itemTokens ts, tok.Valid := by
  cases ts with
  | nil => exact nofun
  | cons t ts =>
    simp only [itemTokens, List.forall_mem_cons, List.forall_mem_append, List.cons_append]
    exact ⟨valid_mark (by decide), valid_tokens t, valid_itemTokens ts⟩

theorem valid_memberTokens (ms : List (String × Tree)) : ∀ tok ∈ memberTokens ms, tok.Valid := by
  cases ms with
  | nil => exact nofun
  | cons m ms =>
    obtain ⟨k, t⟩ := m
    simp only [memberTokens, List.forall_mem_cons, List.forall_mem_append, List.cons_append]
    exact ⟨valid_mark (by decide), valid_stringToken k, valid_mark (by decide), valid_tokens t, valid_memberTokens ms⟩

end

/-! ### The two layouts -/

theorem laid_spaces {toks : List Strict.Token} {spaces rest : List Char} (hs : ∀ c ∈ spaces, Strict.IsSpace c)
    (h : Laid toks rest) : Laid toks (spaces ++ rest) := by
  induction spaces with
  | nil => exact h
  | cons c spaces ih =>
    obtain ⟨hc, hspaces⟩ := List.forall_mem_cons.mp hs
    exact .space hc (ih hspaces)

theorem laid_newline {toks : List Strict.Token} {rest : List Char} (layout : Layout) (level : Nat) (h : Laid toks rest) :
    Laid toks (layout.newline level ++ rest) := by
  cases layout with
  | compact => exact h
  | pretty =>
    refine laid_spaces (List.forall_mem_cons.mpr ⟨by decide, fun c hc => ?_⟩) h
    obtain rfl := List.eq_of_mem_replicate hc
    decide

theorem laid_colon {toks : List Strict.Token} {rest : List Char} (layout : Layout) (h : Laid toks rest) :
    Laid (.mark ':' :: toks) (layout.colon ++ rest) := by
  cases layout with
  | compact => exact .token _ h
  | pretty => exact .token (.mark ':') (.space (by decide) h)

mutual

/-- A tree's text, in either layout, is its tokens with white space between them. -/
theorem laid_write (layout : Layout) (level : Nat) (t : Tree) {toks : List Strict.Token} {rest : List Char}
    (h : Laid toks rest) : Laid (t.tokens ++ toks) (t.write layout level ++ rest) := by
  cases t with
  | list ts =>
    cases ts with
    | nil => exact .token _ (.token _ h)
    | cons t ts =>
      simp only [tokens, write, List.append_assoc, List.cons_append, List.nil_append]
      refine .token (.mark '[') (laid_newline _ _ (laid_write layout _ t (laid_writeItems layout _ ts ?_)))
      exact laid_newline _ _ (.token (.mark ']') h)
  | map ms =>
    cases ms with
    | nil => exact .token _ (.token _ h)
    | cons m ms =>
      obtain ⟨k, t⟩ := m
      simp only [tokens, write, List.append_assoc, List.cons_append, List.nil_append]
      refine .token (.mark '{') (laid_newline _ _ (.token (stringToken k) (laid_colon _ ?_)))
      refine laid_write layout _ t (laid_writeMembers layout _ ms (laid_newline _ _ ?_))
      exact .token (.mark '}') h
  | bool b => cases b <;> exact .token _ h
  | text s => exact .token (stringToken s) h
  | null | int n | float x => exact .token _ h

theorem laid_writeItems (layout : Layout) (level : Nat) (ts : List Tree) {toks : List Strict.Token} {rest : List Char}
    (h : Laid toks rest) : Laid (itemTokens ts ++ toks) (writeItems layout level ts ++ rest) := by
  cases ts with
  | nil => exact h
  | cons t ts =>
    simp only [itemTokens, writeItems, List.append_assoc, List.cons_append]
    refine .token (.mark ',') (laid_newline _ _ (laid_write layout _ t ?_))
    exact laid_writeItems layout level ts h

theorem laid_writeMembers (layout : Layout) (level : Nat) (ms : List (String × Tree)) {toks : List Strict.Token}
    {rest : List Char} (h : Laid toks rest) :
    Laid (memberTokens ms ++ toks) (writeMembers layout level ms ++ rest) := by
  cases ms with
  | nil => exact h
  | cons m ms =>
    obtain ⟨k, t⟩ := m
    simp only [memberTokens, writeMembers, List.append_assoc, List.cons_append]
    refine .token (.mark ',') (laid_newline _ _ (.token (stringToken k) (laid_colon _ ?_)))
    exact laid_write layout _ t (laid_writeMembers layout level ms h)

end

mutual

/-- The compact text of a tree is nothing but its tokens. -/
theorem write_compact (level : Nat) (t : Tree) : t.write .compact level = t.tokens.flatMap Strict.Token.text := by
  cases t with
  | list ts =>
    cases ts with
    | nil => rfl
    | cons t ts =>
      simp [tokens, write, Layout.newline, Strict.Token.text, write_compact _ t, writeItems_compact _ ts]
  | map ms =>
    cases ms with
    | nil => rfl
    | cons m ms =>
      obtain ⟨k, t⟩ := m
      simp [tokens, write, Layout.newline, Layout.colon, Strict.Token.text, quote, stringToken, write_compact _ t,
        writeMembers_compact _ ms]
  | bool b => cases b <;> rfl
  | text s => simp [tokens, write, quote, stringToken, Strict.Token.text]
  | null | int n | float x => simp [tokens, write, Strict.Token.text]

theorem writeItems_compact (level : Nat) (ts : List Tree) :
    writeItems .compact level ts = (itemTokens ts).flatMap Strict.Token.text := by
  cases ts with
  | nil => rfl
  | cons t ts =>
    simp [itemTokens, writeItems, Layout.newline, Strict.Token.text, write_compact _ t, writeItems_compact _ ts]

theorem writeMembers_compact (level : Nat) (ms : List (String × Tree)) :
    writeMembers .compact level ms = (memberTokens ms).flatMap Strict.Token.text := by
  cases ms with
  | nil => rfl
  | cons m ms =>
    obtain ⟨k, t⟩ := m
    simp [memberTokens, writeMembers, Layout.newline, Layout.colon, Strict.Token.text, quote, stringToken,
      write_compact _ t, writeMembers_compact _ ms]

end

theorem isText_write (layout : Layout) (t : Tree) : IsText t.tokens (t.write layout 0) where
  valid := valid_tokens t
  derives := derives_tokens t
  laid := by
    have hlaid := laid_write layout 0 t .nil
    rwa [List.append_nil, List.append_nil] at hlaid

/-- Both texts of a tree are strict JSON with the same tokens, and have no others. The compact text is its tokens
    with nothing between them, so white space stands in its strings only. -/
theorem print_strict (t : Tree) :
    ∃ toks, IsText toks (t.print .compact).toList ∧ IsText toks (t.print .pretty).toList ∧
      (∀ layout toks', IsText toks' (t.print layout).toList → toks' = toks) ∧
      (t.print .compact).toList = toks.flatMap Strict.Token.text ∧
      ∀ tok ∈ toks, (∃ body, tok = .string body) ∨ ∀ c ∈ tok.text, ¬ Strict.IsSpace c := by
  have hprint : ∀ layout, (t.print layout).toList = t.write layout 0 := fun _ => String.toList_ofList
  simp only [hprint]
  exact ⟨t.tokens, isText_write .compact t, isText_write .pretty t, fun layout _ h => h.unique (isText_write layout t),
    write_compact 0 t, fun tok htok => (valid_tokens t tok htok).not_isSpace⟩

end Settings.Tree
