import Mathlib.Tactic.SplitIfs
import Settings.Dialect.Rendering
import Settings.Lexeme.Basic
import Settings.Tree.Printer

/-! # Quoting

A text between quotes is read back as it was before its characters were escaped, both in the text of trees
and in the documents of the dialects. -/

namespace Settings

open Number (escapedChar?)

variable {c e q : Char} {cs ds four rest : List Char}

/-! ### Reading character by character -/

/-- The text that is read behind a character, with that character in front. -/
def behind (c : Char) (p : Option (List Char) × List Char) : Option (List Char) × List Char :=
  (p.1.map (c :: ·), p.2)

theorem escapedFour_of_some (h : escapedChar? four = some c) : escapedFour four = [c] := by
  rw [escapedFour, h]

theorem escapedFour_of_none (h : escapedChar? four = none) : escapedFour four = 'u' :: four := by
  rw [escapedFour, h]

theorem quote_not_lineEnd (hq : q = '"' ∨ q = '\'') : Text.isLineEnd q = false := by
  rcases hq with rfl | rfl
  · rfl
  · rfl

theorem quote_ne_backslash (hq : q = '"' ∨ q = '\'') : q ≠ '\\' := by
  rcases hq with rfl | rfl
  · decide
  · decide

theorem readQuoted_quote (hq : Text.isLineEnd q = false) : readQuoted q (q :: rest) = (some [], rest) := by
  rw [readQuoted.eq_def]
  exact (if_neg (by simp [hq])).trans (if_pos rfl)

theorem readQuoted_char (hl : Text.isLineEnd c = false) (hq : c ≠ q) (hb : c ≠ '\\') :
    readQuoted q (c :: cs) = behind c (readQuoted q cs) := by
  rw [readQuoted.eq_def]
  exact (if_neg (by simp [hl])).trans ((if_neg hq).trans (if_neg hb))

theorem readQuoted_escape (hq : q ≠ '\\') (he : e ≠ 'u') :
    readQuoted q ('\\' :: e :: cs) = behind (escaped e) (readQuoted q cs) := by
  rw [readQuoted, if_neg (by decide), if_neg (Ne.symm hq), if_pos rfl]
  simp only [if_neg he]
  rfl

theorem readQuoted_u (hq : q ≠ '\\') (cs : List Char) :
    readQuoted q ('\\' :: 'u' :: cs) =
      ((readQuoted q (cs.drop 4)).1.map (escapedFour (cs.take 4) ++ ·), (readQuoted q (cs.drop 4)).2) := by
  rw [readQuoted, if_neg (by decide), if_neg (Ne.symm hq), if_pos rfl]
  exact if_pos rfl

theorem readQuoted_four (hq : q ≠ '\\') (h4 : four.length = 4) (cs : List Char) :
    readQuoted q ('\\' :: 'u' :: four ++ cs) =
      ((readQuoted q cs).1.map (escapedFour four ++ ·), (readQuoted q cs).2) := by
  rw [List.cons_append, List.cons_append, readQuoted_u hq, List.take_left' h4, List.drop_left' h4]

theorem readQuoted_named (hq : q ≠ '\\') (hf : escapedChar? four = some c) (h4 : four.length = 4) :
    readQuoted q ('\\' :: 'u' :: four ++ cs) = behind c (readQuoted q cs) := by
  rw [readQuoted_four hq h4, escapedFour_of_some hf]
  rfl

theorem Scanner.read_quote {r : LexRules} (hq : q = '"' ∨ q = '\'') (cs : List Char) (n : Nat) (boundary : Bool) :
    (⟨q :: cs, n, boundary⟩ : Scanner).read r =
      match readQuoted q cs with
      | (some text, rest) => (.ok ⟨n, .quoted q (String.ofList text)⟩, ⟨rest, n, false⟩)
      | (none, rest) => (.error (.lexical n (.openQuote q)), ⟨rest, n, false⟩) := by
  rcases hq with rfl | rfl
  · rfl
  · rfl

/-! ### Reading escaped text -/

/-- If each escaped character is read back alone, then a whole text is. -/
theorem readQuoted_flatMap {escape : Char → List Char}
    (h : ∀ c cs, readQuoted '"' (escape c ++ cs) = behind c (readQuoted '"' cs)) (text rest : List Char) :
    readQuoted '"' (text.flatMap escape ++ '"' :: rest) = (some text, rest) := by
  induction text with
  | nil => exact readQuoted_quote (by decide)
  | cons c text ih => rw [List.flatMap_cons, List.append_assoc, h, ih, behind, Option.map_some]

theorem readQuoted_quotedChar (c : Char) (cs : List Char) :
    readQuoted '"' (quotedChar c ++ cs) = behind c (readQuoted '"' cs) := by
  unfold quotedChar
  split_ifs with hq hn hr ht
  · rcases hq with rfl | rfl
    · exact readQuoted_escape (by decide) (by decide)
    · exact readQuoted_escape (by decide) (by decide)
  · exact hn ▸ readQuoted_escape (by decide) (by decide)
  · exact hr ▸ readQuoted_escape (by decide) (by decide)
  · exact ht ▸ readQuoted_escape (by decide) (by decide)
  · rw [not_or] at hq
    exact readQuoted_char (by simp [Text.isLineEnd, hn, hr]) hq.1 hq.2

/-- The four characters that stand for a control character name it. -/
theorem escapedChar?_control (h : c.toNat < 0x20) :
    escapedChar? ['0', '0', Nat.digitChar (c.toNat / 16), Nat.digitChar (c.toNat % 16)] = some c := by
  have hall : ∀ n < 0x20,
      escapedChar? ['0', '0', Nat.digitChar (n / 16), Nat.digitChar (n % 16)] = some (Char.ofNat n) := by
    decide
  rw [hall c.toNat h, Char.ofNat_toNat]

theorem readQuoted_escapeTree (c : Char) (cs : List Char) :
    readQuoted '"' (Tree.escape c ++ cs) = behind c (readQuoted '"' cs) := by
  unfold Tree.escape
  split_ifs with hq hn hr ht hc
  · rcases hq with rfl | rfl
    · exact readQuoted_escape (by decide) (by decide)
    · exact readQuoted_escape (by decide) (by decide)
  · exact hn ▸ readQuoted_escape (by decide) (by decide)
  · exact hr ▸ readQuoted_escape (by decide) (by decide)
  · exact ht ▸ readQuoted_escape (by decide) (by decide)
  · exact readQuoted_named (by decide) (escapedChar?_control hc) rfl
  · rw [not_or] at hq
    exact readQuoted_char (by simp [Text.isLineEnd, hn, hr]) hq.1 hq.2

end Settings
