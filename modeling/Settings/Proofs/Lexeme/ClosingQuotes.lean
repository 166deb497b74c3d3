import Settings.Proofs.Lexeme.LineNumbers
import Settings.Proofs.Number.IntText

/-! # Closing quotes

A quoted text should end at the first quote of its kind that no backslash escapes. But four characters are taken behind
each `\u` before it is known whether they name one. Where they do not, they are kept as they are written, and the text
ends where it should only if all four stand in front of the closing quote. -/

namespace Settings

open Number (escapedChar? hexDigit?)

variable {c d q : Char} {cs ds raw rest text : List Char} {r : LexRules}

/-! ### What stands between quotes -/

namespace Quoted

/-- The characters up to the first quote on the line that no backslash escapes, and what stands behind that quote. -/
def closed? (q : Char) : List Char → Option (List Char × List Char)
  | [] => none
  | '\\' :: e :: cs =>
    if Text.isLineEnd e then none else (closed? q cs).map fun (raw, rest) => ('\\' :: e :: raw, rest)
  | c :: cs =>
    if Text.isLineEnd c then none
    else if c = q then some ([], cs)
    else (closed? q cs).map fun (raw, rest) => (c :: raw, rest)

/-- The characters on a line without a quote that no backslash escapes. -/
inductive Inside (q : Char) : List Char → Prop
  | nil : Inside q []
  | char {c : Char} {cs : List Char} :
      Text.isLineEnd c = false → c ≠ q → c ≠ '\\' → Inside q cs → Inside q (c :: cs)
  | escape {c : Char} {cs : List Char} : Text.isLineEnd c = false → Inside q cs → Inside q ('\\' :: c :: cs)

/-- The character that four hexadecimal digits name. A sign is no digit. -/
def named? (four : List Char) : Option Char :=
  if four.all fun c => (hexDigit? c).isSome then escapedChar? four else none

/-- The characters and escapes that a quoted text is made of. -/
inductive Piece where
  /-- What stands for one character. -/
  | read (c : Char)
  /-- The `\u` of what stands behind it, which does not start with four digits that name a character. -/
  | unnamed (behind : List Char)

/-- The pieces of what stands between quotes. A `\u` that names no character is a piece without anything behind it. -/
def pieces : List Char → List Piece
  | [] => []
  | c :: cs =>
    if c = '\\' then
      match cs with
      | [] => [.read '\\']
      | e :: ds =>
        if e = 'u' then
          match named? (ds.take 4) with
          | some d => .read d :: pieces (ds.drop 4)
          | none => .unnamed ds :: pieces ds
        else .read (escaped e) :: pieces ds
    else .read c :: pieces cs
termination_by cs => cs.length
decreasing_by all_goals simp only [List.length_drop, List.length_cons]; omega

/-- Every piece is read as one character, a `\u` that names none as its letter. -/
def decoded (ps : List Piece) : List Char :=
  ps.map fun
    | .read c => c
    | .unnamed _ => 'u'

/-- What stands behind each `\u` that names no character. -/
def behindUnnamed (ps : List Piece) : List (List Char) :=
  ps.filterMap fun
    | .read _ => none
    | .unnamed behind => some behind

section
variable (c : Char) (ds : List Char) (ps : List Piece)

@[simp] theorem decoded_read : decoded (.read c :: ps) = c :: decoded ps := rfl

@[simp] theorem decoded_unnamed : decoded (.unnamed ds :: ps) = 'u' :: decoded ps := rfl

@[simp] theorem length_decoded : (decoded ps).length = ps.length := List.length_map ..

@[simp] theorem behindUnnamed_read : behindUnnamed (.read c :: ps) = behindUnnamed ps := rfl

@[simp] theorem behindUnnamed_unnamed : behindUnnamed (.unnamed ds :: ps) = ds :: behindUnnamed ps := rfl

end

theorem closed?_eq (h : closed? q cs = some (raw, rest)) : cs = raw ++ q :: rest ∧ Inside q raw := by
  fun_induction closed? q cs generalizing raw with
  | case1 | case2 | case4 => cases h
  | case3 e cs hend ih =>
    obtain ⟨⟨raw', rest'⟩, hclosed, heq⟩ := Option.map_eq_some_iff.mp h
    cases heq
    obtain ⟨rfl, hin⟩ := ih hclosed
    exact ⟨rfl, hin.escape (by simpa using hend)⟩
  | case5 =>
    cases h
    exact ⟨rfl, .nil⟩
  | case6 c cs hnot hend hq ih =>
    obtain ⟨⟨raw', rest'⟩, hclosed, heq⟩ := Option.map_eq_some_iff.mp h
    cases heq
    obtain ⟨rfl, hin⟩ := ih hclosed
    refine ⟨rfl, hin.char (by simpa using hend) hq ?_⟩
    rintro rfl
    cases raw' with
    | nil => exact hnot q rest rfl rfl
    | cons e raw' => exact hnot e _ rfl rfl

/-- Characters that are read as they are. -/
def Plain (q : Char) (run : List Char) : Prop := ∀ c ∈ run, Text.isLineEnd c = false ∧ c ≠ q ∧ c ≠ '\\'

theorem Inside.split (h : Inside q cs) {n : Nat} (hplain : '\\' ∉ cs.take n) :
    Plain q (cs.take n) ∧ Inside q (cs.drop n) := by
  induction n generalizing cs with
  | zero => exact ⟨List.forall_mem_nil _, h⟩
  | succ n ih =>
    cases h with
    | nil => exact ⟨List.forall_mem_nil _, .nil⟩
    | escape => exact absurd (List.mem_cons_self ..) hplain
    | char hend hq hb h =>
      obtain ⟨hrun, hin⟩ := ih h fun hmem => hplain (List.mem_cons_of_mem _ hmem)
      exact ⟨List.forall_mem_cons.mpr ⟨⟨hend, hq, hb⟩, hrun⟩, hin⟩

theorem readQuoted_plain {run : List Char} (h : Plain q run) (cs : List Char) :
    readQuoted q (run ++ cs) = ((readQuoted q cs).1.map (run ++ ·), (readQuoted q cs).2) := by
  induction run with
  | nil => simp
  | cons c run ih =>
    obtain ⟨⟨hend, hq, hb⟩, hrun⟩ := List.forall_mem_cons.mp h
    rw [List.cons_append, readQuoted_char hend hq hb, ih hrun, behind, Option.map_map]
    rfl

theorem named?_eq_some (h : named? ds = some c) : ds.length = 4 ∧ '\\' ∉ ds ∧ escapedChar? ds = some c := by
  unfold named? at h
  split at h
  · exact ⟨Number.length_of_escapedChar? h, Number.not_backslash_of_escapedChar? h, h⟩
  · cases h

/-! ### Piece by piece -/

/-- The pieces as they are read one after the other. -/
inductive Pieced (q : Char) : List Char → List Piece → Prop
  | nil : Pieced q [] []
  | read {c : Char} {raw raw' : List Char} {ps : List Piece} :
      (∀ more, readQuoted q (raw ++ more) = behind c (readQuoted q (raw' ++ more))) → Pieced q raw' ps →
      Pieced q raw (.read c :: ps)
  | unnamed {raw : List Char} {ps : List Piece} :
      Inside q raw → Pieced q raw ps → Pieced q ('\\' :: 'u' :: raw) (.unnamed raw :: ps)

variable {ps : List Piece}

theorem Inside.pieced (hq : q ≠ '\\') (h : Inside q raw) : Pieced q raw (pieces raw) := by
  fun_induction pieces raw with
  | case1 => exact .nil
  | case2 =>
    cases h with
    | char _ _ hb => exact absurd rfl hb
  | case3 ds d hd ih =>
    cases h with
    | char _ _ hb => exact absurd rfl hb
    | escape _ h =>
      obtain ⟨hlength, hplain, hname⟩ := named?_eq_some hd
      refine .read (fun more => ?_) (ih (h.split hplain).2)
      have hds : '\\' :: 'u' :: ds = '\\' :: 'u' :: ds.take 4 ++ ds.drop 4 := by
        rw [List.cons_append, List.cons_append, List.take_append_drop]
      rw [hds, List.append_assoc, readQuoted_named hq hname hlength]
  | case4 ds _ ih =>
    cases h with
    | char _ _ hb => exact absurd rfl hb
    | escape _ h => exact .unnamed h (ih h)
  | case5 e ds he ih =>
    cases h with
    | char _ _ hb => exact absurd rfl hb
    | escape _ h => exact .read (fun more => readQuoted_escape hq he) (ih h)
  | case6 c cs hb ih =>
    cases h with
    | char hend hc _ h => exact .read (fun more => readQuoted_char hend hc hb) (ih h)
    | escape => exact absurd rfl hb

/-- If a text ends at its closing quote, then four characters stand in front of that quote behind a `\u`. -/
theorem Inside.exists_read (hq : q ≠ '\\') (hin : Inside q cs) (hplain : '\\' ∉ cs.take 4)
    (h : readQuoted q ('\\' :: 'u' :: (cs ++ q :: rest)) = (some text, rest)) :
    4 ≤ cs.length ∧ ∃ text', text = escapedFour (cs.take 4) ++ text' ∧
      readQuoted q (cs ++ q :: rest) = (some (cs.take 4 ++ text'), rest) := by
  rw [readQuoted_u hq] at h
  obtain ⟨htext, hrest⟩ := Prod.mk.inj h
  obtain ⟨text', htext', rfl⟩ := Option.map_eq_some_iff.mp htext
  have hread : readQuoted q ((cs ++ q :: rest).drop 4) = (some text', rest) := Prod.ext htext' hrest
  have hlength : 4 ≤ cs.length := by
    obtain ⟨raw, hraw, -⟩ := exists_raw hread
    have hlengths := congrArg List.length hraw
    simp only [List.length_drop, List.length_append, List.length_cons] at hlengths
    omega
  refine ⟨hlength, text', by rw [List.take_append_of_le_length hlength], ?_⟩
  rw [List.drop_append_of_le_length hlength] at hread
  have hrun := readQuoted_plain (hin.split hplain).1 (cs.drop 4 ++ q :: rest)
  rwa [← List.append_assoc, List.take_append_drop, hread] at hrun

/-- No text is longer than its pieces. -/
theorem Pieced.length_le (hend : Text.isLineEnd q = false) (hq : q ≠ '\\') (hp : Pieced q raw ps)
    (hplain : ∀ ds ∈ behindUnnamed ps, '\\' ∉ ds.take 4)
    (h : readQuoted q (raw ++ q :: rest) = (some text, rest)) : text.length ≤ ps.length := by
  induction hp generalizing text with
  | nil =>
    rw [List.nil_append, readQuoted_quote hend] at h
    cases h
    exact Nat.le_refl 0
  | read hread _ ih =>
    rw [hread] at h
    obtain ⟨htext, hrest⟩ := Prod.mk.inj h
    obtain ⟨text', htext', rfl⟩ := Option.map_eq_some_iff.mp htext
    exact Nat.succ_le_succ (ih hplain (Prod.ext htext' hrest))
  | @unnamed raw ps hin _ ih =>
    rw [behindUnnamed_unnamed, List.forall_mem_cons] at hplain
    obtain ⟨-, text', rfl, hread⟩ := hin.exists_read hq hplain.1 h
    have hle := ih hplain.2 hread
    have hescaped := length_escapedFour_le (raw.take 4)
    simp only [List.length_append, List.length_cons] at hle ⊢
    omega

theorem behind_eq_iff {p : Option (List Char) × List Char} :
    behind c p = (some (c :: text), rest) ↔ p = (some text, rest) := by
  obtain ⟨_ | text', rest'⟩ := p
  · simp [behind]
  · simp [behind]

/-- A text without a backslash in the four characters behind a `\u` that names none is read piece by piece exactly if
    all these characters stand in front of its closing quote and are not mistaken for a name. -/
theorem Pieced.readQuoted_iff (hend : Text.isLineEnd q = false) (hq : q ≠ '\\') (hp : Pieced q raw ps)
    (hplain : ∀ ds ∈ behindUnnamed ps, '\\' ∉ ds.take 4) :
    readQuoted q (raw ++ q :: rest) = (some (decoded ps), rest) ↔
      ∀ ds ∈ behindUnnamed ps, 4 ≤ ds.length ∧ escapedChar? (ds.take 4) = none := by
  induction hp with
  | nil => exact iff_of_true (readQuoted_quote hend) (List.forall_mem_nil _)
  | @read c raw raw' ps hread _ ih =>
    rw [hread, decoded_read, behind_eq_iff, ih hplain, behindUnnamed_read]
  | @unnamed raw ps hin hp ih =>
    rw [behindUnnamed_unnamed, List.forall_mem_cons] at hplain ⊢
    obtain ⟨hfour, hplain⟩ := hplain
    rw [← ih hplain, decoded_unnamed]
    constructor
    · intro h
      obtain ⟨hlength, text', htext, hread⟩ := hin.exists_read hq hfour h
      cases hname : escapedChar? (raw.take 4) with
      | none =>
        rw [escapedFour_of_none hname, List.cons_append] at htext
        exact ⟨⟨hlength, rfl⟩, by rw [hread, List.tail_eq_of_cons_eq htext]⟩
      | some c =>
        -- The `u` and the four characters are read as one, so what is read has not enough characters.
        rw [escapedFour_of_some hname] at htext
        have hlengths := congrArg List.length htext
        have hle := hp.length_le hend hq hplain hread
        simp only [List.length_append, List.length_cons, List.length_nil, List.length_take, length_decoded]
          at hle hlengths
        omega
    · rintro ⟨⟨hlength, hname⟩, hread⟩
      have hrun := readQuoted_plain (hin.split hfour).1 (raw.drop 4 ++ q :: rest)
      rw [← List.append_assoc, List.take_append_drop, hread] at hrun
      obtain ⟨htext, hrest⟩ := Prod.mk.inj hrun
      rw [List.cons_append, List.cons_append, readQuoted_u hq, List.take_append_of_le_length hlength,
        List.drop_append_of_le_length hlength, escapedFour_of_none hname, ← hrest]
      obtain ⟨text', htext', hdecoded⟩ := Option.map_eq_some_iff.mp htext.symm
      rw [htext', ← hdecoded]
      rfl

end Quoted

namespace Scanner

open Quoted

variable {s : Scanner}

/-- A quoted text ends at the first quote of its kind on the line that no backslash escapes, and is read piece by piece
    up to there, exactly if four characters stand in front of that quote behind each `\u` that names no character, and
    they do not name one by a sign and three digits. No backslash must be among these four: it would escape nothing. -/
theorem next_quoted_iff (hq : q = '"' ∨ q = '\'') (hs : (s.skip r).rest = q :: cs)
    (hclosed : closed? q cs = some (raw, rest)) (hplain : ∀ ds ∈ behindUnnamed (pieces raw), '\\' ∉ ds.take 4) :
    s.next r = (.ok ⟨s.line, .quoted q (String.ofList (decoded (pieces raw)))⟩, ⟨rest, s.line, false⟩) ↔
      ∀ ds ∈ behindUnnamed (pieces raw), 4 ≤ ds.length ∧ escapedChar? (ds.take 4) = none := by
  have hne := quote_ne_backslash hq
  obtain ⟨rfl, hin⟩ := closed?_eq hclosed
  obtain ⟨-, -, -, hline⟩ := exists_skipped r s
  have hread : readQuoted q (raw ++ q :: rest) = (some (decoded (pieces raw)), rest) ↔ _ :=
    (hin.pieced hne).readQuoted_iff (quote_not_lineEnd hq) hne hplain
  rw [← hread, next, ← hline]
  generalize s.skip r = s' at hs
  obtain ⟨_, line, boundary⟩ := s'
  subst hs
  rw [read_quote hq]
  rcases readQuoted q (raw ++ q :: rest) with ⟨_ | text, rest'⟩
  · simp
  · simp [String.ofList_inj]

/-- A `\u` with four digits that name a character, and one in a path that names none. -/
theorem next_quoted_users :
    (start "\"caf\\u00e9 C:\\users\", 1").next .tree =
      (.ok ⟨1, .quoted '"' "café C:users"⟩, ⟨", 1".toList, 1, false⟩) := by
  have hclosed : closed? '"' "caf\\u00e9 C:\\users\", 1".toList =
      some ("caf\\u00e9 C:\\users".toList, ", 1".toList) := by decide +kernel
  have hdecoded : decoded (pieces "caf\\u00e9 C:\\users".toList) = "café C:users".toList := by decide +kernel
  have hnext := (next_quoted_iff (s := start "\"caf\\u00e9 C:\\users\", 1") (r := .tree) (.inl rfl) rfl hclosed
    (by decide +kernel)).mpr (by decide +kernel)
  rwa [hdecoded] at hnext

/-- The closing quote is among the four characters. -/
theorem next_quoteTaken :
    ((start "\"a\\u\", \"b\"").skip .tree).rest = '"' :: "a\\u\", \"b\"".toList ∧
    closed? '"' "a\\u\", \"b\"".toList = some ("a\\u".toList, ", \"b\"".toList) ∧
    decoded (pieces "a\\u".toList) = "au".toList ∧
    ((start "\"a\\u\", \"b\"").next .tree).1.toOption = some ⟨1, .quoted '"' "au\", \"b"⟩ := by
  decide +kernel

end Scanner

end Settings
