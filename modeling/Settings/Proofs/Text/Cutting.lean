import Settings.Text.Blank

/-! # Cutting and trimming

`cut?` finds the first occurrence of its character, and so it undoes joining two texts of which the first
does not hold it. The pieces between all occurrences join to the whole text again, and `after?` undoes putting a
lead in front. A text that has no white space at its ends is trimmed already. Where a member stands in a list that was
put together of others is said first. -/

namespace Settings

/-! ### A member of a list put together -/

section Split
variable {α β : Type}

theorem append_split {xs ys before after : List α} {x : α} (h : xs ++ ys = before ++ x :: after) :
    (∃ more, xs = before ++ x :: more ∧ after = more ++ ys) ∨
      ∃ before', before = xs ++ before' ∧ ys = before' ++ x :: after := by
  rcases List.append_eq_append_iff.mp h with ⟨before', hbefore, hys⟩ | ⟨more, hxs, hmore⟩
  · exact .inr ⟨before', hbefore, hys⟩
  · cases more with
    | nil => exact .inr ⟨[], by rw [hxs, List.append_nil, List.append_nil], hmore.symm⟩
    | cons y more =>
      obtain ⟨rfl, hafter⟩ := List.cons.inj hmore
      exact .inl ⟨more, hxs, hafter⟩

theorem flatMap_split {f : α → List β} {as : List α} {x : β} {before after : List β}
    (h : as.flatMap f = before ++ x :: after) :
    ∃ as₁ a as₂ bs₁ bs₂, as = as₁ ++ a :: as₂ ∧ f a = bs₁ ++ x :: bs₂ ∧ before = as₁.flatMap f ++ bs₁ ∧
      after = bs₂ ++ as₂.flatMap f := by
  induction as generalizing before with
  | nil => cases List.append_ne_nil_of_right_ne_nil before (List.cons_ne_nil x after) h.symm
  | cons a as ih =>
    rw [List.flatMap_cons] at h
    rcases append_split h with ⟨more, ha, hafter⟩ | ⟨before', rfl, hrest⟩
    · exact ⟨[], a, as, before, more, rfl, ha, rfl, hafter⟩
    · obtain ⟨as₁, a', as₂, bs₁, bs₂, rfl, hf, rfl, hafter⟩ := ih hrest
      exact ⟨a :: as₁, a', as₂, bs₁, bs₂, rfl, hf, by rw [List.flatMap_cons, List.append_assoc], hafter⟩

end Split

namespace Text

variable {sep : Char} {a b cs : List Char}

theorem cut?_append (h : sep ∉ a) : cut? sep (a ++ sep :: b) = some (a, b) := by
  induction a with
  | nil => simp [cut?]
  | cons c a ih =>
    rw [List.mem_cons, not_or] at h
    rw [List.cons_append, cut?, if_neg (Ne.symm h.1), ih h.2, Option.map_some]

theorem cut?_eq_none_iff : cut? sep cs = none ↔ sep ∉ cs := by
  constructor
  · intro h hmem
    obtain ⟨a, b, rfl, ha⟩ := List.eq_append_cons_of_mem hmem
    rw [cut?_append ha] at h
    cases h
  · intro h
    cases hc : cut? sep cs with
    | none => rfl
    | some p =>
      rw [cut?_eq (a := p.1) (b := p.2) hc] at h
      exact absurd (by simp) h

theorem cut?_eq_some_iff : cut? sep cs = some (a, b) ↔ sep ∉ a ∧ cs = a ++ sep :: b := by
  refine ⟨fun h => ?_, fun ⟨ha, hcs⟩ => hcs ▸ cut?_append ha⟩
  have hmem : sep ∈ cs := by
    rw [cut?_eq h]
    simp
  obtain ⟨a', b', rfl, ha⟩ := List.eq_append_cons_of_mem hmem
  rw [cut?_append ha] at h
  cases h
  exact ⟨ha, rfl⟩

theorem cutLast?_eq_none_iff : cutLast? sep cs = none ↔ sep ∉ cs := by
  induction cs with
  | nil => simp [cutLast?]
  | cons c cs ih =>
    rw [cutLast?, List.mem_cons, not_or, ← ih]
    cases cutLast? sep cs with
    | some p => simp
    | none => simp [eq_comm]

theorem cutLast?_eq (h : cutLast? sep cs = some (a, b)) : cs = a ++ sep :: b ∧ sep ∉ b := by
  induction cs generalizing a with
  | nil => cases h
  | cons c cs ih =>
    rw [cutLast?] at h
    cases hcut : cutLast? sep cs with
    | some p =>
      rw [hcut] at h
      cases h
      obtain ⟨hcs, hb⟩ := ih hcut
      exact ⟨by rw [hcs, List.cons_append], hb⟩
    | none =>
      rw [hcut] at h
      simp only [Option.ite_none_right_eq_some, Option.some.injEq, Prod.mk.injEq] at h
      obtain ⟨rfl, rfl, rfl⟩ := h
      exact ⟨rfl, cutLast?_eq_none_iff.mp hcut⟩

/-! ### Pieces -/

theorem pieces_ne_nil : pieces sep cs ≠ [] := by
  cases cs with
  | nil => exact List.cons_ne_nil _ _
  | cons c cs =>
    unfold pieces
    split
    · exact List.cons_ne_nil _ _
    · split
      · exact List.cons_ne_nil _ _
      · exact List.cons_ne_nil _ _

theorem intercalate_pieces (sep : Char) (cs : List Char) : [sep].intercalate (pieces sep cs) = cs := by
  induction cs with
  | nil => rfl
  | cons c cs ih =>
    have hne : pieces sep cs ≠ [] := pieces_ne_nil
    obtain ⟨p, ps, hp⟩ := List.exists_cons_of_ne_nil hne
    rw [hp] at ih
    unfold pieces
    rw [hp]
    split
    · next hc => rw [List.intercalate_cons_cons, ih, hc]; rfl
    · cases ps with
      | nil => simpa using ih
      | cons q qs => simpa [List.intercalate_cons_cons] using ih

theorem pieces_append (sep : Char) (cs rest : List Char) :
    pieces sep (cs ++ sep :: rest) = pieces sep cs ++ pieces sep rest := by
  induction cs with
  | nil =>
    have hne : pieces sep rest ≠ [] := pieces_ne_nil
    obtain ⟨p, ps, hp⟩ := List.exists_cons_of_ne_nil hne
    simp [pieces, hp]
  | cons c cs ih =>
    have hne : pieces sep cs ≠ [] := pieces_ne_nil
    obtain ⟨p, ps, hp⟩ := List.exists_cons_of_ne_nil hne
    rw [hp] at ih
    rw [List.cons_append, pieces, ih, pieces, hp]
    split
    · rfl
    · rfl

theorem pieces_of_not_mem (h : sep ∉ cs) : pieces sep cs = [cs] := by
  induction cs with
  | nil => rfl
  | cons c cs ih =>
    rw [List.mem_cons, not_or] at h
    rw [pieces, if_neg (Ne.symm h.1), ih h.2]

/-! ### Leads -/

theorem after?_append_self (lead rest : List Char) : after? lead (lead ++ rest) = some rest := by
  induction lead with
  | nil => rfl
  | cons c lead ih => rw [List.cons_append, after?, if_pos rfl, ih]

theorem after?_eq_some_iff : after? a cs = some b ↔ cs = a ++ b :=
  ⟨after?_eq, fun h => h ▸ after?_append_self a b⟩

/-! ### Trimming -/

theorem trimStart_eq (h : cs.head?.any isWhite = false) : trimStart cs = cs := by
  cases cs with
  | nil => rfl
  | cons c cs =>
    have hc : isWhite c = false := h
    rw [trimStart, List.dropWhile_cons_of_neg (by rw [hc]; decide)]

theorem trimEnd_eq (h : cs.getLast?.any isWhite = false) : trimEnd cs = cs := by
  have hrev : cs.reverse.dropWhile isWhite = cs.reverse := trimStart_eq (by rwa [List.head?_reverse])
  rw [trimEnd, hrev, List.reverse_reverse]

theorem trim_eq (hstart : cs.head?.any isWhite = false) (hend : cs.getLast?.any isWhite = false) : trim cs = cs := by
  rw [trim, trimStart_eq hstart, trimEnd_eq hend]

theorem trim_append (ha : ∀ c ∈ a, isWhite c) (cs : List Char) : trim (a ++ cs) = trim cs := by
  rw [trim, trimStart, List.dropWhile_append_of_pos ha]
  rfl

theorem trim_white (h : ∀ c ∈ cs, isWhite c) : trim cs = [] := by
  have htrim := trim_append h []
  rwa [List.append_nil] at htrim

theorem trim_append_white (hne : cs ≠ []) (hstart : cs.head?.any isWhite = false) (hend : cs.getLast?.any isWhite = false)
    (hb : ∀ c ∈ b, isWhite c) : trim (cs ++ b) = cs := by
  have hfront : trimStart (cs ++ b) = cs ++ b := by
    obtain ⟨c, cs, rfl⟩ := List.exists_cons_of_ne_nil hne
    exact trimStart_eq hstart
  have hback : (cs ++ b).reverse.dropWhile isWhite = cs.reverse.dropWhile isWhite := by
    rw [List.reverse_append, List.dropWhile_append_of_pos (by simpa using hb)]
  rw [trim, hfront, trimEnd, hback]
  exact trimEnd_eq hend

theorem trimmed_eq {s : String} (hstart : s.toList.head?.any isWhite = false)
    (hend : s.toList.getLast?.any isWhite = false) : trimmed s = s := by
  rw [trimmed, trim_eq hstart hend, String.ofList_toList]

theorem trimStart_append {c : Char} (hc : isWhite c = false) (as bs : List Char) :
    trimStart (as ++ c :: bs) = trimStart as ++ c :: bs := by
  induction as with
  | nil => exact List.dropWhile_cons_of_neg (by simp [hc])
  | cons a as ih =>
    unfold trimStart at ih ⊢
    rw [List.cons_append, List.dropWhile_cons, List.dropWhile_cons, ih]
    split <;> rfl

theorem trimEnd_append {c : Char} (hc : isWhite c = false) (as bs : List Char) :
    trimEnd (as ++ c :: bs) = as ++ c :: trimEnd bs := by
  have hreverse := trimStart_append hc bs.reverse as.reverse
  unfold trimStart at hreverse
  rw [trimEnd, List.reverse_append, List.reverse_cons, List.append_assoc, List.singleton_append, hreverse]
  simp [trimEnd]

/-- What is not white stays in its place when a text is trimmed. -/
theorem trim_around {c : Char} (hc : isWhite c = false) (as bs : List Char) :
    trim (as ++ c :: bs) = trimStart as ++ c :: trimEnd bs := by
  rw [trim, trimStart_append hc, trimEnd_append hc]

theorem beforeLast?_around {c d : Char} (hc : c ≠ d) (as bs : List Char) :
    ∃ cs, (beforeLast? d (as ++ c :: bs)).getD (as ++ c :: bs) = as ++ c :: cs := by
  unfold beforeLast?
  split
  · next hlast =>
    refine ⟨bs.dropLast, ?_⟩
    cases bs with
    | nil =>
      rw [List.getLast?_concat, Option.some.injEq] at hlast
      exact absurd hlast hc
    | cons b bs => rw [Option.getD_some, List.dropLast_append_cons, List.dropLast_cons_cons]
  · exact ⟨bs, rfl⟩

/-! ### Lines -/

/-- The text with a carriage return in front of each line feed. -/
def withReturns (cs : List Char) : List Char := cs.flatMap fun c => if c = '\n' then ['\r', '\n'] else [c]

/-- Each text is one line without its end, or a line and the text behind its line feed. -/
theorem line_induction {motive : List Char → Prop} (last : ∀ cs, '\n' ∉ cs → motive cs)
    (line : ∀ cs rest, '\n' ∉ cs → motive rest → motive (cs ++ '\n' :: rest)) (cs : List Char) : motive cs := by
  induction hn : cs.length using Nat.strongRecOn generalizing cs with
  | ind n ih =>
    by_cases hmem : '\n' ∈ cs
    · obtain ⟨a, b, rfl, ha⟩ := List.eq_append_cons_of_mem hmem
      refine line a b ha (ih _ ?_ b rfl)
      rw [← hn, List.length_append, List.length_cons]
      omega
    · exact last cs hmem

theorem withoutReturn_eq (h : cs.getLast? ≠ some '\r') : withoutReturn cs = cs := by simp [withoutReturn, beforeLast?, h]

theorem withoutReturn_return (cs : List Char) : withoutReturn (cs ++ ['\r']) = cs := by simp [withoutReturn, beforeLast?]

theorem mem_of_mem_withoutReturn {c : Char} (h : c ∈ withoutReturn cs) : c ∈ cs := by
  unfold withoutReturn beforeLast? at h
  split at h
  · exact (List.dropLast_sublist cs).mem h
  · exact h

theorem lines_cons (h : '\n' ∉ cs) (rest : List Char) : lines (cs ++ '\n' :: rest) = withoutReturn cs :: lines rest := by
  rw [lines]
  split
  · next hcut => simp [cut?_append h] at hcut
  · next a b hcut =>
    rw [cut?_append h] at hcut
    cases hcut
    rfl

theorem lines_append (h : '\n' ∉ cs) (hret : cs.getLast? ≠ some '\r') (rest : List Char) :
    lines (cs ++ '\n' :: rest) = cs :: lines rest := by
  rw [lines_cons h, withoutReturn_eq hret]

theorem lines_nil : lines [] = [] := by
  rw [lines]
  rfl

theorem lines_last (h : '\n' ∉ cs) (hne : cs ≠ []) : lines cs = [cs] := by
  rw [lines]
  split
  · rw [if_neg hne]
  · next hcut => simp [cut?_eq_none_iff.mpr h] at hcut

/-- A line feed cuts a text into two that are cut into lines on their own. -/
theorem lines_of_lineFeed (h : cs.getLast? = some '\n') (rest : List Char) :
    lines (cs ++ rest) = lines cs ++ lines rest := by
  induction cs using line_induction with
  | last cs hmem => exact absurd (List.mem_of_getLast? h) hmem
  | line cs more hmem ih =>
    have hsplit : lines (cs ++ '\n' :: (more ++ rest)) = withoutReturn cs :: lines (more ++ rest) := lines_cons hmem _
    rw [List.append_assoc, List.cons_append, hsplit, lines_cons hmem]
    cases more with
    | nil => rw [List.nil_append, lines_nil]; rfl
    | cons c more => rw [ih (by simpa using h), List.cons_append]

/-- A line of its own between two texts is a line of the whole. -/
theorem lines_between {before line ending : List Char} (hbefore : before.getLast? = some '\n') (hline : '\n' ∉ line)
    (hending : ending = ['\n'] ∨ ending = ['\r', '\n']) (after : List Char) :
    ∃ raw, (raw = line ∨ raw = withoutReturn line) ∧
      lines (before ++ (line ++ ending) ++ after) = lines before ++ raw :: lines after := by
  rw [List.append_assoc, lines_of_lineFeed hbefore]
  rcases hending with rfl | rfl
  · refine ⟨_, .inr rfl, ?_⟩
    rw [List.append_assoc, List.singleton_append, lines_cons hline]
  · refine ⟨_, .inl rfl, ?_⟩
    have hsplit : line ++ ['\r', '\n'] ++ after = line ++ ['\r'] ++ '\n' :: after := by simp
    rw [hsplit, lines_cons (by simp [hline]), withoutReturn_return]

/-- A text between two others is a line of the whole text. -/
structure LineAt (before line after : List Char) : Prop where
  front : before = [] ∨ before.getLast? = some '\n'
  feed : '\n' ∉ line
  back : after = [] ∨ ['\r', '\n'] <+: after ∨ ['\n'] <+: after ∧ line.getLast? ≠ some '\r'

/-- A line is cut off in front of a line end and in front of the end of the text. -/
theorem lines_ended {after : List Char} (hcs : '\n' ∉ cs) (hne : cs ≠ [] ∨ after ≠ [])
    (hafter : after = [] ∨ ['\r', '\n'] <+: after ∨ ['\n'] <+: after) :
    ∃ raw, (raw = cs ∨ ['\n'] <+: after ∧ raw = withoutReturn cs) ∧
      lines (cs ++ after) = raw :: (lines after).tail := by
  rcases hafter with rfl | ⟨rest, rfl⟩ | ⟨rest, rfl⟩
  · refine ⟨cs, .inl rfl, ?_⟩
    rw [List.append_nil, lines_nil, lines_last hcs (hne.resolve_right (by simp))]
    rfl
  · have hreturn : '\n' ∉ ['\r'] := by simp
    have hend : lines (['\r'] ++ '\n' :: rest) = withoutReturn ['\r'] :: lines rest := lines_cons hreturn rest
    have hsplit : cs ++ (['\r', '\n'] ++ rest) = cs ++ ['\r'] ++ '\n' :: rest := by simp
    refine ⟨cs, .inl rfl, ?_⟩
    rw [hsplit, lines_cons (by simp [hcs]), withoutReturn_return]
    exact congrArg (cs :: ·) (congrArg List.tail hend).symm
  · have hend : lines ([] ++ '\n' :: rest) = withoutReturn [] :: lines rest := lines_cons List.not_mem_nil rest
    refine ⟨withoutReturn cs, .inr ⟨⟨rest, rfl⟩, rfl⟩, ?_⟩
    rw [List.singleton_append, lines_cons hcs]
    exact congrArg (withoutReturn cs :: ·) (congrArg List.tail hend).symm

namespace LineAt

variable {before line after : List Char}

theorem lines_front (h : LineAt before line after) (rest : List Char) :
    lines (before ++ rest) = lines before ++ lines rest := by
  rcases h.front with rfl | hlast
  · rw [lines_nil]
    rfl
  · exact lines_of_lineFeed hlast rest

theorem ends (h : LineAt before line after) : after = [] ∨ ['\r', '\n'] <+: after ∨ ['\n'] <+: after :=
  h.back.imp_right (.imp_right And.left)

/-- Another line in the place of a line leaves those before it and behind it as they are. -/
theorem lines_of (h : LineAt before line after) (cs : List Char) (hcs : '\n' ∉ cs) (hne : cs ≠ []) :
    ∃ raw, (raw = cs ∨ raw = withoutReturn cs) ∧
      lines (before ++ cs ++ after) = lines before ++ raw :: (lines after).tail := by
  obtain ⟨raw, hraw, hlines⟩ := lines_ended hcs (.inl hne) h.ends
  refine ⟨raw, hraw.imp_right And.right, ?_⟩
  rw [List.append_assoc, h.lines_front, hlines]

/-- A line that is not a carriage return's is cut off as it is. -/
theorem lines_ended_eq (h : LineAt before line after) (hcs : '\n' ∉ cs) (hne : cs ≠ [] ∨ after ≠ [])
    (hreturn : cs.getLast? = some '\r' → line.getLast? = some '\r') :
    lines (cs ++ after) = cs :: (lines after).tail := by
  obtain ⟨raw, rfl | ⟨⟨rest, rfl⟩, rfl⟩, hlines⟩ := lines_ended hcs hne h.ends
  · exact hlines
  · have hline : line.getLast? ≠ some '\r' := by simpa using h.back
    rwa [withoutReturn_eq (mt hreturn hline)] at hlines

theorem lines_eq (h : LineAt before line after) (hne : line ≠ []) :
    lines (before ++ line ++ after) = lines before ++ line :: (lines after).tail := by
  rw [List.append_assoc, h.lines_front, h.lines_ended_eq h.feed (.inl hne) id]

end LineAt

theorem withReturns_of_not_mem (h : '\n' ∉ cs) : withReturns cs = cs := by
  induction cs with
  | nil => rfl
  | cons c cs ih =>
    rw [List.mem_cons, not_or] at h
    have hcs : withReturns cs = cs := ih h.2
    rw [withReturns] at hcs ⊢
    rw [List.flatMap_cons, if_neg (Ne.symm h.1), hcs, List.singleton_append]

theorem withReturns_append (as bs : List Char) : withReturns (as ++ bs) = withReturns as ++ withReturns bs :=
  List.flatMap_append

theorem withReturns_line (h : '\n' ∉ cs) (rest : List Char) :
    withReturns (cs ++ '\n' :: rest) = cs ++ ['\r'] ++ '\n' :: withReturns rest := by
  rw [withReturns_append, withReturns_of_not_mem h, List.append_assoc]
  rfl

/-- A carriage return in front of a line feed is no part of the line. -/
theorem lines_withReturns (h : '\r' ∉ cs) : lines (withReturns cs) = lines cs := by
  induction cs using line_induction with
  | last cs hmem => rw [withReturns_of_not_mem hmem]
  | line cs rest hmem ih =>
    simp only [List.mem_append, List.mem_cons, not_or] at h
    have hret : cs.getLast? ≠ some '\r' := fun hlast => h.1 (List.mem_of_getLast? hlast)
    rw [withReturns_line hmem, lines_cons (by simp [hmem]), withoutReturn_return, lines_append hmem hret, ih h.2.2]

/-- Lines that each end in a line feed are split again. -/
theorem lines_flatMap {ls : List (List Char)} (h : ∀ l ∈ ls, '\n' ∉ l ∧ l.getLast? ≠ some '\r') :
    lines (ls.flatMap (· ++ ['\n'])) = ls := by
  induction ls with
  | nil => exact lines_nil
  | cons l ls ih =>
    obtain ⟨⟨hfeed, hret⟩, hls⟩ := List.forall_mem_cons.mp h
    rw [List.flatMap_cons, List.append_assoc, List.singleton_append, lines_append hfeed hret, ih hls]

end Text

end Settings
