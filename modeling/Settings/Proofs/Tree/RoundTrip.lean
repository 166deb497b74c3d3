import Settings.Proofs.Number.DecimalText
import Settings.Proofs.Tree.Form
import Settings.Tree.Printer
import Settings.Tree.Reader

/-! # A tree's text reads back

The reader takes the text of a tree from any place where a value may stand, whatever lists and maps are open
around it, and goes on behind it as if it had been handed the tree, with each float as the number that its text
stands for. The text of a whole tree without floats therefore reads as that tree. -/

namespace Settings.Tree

/-! ### Words that stand for scalars -/

/-- A text that looks like a number is none of the words, and stands for an integer if it is read as one. -/
theorem ofWord_of_looksNumeric {cs : List Char} (h : looksNumeric cs) :
    (∀ n, Number.readInt .word cs = .ok n → ofWord (String.ofList cs) = int (Int64.ofInt n)) ∧
      ∀ why x, Number.readInt .word cs = .error why → Number.readDecimal cs = .ok x →
        ofWord (String.ofList cs) = float x := by
  have hnum : looksNumeric (String.ofList cs).toList := by rwa [String.toList_ofList]
  have hne : ∀ w : String, looksNumeric w.toList = false → String.ofList cs ≠ w :=
    fun w hw heq => absurd (heq ▸ hnum) (by simp [hw])
  rw [ofWord, if_neg (hne _ (by decide)), if_neg (hne _ (by decide)), if_neg (hne _ (by decide)), if_pos hnum,
    String.toList_ofList]
  constructor
  · intro n hn
    simp only [hn]
  · intro why x hn hx
    simp only [hn, hx]

/-- A word stands for a scalar. -/
theorem distinct_ofWord (word : String) : (ofWord word).Distinct := by
  unfold ofWord
  repeat' split
  all_goals exact nofun

theorem isWordChar_isDigit {c : Char} (h : c.isDigit) : LexRules.tree.isWordChar c := by
  have hascii : c.toNat < 0x80 := by
    simp only [Char.isDigit, Bool.and_eq_true, decide_eq_true_eq] at h
    have := UInt32.le_iff_toNat_le.mp h.2
    exact Nat.lt_of_le_of_lt this (by decide)
  have halnum : Text.isAlphanumeric c := by
    rw [Text.isAlphanumeric_of_ascii hascii, Char.isAlphanum, h, Bool.or_true]
  rw [LexRules.isWordChar, halnum, Bool.true_or]

theorem looksNumeric_intText (i : Int) : looksNumeric (Number.intText i) := by
  obtain ⟨d, ds, hdigits⟩ := List.exists_cons_of_ne_nil (Nat.toDigits_ne_nil (n := i.natAbs) (b := 10))
  have hd : d.isDigit := Nat.isDigit_of_mem_toDigits (by decide) (by decide) (hdigits ▸ List.mem_cons_self)
  unfold Number.intText
  rw [hdigits]
  split
  · simp [looksNumeric, hd]
  · simp [looksNumeric, hd]

theorem isWordChar_intText (i : Int) : ∀ c ∈ Number.intText i, LexRules.tree.isWordChar c := by
  intro c hc
  rcases Number.mem_intText hc with rfl | hd
  · decide
  · exact isWordChar_isDigit hd

theorem ofWord_intText (n : Int64) : ofWord (String.ofList (Number.intText n.toInt)) = int n := by
  rw [(ofWord_of_looksNumeric (looksNumeric_intText _)).1 _ (Number.readInt_intText (Number.word_holds n)),
    Int64.ofInt_toInt]

/-! ### Floats -/

theorem floatText_pointed {x : Number.Binary64} (hi : x.isIntegral = true) (hlt : x.truncate.natAbs < 10 ^ 16) :
    floatText x =
      (if x.negative then ['-'] else []) ++ (Number.Binary64.byPlace x.shortest.1 x.shortest.2 ++ ['.', '0']) := by
  have hf := Number.Binary64.isFinite_of_isIntegral hi
  have hpoint : (x.isIntegral && decide (x.truncate.natAbs < Number.tenTo 16)) = true :=
    Bool.and_eq_true_iff.mpr ⟨hi, decide_eq_true hlt⟩
  rw [floatText, hf, if_neg (by decide), if_pos hpoint, Number.Binary64.plain_of_isFinite hf, List.append_assoc]

theorem floatText_unpointed {x : Number.Binary64} (hf : x.isFinite = true)
    (h : ¬(x.isIntegral = true ∧ x.truncate.natAbs < 10 ^ 16)) :
    floatText x = (if x.negative then ['-'] else []) ++ Number.Binary64.byPlace x.shortest.1 x.shortest.2 := by
  have hpoint : ¬(x.isIntegral && decide (x.truncate.natAbs < Number.tenTo 16)) = true := by
    rw [Bool.and_eq_true, decide_eq_true_eq]
    exact h
  rw [floatText, hf, if_neg (by decide), if_neg hpoint, Number.Binary64.plain_of_isFinite hf]

theorem isZero_eq_false {x : Number.Binary64} (hf : x.isFinite = true)
    (h : ¬(x.isIntegral = true ∧ x.truncate.natAbs < 10 ^ 16)) : x.isZero = false := by
  refine Bool.eq_false_iff.mpr fun hz => h ?_
  obtain ⟨hi, htruncate⟩ := Number.Binary64.isIntegral_of_isZero hf hz
  exact ⟨hi, by rw [htruncate]; decide⟩

/-- The text of a finite float is a number by place behind its sign. -/
theorem floatText_placed {x : Number.Binary64} (hf : x.isFinite = true) :
    ∃ cs, floatText x = (if x.negative then ['-'] else []) ++ cs ∧ Number.Placed x cs := by
  by_cases h : x.isIntegral = true ∧ x.truncate.natAbs < 10 ^ 16
  · exact ⟨_, floatText_pointed h.1 h.2, Number.Binary64.placed_integral hf h.1 h.2⟩
  · exact ⟨_, floatText_unpointed hf h, Number.Binary64.placed_plain hf (isZero_eq_false hf h)⟩

theorem looksNumeric_placed {x : Number.Binary64} {cs : List Char} (h : Number.Placed x cs) :
    looksNumeric ((if x.negative then ['-'] else []) ++ cs) := by
  obtain ⟨c, rest, rfl, hc⟩ := h.head
  split
  · simp [looksNumeric, hc]
  · simp [looksNumeric, hc]

/-- A finite float's text is a word for that float, or for an integer that is rounded to it. -/
theorem ofWord_floatText {x : Number.Binary64} (hf : x.isFinite = true) :
    ofWord (String.ofList (floatText x)) = float x ∨
      ∃ n : Int64, ofWord (String.ofList (floatText x)) = int n ∧ Number.Binary64.ofInt n.toInt = x := by
  obtain ⟨cs, htext, hplaced⟩ := floatText_placed hf
  obtain ⟨hinteger, hfloat⟩ := ofWord_of_looksNumeric (looksNumeric_placed hplaced)
  rw [htext]
  cases hint : Number.readInt .word ((if x.negative then ['-'] else []) ++ cs) with
  | error why => exact .inl (hfloat why x hint hplaced.readDecimal)
  | ok n =>
    have hback : (Int64.ofInt n).toInt = n := Number.toInt_ofInt (Number.holds_of_readInt hint)
    exact .inr ⟨Int64.ofInt n, hinteger n hint, hback.symm ▸ hplaced.ofInt_eq hf hint⟩

theorem floatText_ne_nil (x : Number.Binary64) : floatText x ≠ [] := by
  cases hf : x.isFinite with
  | false => simp [floatText, hf]
  | true =>
    obtain ⟨cs, htext, hplaced⟩ := floatText_placed hf
    obtain ⟨c, rest, rfl, -⟩ := hplaced.head
    simp [htext]

theorem isWordChar_floatText (x : Number.Binary64) : ∀ c ∈ floatText x, LexRules.tree.isWordChar c := by
  cases hf : x.isFinite with
  | false =>
    have hnull : floatText x = ['n', 'u', 'l', 'l'] := by simp [floatText, hf]
    rw [hnull]
    exact List.all_eq_true.mp (by decide)
  | true =>
    obtain ⟨cs, htext, hplaced⟩ := floatText_placed hf
    intro c hc
    rw [htext] at hc
    rcases List.mem_append.mp hc with hc | hc
    · split at hc
      · obtain rfl := List.mem_singleton.mp hc
        decide
      · cases hc
    · rcases hplaced.mem hc with rfl | hd
      · decide
      · exact isWordChar_isDigit hd

mutual

/-- The tree that a tree's text is read as: a float comes back as what its text stands for, a number of the same value
    or, if it is none, `null`. -/
def reread : Tree → Tree
  | float x => ofWord (String.ofList (floatText x))
  | list ts => list (rereadItems ts)
  | map ms => map (rereadMembers ms)
  | t => t

def rereadItems : List Tree → List Tree
  | [] => []
  | t :: ts => t.reread :: rereadItems ts

def rereadMembers : List (String × Tree) → List (String × Tree)
  | [] => []
  | (k, t) :: ms => (k, t.reread) :: rereadMembers ms

end

theorem rereadItems_eq (ts : List Tree) : rereadItems ts = ts.map reread := by
  induction ts with
  | nil => rfl
  | cons t ts ih => rw [rereadItems, ih, List.map_cons]

theorem rereadMembers_eq (ms : List (String × Tree)) : rereadMembers ms = ms.map fun p => (p.1, p.2.reread) := by
  induction ms with
  | nil => rfl
  | cons p ms ih => rw [rereadMembers, ih, List.map_cons]

mutual

theorem reread_of_floatFree (t : Tree) (h : t.FloatFree) : t.reread = t := by
  cases t with
  | float x => exact absurd rfl (h x)
  | list ts => rw [reread, rereadItems_of_floatFree ts h.2]
  | map ms => rw [reread, rereadMembers_of_floatFree ms h.2]
  | _ => rfl

theorem rereadItems_of_floatFree (ts : List Tree) (h : EverywhereItems NoFloat ts) : rereadItems ts = ts := by
  cases ts with
  | nil => rfl
  | cons t ts => rw [rereadItems, reread_of_floatFree t h.1, rereadItems_of_floatFree ts h.2]

theorem rereadMembers_of_floatFree (ms : List (String × Tree)) (h : EverywhereMembers NoFloat ms) :
    rereadMembers ms = ms := by
  cases ms with
  | nil => rfl
  | cons m ms =>
    obtain ⟨k, t⟩ := m
    rw [rereadMembers, reread_of_floatFree t h.1, rereadMembers_of_floatFree ms h.2]

end

namespace Reading

/-- Reading goes on over a text to its end and comes to an outcome of some kind, on whatever line it starts. -/
def Meets (r : Reading) (cs : List Char) (Q : Except Fault Tree → Prop) : Prop :=
  ∀ line boundary, Q (r.run ((⟨cs, line, boundary⟩ : Scanner).tape .tree))

/-- Reading goes on over a text to its end and results in a tree, on whatever line it starts. -/
def Yields (r : Reading) (cs : List Char) (t : Tree) : Prop :=
  ∀ line boundary, r.run ((⟨cs, line, boundary⟩ : Scanner).tape .tree) = .ok t

variable {r r' : Reading} {c : Char} {cs rest : List Char} {s : String} {t : Tree} {stack : List Frame}
  {want : Want} {l : Lexeme} {Q : Except Fault Tree → Prop}

theorem meets_ok_iff : r.Meets cs (· = .ok t) ↔ r.Yields cs t := Iff.rfl

/-! ### One lexeme -/

theorem run_cons {tape : Tape} (h : r.step l = .ok r') : r.run (.cons l tape) = r'.run tape := by
  rw [run, h]

theorem solid_tree : ∀ c ∈ LexRules.tree.wordChars, Solid c := by
  intro c hc
  simp only [LexRules.tree, List.mem_cons, List.not_mem_nil, or_false] at hc
  rcases hc with rfl | rfl | rfl | rfl
  all_goals decide

theorem Meets.eol (h : r.Meets cs Q) : r.Meets ('\n' :: cs) Q := fun line _ => by
  rw [Scanner.tape_eol]
  exact h (line + 1) true

theorem Meets.space (h : r.Meets cs Q) : r.Meets (' ' :: cs) Q := fun line _ => by
  rw [Scanner.tape_space rfl]
  exact h line true

theorem Meets.spaces (n : Nat) (h : r.Meets cs Q) : r.Meets (List.replicate n ' ' ++ cs) Q := by
  induction n with
  | zero => exact h
  | succ n ih => exact ih.space

theorem Meets.newline (layout : Layout) (level : Nat) (h : r.Meets cs Q) : r.Meets (layout.newline level ++ cs) Q := by
  cases layout with
  | compact => exact h
  | pretty => exact (h.spaces _).eol

theorem Meets.char (hc : Solid c) (hw : LexRules.tree.isWordChar c = false)
    (hs : ∀ line, r.step ⟨line, .char c⟩ = .ok r') (h : r'.Meets cs Q) : r.Meets (c :: cs) Q :=
  fun line _ => by
    rw [Scanner.tape_char hc hw, run_cons (hs line)]
    exact h line false

/-- A character at which reading fails. -/
theorem Meets.fault (hc : Solid c) (hw : LexRules.tree.isWordChar c = false)
    (hs : ∀ line, ∃ e, r.step ⟨line, .char c⟩ = .error e) (h : ∀ e, Q (.error e)) (cs : List Char) :
    r.Meets (c :: cs) Q := by
  intro line boundary
  obtain ⟨e, he⟩ := hs line
  rw [Scanner.tape_char hc hw, run, he]
  exact h e

theorem Meets.quote (hs : ∀ line, r.step ⟨line, .quoted '"' s⟩ = .ok r') (h : r'.Meets cs Q) :
    r.Meets (quote s ++ cs) Q := fun line boundary => by
  have hread : readQuoted '"' (s.toList.flatMap escape ++ '"' :: cs) = (some s.toList, cs) :=
    readQuoted_flatMap readQuoted_escapeTree s.toList cs
  have htext : Tree.quote s ++ cs = '"' :: (s.toList.flatMap escape ++ '"' :: cs) := by simp [Tree.quote]
  rw [htext, Scanner.tape_quoted (.inl rfl) hread, String.ofList_toList, run_cons (hs line)]
  exact h line false

/-- No word goes on into a text. -/
def Ends (cs : List Char) : Prop := ∀ c ∈ cs.head?, LexRules.tree.isWordChar c = false

theorem ends_nil : Ends [] := by simp [Ends]

theorem Meets.word {word : List Char} (hne : word ≠ []) (hw : ∀ c ∈ word, LexRules.tree.isWordChar c)
    (hend : Ends cs) (hs : ∀ line, r.step ⟨line, .word (String.ofList word)⟩ = .ok r') (h : r'.Meets cs Q) :
    r.Meets (word ++ cs) Q := fun line _ => by
  rw [Scanner.tape_word solid_tree hne hw hend, run_cons (hs line)]
  exact h line false

/-! ### Places of values -/

/-- A value may stand at this place. -/
def Admits : Want → Prop
  | .anything | .value | .item => True
  | _ => False

/-- Where a value may stand, each lexeme starts one, except for those that end a text or a list. -/
theorem step_admits (hw : Admits want) (heol : l.token ≠ .eol) (heof : l.token ≠ .eof) (hend : l.token ≠ .char ']') :
    step ⟨stack, want⟩ l = value ⟨stack, want⟩ l := by
  refine (if_neg heol).trans ?_
  cases want with
  | anything => exact if_neg heof
  | value => rfl
  | item => exact if_neg hend
  | _ => exact hw.elim

theorem step_word (hw : Admits want) (line : Nat) (w : String) :
    step ⟨stack, want⟩ ⟨line, .word w⟩ = .ok (put stack (ofWord w)) :=
  step_admits hw nofun nofun nofun

theorem step_quoted (hw : Admits want) (line : Nat) (q : Char) (s : String) :
    step ⟨stack, want⟩ ⟨line, .quoted q s⟩ = .ok (put stack (text s)) :=
  step_admits hw nofun nofun nofun

theorem step_openList (hw : Admits want) (hd : stack.length < depthLimit) (line : Nat) :
    step ⟨stack, want⟩ ⟨line, .char '['⟩ = .ok ⟨.list [] :: stack, .item⟩ :=
  (step_admits (l := ⟨line, .char '['⟩) hw nofun nofun (by simp)).trans (if_neg (Nat.not_le.mpr hd))

theorem step_openMap (hw : Admits want) (hd : stack.length < depthLimit) (line : Nat) :
    step ⟨stack, want⟩ ⟨line, .char '{'⟩ = .ok ⟨.map [] "" :: stack, .key⟩ :=
  (step_admits (l := ⟨line, .char '{'⟩) hw nofun nofun (by simp)).trans (if_neg (Nat.not_le.mpr hd))

theorem step_tooDeep {bracket : Char} (hw : Admits want) (hd : depthLimit ≤ stack.length)
    (hbracket : bracket = '[' ∨ bracket = '{') (line : Nat) :
    ∃ e, step ⟨stack, want⟩ ⟨line, .char bracket⟩ = .error e := by
  rcases hbracket with rfl | rfl
  · exact ⟨_, (step_admits (l := ⟨line, .char '['⟩) hw nofun nofun (by simp)).trans (if_pos hd)⟩
  · exact ⟨_, (step_admits (l := ⟨line, .char '{'⟩) hw nofun nofun (by simp)).trans (if_pos hd)⟩

theorem put_member {k : String} {ms : List (String × Tree)} (h : k ∉ Assoc.keys ms) :
    put (.map ms k :: stack) t = ⟨.map (ms ++ [(k, t)]) "" :: stack, .comma⟩ := by
  rw [put, Assoc.insert_of_not_mem h]

/-! ### What stands between entries -/

theorem ends_cons (h : LexRules.tree.isWordChar c = false) : Ends (c :: cs) := by
  rintro d hd
  cases hd
  exact h

theorem ends_newline (layout : Layout) (level : Nat) (h : Ends cs) : Ends (layout.newline level ++ cs) := by
  cases layout with
  | compact => exact h
  | pretty => exact ends_cons (by decide)

theorem ends_writeItems (layout : Layout) (level : Nat) (ts : List Tree) (h : Ends cs) :
    Ends (writeItems layout level ts ++ cs) := by
  cases ts with
  | nil => exact h
  | cons t ts => exact ends_cons (by decide)

theorem ends_writeMembers (layout : Layout) (level : Nat) (ms : List (String × Tree)) (h : Ends cs) :
    Ends (writeMembers layout level ms ++ cs) := by
  cases ms with
  | nil => exact h
  | cons m ms => exact ends_cons (by decide)

/-- A key and its colon bring the reader to the key's value. -/
theorem Meets.member {k : String} {members : List (String × Tree)} {key : String} (layout : Layout)
    (h : Meets ⟨.map members k :: stack, .value⟩ cs Q) :
    Meets ⟨.map members key :: stack, .key⟩ (Tree.quote k ++ (layout.colon ++ cs)) Q := by
  refine Meets.quote (fun _ => rfl) ?_
  cases layout with
  | compact => exact Meets.char (by decide) (by decide) (fun _ => rfl) h
  | pretty => exact Meets.char (by decide) (by decide) (fun _ => rfl) h.space

/-! ### Whole values -/

mutual

/-- The text of a tree is read as `reread` says wherever a value may stand, if there is room for its lists and maps among
    those that are open. Otherwise reading fails. -/
theorem meets_write (layout : Layout) (level : Nat) (t : Tree) {stack : List Frame} {want : Want}
    {rest : List Char} {Q : Except Fault Tree → Prop} (hdist : t.Distinct) (hstack : stack.length ≤ depthLimit)
    (hw : Admits want) (hend : Ends rest) (h : stack.length + t.depth ≤ depthLimit → (put stack t.reread).Meets rest Q)
    (hdeep : depthLimit < stack.length + t.depth → ∀ e, Q (.error e)) :
    Meets ⟨stack, want⟩ (t.write layout level ++ rest) Q := by
  cases t with
  | null =>
    rw [write]
    exact Meets.word (by decide) (List.all_eq_true.mp (by decide)) hend (step_word hw · _) (h hstack)
  | bool b =>
    cases b with
    | true =>
      rw [write]
      exact Meets.word (by decide) (List.all_eq_true.mp (by decide)) hend (step_word hw · _) (h hstack)
    | false =>
      rw [write]
      exact Meets.word (by decide) (List.all_eq_true.mp (by decide)) hend (step_word hw · _) (h hstack)
  | int n =>
    rw [write]
    refine Meets.word Number.intText_ne_nil (isWordChar_intText _) hend (step_word hw · _) ?_
    rw [ofWord_intText]
    exact h hstack
  | float x =>
    rw [write]
    exact Meets.word (floatText_ne_nil x) (isWordChar_floatText x) hend (step_word hw · _) (h hstack)
  | text s => exact Meets.quote (step_quoted hw · _ s) (h hstack)
  | list ts =>
    rcases Nat.lt_or_ge stack.length depthLimit with hroom | hfull
    · cases ts with
      | nil =>
        refine Meets.char (by decide) (by decide) (step_openList hw hroom) ?_
        exact Meets.char (by decide) (by decide) (fun _ => rfl) (h hroom)
      | cons t ts =>
        -- The open list takes its first item, then the others, and is put where the tree belongs when it closes.
        simp only [write, List.append_assoc, List.cons_append]
        simp only [depth, depthItems] at h hdeep
        have hclose : Ends (layout.newline level ++ ']' :: rest) := ends_newline _ _ (ends_cons (by decide))
        refine Meets.char (by decide) (by decide) (step_openList hw hroom) (Meets.newline _ _ ?_)
        refine meets_write layout _ t hdist.2.1 hroom trivial (ends_writeItems _ _ _ hclose) (fun hfirst => ?_) ?_
        · refine meets_writeItems layout _ ts [t.reread] hdist.2.2 hroom hclose (fun hrest => Meets.newline _ _ ?_) ?_
          · rw [List.length_cons] at hfirst
            exact Meets.char (by decide) (by decide) (fun _ => rfl) (h (by omega))
          · exact fun hlt => hdeep (by omega)
        · rw [List.length_cons]
          exact fun hlt => hdeep (by omega)
    · have hlt : depthLimit < stack.length + (list ts).depth := by
        rw [depth]
        omega
      cases ts with
      | _ => exact Meets.fault (by decide) (by decide) (step_tooDeep hw hfull (.inl rfl)) (hdeep hlt) _
  | map ms =>
    rcases Nat.lt_or_ge stack.length depthLimit with hroom | hfull
    · cases ms with
      | nil =>
        refine Meets.char (by decide) (by decide) (step_openMap hw hroom) ?_
        exact Meets.char (by decide) (by decide) (fun _ => rfl) (h hroom)
      | cons m ms =>
        obtain ⟨k, t⟩ := m
        simp only [write, List.append_assoc, List.cons_append]
        simp only [depth, depthMembers] at h hdeep
        have hclose : Ends (layout.newline level ++ '}' :: rest) := ends_newline _ _ (ends_cons (by decide))
        refine Meets.char (by decide) (by decide) (step_openMap hw hroom) (Meets.newline _ _ ?_)
        refine Meets.member layout ?_
        refine meets_write layout _ t hdist.2.1 hroom trivial (ends_writeMembers _ _ _ hclose) (fun hfirst => ?_) ?_
        · refine meets_writeMembers layout _ ms [(k, t.reread)] (hdist.1 ((k, t) :: ms) rfl) hdist.2.2 hroom hclose
            (fun hrest => Meets.newline _ _ ?_) ?_
          · rw [List.length_cons] at hfirst
            exact Meets.char (by decide) (by decide) (fun _ => rfl) (h (by omega))
          · exact fun hlt => hdeep (by omega)
        · rw [List.length_cons]
          exact fun hlt => hdeep (by omega)
    · have hlt : depthLimit < stack.length + (map ms).depth := by
        rw [depth]
        omega
      cases ms with
      | _ => exact Meets.fault (by decide) (by decide) (step_tooDeep hw hfull (.inr rfl)) (hdeep hlt) _

/-- The text of the items behind the first ones. -/
theorem meets_writeItems (layout : Layout) (level : Nat) (ts done : List Tree) {stack : List Frame}
    {rest : List Char} {Q : Except Fault Tree → Prop} (hdist : EverywhereItems KeysDiffer ts)
    (hstack : stack.length < depthLimit) (hend : Ends rest)
    (h : stack.length + 1 + depthItems ts ≤ depthLimit →
      Meets ⟨.list (done ++ rereadItems ts) :: stack, .comma⟩ rest Q)
    (hdeep : depthLimit < stack.length + 1 + depthItems ts → ∀ e, Q (.error e)) :
    Meets ⟨.list done :: stack, .comma⟩ (writeItems layout level ts ++ rest) Q := by
  cases ts with
  | nil =>
    rw [rereadItems, List.append_nil] at h
    exact h hstack
  | cons t ts =>
    simp only [writeItems, List.append_assoc, List.cons_append]
    simp only [depthItems] at h hdeep
    refine Meets.char (by decide) (by decide) (fun _ => rfl) (Meets.newline _ _ ?_)
    refine meets_write layout level t hdist.1 hstack trivial (ends_writeItems _ _ _ hend) (fun hfirst => ?_) ?_
    · refine meets_writeItems layout level ts (done ++ [t.reread]) hdist.2 hstack hend (fun hrest => ?_) ?_
      · rw [List.length_cons] at hfirst
        rw [List.append_assoc]
        exact h (by omega)
      · exact fun hlt => hdeep (by omega)
    · rw [List.length_cons]
      exact fun hlt => hdeep (by omega)

/-- The text of the members behind the first ones. -/
theorem meets_writeMembers (layout : Layout) (level : Nat) (ms done : List (String × Tree))
    {stack : List Frame} {rest : List Char} {Q : Except Fault Tree → Prop} (hkeys : (Assoc.keys (done ++ ms)).Nodup)
    (hdist : EverywhereMembers KeysDiffer ms) (hstack : stack.length < depthLimit) (hend : Ends rest)
    (h : stack.length + 1 + depthMembers ms ≤ depthLimit →
      Meets ⟨.map (done ++ rereadMembers ms) "" :: stack, .comma⟩ rest Q)
    (hdeep : depthLimit < stack.length + 1 + depthMembers ms → ∀ e, Q (.error e)) :
    Meets ⟨.map done "" :: stack, .comma⟩ (writeMembers layout level ms ++ rest) Q := by
  cases ms with
  | nil =>
    rw [rereadMembers, List.append_nil] at h
    exact h hstack
  | cons m ms =>
    obtain ⟨k, t⟩ := m
    have hfresh : k ∉ Assoc.keys done := Assoc.not_mem_of_nodup hkeys
    simp only [writeMembers, List.append_assoc, List.cons_append]
    simp only [depthMembers] at h hdeep
    refine Meets.char (by decide) (by decide) (fun _ => rfl) (Meets.newline _ _ (Meets.member layout ?_))
    refine meets_write layout level t hdist.1 hstack trivial (ends_writeMembers _ _ _ hend) (fun hfirst => ?_) ?_
    · rw [put_member hfresh]
      refine meets_writeMembers layout level ms (done ++ [(k, t.reread)]) ?_ hdist.2 hstack hend (fun hrest => ?_) ?_
      · simpa [Assoc.keys] using hkeys
      · rw [List.length_cons] at hfirst
        rw [List.append_assoc]
        exact h (by omega)
      · exact fun hlt => hdeep (by omega)
    · rw [List.length_cons]
      exact fun hlt => hdeep (by omega)

end

end Reading

/-! ### The text of a tree -/

/-- The text of a tree is read as a tree of the same values, or not at all if too many lists and maps lie in each other. -/
theorem read_print_cases {t : Tree} (layout : Layout) (hdist : t.Distinct) :
    t.depth ≤ depthLimit ∧ read (t.print layout) = .ok t.reread ∨
      depthLimit < t.depth ∧ ∃ e, read (t.print layout) = .error e := by
  have hwhole : Reading.Meets ⟨[], .anything⟩ (t.write layout 0 ++ []) fun outcome =>
      t.depth ≤ depthLimit ∧ outcome = .ok t.reread ∨ depthLimit < t.depth ∧ ∃ e, outcome = .error e := by
    refine Reading.meets_write layout 0 t hdist (Nat.zero_le _) trivial Reading.ends_nil (fun hfits => ?_) ?_
    · intro line boundary
      rw [Scanner.tape_nil]
      exact .inl ⟨by simpa using hfits, rfl⟩
    · exact fun hlt e => .inr ⟨by simpa using hlt, e, rfl⟩
  rw [List.append_nil] at hwhole
  rw [read, Tape.ofText, Scanner.start, print, String.toList_ofList]
  exact hwhole 1 true

theorem read_print_reread {t : Tree} (layout : Layout) (hdist : t.Distinct) (hdepth : t.depth ≤ depthLimit) :
    read (t.print layout) = .ok t.reread := by
  rcases read_print_cases layout hdist with ⟨-, h⟩ | ⟨hlt, -⟩
  · exact h
  · omega

/-- A tree without floats is what its text reads as. -/
theorem read_print {t : Tree} (layout : Layout) (hdist : t.Distinct) (hfree : t.FloatFree)
    (hdepth : t.depth ≤ depthLimit) : read (t.print layout) = .ok t := by
  rw [read_print_reread layout hdist hdepth, reread_of_floatFree t hfree]

end Settings.Tree
