import Mathlib.Data.List.Chain

/-! # The strict grammar of a tree's text

A text of strict JSON is a sequence of tokens with white space between them, and the tokens are derived as one value:
no comma without an entry behind it, no bare words, no signs or zeros in front of a number but one minus, no control
characters in a string. In such a sequence no two scalars or strings stand next to each other, so a text has only one
of them (`IsText.unique`). -/

namespace Settings.Strict

/-! ### Tokens -/

/-- What may stand between tokens. -/
def IsSpace (c : Char) : Prop := c ∈ [' ', '\t', '\n', '\r']

/-- The brackets, the colon and the comma. -/
def IsMark (c : Char) : Prop := c ∈ ['[', ']', '{', '}', ':', ',']

/-- A nonempty run of digits. -/
def IsDigits (cs : List Char) : Prop := cs ≠ [] ∧ ∀ c ∈ cs, c.isDigit

/-- Zero, or digits of which the first is not zero. -/
inductive IsWhole : List Char → Prop
  | zero : IsWhole ['0']
  | digits {c : Char} {cs : List Char} (hc : c.isDigit) (hne : c ≠ '0') (hcs : ∀ d ∈ cs, d.isDigit) : IsWhole (c :: cs)

/-- Nothing, or digits behind a point. -/
inductive IsFraction : List Char → Prop
  | none : IsFraction []
  | point {cs : List Char} (h : IsDigits cs) : IsFraction ('.' :: cs)

/-- Nothing, or digits behind an exponent's mark and perhaps a sign. -/
inductive IsExponent : List Char → Prop
  | none : IsExponent []
  | mark {e : Char} {sign cs : List Char} (he : e = 'e' ∨ e = 'E') (hsign : sign = [] ∨ sign = ['+'] ∨ sign = ['-'])
      (h : IsDigits cs) : IsExponent (e :: sign ++ cs)

inductive IsNumber : List Char → Prop
  | mk {sign whole fraction exponent : List Char} (hsign : sign = [] ∨ sign = ['-']) (hwhole : IsWhole whole)
      (hfraction : IsFraction fraction) (hexponent : IsExponent exponent) :
      IsNumber (sign ++ whole ++ fraction ++ exponent)

/-- A number or one of the three words. -/
def IsScalar (cs : List Char) : Prop :=
  cs = "null".toList ∨ cs = "true".toList ∨ cs = "false".toList ∨ IsNumber cs

def IsHex (c : Char) : Prop := c.isDigit ∨ 'a' ≤ c ∧ c ≤ 'f' ∨ 'A' ≤ c ∧ c ≤ 'F'

/-- How one character of a string is written. -/
inductive IsCharacter : List Char → Prop
  | plain {c : Char} (hc : 0x20 ≤ c.toNat) (hquote : c ≠ '"') (hback : c ≠ '\\') : IsCharacter [c]
  | escape {c : Char} (hc : c ∈ ['"', '\\', '/', 'b', 'f', 'n', 'r', 't']) : IsCharacter ['\\', c]
  | code {a b c d : Char} (ha : IsHex a) (hb : IsHex b) (hc : IsHex c) (hd : IsHex d) :
      IsCharacter ['\\', 'u', a, b, c, d]

/-- What stands between the quotes of a string. -/
inductive IsBody : List Char → Prop
  | nil : IsBody []
  | cons {cs rest : List Char} (h : IsCharacter cs) (hrest : IsBody rest) : IsBody (cs ++ rest)

inductive Token where
  | mark (c : Char)
  | scalar (cs : List Char)
  | string (body : List Char)
  deriving DecidableEq, Repr

namespace Token

def text : Token → List Char
  | mark c => [c]
  | scalar cs => cs
  | string body => '"' :: body ++ ['"']

inductive Valid : Token → Prop
  | mark {c : Char} (h : IsMark c) : Valid (.mark c)
  | scalar {cs : List Char} (h : IsScalar cs) : Valid (.scalar cs)
  | string {body : List Char} (h : IsBody body) : Valid (.string body)

end Token

/-! ### Texts -/

/-- What a derivation is of. -/
inductive Phrase where
  | value
  | elements
  | members

/-- Tokens make up a phrase. -/
inductive Derives : Phrase → List Token → Prop
  | scalar {cs : List Char} : Derives .value [.scalar cs]
  | string {body : List Char} : Derives .value [.string body]
  | noElements : Derives .value [.mark '[', .mark ']']
  | list {toks : List Token} (h : Derives .elements toks) : Derives .value (.mark '[' :: toks ++ [.mark ']'])
  | noMembers : Derives .value [.mark '{', .mark '}']
  | map {toks : List Token} (h : Derives .members toks) : Derives .value (.mark '{' :: toks ++ [.mark '}'])
  | lastElement {toks : List Token} (h : Derives .value toks) : Derives .elements toks
  | element {toks more : List Token} (h : Derives .value toks) (hs : Derives .elements more) :
      Derives .elements (toks ++ .mark ',' :: more)
  | lastMember {body : List Char} {toks : List Token} (h : Derives .value toks) :
      Derives .members (.string body :: .mark ':' :: toks)
  | member {body : List Char} {toks more : List Token} (h : Derives .value toks) (hs : Derives .members more) :
      Derives .members (.string body :: .mark ':' :: toks ++ .mark ',' :: more)

/-- Tokens written one after the other, with white space around them. -/
inductive Laid : List Token → List Char → Prop
  | nil : Laid [] []
  | space {c : Char} {toks : List Token} {cs : List Char} (hc : IsSpace c) (h : Laid toks cs) : Laid toks (c :: cs)
  | token (tok : Token) {toks : List Token} {cs : List Char} (h : Laid toks cs) : Laid (tok :: toks) (tok.text ++ cs)

/-- A text of strict JSON and its tokens. -/
structure IsText (toks : List Token) (cs : List Char) : Prop where
  valid : ∀ tok ∈ toks, tok.Valid
  derives : Derives .value toks
  laid : Laid toks cs

/-! ### Scalars and strings end where they must -/

variable {c : Char} {cs ds u v x y : List Char} {tok tok' : Token} {toks toks' more : List Token} {phrase : Phrase}

/-- A character that no scalar goes on with. -/
def Stops (c : Char) : Prop := IsSpace c ∨ IsMark c ∨ c = '"'

instance : DecidablePred IsSpace := fun c => inferInstanceAs (Decidable (c ∈ _))

instance : DecidablePred Stops := fun c =>
  inferInstanceAs (Decidable (c ∈ [' ', '\t', '\n', '\r'] ∨ c ∈ ['[', ']', '{', '}', ':', ','] ∨ c = '"'))

theorem not_stops_of_isDigit (h : c.isDigit) : ¬ Stops c := by
  intro hstop
  simp only [Stops, IsSpace, IsMark, List.mem_cons, List.not_mem_nil, or_false] at hstop
  rcases hstop with (rfl | rfl | rfl | rfl) | (rfl | rfl | rfl | rfl | rfl | rfl) | rfl
  all_goals exact absurd h (by decide)

theorem not_stops_of_all (h : cs.all fun c => ¬ Stops c) : ∀ c ∈ cs, ¬ Stops c := by simpa using h

theorem IsWhole.isDigit (h : IsWhole cs) : ∀ c ∈ cs, c.isDigit := by
  cases h with
  | zero => exact List.forall_mem_singleton.mpr rfl
  | digits hc _ hcs => exact List.forall_mem_cons.mpr ⟨hc, hcs⟩

theorem IsFraction.not_stops (h : IsFraction cs) : ∀ c ∈ cs, ¬ Stops c := by
  cases h with
  | none => exact nofun
  | point h => exact List.forall_mem_cons.mpr ⟨by decide, fun c hc => not_stops_of_isDigit (h.2 c hc)⟩

theorem IsExponent.not_stops (h : IsExponent cs) : ∀ c ∈ cs, ¬ Stops c := by
  cases h with
  | none => exact nofun
  | mark he hsign h =>
    have hdigits : ∀ c ∈ _, ¬ Stops c := fun c hc => not_stops_of_isDigit (h.2 c hc)
    refine List.forall_mem_cons.mpr ⟨?_, List.forall_mem_append.mpr ⟨?_, hdigits⟩⟩
    · rcases he with rfl | rfl <;> decide
    · rcases hsign with rfl | rfl | rfl <;> exact not_stops_of_all (by decide)

theorem IsNumber.not_stops (h : IsNumber cs) : ∀ c ∈ cs, ¬ Stops c := by
  obtain ⟨hsign, hwhole, hfraction, hexponent⟩ := h
  have hdigits : ∀ c ∈ _, ¬ Stops c := fun c hc => not_stops_of_isDigit (hwhole.isDigit c hc)
  refine List.forall_mem_append.mpr ⟨List.forall_mem_append.mpr ⟨List.forall_mem_append.mpr ⟨?_, hdigits⟩,
    hfraction.not_stops⟩, hexponent.not_stops⟩
  rcases hsign with rfl | rfl <;> exact not_stops_of_all (by decide)

theorem IsScalar.not_stops (h : IsScalar cs) : ∀ c ∈ cs, ¬ Stops c := by
  rcases h with rfl | rfl | rfl | h
  · exact not_stops_of_all (by decide)
  · exact not_stops_of_all (by decide)
  · exact not_stops_of_all (by decide)
  · exact h.not_stops

theorem IsNumber.ne_nil (h : IsNumber cs) : cs ≠ [] := by
  obtain ⟨-, hwhole, -, -⟩ := h
  cases hwhole with
  | zero | digits => simp

theorem IsScalar.ne_nil (h : IsScalar cs) : cs ≠ [] := by
  rcases h with rfl | rfl | rfl | h
  · decide
  · decide
  · decide
  · exact h.ne_nil

/-- Two scalars at the start of one text, each with a place to stop behind it, are the same. -/
theorem scalar_inj (hu : ∀ c ∈ u, ¬ Stops c) (hv : ∀ c ∈ v, ¬ Stops c) (hx : ∀ c ∈ x.head?, Stops c)
    (hy : ∀ c ∈ y.head?, Stops c) (h : u ++ x = v ++ y) : u = v ∧ x = y := by
  induction u generalizing v with
  | nil =>
    cases v with
    | nil => exact ⟨rfl, h⟩
    | cons c v => exact absurd (hx c (by rw [List.nil_append] at h; simp [h])) (hv c List.mem_cons_self)
  | cons c u ih =>
    cases v with
    | nil => exact absurd (hy c (by rw [List.nil_append] at h; simp [← h])) (hu c List.mem_cons_self)
    | cons d v =>
      obtain ⟨rfl, htail⟩ := List.cons.inj h
      obtain ⟨rfl, hxy⟩ := ih (List.forall_mem_cons.mp hu).2 (List.forall_mem_cons.mp hv).2 htail
      exact ⟨rfl, hxy⟩

theorem character_inj (hu : IsCharacter u) (hv : IsCharacter v) (h : u ++ x = v ++ y) : u = v ∧ x = y := by
  cases hu with
  | plain hc hquote hback =>
    cases hv with
    | plain => simpa using h
    | escape | code => exact absurd (List.cons.inj h).1 hback
  | escape hc =>
    cases hv with
    | plain hc' hquote hback => exact absurd (List.cons.inj h).1.symm hback
    | escape => simpa using h
    | code =>
      obtain rfl := (List.cons.inj (List.cons.inj h).2).1
      exact absurd hc (by decide)
  | code =>
    cases hv with
    | plain hc' hquote hback => exact absurd (List.cons.inj h).1.symm hback
    | escape hc =>
      obtain rfl := (List.cons.inj (List.cons.inj h).2).1
      exact absurd hc (by decide)
    | code => simpa [and_assoc] using h

theorem IsCharacter.head (h : IsCharacter cs) : ∃ c rest, cs = c :: rest ∧ c ≠ '"' := by
  cases h with
  | plain hc hquote => exact ⟨_, _, rfl, hquote⟩
  | escape | code => exact ⟨_, _, rfl, by decide⟩

/-- A string ends at its first quote that belongs to no escape. -/
theorem body_inj (hu : IsBody u) (hv : IsBody v) (h : u ++ '"' :: x = v ++ '"' :: y) : u = v ∧ x = y := by
  induction hu generalizing v with
  | nil =>
    cases hv with
    | nil => exact ⟨rfl, (List.cons.inj h).2⟩
    | cons hv _ =>
      obtain ⟨c, rest, rfl, hne⟩ := hv.head
      exact absurd (List.cons.inj h).1.symm hne
  | cons hu _ ih =>
    cases hv with
    | nil =>
      obtain ⟨c, rest, rfl, hne⟩ := hu.head
      exact absurd (List.cons.inj h).1 hne
    | cons hv hrest =>
      rw [List.append_assoc, List.append_assoc] at h
      obtain ⟨rfl, htail⟩ := character_inj hu hv h
      obtain ⟨rfl, hxy⟩ := ih hrest htail
      exact ⟨rfl, hxy⟩

/-! ### A text has one sequence of tokens -/

/-- No two scalars or strings stand next to each other. -/
def Apart (a b : Token) : Prop := (∃ c, a = .mark c) ∨ ∃ c, b = .mark c

theorem isChain_mark (h : toks.IsChain Apart) : (.mark c :: toks).IsChain Apart :=
  List.isChain_cons.mpr ⟨fun _ _ => .inl ⟨c, rfl⟩, h⟩

theorem isChain_append_mark (h : toks.IsChain Apart) (hmore : more.IsChain Apart) :
    (toks ++ .mark c :: more).IsChain Apart := by
  refine List.isChain_append.mpr ⟨h, isChain_mark hmore, fun a _ b hb => .inr ⟨c, ?_⟩⟩
  cases hb
  rfl

theorem Derives.isChain (h : Derives phrase toks) : toks.IsChain Apart := by
  induction h with
  | scalar | string => exact .singleton _
  | noElements | noMembers => exact isChain_mark (.singleton _)
  | list _ ih | map _ ih => exact isChain_append_mark (isChain_mark ih) .nil
  | lastElement _ ih => exact ih
  | element _ _ ih ih' => exact isChain_append_mark ih ih'
  | lastMember _ ih => exact isChain_append_mark (.singleton _) ih
  | member _ _ ih ih' => exact isChain_append_mark (isChain_append_mark (.singleton _) ih) ih'

theorem IsMark.not_isSpace (h : IsMark c) : ¬ IsSpace c := by
  intro hspace
  simp only [IsMark, IsSpace, List.mem_cons, List.not_mem_nil, or_false] at h hspace
  rcases hspace with rfl | rfl | rfl | rfl
  all_goals exact absurd h (by decide)

/-- White space stands in strings only. -/
theorem Token.Valid.not_isSpace (h : tok.Valid) : (∃ body, tok = .string body) ∨ ∀ c ∈ tok.text, ¬ IsSpace c := by
  cases h with
  | mark h => exact .inr (List.forall_mem_singleton.mpr h.not_isSpace)
  | scalar h => exact .inr fun c hc hspace => h.not_stops c hc (.inl hspace)
  | string => exact .inl ⟨_, rfl⟩

theorem Token.Valid.head (h : tok.Valid) : ∃ c rest, tok.text = c :: rest ∧ ¬ IsSpace c := by
  cases h with
  | mark h => exact ⟨_, _, rfl, h.not_isSpace⟩
  | @scalar cs h =>
    obtain ⟨c, rest, rfl⟩ := List.exists_cons_of_ne_nil h.ne_nil
    exact ⟨c, rest, rfl, fun hspace => h.not_stops c List.mem_cons_self (.inl hspace)⟩
  | string => exact ⟨_, _, rfl, by decide⟩

/-- Behind a scalar a text goes on with a space or a mark, or not at all. -/
theorem Laid.stops (h : Laid toks cs) (hchain : (tok :: toks).IsChain Apart) (hmark : ∀ c, tok ≠ .mark c)
    (hvalid : ∀ tok ∈ toks, tok.Valid) : ∀ c ∈ cs.head?, Stops c := by
  intro c hc
  cases h with
  | nil => cases hc
  | space hspace =>
    cases hc
    exact .inl hspace
  | token next h =>
    rcases (List.isChain_cons_cons.mp hchain).1 with ⟨d, hd⟩ | ⟨d, rfl⟩
    · exact absurd hd (hmark d)
    · cases hc
      cases hvalid (.mark c) List.mem_cons_self with
      | mark h => exact .inr (.inl h)

theorem IsScalar.head_ne (h : IsScalar cs) (hc : Stops c) : cs ++ x ≠ c :: y := by
  obtain ⟨d, rest, rfl⟩ := List.exists_cons_of_ne_nil h.ne_nil
  intro heq
  obtain rfl := (List.cons.inj heq).1
  exact h.not_stops d List.mem_cons_self hc

/-- The token at the start of a text and what is behind it are told from its characters. -/
theorem token_inj (h : tok.Valid) (h' : tok'.Valid) (hx : (∀ c, tok ≠ .mark c) → ∀ c ∈ x.head?, Stops c)
    (hy : (∀ c, tok' ≠ .mark c) → ∀ c ∈ y.head?, Stops c) (heq : tok.text ++ x = tok'.text ++ y) :
    tok = tok' ∧ x = y := by
  have hquote : ∀ {c}, IsMark c → c ≠ '"' := by
    rintro c hc rfl
    simp [IsMark] at hc
  cases h with
  | @mark c hc =>
    cases h' with
    | mark hc' => simpa [Token.text] using heq
    | scalar hs => exact absurd heq.symm (hs.head_ne (.inr (.inl hc)))
    | string => exact absurd (List.cons.inj heq).1 (hquote hc)
  | scalar hs =>
    cases h' with
    | mark hc' => exact absurd heq (hs.head_ne (.inr (.inl hc')))
    | scalar hs' =>
      obtain ⟨rfl, hxy⟩ := scalar_inj hs.not_stops hs'.not_stops (hx nofun) (hy nofun) heq
      exact ⟨rfl, hxy⟩
    | string => exact absurd heq (hs.head_ne (.inr (.inr rfl)))
  | string hbody =>
    cases h' with
    | mark hc' => exact absurd (List.cons.inj heq).1.symm (hquote hc')
    | scalar hs => exact absurd heq.symm (hs.head_ne (.inr (.inr rfl)))
    | string hbody' =>
      simp only [Token.text, List.cons_append, List.append_assoc, List.nil_append] at heq
      obtain ⟨rfl, hxy⟩ := body_inj hbody hbody' (List.cons.inj heq).2
      exact ⟨rfl, hxy⟩

theorem Laid.unique (h : Laid toks cs) (h' : Laid toks' cs) (hvalid : ∀ tok ∈ toks, tok.Valid)
    (hvalid' : ∀ tok ∈ toks', tok.Valid) (hchain : toks.IsChain Apart) (hchain' : toks'.IsChain Apart) :
    toks = toks' := by
  -- No token starts with white space, so the two readings agree on where the next one starts.
  induction h generalizing toks' with
  | nil =>
    generalize hcs : [] = cs at h'
    cases h' with
    | nil => rfl
    | space => cases hcs
    | token tok =>
      obtain ⟨c, rest, htext, -⟩ := (hvalid' tok List.mem_cons_self).head
      rw [htext] at hcs
      cases hcs
  | @space c toks cs hspace _ ih =>
    generalize hcs : c :: cs = text at h'
    cases h' with
    | nil => cases hcs
    | space _ h' =>
      obtain ⟨-, rfl⟩ := List.cons.inj hcs
      exact ih h' hvalid hvalid' hchain hchain'
    | token tok =>
      obtain ⟨d, rest, htext, hd⟩ := (hvalid' tok List.mem_cons_self).head
      rw [htext] at hcs
      obtain rfl := (List.cons.inj hcs).1
      exact absurd hspace hd
  | @token tok toks cs hlaid ih =>
    obtain ⟨htok, htoks⟩ := List.forall_mem_cons.mp hvalid
    generalize hcs : tok.text ++ cs = text at h'
    cases h' with
    | nil =>
      obtain ⟨c, rest, htext, -⟩ := htok.head
      rw [htext] at hcs
      cases hcs
    | space hspace =>
      obtain ⟨d, rest, htext, hd⟩ := htok.head
      rw [htext] at hcs
      obtain rfl := (List.cons.inj hcs).1
      exact absurd hspace hd
    | @token tok' toks' cs' hlaid' =>
      obtain ⟨htok', htoks'⟩ := List.forall_mem_cons.mp hvalid'
      obtain ⟨rfl, rfl⟩ := token_inj htok htok' (fun hmark => hlaid.stops hchain hmark htoks)
        (fun hmark => hlaid'.stops hchain' hmark htoks') hcs
      rw [ih hlaid' htoks htoks' hchain.tail hchain'.tail]

/-- A text of strict JSON has one sequence of tokens. -/
theorem IsText.unique (h : IsText toks cs) (h' : IsText toks' cs) : toks = toks' :=
  h.laid.unique h'.laid h.valid h'.valid h.derives.isChain h'.derives.isChain

end Settings.Strict
