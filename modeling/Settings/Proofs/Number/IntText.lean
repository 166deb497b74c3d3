import Settings.Number.Integer

/-! # Integers as text

The decimal text of an integer reads back as that integer, as long as the kind it is read as holds it. Four hexadecimal
digits name a character, and a sign and three of them are taken for the name of one. -/

namespace Settings.Number

variable {k : IntKind} {limit acc n : Nat} {excess : IntFault} {cs : List Char}

/-! ### Digits -/

theorem digit?_isDigit {c : Char} (h : c.isDigit) : digit? c = some (c.toNat - '0'.toNat) := by
  simp only [Char.isDigit, Bool.and_eq_true, decide_eq_true_eq] at h
  exact if_pos h

theorem le_ofDigitChars : acc ≤ Nat.ofDigitChars 10 cs acc := by
  induction cs generalizing acc with
  | nil => exact Nat.le_of_eq Nat.ofDigitChars_nil.symm
  | cons c cs ih =>
    rw [Nat.ofDigitChars_cons]
    exact Nat.le_trans (by omega) ih

theorem readDigits_ofDigitChars (hd : ∀ c ∈ cs, c.isDigit) (hle : Nat.ofDigitChars 10 cs acc ≤ limit) :
    readDigits limit excess acc cs = .ok (Nat.ofDigitChars 10 cs acc) := by
  induction cs generalizing acc with
  | nil => rw [readDigits, Nat.ofDigitChars_nil]
  | cons c cs ih =>
    obtain ⟨hc, hcs⟩ := List.forall_mem_cons.mp hd
    rw [Nat.ofDigitChars_cons] at hle ⊢
    rw [readDigits, digit?_isDigit hc]
    exact (if_pos (Nat.le_trans le_ofDigitChars hle)).trans (ih hcs hle)

theorem of_readDigits (h : readDigits limit excess acc cs = .ok n) :
    (∀ c ∈ cs, c.isDigit) ∧ n = Nat.ofDigitChars 10 cs acc := by
  induction cs generalizing acc with
  | nil =>
    cases h
    exact ⟨nofun, Nat.ofDigitChars_nil.symm⟩
  | cons c cs ih =>
    unfold readDigits at h
    split at h
    · cases h
    · next d hd =>
      split at h
      · obtain ⟨hcs, hn⟩ := ih h
        have hc : c.isDigit := by
          unfold digit? at hd
          split at hd
          · next hrange =>
            simp only [Char.isDigit, Bool.and_eq_true, decide_eq_true_eq]
            exact hrange
          · cases hd
        rw [digit?_isDigit hc] at hd
        cases hd
        exact ⟨List.forall_mem_cons.mpr ⟨hc, hcs⟩, by rw [hn, Nat.ofDigitChars_cons]⟩
      · cases h

theorem readDigits_toDigits (h : n ≤ limit) : readDigits limit excess 0 (Nat.toDigits 10 n) = .ok n := by
  have hd : ∀ c ∈ Nat.toDigits 10 n, c.isDigit := fun _ => Nat.isDigit_of_mem_toDigits (by decide) (by decide)
  rw [readDigits_ofDigitChars hd (by rwa [Nat.ofDigitChars_ten_toDigits]), Nat.ofDigitChars_ten_toDigits]

/-! ### Signs -/

theorem ne_sign_of_isDigit {c : Char} (h : c.isDigit) : c ≠ '+' ∧ c ≠ '-' := by
  constructor
  all_goals
    rintro rfl
    exact absurd h (by decide)

/-- Where a digit comes first, there is no sign. -/
theorem readInt_cons {c : Char} (hc : c.isDigit) (cs : List Char) :
    readInt k (c :: cs) = (readDigits k.max .tooLarge 0 (c :: cs)).map Int.ofNat := by
  obtain ⟨hplus, hminus⟩ := ne_sign_of_isDigit hc
  cases cs with
  | nil => rw [readInt, if_neg (not_or.mpr ⟨hplus, hminus⟩)]
  | cons d ds =>
    rw [readInt, if_neg hplus, if_neg (fun h => hminus h.1)]
    simp

theorem readInt_minus (hs : k.signed) (hne : cs ≠ []) :
    readInt k ('-' :: cs) = (readDigits k.depth .tooSmall 0 cs).map fun n : Nat => -(n : Int) := by
  cases cs with
  | nil => exact absurd rfl hne
  | cons c cs =>
    rw [readInt, if_neg (by decide), if_pos ⟨rfl, hs⟩]
    · cases readDigits k.depth .tooSmall 0 (c :: cs) with
      | error why => rfl
      | ok m => rfl
    · exact List.cons_ne_nil c cs

/-- The text of an integer of a kind reads back as that integer. -/
theorem readInt_intText {i : Int} (h : k.holds i) : readInt k (intText i) = .ok i := by
  simp only [IntKind.holds, Bool.and_eq_true, decide_eq_true_eq] at h
  have hd : ∀ c ∈ Nat.toDigits 10 i.natAbs, c.isDigit :=
    fun _ => Nat.isDigit_of_mem_toDigits (by decide) (by decide)
  unfold intText
  split
  · next hneg =>
    have hs : k.signed := Decidable.byContradiction fun hs => by
      simp only [IntKind.depth, if_neg hs] at h
      omega
    have hback : -(i.natAbs : Int) = i := by omega
    rw [readInt_minus hs Nat.toDigits_ne_nil, readDigits_toDigits (by omega)]
    exact congrArg Except.ok hback
  · next hneg =>
    have hread : readDigits k.max .tooLarge 0 (Nat.toDigits 10 i.natAbs) = .ok i.natAbs :=
      readDigits_toDigits (by omega)
    obtain ⟨c, cs, hcs⟩ := List.exists_cons_of_ne_nil (Nat.toDigits_ne_nil (n := i.natAbs) (b := 10))
    rw [hcs] at hread hd ⊢
    rw [readInt_cons (hd c List.mem_cons_self), hread]
    exact congrArg Except.ok (Int.natAbs_of_nonneg (by omega))

theorem ok_of_map {ε α β : Type} {x : Except ε α} {f : α → β} {b : β} (h : x.map f = .ok b) :
    ∃ a, x = .ok a ∧ f a = b := by
  cases x with
  | error e => cases h
  | ok a => exact ⟨a, rfl, Except.ok.inj h⟩

/-- A kind holds each integer that is read as one of it. -/
theorem holds_of_readInt {i : Int} (h : readInt k cs = .ok i) : k.holds i := by
  have hplain : ∀ {ds : List Char}, (readDigits k.max .tooLarge 0 ds).map Int.ofNat = .ok i → k.holds i := by
    intro ds hds
    obtain ⟨m, hm, rfl⟩ := ok_of_map hds
    have hle := readDigits_le (Nat.zero_le _) hm
    simp only [IntKind.holds, Bool.and_eq_true, decide_eq_true_eq, Int.ofNat_eq_natCast]
    omega
  by_cases hminus : ∃ ds, cs = '-' :: ds ∧ ds ≠ [] ∧ k.signed
  · obtain ⟨ds, rfl, hne, hs⟩ := hminus
    rw [readInt_minus hs hne] at h
    obtain ⟨m, hm, rfl⟩ := ok_of_map h
    have hle := readDigits_le (Nat.zero_le _) hm
    simp only [IntKind.holds, Bool.and_eq_true, decide_eq_true_eq]
    omega
  unfold readInt at h
  split at h
  · cases h
  · split at h
    · cases h
    · exact hplain h
  · next c ds hne =>
    split at h
    · exact hplain h
    split at h
    · next hsign => exact absurd ⟨ds, by rw [hsign.1], hne, hsign.2⟩ hminus
    · exact hplain h

theorem toInt_ofInt {i : Int} (h : IntKind.word.holds i) : (Int64.ofInt i).toInt = i := by
  have hmax : IntKind.word.max = 2 ^ 63 - 1 := by decide
  have hdepth : IntKind.word.depth = 2 ^ 63 := by decide
  simp only [IntKind.holds, Bool.and_eq_true, decide_eq_true_eq] at h
  rw [hmax, hdepth] at h
  exact Int64.toInt_ofInt_of_le (by omega) (by omega)

theorem word_holds (i : Int64) : IntKind.word.holds i.toInt := by
  have hlo := i.le_toInt
  have hhi := i.toInt_lt
  have hmax : IntKind.word.max = 2 ^ 63 - 1 := by decide
  have hdepth : IntKind.word.depth = 2 ^ 63 := by decide
  simp only [IntKind.holds, Bool.and_eq_true, decide_eq_true_eq]
  omega

/-! ### The characters of an integer's text -/

theorem mem_intText {i : Int} {c : Char} (h : c ∈ intText i) : c = '-' ∨ c.isDigit := by
  unfold intText at h
  split at h
  · rcases List.mem_cons.mp h with h | h
    · exact .inl h
    · exact .inr (Nat.isDigit_of_mem_toDigits (by decide) (by decide) h)
  · exact .inr (Nat.isDigit_of_mem_toDigits (by decide) (by decide) h)

theorem intText_ne_nil {i : Int} : intText i ≠ [] := by
  unfold intText
  split
  · exact List.cons_ne_nil _ _
  · exact Nat.toDigits_ne_nil

/-! ### Hexadecimal digits -/

section Hexadecimal
variable {c : Char} {four : List Char}

/-- The number that hexadecimal digits denote. -/
def hexValue (cs : List Char) : Nat := cs.foldl (fun n d => 16 * n + (hexDigit? d).getD 0) 0

/-- Four hexadecimal digits name a character. -/
structure Names (four : List Char) (c : Char) : Prop where
  length : four.length = 4
  digits : ∀ d ∈ four, (hexDigit? d).isSome
  value : c.toNat = hexValue four

/-- A plus sign and three hexadecimal digits are taken for the name of a character. -/
def Signed (four : List Char) (c : Char) : Prop :=
  ∃ digits, four = '+' :: digits ∧ digits.length = 3 ∧ (∀ d ∈ digits, (hexDigit? d).isSome) ∧ c.toNat = hexValue digits

theorem readHex?_eq_some_iff :
    readHex? acc cs = some n ↔
      (∀ d ∈ cs, (hexDigit? d).isSome) ∧ n = cs.foldl (fun n d => 16 * n + (hexDigit? d).getD 0) acc := by
  induction cs generalizing acc with
  | nil =>
    rw [readHex?, List.foldl_nil, Option.some.injEq, eq_comm]
    exact (and_iff_right (List.forall_mem_nil _)).symm
  | cons d cs ih =>
    rw [readHex?, List.forall_mem_cons, List.foldl_cons]
    cases hd : hexDigit? d with
    | none => simp
    | some v => simp [ih]

theorem scalar?_eq_some_iff : scalar? n = some c ↔ c.toNat = n := by
  unfold scalar?
  constructor
  · intro h
    split at h
    · next hvalid =>
      cases h
      rw [Char.ofNat, dif_pos hvalid]
      rfl
    · cases h
  · rintro rfl
    have hvalid : c.toNat.isValidChar := c.valid
    rw [if_pos hvalid, Char.ofNat_toNat]

/-- Only digits and a sign in front of three of them are taken for the name of a character. -/
theorem escapedChar?_eq_some_iff : escapedChar? four = some c ↔ Names four c ∨ Signed four c := by
  have hread : ∀ cs, (readHex? 0 cs).bind scalar? = some c ↔
      (∀ d ∈ cs, (hexDigit? d).isSome) ∧ c.toNat = hexValue cs := by
    intro cs
    rw [Option.bind_eq_some_iff]
    constructor
    · rintro ⟨n, hn, hc⟩
      obtain ⟨hdigits, rfl⟩ := readHex?_eq_some_iff.mp hn
      exact ⟨hdigits, scalar?_eq_some_iff.mp hc⟩
    · rintro ⟨hdigits, hc⟩
      exact ⟨_, readHex?_eq_some_iff.mpr ⟨hdigits, rfl⟩, scalar?_eq_some_iff.mpr hc⟩
  unfold escapedChar?
  by_cases hlength : four.length = 4
  · rw [if_pos hlength]
    split
    · next digits =>
      rw [hread]
      constructor
      · rintro ⟨hdigits, hc⟩
        exact .inr ⟨digits, rfl, by simpa using hlength, hdigits, hc⟩
      · rintro (h | ⟨digits', heq, -, hdigits, hc⟩)
        · exact absurd (h.digits '+' List.mem_cons_self) (by decide)
        · cases heq
          exact ⟨hdigits, hc⟩
    · next hplus =>
      rw [hread]
      constructor
      · rintro ⟨hdigits, hc⟩
        exact .inl ⟨hlength, hdigits, hc⟩
      · rintro (h | ⟨digits, rfl, -⟩)
        · exact ⟨h.digits, h.value⟩
        · exact absurd rfl (hplus digits)
  · rw [if_neg hlength]
    constructor
    · exact nofun
    · rintro (h | ⟨digits, rfl, hthree, -⟩)
      · exact absurd h.length hlength
      · exact absurd (by rw [List.length_cons, hthree]) hlength

theorem length_of_escapedChar? (h : escapedChar? four = some c) : four.length = 4 := by
  unfold escapedChar? at h
  split at h
  · assumption
  · cases h

theorem not_backslash_of_escapedChar? (h : escapedChar? four = some c) : '\\' ∉ four := by
  intro hmem
  rcases escapedChar?_eq_some_iff.mp h with h | ⟨digits, rfl, -, hdigits, -⟩
  · exact absurd (h.digits _ hmem) (by decide)
  · rcases List.mem_cons.mp hmem with heq | hmem
    · cases heq
    · exact absurd (hdigits _ hmem) (by decide)

end Hexadecimal

end Settings.Number
