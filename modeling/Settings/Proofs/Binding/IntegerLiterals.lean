import Settings.Proofs.Binding.Skipping
import Settings.Proofs.Number.Saturation
import Settings.Proofs.Tree.RoundTrip

/-! # Integers as typed values

The literal of an integer is one word of a tree's text. It stands for the integer where a word of 64 bits holds it, and
for the nearest floating point number otherwise. An integer target takes the first as it is, if its kind holds it; of
the second it only sees the word that lies nearest to it. -/

namespace Settings

namespace Number

variable {negative : Bool} {digits : List Char}

/-- The literal of an integer: digits behind an optional minus. -/
def literal (negative : Bool) (digits : List Char) : List Char := (if negative then ['-'] else []) ++ digits

/-- The integer that a literal denotes. -/
def literalValue (negative : Bool) (digits : List Char) : Int :=
  if negative then -(digitsValue digits : Int) else digitsValue digits

/-- The word that lies nearest to an integer. -/
def nearestWord (n : Int) : Int := max (-(2 ^ 63)) (min (2 ^ 63 - 1) n)

theorem word_holds_iff {n : Int} : IntKind.word.holds n ↔ -(2 ^ 63) ≤ n ∧ n ≤ 2 ^ 63 - 1 := by
  have hmax : (IntKind.word.max : Int) = 2 ^ 63 - 1 := by decide
  have hdepth : (IntKind.word.depth : Int) = 2 ^ 63 := by decide
  simp only [IntKind.holds, Bool.and_eq_true, decide_eq_true_eq, hmax, hdepth]

theorem nearestWord_of_holds {n : Int} (h : IntKind.word.holds n) : nearestWord n = n := by
  have hn := word_holds_iff.mp h
  unfold nearestWord
  omega

theorem natAbs_literalValue (negative : Bool) (digits : List Char) :
    (literalValue negative digits).natAbs = digitsValue digits := by
  unfold literalValue
  split
  · rw [Int.natAbs_neg, Int.natAbs_natCast]
  · exact Int.natAbs_natCast _

/-- The digits of a literal are read within a bound just where the number they denote is. -/
theorem readDigits_of_lt {l : Nat} (excess : IntFault) (hlt : l < digitsValue digits) :
    ∃ why, readDigits l excess 0 digits = .error why := by
  cases h : readDigits l excess 0 digits with
  | error why => exact ⟨why, rfl⟩
  | ok m =>
    obtain ⟨-, hm⟩ := of_readDigits h
    have hle := readDigits_le (Nat.zero_le _) h
    have hvalue : m = digitsValue digits := hm
    omega

/-- A literal is read as the integer it denotes where a word holds it, and not as an integer otherwise. -/
theorem readInt_literal (negative : Bool) (hne : digits ≠ []) (hdigits : ∀ c ∈ digits, c.isDigit) :
    (IntKind.word.holds (literalValue negative digits) →
        readInt .word (literal negative digits) = .ok (literalValue negative digits)) ∧
      (¬ IntKind.word.holds (literalValue negative digits) →
        ∃ why, readInt .word (literal negative digits) = .error why) := by
  have hmax : IntKind.word.max = 2 ^ 63 - 1 := by decide
  have hdepth : IntKind.word.depth = 2 ^ 63 := by decide
  rw [word_holds_iff]
  cases negative with
  | false =>
    obtain ⟨c, rest, hcs⟩ := List.exists_cons_of_ne_nil hne
    have hread : readInt .word (literal false digits) =
        (readDigits IntKind.word.max .tooLarge 0 digits).map Int.ofNat := by
      subst hcs
      exact readInt_cons (hdigits c List.mem_cons_self) rest
    rw [hread, hmax, literalValue, if_neg Bool.false_ne_true]
    constructor
    · intro hholds
      have hle : digitsValue digits ≤ 2 ^ 63 - 1 := by omega
      rw [readDigits_ofDigitChars hdigits hle]
      rfl
    · intro hholds
      have hlt : 2 ^ 63 - 1 < digitsValue digits := by omega
      obtain ⟨why, hwhy⟩ := readDigits_of_lt .tooLarge hlt
      exact ⟨why, by rw [hwhy]; rfl⟩
  | true =>
    have hread : readInt .word (literal true digits) =
        (readDigits IntKind.word.depth .tooSmall 0 digits).map fun n : Nat => -(n : Int) := readInt_minus rfl hne
    rw [hread, hdepth, literalValue, if_pos rfl]
    constructor
    · intro hholds
      have hle : digitsValue digits ≤ 2 ^ 63 := by omega
      rw [readDigits_ofDigitChars hdigits hle]
      rfl
    · intro hholds
      have hlt : 2 ^ 63 < digitsValue digits := by omega
      obtain ⟨why, hwhy⟩ := readDigits_of_lt .tooSmall hlt
      exact ⟨why, by rw [hwhy]; rfl⟩

theorem readDecimal_literal (hne : digits ≠ []) (hdigits : ∀ c ∈ digits, c.isDigit) :
    readDecimal (literal negative digits) = .ok (Binary64.ofDecimal negative (digitsValue digits) 0) := by
  have hread : readUnsigned? negative digits = _ := readUnsigned?_digits hne hdigits
  obtain ⟨c, rest, rfl⟩ := List.exists_cons_of_ne_nil hne
  exact readDecimal_of_readUnsigned? (hdigits c List.mem_cons_self) hread

/-- A literal that no word holds is read as a number with the nearest word as its integer part, unless it is rounded to
    infinity. -/
theorem ofDecimal_literal (h : ¬ IntKind.word.holds (literalValue negative digits)) :
    digitsValue digits + 2 ^ 970 < 2 ^ 1024 ∧ (Binary64.ofDecimal negative (digitsValue digits) 0).isFinite = true ∧
        (Binary64.ofDecimal negative (digitsValue digits) 0).toWord = nearestWord (literalValue negative digits) ∨
      2 ^ 1024 ≤ digitsValue digits + 2 ^ 970 ∧
        (Binary64.ofDecimal negative (digitsValue digits) 0).isFinite = false := by
  rw [word_holds_iff] at h
  have hlarge : 2 ^ 63 ≤ digitsValue digits := by
    unfold literalValue at h
    split at h
    · omega
    · omega
  have hword : nearestWord (literalValue negative digits) = if negative then -(2 ^ 63) else 2 ^ 63 - 1 := by
    unfold literalValue at h ⊢
    unfold nearestWord
    split
    · next hsign =>
      rw [if_pos hsign] at h
      omega
    · omega
  rw [hword]
  exact Binary64.ofDecimal_large hlarge

end Number

namespace Tree

open Number (literal literalValue nearestWord digitsValue IntKind)

variable {negative : Bool} {digits : List Char}

/-! ### Literals as trees -/

/-- A text that is one word is read as what the word stands for. -/
theorem read_word {word : List Char} (hne : word ≠ []) (hword : ∀ c ∈ word, LexRules.tree.isWordChar c) :
    read (String.ofList word) = .ok (ofWord (String.ofList word)) := by
  have hplace : Reading.Admits .anything := trivial
  have hdone : (Reading.put [] (ofWord (String.ofList word))).Yields [] (ofWord (String.ofList word)) := by
    intro line _
    rw [Scanner.tape_nil]
    rfl
  have hwhole : Reading.Yields ⟨[], .anything⟩ (word ++ []) (ofWord (String.ofList word)) :=
    Reading.meets_ok_iff.mp (.word hne hword Reading.ends_nil (fun line => Reading.step_word hplace line _)
      (Reading.meets_ok_iff.mpr hdone))
  rw [List.append_nil] at hwhole
  rw [read, Tape.ofText, Scanner.start, String.toList_ofList]
  exact hwhole 1 true

/-- A literal stands for the integer it denotes where a word holds it, and for the number nearest to it otherwise. -/
theorem read_literal (hne : digits ≠ []) (hdigits : ∀ c ∈ digits, c.isDigit) :
    read (String.ofList (literal negative digits)) =
      .ok (if IntKind.word.holds (literalValue negative digits) then int (Int64.ofInt (literalValue negative digits))
        else float (.ofDecimal negative (digitsValue digits) 0)) := by
  have hnonempty : literal negative digits ≠ [] := List.append_ne_nil_of_right_ne_nil _ hne
  have hchars : ∀ c ∈ literal negative digits, LexRules.tree.isWordChar c := by
    intro c hc
    rcases List.mem_append.mp hc with hc | hc
    · split at hc
      · obtain rfl := List.mem_singleton.mp hc
        decide
      · cases hc
    · exact isWordChar_isDigit (hdigits c hc)
  have hlooks : looksNumeric (literal negative digits) := by
    obtain ⟨c, rest, rfl⟩ := List.exists_cons_of_ne_nil hne
    have hc := hdigits c List.mem_cons_self
    unfold literal
    split
    · simp [looksNumeric, hc]
    · simp [looksNumeric, hc]
  obtain ⟨hinteger, hfloat⟩ := ofWord_of_looksNumeric hlooks
  obtain ⟨hholds, hbeyond⟩ := Number.readInt_literal negative hne hdigits
  rw [read_word hnonempty hchars]
  split
  · next h => rw [hinteger _ (hholds h)]
  · next h =>
    obtain ⟨why, hwhy⟩ := hbeyond h
    rw [hfloat why _ hwhy (Number.readDecimal_literal hne hdigits)]

end Tree

namespace Shape

open Number (literal literalValue nearestWord digitsValue IntKind)

variable {negative : Bool} {digits : List Char} {kind : IntKind} {t : Tree} {d : Datum}

/-! ### Literals as typed values -/

theorem bind_int_ok_iff (hbits : kind.bits ≠ 128) :
    ((int kind).bind t).result = .ok d ↔ ∃ n, t.asInt kind = .ok n ∧ d = .int kind n := by
  rw [bind, result_bindWith, read, if_neg hbits]
  cases t.asInt kind with
  | ok n => simp [plain, Fit.of, Except.map, eq_comm]
  | error cause => simp [plain, Fit.fail, Except.map, Misfit.field?]

theorem inRange_ok_iff {n m : Int} : Tree.inRange kind n = .ok m ↔ kind.holds n ∧ m = n := by
  unfold Tree.inRange
  split
  · next h => simp [h, eq_comm]
  · next h => simp [h]

/-- A literal that is bound to a kind of integers results in the word nearest to what it denotes. -/
theorem unmarshal_literal_ok_iff (hbits : kind.bits ≠ 128) (hne : digits ≠ []) (hdigits : ∀ c ∈ digits, c.isDigit) :
    ((int kind).unmarshal (String.ofList (literal negative digits))).result = .ok d ↔
      d = .int kind (nearestWord (literalValue negative digits)) ∧
        kind.holds (nearestWord (literalValue negative digits)) ∧ digitsValue digits + 2 ^ 970 < 2 ^ 1024 := by
  have hresult : ((int kind).unmarshal (String.ofList (literal negative digits))).result =
      ((int kind).bind (if IntKind.word.holds (literalValue negative digits) then
        .int (Int64.ofInt (literalValue negative digits))
        else .float (.ofDecimal negative (digitsValue digits) 0))).result := by
    rw [unmarshal, Tree.read_literal hne hdigits, Noted.result_bind]
    rfl
  rw [hresult, bind_int_ok_iff hbits]
  by_cases hholds : IntKind.word.holds (literalValue negative digits)
  · have hroom : digitsValue digits + 2 ^ 970 < 2 ^ 1024 := by
      have hword := Number.word_holds_iff.mp hholds
      rw [← Number.natAbs_literalValue negative digits]
      calc (literalValue negative digits).natAbs + 2 ^ 970 ≤ 2 ^ 63 + 2 ^ 970 := Nat.add_le_add_right (by omega) _
        _ < 2 ^ 1024 := by decide +kernel
    rw [if_pos hholds, Tree.asInt, Number.toInt_ofInt hholds, Number.nearestWord_of_holds hholds]
    simp only [inRange_ok_iff]
    constructor
    · rintro ⟨m, ⟨hkind, rfl⟩, rfl⟩
      exact ⟨rfl, hkind, hroom⟩
    · rintro ⟨rfl, hkind, -⟩
      exact ⟨_, ⟨hkind, rfl⟩, rfl⟩
  · rw [if_neg hholds, Tree.asInt]
    rcases Number.ofDecimal_literal hholds with ⟨hroom, hfinite, hword⟩ | ⟨hroom, hinfinite⟩
    · rw [if_pos hfinite, hword]
      simp only [inRange_ok_iff]
      constructor
      · rintro ⟨m, ⟨hkind, rfl⟩, rfl⟩
        exact ⟨rfl, hkind, hroom⟩
      · rintro ⟨rfl, hkind, -⟩
        exact ⟨_, ⟨hkind, rfl⟩, rfl⟩
    · rw [hinfinite, if_neg Bool.false_ne_true]
      constructor
      · rintro ⟨m, hm, -⟩
        cases hm
      · rintro ⟨-, -, hlt⟩
        exact absurd hlt (not_lt.mpr hroom)

/-- Of the kinds of a setting only those of 64 bits reach the ends of a word, and only the signed one its lower end. -/
theorem holds_ends (hbits : kind.bits ∈ [8, 16, 32, 64]) :
    (kind.holds (2 ^ 63 - 1) ↔ kind.bits = 64) ∧ (kind.holds (-(2 ^ 63)) ↔ kind.bits = 64 ∧ kind.signed) := by
  obtain ⟨signed, bits⟩ := kind
  simp only [List.mem_cons, List.not_mem_nil, or_false] at hbits
  rcases hbits with rfl | rfl | rfl | rfl
  all_goals
    cases signed with
    | false => decide
    | true => decide

/-- What becomes of a literal that is read as an integer of a kind. The result is the word nearest to what the literal
    denotes, if the kind holds that word and the literal is not rounded to infinity. So the result is another integer
    than the literal denotes just for the kinds of 64 bits, beyond the words; no literal below an unsigned kind has a
    result. -/
theorem unmarshal_literal (hbits : kind.bits ∈ [8, 16, 32, 64]) (hne : digits ≠ [])
    (hdigits : ∀ c ∈ digits, c.isDigit) :
    (∀ d, ((int kind).unmarshal (String.ofList (literal negative digits))).result = .ok d ↔
      d = .int kind (nearestWord (literalValue negative digits)) ∧
        kind.holds (nearestWord (literalValue negative digits)) ∧ digitsValue digits + 2 ^ 970 < 2 ^ 1024) ∧
    ((∃ d, ((int kind).unmarshal (String.ofList (literal negative digits))).result = .ok d ∧
        d ≠ .int kind (literalValue negative digits)) ↔
      kind.bits = 64 ∧
        (2 ^ 63 ≤ literalValue negative digits ∨ kind.signed ∧ literalValue negative digits < -(2 ^ 63)) ∧
          digitsValue digits + 2 ^ 970 < 2 ^ 1024) := by
  have hresult : ∀ d, ((int kind).unmarshal (String.ofList (literal negative digits))).result = .ok d ↔
      d = .int kind (nearestWord (literalValue negative digits)) ∧
        kind.holds (nearestWord (literalValue negative digits)) ∧ digitsValue digits + 2 ^ 970 < 2 ^ 1024 := fun d =>
    unmarshal_literal_ok_iff (by rintro h; simp [h] at hbits) hne hdigits
  refine ⟨hresult, ?_⟩
  obtain ⟨hupper, hlower⟩ := holds_ends hbits
  generalize literalValue negative digits = n at hresult ⊢
  constructor
  · rintro ⟨d, hd, hother⟩
    obtain ⟨rfl, hholds, hroom⟩ := (hresult d).mp hd
    rcases lt_or_ge n (-(2 ^ 63)) with hbelow | hbelow
    · have hword : nearestWord n = -(2 ^ 63) := by
        unfold nearestWord
        omega
      obtain ⟨hwide, hsigned⟩ := hlower.mp (hword ▸ hholds)
      exact ⟨hwide, .inr ⟨hsigned, hbelow⟩, hroom⟩
    rcases lt_or_ge n (2 ^ 63) with habove | habove
    · have hword : nearestWord n = n := Number.nearestWord_of_holds (Number.word_holds_iff.mpr ⟨hbelow, by omega⟩)
      exact absurd (by rw [hword]) hother
    · have hword : nearestWord n = 2 ^ 63 - 1 := by
        unfold nearestWord
        omega
      exact ⟨hupper.mp (hword ▸ hholds), .inl habove, hroom⟩
  · rintro ⟨hwide, hbeyond, hroom⟩
    have hkept : kind.holds (nearestWord n) ∧ nearestWord n ≠ n := by
      rcases hbeyond with habove | ⟨hsigned, hbelow⟩
      · have hword : nearestWord n = 2 ^ 63 - 1 := by
          unfold nearestWord
          omega
        rw [hword]
        exact ⟨hupper.mpr hwide, by omega⟩
      · have hword : nearestWord n = -(2 ^ 63) := by
          unfold nearestWord
          omega
        rw [hword]
        exact ⟨hlower.mpr ⟨hwide, hsigned⟩, by omega⟩
    exact ⟨_, (hresult _).mpr ⟨rfl, hkept.1, hroom⟩, fun h => hkept.2 (Datum.int.inj h).2⟩

/-- The least integer of 64 bits, and the literal below it. -/
theorem unmarshal_literal_least :
    ((int ⟨true, 64⟩).unmarshal "-9223372036854775808").result = .ok (.int ⟨true, 64⟩ (-9223372036854775808)) ∧
    ∃ d, ((int ⟨true, 64⟩).unmarshal "-9223372036854775809").result = .ok d ∧
      d ≠ .int ⟨true, 64⟩ (-9223372036854775809) := by
  have hleast : ∀ c ∈ "9223372036854775808".toList, c.isDigit := List.all_eq_true.mp (by decide)
  have hbelow : ∀ c ∈ "9223372036854775809".toList, c.isDigit := List.all_eq_true.mp (by decide)
  constructor
  · exact ((@unmarshal_literal true "9223372036854775808".toList ⟨true, 64⟩ (by decide) (by decide) hleast).1 _).mpr
      ⟨congrArg _ (by decide), by decide, by decide +kernel⟩
  · exact (@unmarshal_literal true "9223372036854775809".toList ⟨true, 64⟩ (by decide) (by decide) hbelow).2.mpr
      (by decide +kernel)

/-- An integer that no signed word holds is taken for another one, although the kind that is asked for holds it. -/
theorem unmarshal_literal_saturates :
    ((int ⟨false, 64⟩).unmarshal "9223372036854775808").result = .ok (.int ⟨false, 64⟩ 9223372036854775807) ∧
    ((int ⟨false, 64⟩).unmarshal "9223372036854775808").result ≠ .ok (.int ⟨false, 64⟩ 9223372036854775808) := by
  have hdigits : ∀ c ∈ "9223372036854775808".toList, c.isDigit := List.all_eq_true.mp (by decide)
  have hresult : ((int ⟨false, 64⟩).unmarshal "9223372036854775808").result =
      .ok (.int ⟨false, 64⟩ 9223372036854775807) :=
    (@unmarshal_literal_ok_iff false "9223372036854775808".toList ⟨false, 64⟩ _ (by decide) (by decide) hdigits).mpr
      ⟨congrArg _ (by decide), by decide, by decide +kernel⟩
  refine ⟨hresult, ?_⟩
  rw [hresult]
  exact fun h => absurd (Datum.int.inj (Except.ok.inj h)).2 (by decide)

end Shape

end Settings
