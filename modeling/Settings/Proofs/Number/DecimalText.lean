import Settings.Proofs.Lexeme.Tape
import Settings.Proofs.Number.IntText
import Settings.Proofs.Number.Shortest

/-! # Floating point numbers as decimal text

A number written out by place is read again as it was: digits behind an optional minus, and perhaps a point with digits
on both of its sides. -/

namespace Settings.Number

/-- A number by place: digits of an integer that is not zero, or a point with digits on both of its sides. Zero always
    shows a point, since its sign is lost in an integer. -/
inductive Placed (x : Binary64) : List Char → Prop
  | digits {cs : List Char} (hcs : ∀ c ∈ cs, c.isDigit) (hpos : digitsValue cs ≠ 0)
      (hread : Binary64.ofDecimal x.negative (digitsValue cs) 0 = x) : Placed x cs
  | point {whole places : List Char} (hne : whole ≠ []) (hwhole : ∀ c ∈ whole, c.isDigit)
      (hplaces : ∀ c ∈ places, c.isDigit)
      (hread : Binary64.ofDecimal x.negative (digitsValue (whole ++ places)) (-places.length) = x) :
      Placed x (whole ++ '.' :: places)

variable {x : Binary64} {d : Nat} {e n : Int} {negative : Bool} {c : Char} {cs whole places : List Char}

/-! ### Digits and a point -/

theorem toLower_of_isDigit (h : c.isDigit) : c.toLower = c := by
  simp only [Char.isDigit, Bool.and_eq_true, decide_eq_true_eq] at h
  exact dif_neg fun hupper => absurd (UInt32.le_trans hupper.1 h.2) (by decide)

theorem takeWhile_isDigit (hcs : ∀ c ∈ cs, c.isDigit) :
    cs.takeWhile Char.isDigit = cs ∧ cs.dropWhile Char.isDigit = [] := by
  have htake : (cs ++ []).takeWhile Char.isDigit = cs := takeWhile_run hcs (by simp)
  have hdrop : (cs ++ []).dropWhile Char.isDigit = [] := dropWhile_run hcs (by simp)
  rw [List.append_nil] at htake hdrop
  exact ⟨htake, hdrop⟩

theorem readUnsigned?_digits (hne : cs ≠ []) (hcs : ∀ c ∈ cs, c.isDigit) :
    readUnsigned? negative cs = some (Binary64.ofDecimal negative (digitsValue cs) 0) := by
  obtain ⟨htake, hdrop⟩ := takeWhile_isDigit hcs
  simp [readUnsigned?, htake, hdrop, hne]

theorem readUnsigned?_point (hne : whole ≠ []) (hwhole : ∀ c ∈ whole, c.isDigit) (hplaces : ∀ c ∈ places, c.isDigit) :
    readUnsigned? negative (whole ++ '.' :: places) =
      some (Binary64.ofDecimal negative (digitsValue (whole ++ places)) (-places.length)) := by
  have hstop : ∀ c ∈ ('.' :: places).head?, c.isDigit = false := by
    rintro c hc
    cases hc
    rfl
  obtain ⟨htake, hdrop⟩ := takeWhile_isDigit hplaces
  simp only [readUnsigned?, takeWhile_run hwhole hstop, dropWhile_run hwhole hstop, htake, hdrop, hne, false_and,
    if_false, Int.zero_sub]

/-- Where a digit comes first, a number is read behind its sign as it is read without one. -/
theorem readDecimal_of_readUnsigned? (hc : c.isDigit) (h : readUnsigned? negative (c :: cs) = some x) :
    readDecimal ((if negative then ['-'] else []) ++ c :: cs) = .ok x := by
  obtain ⟨hplus, hminus⟩ := ne_sign_of_isDigit hc
  have hlower : c.toLower = c := toLower_of_isDigit hc
  have hletter : c ≠ 'i' ∧ c ≠ 'n' := by
    constructor
    all_goals
      rintro rfl
      exact absurd hc (by decide)
  cases negative with
  | false => simp [readDecimal, hplus, hminus, hlower, hletter, h]
  | true => simp [readDecimal, hlower, hletter, h]

namespace Placed

theorem readUnsigned? (h : Placed x cs) : readUnsigned? x.negative cs = some x := by
  cases h with
  | digits hcs hpos hread =>
    have hne : cs ≠ [] := fun hnil => hpos (by rw [hnil]; rfl)
    rw [readUnsigned?_digits hne hcs, hread]
  | point hne hwhole hplaces hread => rw [readUnsigned?_point hne hwhole hplaces, hread]

theorem head (h : Placed x cs) : ∃ c rest, cs = c :: rest ∧ c.isDigit := by
  cases h with
  | digits hcs hpos hread =>
    cases cs with
    | nil => exact absurd rfl hpos
    | cons c rest => exact ⟨c, rest, rfl, hcs c List.mem_cons_self⟩
  | @point whole places hne hwhole hplaces hread =>
    cases whole with
    | nil => exact absurd rfl hne
    | cons c rest => exact ⟨c, rest ++ '.' :: places, rfl, hwhole c List.mem_cons_self⟩

theorem mem (h : Placed x cs) (hc : c ∈ cs) : c = '.' ∨ c.isDigit := by
  cases h with
  | digits hcs hpos hread => exact .inr (hcs c hc)
  | point hne hwhole hplaces hread =>
    rcases List.mem_append.mp hc with hc | hc
    · exact .inr (hwhole c hc)
    rcases List.mem_cons.mp hc with hc | hc
    · exact .inl hc
    · exact .inr (hplaces c hc)

/-- The text of a number behind its sign is read as that number. -/
theorem readDecimal (h : Placed x cs) : readDecimal ((if x.negative then ['-'] else []) ++ cs) = .ok x := by
  obtain ⟨c, rest, rfl, hc⟩ := h.head
  exact readDecimal_of_readUnsigned? hc h.readUnsigned?

/-- Where the text is read as an integer, that integer is rounded to the number. -/
theorem ofInt_eq (hf : x.isFinite = true) (h : Placed x cs)
    (hint : readInt .word ((if x.negative then ['-'] else []) ++ cs) = .ok n) : Binary64.ofInt n = x := by
  obtain ⟨c, rest, hcs, hc⟩ := h.head
  have hvalue : ∀ {limit excess m}, readDigits limit excess 0 cs = .ok m →
      m ≠ 0 ∧ Binary64.ofRatio x.negative m 1 = x := by
    intro limit excess m hm
    obtain ⟨hall, rfl⟩ := of_readDigits hm
    cases h with
    | digits hcs hpos hread => exact ⟨hpos, Binary64.ofRatio_of_ofDecimal hf hpos hread⟩
    | point hne hwhole hplaces hread =>
      exact absurd (hall '.' (List.mem_append_right _ List.mem_cons_self)) (by decide)
  cases hsign : x.negative with
  | false =>
    simp only [hsign, Bool.false_eq_true, if_false, List.nil_append] at hint hvalue
    rw [hcs, readInt_cons hc, ← hcs] at hint
    obtain ⟨m, hm, rfl⟩ := ok_of_map hint
    exact (hvalue hm).2
  | true =>
    simp only [hsign, if_true, List.singleton_append] at hint hvalue
    rw [readInt_minus rfl (hcs ▸ List.cons_ne_nil c rest)] at hint
    obtain ⟨m, hm, rfl⟩ := ok_of_map hint
    obtain ⟨hpos, hround⟩ := hvalue hm
    have hneg : -(m : Int) < 0 := by omega
    rw [Binary64.ofInt, decide_eq_true hneg, Int.natAbs_neg, Int.natAbs_natCast, hround]

end Placed

/-! ### Digits and an exponent -/

namespace Binary64

theorem byPlace_of_nonneg (he : 0 ≤ e) (d : Nat) : byPlace d e = Nat.toDigits 10 (d * 10 ^ e.toNat) := by
  unfold byPlace
  split
  · next hd =>
    rw [hd, Nat.zero_mul]
    rfl
  · next hd => exact (toDigits_mul_pow (Nat.pos_of_ne_zero hd) e.toNat).symm

/-- Below one, zeros are filled in on the left, so that a digit stands before the point. It is the only zero there. -/
theorem byPlace_of_neg (he : e < 0) (hd : d ≠ 0) :
    ∃ whole places, byPlace d e = whole ++ '.' :: places ∧ (whole = ['0'] ∨ ∃ c cs, whole = c :: cs ∧ c ≠ '0') ∧
      (∀ c ∈ whole, c.isDigit) ∧ (∀ c ∈ places, c.isDigit) ∧ digitsValue (whole ++ places) = d ∧
      (places.length : Int) = -e := by
  obtain ⟨k, rfl⟩ : ∃ k : Nat, e = -k := ⟨(-e).toNat, by omega⟩
  have hk : (- -(k : Int)).toNat = k := by omega
  let padded := List.replicate (k + 1 - (Nat.toDigits 10 d).length) '0' ++ Nat.toDigits 10 d
  have hlength : k < padded.length := by
    simp only [padded, List.length_append, List.length_replicate]
    omega
  have hdigits : ∀ c ∈ padded, c.isDigit := by
    intro c hc
    rcases List.mem_append.mp hc with hc | hc
    · obtain rfl := List.eq_of_mem_replicate hc
      rfl
    · exact Nat.isDigit_of_mem_toDigits (by decide) (by decide) hc
  refine ⟨padded.take (padded.length - k), padded.drop (padded.length - k), ?_, ?_, ?_, ?_, ?_, ?_⟩
  · rw [byPlace, if_neg hd, if_neg (by omega), hk]
  · rcases Nat.lt_or_ge k (Nat.toDigits 10 d).length with hlt | hge
    · obtain ⟨c, cs, hcs, hne⟩ := head_toDigits (Nat.pos_of_ne_zero hd)
      have hpadded : padded = c :: cs := by
        have hzeros : k + 1 - (Nat.toDigits 10 d).length = 0 := Nat.sub_eq_zero_of_le (Nat.succ_le_of_lt hlt)
        simp only [padded, hzeros]
        exact hcs
      obtain ⟨m, hm⟩ : ∃ m, padded.length - k = m + 1 := ⟨padded.length - k - 1, by omega⟩
      exact .inr ⟨c, cs.take m, by rw [hm, hpadded, List.take_succ_cons], hne⟩
    · have hone : padded.length - k = 1 := by
        simp only [padded, List.length_append, List.length_replicate]
        omega
      obtain ⟨m, hm⟩ : ∃ m, k + 1 - (Nat.toDigits 10 d).length = m + 1 := ⟨k - (Nat.toDigits 10 d).length, by omega⟩
      left
      rw [hone]
      simp only [padded, hm, List.replicate_succ, List.cons_append, List.take_succ_cons, List.take_zero]
  · exact fun c hc => hdigits c (List.mem_of_mem_take hc)
  · exact fun c hc => hdigits c (List.mem_of_mem_drop hc)
  · rw [List.take_append_drop, digitsValue_zeros, digitsValue_toDigits]
  · rw [List.length_drop]
    omega

theorem placed_byPlace (hd : d ≠ 0) (hread : ofDecimal x.negative d e = x) :
    Placed x (byPlace d e) := by
  rcases lt_or_ge e 0 with he | he
  · obtain ⟨whole, places, htext, hfirst, hwhole, hplaces, hvalue, hlength⟩ := byPlace_of_neg he hd
    have hne : whole ≠ [] := by
      rcases hfirst with rfl | ⟨c, cs, rfl, -⟩
      · exact List.cons_ne_nil _ _
      · exact List.cons_ne_nil _ _
    rw [htext]
    refine .point hne hwhole hplaces ?_
    rwa [hvalue, hlength, Int.neg_neg]
  · have hshift := ofDecimal_mul_pow x.negative d e.toNat e
    rw [Int.toNat_of_nonneg he, Int.sub_self, hread] at hshift
    rw [byPlace_of_nonneg he]
    refine .digits (fun _ => Nat.isDigit_of_mem_toDigits (by decide) (by decide)) ?_ ?_
    · rw [digitsValue_toDigits]
      exact (Nat.mul_pos (Nat.pos_of_ne_zero hd) (Nat.pow_pos (by decide))).ne'
    · rwa [digitsValue_toDigits]

/-! ### Floats -/

theorem isZero_ofParts_zero (negative : Bool) : (ofParts negative 0).isZero = true := by
  cases negative with
  | false => decide
  | true => decide

theorem shortest_ne_zero (hf : x.isFinite = true) (hz : x.isZero = false) : x.shortest.1 ≠ 0 := by
  intro hd
  have hread := ofDecimal_shortest hf
  rw [hd] at hread
  have hzero : ofDecimal x.negative 0 x.shortest.2 = ofParts x.negative 0 := rfl
  rw [← hread, hzero, isZero_ofParts_zero] at hz
  cases hz

theorem isIntegral_of_isZero (hf : x.isFinite = true) (hz : x.isZero = true) :
    x.isIntegral = true ∧ x.truncate = 0 := by
  have hsignificand := (isZero_iff x).mp hz
  have hnum : x.ratio.1 = 0 := by
    unfold ratio
    split
    · simp [hsignificand]
    · exact hsignificand
  constructor
  · simp [isIntegral, hf, hnum]
  · simp [truncate, hnum]

theorem plain_of_isFinite (hf : x.isFinite = true) :
    x.plain = (if x.negative then ['-'] else []) ++ byPlace x.shortest.1 x.shortest.2 := by
  have hnan : x.isNaN = false := by
    have hfield : x.exponentField ≠ 2047 := by simpa [isFinite] using hf
    simp [isNaN, hfield]
  simp [plain, hf, hnan]

theorem placed_plain (hf : x.isFinite = true) (hz : x.isZero = false) : Placed x (byPlace x.shortest.1 x.shortest.2) :=
  placed_byPlace (shortest_ne_zero hf hz) (ofDecimal_shortest hf)

/-- An integer below `10 ^ 16` takes a point and a zero behind its digits. -/
theorem placed_integral (hf : x.isFinite = true) (hi : x.isIntegral = true) (hlt : x.truncate.natAbs < 10 ^ 16) :
    Placed x (byPlace x.shortest.1 x.shortest.2 ++ ['.', '0']) := by
  have he := shortest_of_isIntegral hi hlt
  rw [byPlace_of_nonneg he]
  refine .point Nat.toDigits_ne_nil (fun _ => Nat.isDigit_of_mem_toDigits (by decide) (by decide)) (by simp) ?_
  have hshift := ofDecimal_shift x.negative (x.shortest.1 * 10 ^ x.shortest.2.toNat) 0
  have hpow := ofDecimal_mul_pow x.negative x.shortest.1 x.shortest.2.toNat x.shortest.2
  rw [Int.toNat_of_nonneg he, Int.sub_self, ofDecimal_shortest hf] at hpow
  rw [digitsValue_concat_zero, digitsValue_toDigits]
  exact hshift.trans hpow

end Binary64

end Settings.Number
