import Settings.Proofs.Number.Shortest

/-! # Integers beyond the words

An integer that no word holds is rounded to a number of the format binary64, and back in the integers that number is
brought into the range of a word. So only the sign of it is left. The greatest of these integers are rounded to
infinity: those that lie half a unit in the last place, or more, above the greatest finite number. -/

namespace Settings.Number

variable {num den n m h b : Nat} {e : Int} {negative : Bool} {x : Binary64}

/-! ### Quotients -/

theorem div_le_roundDiv (num den : Nat) : num / den ≤ roundDiv num den := by
  simp only [roundDiv]
  split
  · exact Nat.le_refl _
  split
  · exact Nat.le_succ _
  split
  · exact Nat.le_refl _
  · exact Nat.le_succ _

theorem roundDiv_le_succ_div (num den : Nat) : roundDiv num den ≤ num / den + 1 := by
  simp only [roundDiv]
  split
  · exact Nat.le_succ _
  split
  · exact Nat.le_refl _
  split
  · exact Nat.le_succ _
  · exact Nat.le_refl _

/-- A quotient is rounded up to an even number from half a unit below it on. -/
theorem roundDiv_lt_iff (hh : 0 < h) (hm : m % 2 = 0) : roundDiv num (2 * h) < m ↔ num + h < m * (2 * h) := by
  have hsplit : 2 * h * (num / (2 * h)) + num % (2 * h) = num := Nat.div_add_mod num (2 * h)
  have hrest : num % (2 * h) < 2 * h := Nat.mod_lt _ (by omega)
  rcases lt_trichotomy (num / (2 * h) + 1) m with hlt | heq | hgt
  · have hround := roundDiv_le_succ_div num (2 * h)
    have hroom : 2 * h * (num / (2 * h) + 2) ≤ 2 * h * m := Nat.mul_le_mul_left _ hlt
    rw [Nat.mul_add] at hroom
    rw [Nat.mul_comm m]
    omega
  · -- the quotient below an even number is odd, so a tie goes up
    have hodd : num / (2 * h) % 2 ≠ 0 := by omega
    have hround : roundDiv num (2 * h) < m ↔ num % (2 * h) < h := by
      simp only [roundDiv, if_neg hodd]
      split
      · omega
      · split
        · omega
        · omega
    have hunit : 2 * h * (num / (2 * h) + 1) = 2 * h * (num / (2 * h)) + 2 * h := Nat.mul_succ _ _
    rw [hround, ← heq, Nat.mul_comm _ (2 * h), hunit]
    omega
  · have hround := div_le_roundDiv num (2 * h)
    have hroom : 2 * h * m ≤ 2 * h * (num / (2 * h)) := Nat.mul_le_mul_left _ (by omega)
    rw [Nat.mul_comm m]
    omega

theorem roundDiv_two_pow_lt_iff {k l t : Nat} (hl : 0 < l) (ht : l + (k + 1) = t) :
    roundDiv num (2 ^ (k + 1)) < 2 ^ l ↔ num + 2 ^ k < 2 ^ t := by
  have heven : 2 ^ l % 2 = 0 := Nat.mod_eq_zero_of_dvd (dvd_pow_self 2 hl.ne')
  rw [← ht, Nat.pow_add 2 l, Nat.pow_succ 2 k, Nat.mul_comm _ 2]
  exact roundDiv_lt_iff (Nat.two_pow_pos k) heven

/-! ### Rounding -/

theorem log2Ratio_one (hn : 0 < n) : log2Ratio n 1 = Nat.log2 n := by
  have hlog := log2Ratio_scaled hn 0
  simpa [scaled] using hlog

theorem roundDiv_of_log2 {k : Nat} (hk : Nat.log2 n = k + 52) :
    2 ^ 52 ≤ roundDiv n (2 ^ k) ∧ roundDiv n (2 ^ k) ≤ 2 ^ 53 := by
  have hne : n ≠ 0 := fun h => by simp [h] at hk
  have hlow : 2 ^ Nat.log2 n ≤ n := Nat.log2_self_le hne
  have hhigh : n < 2 ^ (Nat.log2 n + 1) := Nat.lt_log2_self
  have hcarry : Nat.log2 n + 1 = 53 + k := by omega
  rw [hk, Nat.add_comm k] at hlow
  rw [hcarry] at hhigh
  rw [Nat.pow_add] at hlow hhigh
  constructor
  · exact Nat.le_trans ((Nat.le_div_iff_mul_le (Nat.two_pow_pos k)).mpr hlow) (div_le_roundDiv _ _)
  · exact Nat.le_trans (roundDiv_le_succ_div _ _) ((Nat.div_lt_iff_lt_mul (Nat.two_pow_pos k)).mpr hhigh)

/-- The rounding of an integer of at least 53 binary digits. A significand of 54 digits is carried. -/
theorem roundRatio_of_log2 {k : Nat} (hk : Nat.log2 n = k + 52) :
    roundRatio .double n 1 =
      if roundDiv n (2 ^ k) = 2 ^ 53 then if 972 ≤ (k + 1 : Int) then none else some (2 ^ 52, (k + 1 : Int))
      else if 972 ≤ (k : Int) then none else some (roundDiv n (2 ^ k), (k : Int)) := by
  have hpos : 0 < n := Nat.pos_of_ne_zero fun h => by simp [h] at hk
  have hexponent : max (-1074 : Int) (log2Ratio n 1 - ((53 : Nat) - 1)) = k := by
    rw [log2Ratio_one hpos, hk]
    omega
  simp only [roundRatio, Precision.double, hexponent, Int.toNat_natCast, if_pos (Int.natCast_nonneg k), twoTo_eq,
    Nat.one_mul]
  split
  · simp only [Nat.reduceSub]
  · dsimp only

/-- An integer beyond the words is rounded to a full significand and a positive exponent, or to infinity. -/
theorem roundRatio_large (hn : 2 ^ 63 ≤ n) :
    n + 2 ^ 970 < 2 ^ 1024 ∧
        (∃ m e, roundRatio .double n 1 = some (m, e) ∧ 2 ^ 52 ≤ m ∧ m < 2 ^ 53 ∧ 11 ≤ e ∧ e < 972) ∨
      2 ^ 1024 ≤ n + 2 ^ 970 ∧ roundRatio .double n 1 = none := by
  have hpos : 0 < n := by omega
  obtain ⟨k, hk⟩ : ∃ k, Nat.log2 n = k + 63 := by
    have hlog : 63 ≤ Nat.log2 n := (Nat.le_log2 hpos.ne').mpr hn
    exact ⟨Nat.log2 n - 63, by omega⟩
  have hlow : 2 ^ (k + 63) ≤ n := hk ▸ Nat.log2_self_le hpos.ne'
  have hhigh : n < 2 ^ (k + 64) := by
    have hlt : n < 2 ^ (Nat.log2 n + 1) := Nat.lt_log2_self
    rwa [hk] at hlt
  have hbounds : 2 ^ 52 ≤ roundDiv n (2 ^ (k + 11)) ∧ roundDiv n (2 ^ (k + 11)) ≤ 2 ^ 53 := roundDiv_of_log2 hk
  obtain ⟨hlower, hupper⟩ := hbounds
  rw [roundRatio_of_log2 hk]
  -- Only a number of 1024 bits is near the end of the range: there it depends on whether rounding carries.
  rcases lt_trichotomy k 960 with hlt | heq | hgt
  · have hroom : n + 2 ^ 970 < 2 ^ 1024 := by
      calc n + 2 ^ 970 < 2 ^ (k + 64) + 2 ^ 970 := Nat.add_lt_add_right hhigh _
        _ ≤ 2 ^ 1023 + 2 ^ 970 := Nat.add_le_add_right (Nat.pow_le_pow_right (by decide) (by omega)) _
        _ ≤ 2 ^ 1024 := by decide +kernel
    refine .inl ⟨hroom, ?_⟩
    split
    · exact ⟨2 ^ 52, k + 12, if_neg (by omega), by omega, by omega, by omega, by omega⟩
    · exact ⟨_, k + 11, if_neg (by omega), hlower, by omega, by omega, by omega⟩
  · have hunit : k + 11 = 970 + 1 := by omega
    have hleast : (11 : Int) ≤ (970 + 1 : Nat) := by decide
    have hbeyond : ((970 + 1 : Nat) : Int) < 972 := by decide
    have hnone : (972 : Int) ≤ (970 + 1 : Nat) + 1 := by decide
    have hcarry : roundDiv n (2 ^ (970 + 1)) < 2 ^ 53 ↔ n + 2 ^ 970 < 2 ^ 1024 :=
      roundDiv_two_pow_lt_iff (by decide) (by decide)
    rw [hunit] at hlower hupper ⊢
    rw [if_pos hnone, if_neg (not_le.mpr hbeyond)]
    rcases Nat.lt_or_eq_of_le hupper with hless | hfull
    · rw [if_neg hless.ne]
      exact .inl ⟨hcarry.mp hless, roundDiv n (2 ^ (970 + 1)), _, rfl, hlower, hless, hleast, hbeyond⟩
    · rw [if_pos hfull]
      exact .inr ⟨not_lt.mp fun hroom => (hcarry.mpr hroom).ne hfull, rfl⟩
  · have hplaces : 1024 ≤ k + 63 := by omega
    have hroom : 2 ^ 1024 ≤ n := (pow_le_pow_right₀ one_le_two hplaces).trans hlow
    refine .inr ⟨Nat.le_trans hroom (Nat.le_add_right _ _), ?_⟩
    split
    · exact if_pos (by omega)
    · exact if_pos (by omega)

namespace Binary64

/-! ### Words -/

theorem isNaN_of_isFinite (hf : x.isFinite = true) : x.isNaN = false := by
  have hfield : x.exponentField ≠ 2047 := by simpa [isFinite] using hf
  simp [isNaN, hfield]

theorem toNat_ofParts (hb : b < 2 ^ 63) :
    (ofParts negative b).bits.toNat = (if negative then 2 ^ 63 else 0) + b := by
  have hword : (if negative then 2 ^ 63 else 0) + b < 2 ^ 64 := by
    split
    · omega
    · omega
  exact UInt64.toNat_ofNat_of_lt hword

theorem negative_ofParts (hb : b < 2 ^ 63) : (ofParts negative b).negative = negative := by
  rw [Binary64.negative, toNat_ofParts hb, twoTo_eq]
  cases negative with
  | false => simpa using hb
  | true => simp

theorem unsignedBits_ofParts (hb : b < 2 ^ 63) : (ofParts negative b).unsignedBits = b := by
  rw [unsignedBits, toNat_ofParts hb, twoTo_eq]
  cases negative with
  | false => simpa using hb
  | true => simpa using hb

/-- The parts of the word of a full significand and its exponent. -/
theorem parts_ofScaled (negative : Bool) (hlow : 2 ^ 52 ≤ m) (hhigh : m < 2 ^ 53) (hleast : -1074 ≤ e)
    (hbeyond : e < 972) :
    (ofScaled negative (some (m, e))).negative = negative ∧
      (ofScaled negative (some (m, e))).exponentField = (e + 1075).toNat ∧
        (ofScaled negative (some (m, e))).significand = m ∧ (ofScaled negative (some (m, e))).exponent = e := by
  have hbits : (e + 1074).toNat * twoTo 52 + m < 2 ^ 63 := by
    rw [twoTo_eq]
    omega
  have hfield : (ofScaled negative (some (m, e))).exponentField = (e + 1075).toNat := by
    rw [ofScaled, exponentField, unsignedBits_ofParts hbits, twoTo_eq]
    omega
  have hfraction : (ofScaled negative (some (m, e))).fraction = m - 2 ^ 52 := by
    rw [ofScaled, fraction, unsignedBits_ofParts hbits, twoTo_eq]
    omega
  have hnormal : ¬ (e + 1075).toNat = 0 := by omega
  refine ⟨negative_ofParts hbits, hfield, ?_, ?_⟩
  · rw [significand, hfield, hfraction, if_neg hnormal, twoTo_eq]
    omega
  · rw [exponent, hfield, if_neg hnormal]
    omega

theorem ratio_ofScaled (negative : Bool) (hlow : 2 ^ 52 ≤ m) (hhigh : m < 2 ^ 53) (hleast : -1074 ≤ e)
    (hbeyond : e < 972) :
    (ofScaled negative (some (m, e))).isFinite = true ∧ (ofScaled negative (some (m, e))).ratio = scaled m e := by
  obtain ⟨-, hfield, hsignificand, hexponent⟩ := parts_ofScaled negative hlow hhigh hleast hbeyond
  constructor
  · simp only [isFinite, hfield, bne_iff_ne]
    omega
  · rw [ratio_eq, hsignificand, hexponent]

/-! ### Back in the integers -/

/-- An integer beyond the words that is rounded to a finite number comes back as the word next to it; another one is
    rounded to infinity. -/
theorem ofRatio_large (hn : 2 ^ 63 ≤ n) :
    n + 2 ^ 970 < 2 ^ 1024 ∧ (ofRatio negative n 1).isFinite = true ∧
        (ofRatio negative n 1).toWord = (if negative then -(2 ^ 63) else 2 ^ 63 - 1) ∨
      2 ^ 1024 ≤ n + 2 ^ 970 ∧ (ofRatio negative n 1).isFinite = false := by
  have hpos : n ≠ 0 := by omega
  rw [ofRatio, if_neg hpos]
  rcases roundRatio_large hn with ⟨hroom, m, e, hround, hlow, hhigh, hleast, hbeyond⟩ | ⟨hroom, hround⟩
  · obtain ⟨hsign, -, -, -⟩ := parts_ofScaled negative hlow hhigh (by omega) hbeyond
    obtain ⟨hfinite, hratio⟩ := ratio_ofScaled negative hlow hhigh (by omega) hbeyond
    rw [hround]
    have hnan := isNaN_of_isFinite hfinite
    refine .inl ⟨hroom, hfinite, ?_⟩
    have hlarge : 2 ^ 63 ≤ m * 2 ^ e.toNat := by
      calc 2 ^ 63 = 2 ^ 52 * 2 ^ 11 := by decide
        _ ≤ m * 2 ^ e.toNat := Nat.mul_le_mul hlow (Nat.pow_le_pow_right (by decide) (by omega))
    have htruncate : (ofScaled negative (some (m, e))).truncate =
        if negative then -((m * 2 ^ e.toNat : Nat) : Int) else (m * 2 ^ e.toNat : Nat) := by
      simp only [truncate, hratio, hsign, scaled, if_pos (show 0 ≤ e by omega), Nat.div_one, twoTo_eq]
    rw [toWord, htruncate]
    simp only [hnan, hfinite, twoTo_eq, Bool.false_eq_true, Bool.not_true, if_false]
    split
    · omega
    · omega
  · rw [hround]
    exact .inr ⟨hroom, isFinite_infinity negative⟩

/-- The same for the number that an integer's digits are read as. -/
theorem ofDecimal_large (hn : 2 ^ 63 ≤ n) :
    n + 2 ^ 970 < 2 ^ 1024 ∧ (ofDecimal negative n 0).isFinite = true ∧
        (ofDecimal negative n 0).toWord = (if negative then -(2 ^ 63) else 2 ^ 63 - 1) ∨
      2 ^ 1024 ≤ n + 2 ^ 970 ∧ (ofDecimal negative n 0).isFinite = false := by
  have hpos : n ≠ 0 := by omega
  by_cases hplaces : ((Nat.toDigits 10 n).length : Int) + 0 ≤ 310
  · rw [ofDecimal_of_range hpos (by omega) hplaces, if_pos (le_refl _), Int.toNat_zero, tenTo_eq, Nat.pow_zero,
      Nat.mul_one]
    exact ofRatio_large hn
  · have hinfinite : ofDecimal negative n 0 = infinity negative := by
      simp only [ofDecimal, if_neg hpos, if_pos (not_le.mp hplaces)]
    have hbeyond : 10 ^ 310 ≤ n := by
      refine not_lt.mp fun hlt => hplaces ?_
      have hlength := (Nat.length_toDigits_le_iff (by decide) (by decide)).mpr hlt
      omega
    have hroom : 2 ^ 1024 ≤ 10 ^ 310 := by decide +kernel
    rw [hinfinite]
    exact .inr ⟨Nat.le_trans hroom (Nat.le_trans hbeyond (Nat.le_add_right _ _)), isFinite_infinity negative⟩

end Binary64

end Settings.Number
