import Mathlib.Algebra.Order.Field.Power
import Mathlib.Data.Int.Log
import Mathlib.Data.Rat.Floor
import Mathlib.Tactic.Positivity
import Settings.Number.Binary64

/-! # The number nearest to a ratio

Rounding looks at the value of a ratio, not at the terms that it is written in, and a number that the format has is
the nearest one to itself. -/

namespace Settings.Number

variable {num den m k : Nat} {e : Int} {p : Precision}

@[simp] theorem twoTo_eq (k : Nat) : twoTo k = 2 ^ k := rfl

@[simp] theorem tenTo_eq (k : Nat) : tenTo k = 10 ^ k := rfl

/-! ### Quotients -/

theorem roundDiv_mul_mul (hk : 0 < k) (num den : Nat) : roundDiv (k * num) (k * den) = roundDiv num den := by
  have hmod : k * num % (k * den) = k * (num % den) := Nat.mul_mod_mul_left k num den
  have hdiv : k * num / (k * den) = num / den := Nat.mul_div_mul_left num den hk
  have hless : 2 * (k * (num % den)) < k * den ↔ 2 * (num % den) < den := by
    rw [Nat.mul_left_comm]
    exact Nat.mul_lt_mul_left hk
  have hmore : k * den < 2 * (k * (num % den)) ↔ den < 2 * (num % den) := by
    rw [Nat.mul_left_comm 2]
    exact Nat.mul_lt_mul_left hk
  simp only [roundDiv, hmod, hdiv, hless, hmore]

theorem roundDiv_mul (hden : 0 < den) (m : Nat) : roundDiv (m * den) den = m := by
  have hmod : m * den % den = 0 := Nat.mul_mod_left m den
  have hdiv : m * den / den = m := Nat.mul_div_cancel m hden
  rw [roundDiv, hmod, hdiv, if_pos (by simpa using hden)]

/-! ### Magnitudes -/

theorem two_zpow_log2_le (hm : 0 < m) : (2 : ℚ) ^ (Nat.log2 m : Int) ≤ m := by
  rw [zpow_natCast]
  exact_mod_cast Nat.log2_self_le hm.ne'

theorem lt_two_zpow_log2 (m : Nat) : (m : ℚ) < 2 ^ ((Nat.log2 m : Int) + 1) := by
  have h : m < 2 ^ (Nat.log2 m + 1) := Nat.lt_log2_self
  have hcast : (2 : ℚ) ^ ((Nat.log2 m : Int) + 1) = (2 ^ (Nat.log2 m + 1) : Nat) := by
    rw [Nat.cast_pow, ← zpow_natCast]
    rfl
  rw [hcast]
  exact_mod_cast h

/-- A power of two, on the side of the ratio on which it is an integer. -/
theorem ratio_lt_two_zpow (hden : 0 < den) (num : Nat) (e : Int) :
    (if 0 ≤ e then num < den * twoTo e.toNat else num * twoTo (-e).toNat < den) ↔ (num : ℚ) / den < 2 ^ e := by
  have hpos : (0 : ℚ) < den := by exact_mod_cast hden
  rw [div_lt_iff₀ hpos]
  split
  · next he =>
    obtain ⟨n, rfl⟩ := Int.eq_ofNat_of_zero_le he
    rw [zpow_natCast, mul_comm, Int.toNat_natCast, twoTo_eq]
    exact_mod_cast Iff.rfl
  · next he =>
    obtain ⟨n, rfl⟩ : ∃ n : Nat, e = -n := ⟨(-e).toNat, by omega⟩
    rw [zpow_neg, zpow_natCast, neg_neg, Int.toNat_natCast, twoTo_eq, inv_mul_eq_div, lt_div_iff₀ (by positivity)]
    exact_mod_cast Iff.rfl

theorem log_eq_of_le_of_lt {r : ℚ} (hle : 2 ^ e ≤ r) (hlt : r < 2 ^ (e + 1)) : Int.log 2 r = e := by
  have hr : 0 < r := lt_of_lt_of_le (by positivity) hle
  have hlow : e ≤ Int.log 2 r := (Int.zpow_le_iff_le_log (by decide) hr).mp (by exact_mod_cast hle)
  have hhigh : Int.log 2 r < e + 1 := (Int.lt_zpow_iff_log_lt (by decide) hr).mp (by exact_mod_cast hlt)
  omega

theorem log2Ratio_eq (hnum : 0 < num) (hden : 0 < den) : log2Ratio num den = Int.log 2 ((num : ℚ) / den) := by
  have hd : (0 : ℚ) < den := by exact_mod_cast hden
  have hlow : (2 : ℚ) ^ ((Nat.log2 num : Int) - Nat.log2 den - 1) ≤ (num : ℚ) / den := by
    rw [le_div_iff₀ hd]
    calc (2 : ℚ) ^ ((Nat.log2 num : Int) - Nat.log2 den - 1) * den
        ≤ 2 ^ ((Nat.log2 num : Int) - Nat.log2 den - 1) * 2 ^ ((Nat.log2 den : Int) + 1) :=
          mul_le_mul_of_nonneg_left (lt_two_zpow_log2 den).le (by positivity)
      _ = 2 ^ (Nat.log2 num : Int) := by
          rw [← zpow_add₀ two_ne_zero]
          congr 1
          omega
      _ ≤ num := two_zpow_log2_le hnum
  have hhigh : (num : ℚ) / den < 2 ^ ((Nat.log2 num : Int) - Nat.log2 den + 1) := by
    rw [div_lt_iff₀ hd]
    calc (num : ℚ) < 2 ^ ((Nat.log2 num : Int) + 1) := lt_two_zpow_log2 num
      _ = 2 ^ ((Nat.log2 num : Int) - Nat.log2 den + 1) * 2 ^ (Nat.log2 den : Int) := by
          rw [← zpow_add₀ two_ne_zero]
          congr 1
          omega
      _ ≤ 2 ^ ((Nat.log2 num : Int) - Nat.log2 den + 1) * den :=
          mul_le_mul_of_nonneg_left (two_zpow_log2_le hden) (by positivity)
  have hbelow := ratio_lt_two_zpow hden num ((Nat.log2 num : Int) - Nat.log2 den)
  simp only [log2Ratio]
  by_cases h : (num : ℚ) / den < 2 ^ ((Nat.log2 num : Int) - Nat.log2 den)
  · rw [if_pos (hbelow.mpr h)]
    exact (log_eq_of_le_of_lt hlow (by rwa [sub_add_cancel])).symm
  · rw [if_neg (mt hbelow.mp h)]
    exact (log_eq_of_le_of_lt (not_lt.mp h) hhigh).symm

theorem log2Ratio_mul_mul (hk : 0 < k) (hnum : 0 < num) (hden : 0 < den) :
    log2Ratio (k * num) (k * den) = log2Ratio num den := by
  have hne : (k : ℚ) ≠ 0 := by exact_mod_cast hk.ne'
  rw [log2Ratio_eq hnum hden, log2Ratio_eq (Nat.mul_pos hk hnum) (Nat.mul_pos hk hden), Nat.cast_mul, Nat.cast_mul,
    mul_div_mul_left _ _ hne]

/-! ### Rounding -/

theorem roundRatio_mul_mul (hk : 0 < k) (hnum : 0 < num) (hden : 0 < den) :
    roundRatio p (k * num) (k * den) = roundRatio p num den := by
  have hscale : ∀ e : Int,
      (if 0 ≤ e then roundDiv (k * num) (k * den * twoTo e.toNat) else roundDiv (k * num * twoTo (-e).toNat) (k * den)) =
        if 0 ≤ e then roundDiv num (den * twoTo e.toNat) else roundDiv (num * twoTo (-e).toNat) den := fun e => by
    split
    · rw [Nat.mul_assoc, roundDiv_mul_mul hk]
    · rw [Nat.mul_assoc, roundDiv_mul_mul hk]
  rw [roundRatio, roundRatio, log2Ratio_mul_mul hk hnum hden, hscale]

/-- A significand and an exponent that a format has. -/
structure Precision.Has (p : Precision) (m : Nat) (e : Int) : Prop where
  pos : 0 < m
  lt : m < 2 ^ p.digits
  least : p.least ≤ e
  beyond : e < p.beyond
  full : e = p.least ∨ 2 ^ (p.digits - 1) ≤ m

/-- A significand times two to an exponent, as a ratio. -/
def scaled (m : Nat) (e : Int) : Nat × Nat := if 0 ≤ e then (m * twoTo e.toNat, 1) else (m, twoTo (-e).toNat)

theorem cast_scaled (m : Nat) (e : Int) : ((scaled m e).1 : ℚ) / (scaled m e).2 = m * 2 ^ e := by
  unfold scaled
  split
  · next he =>
    obtain ⟨n, rfl⟩ := Int.eq_ofNat_of_zero_le he
    simp
  · next he =>
    obtain ⟨n, rfl⟩ : ∃ n : Nat, e = -n := ⟨(-e).toNat, by omega⟩
    simp [div_eq_mul_inv]

theorem scaled_pos (hm : 0 < m) (e : Int) : 0 < (scaled m e).1 ∧ 0 < (scaled m e).2 := by
  unfold scaled
  split
  · exact ⟨Nat.mul_pos hm (Nat.two_pow_pos _), Nat.one_pos⟩
  · exact ⟨hm, Nat.two_pow_pos _⟩

theorem log2Ratio_scaled (hm : 0 < m) (e : Int) : log2Ratio (scaled m e).1 (scaled m e).2 = Nat.log2 m + e := by
  obtain ⟨hnum, hden⟩ := scaled_pos hm e
  rw [log2Ratio_eq hnum hden, cast_scaled]
  apply log_eq_of_le_of_lt
  · rw [zpow_add₀ two_ne_zero]
    exact mul_le_mul_of_nonneg_right (two_zpow_log2_le hm) (by positivity)
  · rw [add_right_comm, zpow_add₀ two_ne_zero]
    exact mul_lt_mul_of_pos_right (lt_two_zpow_log2 m) (by positivity)

/-- A number that the format has is rounded to itself. -/
theorem roundRatio_scaled (h : p.Has m e) : roundRatio p (scaled m e).1 (scaled m e).2 = some (m, e) := by
  have hlog : Nat.log2 m < p.digits := (Nat.log2_lt h.pos.ne').mpr h.lt
  have hexponent : max p.least (Nat.log2 m + e - (p.digits - 1)) = e := by
    have hleast := h.least
    rcases h.full with hfull | hfull
    · omega
    · have hlow : p.digits - 1 ≤ Nat.log2 m := (Nat.le_log2 h.pos.ne').mpr hfull
      omega
  have hround : (if 0 ≤ e then roundDiv (scaled m e).1 ((scaled m e).2 * twoTo e.toNat)
      else roundDiv ((scaled m e).1 * twoTo (-e).toNat) (scaled m e).2) = m := by
    unfold scaled
    split
    · rw [Nat.one_mul]
      exact roundDiv_mul (Nat.two_pow_pos _) m
    · exact roundDiv_mul (Nat.two_pow_pos _) m
  have hcarry : m ≠ twoTo p.digits := h.lt.ne
  simp only [roundRatio, log2Ratio_scaled h.pos, hexponent, hround, if_neg hcarry, if_neg (not_le.mpr h.beyond)]

namespace Binary64

variable {x : Binary64}

theorem ofRatio_mul_mul (hk : 0 < k) (hden : 0 < den) (negative : Bool) (num : Nat) :
    ofRatio negative (k * num) (k * den) = ofRatio negative num den := by
  by_cases hnum : num = 0
  · rw [hnum, Nat.mul_zero, ofRatio, ofRatio, if_pos rfl, if_pos rfl]
  · have hpos : 0 < num := Nat.pos_of_ne_zero hnum
    rw [ofRatio, ofRatio, if_neg hnum, if_neg (Nat.mul_pos hk hpos).ne', roundRatio_mul_mul hk hpos hden]

/-! ### Words -/

theorem ofParts_unsignedBits (x : Binary64) : ofParts x.negative x.unsignedBits = x := by
  obtain ⟨bits⟩ := x
  have hlt : bits.toNat < 2 ^ 64 := bits.toNat_lt
  have hword : (if twoTo 63 ≤ bits.toNat then twoTo 63 else 0) + bits.toNat % twoTo 63 = bits.toNat := by
    rw [twoTo_eq]
    split
    · omega
    · omega
  simp only [ofParts, negative, unsignedBits, decide_eq_true_eq]
  rw [hword, UInt64.ofNat_toNat]

theorem unsignedBits_lt (x : Binary64) : x.unsignedBits < 2 ^ 63 := Nat.mod_lt _ (by decide)

theorem unsignedBits_eq (x : Binary64) : x.exponentField * 2 ^ 52 + x.fraction = x.unsignedBits := by
  rw [exponentField, fraction, twoTo_eq, Nat.mul_comm]
  exact Nat.div_add_mod _ _

theorem fraction_lt (x : Binary64) : x.fraction < 2 ^ 52 := Nat.mod_lt _ (by decide)

/-- A significand and its exponent as they stand in the word. -/
theorem ofScaled_significand (x : Binary64) : ofScaled x.negative (some (x.significand, x.exponent)) = x := by
  have hbits := x.unsignedBits_eq
  have hword : (x.exponent + 1074).toNat * twoTo 52 + x.significand = x.unsignedBits := by
    rw [← hbits]
    by_cases h : x.exponentField = 0
    · simp [exponent, significand, h]
    · rw [exponent, significand, if_neg h, if_neg h, twoTo_eq]
      obtain ⟨field, hfield⟩ := Nat.exists_eq_succ_of_ne_zero h
      have hshift : ((x.exponentField : Int) - 1075 + 1074).toNat = field := by omega
      rw [hshift, hfield, Nat.succ_mul, Nat.add_assoc]
  rw [ofScaled, hword, ofParts_unsignedBits]

theorem isZero_iff (x : Binary64) : x.isZero = true ↔ x.significand = 0 := by
  have hbits := x.unsignedBits_eq
  rw [isZero, beq_iff_eq, significand, twoTo_eq]
  split
  · omega
  · omega

theorem has_significand (hf : x.isFinite = true) (hz : x.isZero = false) :
    Precision.double.Has x.significand x.exponent := by
  have hbits := x.unsignedBits_eq
  have hlt := x.unsignedBits_lt
  have hfraction := x.fraction_lt
  have hfield : x.exponentField ≠ 2047 := by simpa [isFinite] using hf
  have hne : x.significand ≠ 0 := fun h => by simp [(isZero_iff x).mpr h] at hz
  rw [significand, twoTo_eq] at hne
  unfold significand exponent
  rw [twoTo_eq]
  constructor
  · split
    · next h => simpa [h] using Nat.pos_of_ne_zero hne
    · omega
  · show _ < 2 ^ 53
    split
    · omega
    · omega
  · show (-1074 : Int) ≤ _
    split
    · omega
    · omega
  · show _ < (972 : Int)
    split
    · omega
    · omega
  · show _ = (-1074 : Int) ∨ 2 ^ 52 ≤ _
    split
    · exact .inl rfl
    · exact .inr (Nat.le_add_right _ _)

theorem ratio_eq (x : Binary64) : x.ratio = scaled x.significand x.exponent := rfl

theorem ratio_pos (hz : x.isZero = false) : 0 < x.ratio.1 ∧ 0 < x.ratio.2 := by
  have hne : x.significand ≠ 0 := fun h => by simp [(isZero_iff x).mpr h] at hz
  exact scaled_pos (Nat.pos_of_ne_zero hne) x.exponent

theorem ofParts_zero (hz : x.isZero = true) : ofParts x.negative 0 = x := by
  have hbits : x.unsignedBits = 0 := by simpa [isZero] using hz
  have hword := x.ofParts_unsignedBits
  rwa [hbits] at hword

/-- A finite number is the nearest one to itself. -/
theorem ofRatio_ratio (hf : x.isFinite = true) (hz : x.isZero = false) :
    ofRatio x.negative x.ratio.1 x.ratio.2 = x := by
  rw [ofRatio, if_neg (ratio_pos hz).1.ne', ratio_eq, roundRatio_scaled (has_significand hf hz), ofScaled_significand]

end Binary64

end Settings.Number
