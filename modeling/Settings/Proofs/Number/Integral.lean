import Settings.Proofs.Number.DecimalText
import Settings.Proofs.Number.Saturation

/-! # Integers among the numbers

An integer is rounded to an integer, if not to infinity, and stays between the same powers of two. So a finite number is
an integer if and only if its fewest digits end before the point, and then they denote an integer below `2 ^ 63` just
where the number is one. The only number in doubt is `2 ^ 63`, to which some integers below it are rounded: it is written
as an integer above it. -/

namespace Settings.Number.Binary64

variable {n m k : Nat} {negative : Bool} {x : Binary64}

/-! ### Integers are rounded to integers -/

theorem integral_ofScaled (negative : Bool) (hlow : 2 ^ 52 ≤ m) (hhigh : m < 2 ^ 53) (hk : (k : Int) < 972) :
    (ofScaled negative (some (m, (k : Int)))).isIntegral = true ∧
      (ofScaled negative (some (m, (k : Int)))).truncate.natAbs = m * 2 ^ k := by
  obtain ⟨hfinite, hratio⟩ := ratio_ofScaled negative hlow hhigh (by omega) hk
  rw [scaled, if_pos (Int.natCast_nonneg k), Int.toNat_natCast, twoTo_eq] at hratio
  constructor
  · rw [isIntegral, hfinite, hratio, Nat.mod_one]
    rfl
  · rw [natAbs_truncate, hratio, Nat.div_one]

/-- An integer of fewer than 53 binary digits is rounded to itself. -/
theorem ofRatio_small (negative : Bool) (hn : 0 < n) (hlog : Nat.log2 n < 52) :
    (ofRatio negative n 1).isIntegral = true ∧ (ofRatio negative n 1).truncate.natAbs = n := by
  obtain ⟨k, hk⟩ : ∃ k, k + 1 + Nat.log2 n = 52 := ⟨51 - Nat.log2 n, by omega⟩
  have hunit : 0 < 2 ^ (k + 1) := Nat.two_pow_pos _
  have hlow : 2 ^ 52 ≤ 2 ^ (k + 1) * n := by
    calc 2 ^ 52 = 2 ^ (k + 1) * 2 ^ Nat.log2 n := by rw [← Nat.pow_add, hk]
      _ ≤ 2 ^ (k + 1) * n := Nat.mul_le_mul_left _ (Nat.log2_self_le hn.ne')
  have hhigh : 2 ^ (k + 1) * n < 2 ^ 53 := by
    calc 2 ^ (k + 1) * n < 2 ^ (k + 1) * 2 ^ (Nat.log2 n + 1) := Nat.mul_lt_mul_of_pos_left Nat.lt_log2_self hunit
      _ = 2 ^ 53 := by rw [← Nat.pow_add, ← Nat.add_assoc, hk]
  have hleast : (-1074 : Int) ≤ -((k + 1 : Nat) : Int) := by omega
  have hbeyond : -((k + 1 : Nat) : Int) < 972 := by omega
  have hscaled : scaled (2 ^ (k + 1) * n) (-((k + 1 : Nat) : Int)) = (2 ^ (k + 1) * n, 2 ^ (k + 1) * 1) := by
    rw [scaled, if_neg (by omega), Int.neg_neg, Int.toNat_natCast, twoTo_eq, Nat.mul_one]
  have hround : roundRatio .double n 1 = some (2 ^ (k + 1) * n, -((k + 1 : Nat) : Int)) := by
    have hhas : Precision.double.Has (2 ^ (k + 1) * n) (-((k + 1 : Nat) : Int)) :=
      ⟨Nat.mul_pos hunit hn, hhigh, hleast, hbeyond, .inr hlow⟩
    rw [← roundRatio_scaled hhas, hscaled, roundRatio_mul_mul hunit hn Nat.one_pos]
  obtain ⟨hfinite, hratio⟩ := ratio_ofScaled negative hlow hhigh hleast hbeyond
  rw [hscaled, Nat.mul_one] at hratio
  rw [ofRatio, if_neg hn.ne', hround]
  constructor
  · rw [isIntegral, hfinite, hratio, Nat.mul_mod_right]
    rfl
  · rw [natAbs_truncate, hratio, Nat.mul_div_cancel_left _ hunit]

/-- An integer that is rounded to a finite number is rounded to an integer, and no power of two lies between them. -/
theorem ofRatio_integer (hn : 0 < n) (hf : (ofRatio negative n 1).isFinite = true) :
    (ofRatio negative n 1).isIntegral = true ∧ 2 ^ Nat.log2 n ≤ (ofRatio negative n 1).truncate.natAbs ∧
      (ofRatio negative n 1).truncate.natAbs ≤ 2 ^ (Nat.log2 n + 1) := by
  rcases Nat.lt_or_ge (Nat.log2 n) 52 with hlog | hlog
  · obtain ⟨hintegral, htruncate⟩ := ofRatio_small negative hn hlog
    rw [htruncate]
    exact ⟨hintegral, Nat.log2_self_le hn.ne', Nat.lt_log2_self.le⟩
  obtain ⟨k, hk⟩ : ∃ k, Nat.log2 n = k + 52 := ⟨Nat.log2 n - 52, by omega⟩
  obtain ⟨hlow, hhigh⟩ := roundDiv_of_log2 hk
  have hround : ∃ m i, roundRatio .double n 1 = some (m, ((i : Nat) : Int)) ∧ 2 ^ 52 ≤ m ∧ m < 2 ^ 53 ∧ (i : Int) < 972 ∧
      2 ^ 52 * 2 ^ k ≤ m * 2 ^ i ∧ m * 2 ^ i ≤ 2 ^ 53 * 2 ^ k := by
    rw [ofRatio, if_neg hn.ne'] at hf
    rw [roundRatio_of_log2 hk] at hf ⊢
    by_cases hcarry : roundDiv n (2 ^ k) = 2 ^ 53
    · rw [if_pos hcarry] at hf ⊢
      split at hf
      · cases hf.symm.trans (isFinite_infinity negative)
      next hbeyond =>
      have hunit : 2 ^ 53 * 2 ^ k = 2 ^ 52 * 2 ^ (k + 1) := by rw [Nat.pow_succ 2 k, Nat.mul_comm _ 2]; omega
      rw [if_neg hbeyond]
      exact ⟨2 ^ 52, k + 1, rfl, Nat.le_refl _, by decide, not_le.mp hbeyond, by omega, hunit.ge⟩
    · rw [if_neg hcarry] at hf ⊢
      split at hf
      · cases hf.symm.trans (isFinite_infinity negative)
      next hbeyond =>
      rw [if_neg hbeyond]
      exact ⟨_, k, rfl, hlow, by omega, not_le.mp hbeyond, Nat.mul_le_mul_right _ hlow, Nat.mul_le_mul_right _ hhigh⟩
  obtain ⟨m, i, hround, hlow, hhigh, hi, hfrom, hto⟩ := hround
  obtain ⟨hintegral, htruncate⟩ := integral_ofScaled negative hlow hhigh hi
  have hplaces : k + 52 + 1 = 53 + k := by omega
  rw [ofRatio, if_neg hn.ne', hround, htruncate, hk, hplaces, Nat.pow_add 2 53, Nat.add_comm k, Nat.pow_add 2 52]
  exact ⟨hintegral, hfrom, hto⟩

/-! ### The digits of an integer -/

theorem lt_of_firstGrid? {place e : Int} {count d : Nat} (h : firstGrid? x place count = some (d, e)) :
    place < e + count := by
  induction count generalizing place with
  | zero => cases h
  | succ count ih =>
    unfold firstGrid? at h
    split at h
    · next found hfound =>
      cases h
      have hplace := (eq_of_onGrid? hfound).2
      omega
    · have hlt := ih h
      omega

/-- Seventeen digits of a greater integer end before the point, and so does its exact decimal. -/
theorem shortest_of_large (hi : x.isIntegral = true) (hge : 10 ^ 16 ≤ x.truncate.natAbs) : 0 ≤ x.shortest.2 := by
  unfold shortest
  split
  · exact le_refl _
  next hz =>
  have hz : x.isZero = false := by simpa using hz
  have hlength : 16 < (Nat.toDigits 10 x.truncate.natAbs).length := by
    refine not_le.mp fun hle => ?_
    have hlt : x.truncate.natAbs < 10 ^ 16 :=
      (lt_pow_length_toDigits _).trans_le (Nat.pow_le_pow_right (by decide) hle)
    exact absurd hlt (not_lt.mpr hge)
  have hplace := leadingPlace_of_isIntegral hi hz
  have hfound : 0 ≤ ((firstGrid? x (leadingPlace x.ratio.1 x.ratio.2) 17).getD x.exactDecimal).2 := by
    cases hgrid : firstGrid? x (leadingPlace x.ratio.1 x.ratio.2) 17 with
    | some found =>
      have hlt := lt_of_firstGrid? hgrid
      rw [Option.getD_some]
      omega
    | none =>
      have hexponent : 0 ≤ x.exponent := by
        refine not_lt.mp fun hneg => ?_
        have hsignificand : x.significand < 2 ^ 53 := (has_significand (isFinite_of_isIntegral hi) hz).lt
        have hsmall : x.truncate.natAbs ≤ x.significand := by
          rw [natAbs_truncate, ratio, if_neg (not_le.mpr hneg)]
          exact Nat.div_le_self _ _
        have hlarge : 2 ^ 53 ≤ x.truncate.natAbs := Nat.le_trans (by decide) hge
        exact absurd hsignificand (not_lt.mpr (Nat.le_trans hlarge hsmall))
      rw [Option.getD_none, exactDecimal, if_pos hexponent]
  generalize (firstGrid? x (leadingPlace x.ratio.1 x.ratio.2) 17).getD x.exactDecimal = found at hfound ⊢
  obtain ⟨d, e⟩ := found
  dsimp only
  split
  · exact Int.add_nonneg hfound Int.one_nonneg
  · exact hfound

theorem ofRatio_shortest (hf : x.isFinite = true) (hz : x.isZero = false) (he : 0 ≤ x.shortest.2) :
    0 < x.shortest.1 * 10 ^ x.shortest.2.toNat ∧
      ofRatio x.negative (x.shortest.1 * 10 ^ x.shortest.2.toNat) 1 = x := by
  have hread := ofDecimal_mul_pow x.negative x.shortest.1 x.shortest.2.toNat x.shortest.2
  rw [Int.toNat_of_nonneg he, Int.sub_self, ofDecimal_shortest hf] at hread
  have hpos : 0 < x.shortest.1 * 10 ^ x.shortest.2.toNat :=
    Nat.mul_pos (Nat.pos_of_ne_zero (shortest_ne_zero hf hz)) (Nat.pow_pos (by decide))
  exact ⟨hpos, ofRatio_of_ofDecimal hf hpos.ne' hread⟩

theorem isIntegral_iff (hf : x.isFinite = true) (hz : x.isZero = false) : x.isIntegral = true ↔ 0 ≤ x.shortest.2 := by
  constructor
  · intro hi
    rcases Nat.lt_or_ge x.truncate.natAbs (10 ^ 16) with hlt | hge
    · exact shortest_of_isIntegral hi hlt
    · exact shortest_of_large hi hge
  · intro he
    obtain ⟨hpos, hround⟩ := ofRatio_shortest hf hz he
    rw [← hround] at hf ⊢
    exact (ofRatio_integer hpos hf).1

/-- The number `2 ^ 63` is written as an integer above it. -/
theorem shortest_two_pow (negative : Bool) : (ofRatio negative (2 ^ 63) 1).shortest = (9223372036854776, 3) := by
  cases negative with
  | false => decide +kernel
  | true => decide +kernel

/-- The digits of an integer denote an integer beyond the words just where it is one. -/
theorem shortest_large_iff (hi : x.isIntegral = true) (hz : x.isZero = false) :
    (x.truncate.natAbs < 2 ^ 63 → x.shortest.1 * 10 ^ x.shortest.2.toNat < 2 ^ 63) ∧
      (2 ^ 63 ≤ x.truncate.natAbs → 2 ^ 63 < x.shortest.1 * 10 ^ x.shortest.2.toNat) := by
  have hf := isFinite_of_isIntegral hi
  have hdigits := ofRatio_shortest hf hz ((isIntegral_iff hf hz).mp hi)
  generalize hn : x.shortest.1 * 10 ^ x.shortest.2.toNat = n at hdigits ⊢
  obtain ⟨hpos, hround⟩ := hdigits
  have hbounds := ofRatio_integer hpos (hround ▸ hf)
  rw [hround] at hbounds
  obtain ⟨-, hfrom, hto⟩ := hbounds
  constructor
  · intro hlt
    refine not_le.mp fun hle => ?_
    have hlog : 63 ≤ Nat.log2 n := (Nat.le_log2 hpos.ne').mpr hle
    have hlarge : 2 ^ 63 ≤ 2 ^ Nat.log2 n := Nat.pow_le_pow_right (by decide) hlog
    omega
  · intro hge
    refine not_le.mp fun hle => ?_
    have hx : ofRatio x.negative (2 ^ 63) 1 = x := by
      rcases Nat.lt_or_eq_of_le hle with hlt | heq
      · have hlog : Nat.log2 n < 63 := (Nat.log2_lt hpos.ne').mpr hlt
        have hsmall : 2 ^ (Nat.log2 n + 1) ≤ 2 ^ 63 := Nat.pow_le_pow_right (by decide) hlog
        have htruncate : x.truncate.natAbs = 2 ^ 63 := by omega
        rw [← htruncate, ofRatio_truncate hi hz]
      · rw [← heq, hround]
    have hshortest := shortest_two_pow x.negative
    rw [hx] at hshortest
    rw [hshortest] at hn
    have hn : 9223372036854776 * 10 ^ 3 = n := hn
    omega

end Settings.Number.Binary64
