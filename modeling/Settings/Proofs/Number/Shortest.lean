import Settings.Number.Decimal
import Settings.Proofs.Number.IntText
import Settings.Proofs.Number.Rounding

/-! # The fewest digits of a number

A decimal stands for the same number however many zeros its digits end in. The fewest digits of a number read back by
the way they are found, and so does the exact decimal that stands behind them. -/

namespace Settings.Number

variable {x : Binary64} {n d k : Nat} {e place : Int} {negative : Bool}

/-! ### Digits -/

theorem toDigits_mul_pow (hn : 0 < n) (k : Nat) :
    Nat.toDigits 10 (n * 10 ^ k) = Nat.toDigits 10 n ++ List.replicate k '0' := by
  induction k with
  | zero => simp
  | succ k ih =>
    have hpos : 0 < n * 10 ^ k := Nat.mul_pos hn (Nat.pow_pos (by decide))
    have happend := Nat.toDigits_append_toDigits (b := 10) (d := 0) (by decide) hpos (by decide)
    have hnext : n * 10 ^ (k + 1) = 10 * (n * 10 ^ k) + 0 := by
      rw [Nat.pow_succ, Nat.add_zero, ← Nat.mul_assoc, Nat.mul_comm]
    rw [hnext, ← happend, ih, List.replicate_succ', Nat.toDigits_zero, List.append_assoc]

/-- The digits of a number do not start with a zero. -/
theorem head_toDigits (hn : 0 < n) : ∃ c cs, Nat.toDigits 10 n = c :: cs ∧ c ≠ '0' := by
  induction n using Nat.strongRecOn with
  | _ n ih =>
    rcases Nat.lt_or_ge n 10 with hlt | hge
    · refine ⟨n.digitChar, [], Nat.toDigits_of_lt_base hlt, ?_⟩
      have hsmall : ∀ m < 10, 0 < m → m.digitChar ≠ '0' := by decide
      exact hsmall n hlt hn
    · obtain ⟨c, cs, hcs, hne⟩ := ih (n / 10) (by omega) (by omega)
      exact ⟨c, cs ++ [(n % 10).digitChar], by rw [Nat.toDigits_of_base_le (by decide) hge, hcs]; rfl, hne⟩

theorem digitsValue_toDigits (n : Nat) : digitsValue (Nat.toDigits 10 n) = n := Nat.ofDigitChars_ten_toDigits

theorem digitsValue_zeros (k : Nat) (cs : List Char) :
    digitsValue (List.replicate k '0' ++ cs) = digitsValue cs := by
  induction k with
  | zero => rfl
  | succ k ih => rwa [List.replicate_succ]

theorem digitsValue_concat_zero (cs : List Char) : digitsValue (cs ++ ['0']) = 10 * digitsValue cs := by
  simp [digitsValue]

namespace Binary64

/-! ### Decimals -/

/-- A digit more and an exponent less are the same decimal. -/
theorem ofDecimal_shift (negative : Bool) (d : Nat) (e : Int) :
    ofDecimal negative (10 * d) (e - 1) = ofDecimal negative d e := by
  by_cases hd : d = 0
  · subst hd
    rfl
  have hpos : 0 < d := Nat.pos_of_ne_zero hd
  have hplaces : ((Nat.toDigits 10 (10 * d)).length : Int) + (e - 1) = (Nat.toDigits 10 d).length + e := by
    have hdigits := toDigits_mul_pow hpos 1
    rw [Nat.pow_one, Nat.mul_comm] at hdigits
    rw [hdigits]
    simp only [List.length_append, List.length_replicate]
    omega
  have hratio : (if 0 ≤ e - 1 then ofRatio negative (10 * d * tenTo (e - 1).toNat) 1
      else ofRatio negative (10 * d) (tenTo (-(e - 1)).toNat)) =
        if 0 ≤ e then ofRatio negative (d * tenTo e.toNat) 1 else ofRatio negative d (tenTo (-e).toNat) := by
    rcases lt_trichotomy e 0 with he | rfl | he
    · obtain ⟨k, rfl⟩ : ∃ k : Nat, e = -k := ⟨(-e).toNat, by omega⟩
      have hshift : (-(-(k : Int) - 1)).toNat = k + 1 := by omega
      have hsame : (- -(k : Int)).toNat = k := by omega
      rw [if_neg (by omega), if_neg (by omega), hshift, hsame, tenTo_eq, tenTo_eq, Nat.pow_succ, Nat.mul_comm _ 10]
      exact ofRatio_mul_mul (by decide) (Nat.pow_pos (by decide)) negative d
    · have hten := ofRatio_mul_mul (k := 10) (by decide) (by decide : 0 < 1) negative d
      simpa using hten
    · obtain ⟨k, rfl⟩ : ∃ k : Nat, e = k + 1 := ⟨(e - 1).toNat, by omega⟩
      have hshift : ((k : Int) + 1 - 1).toNat = k := by omega
      have hsame : ((k : Int) + 1).toNat = k + 1 := by omega
      rw [if_pos (by omega), if_pos (by omega), hshift, hsame, tenTo_eq, tenTo_eq, Nat.pow_succ]
      congr 1
      rw [Nat.mul_comm 10 d, Nat.mul_assoc, Nat.mul_comm 10]
  simp only [ofDecimal, hplaces, hratio, hd, Nat.mul_eq_zero, OfNat.ofNat_ne_zero, false_or]

theorem ofDecimal_mul_pow (negative : Bool) (d k : Nat) (e : Int) :
    ofDecimal negative (d * 10 ^ k) (e - k) = ofDecimal negative d e := by
  induction k generalizing e with
  | zero => simp
  | succ k ih =>
    have hdigits : d * 10 ^ (k + 1) = 10 * (d * 10 ^ k) := by rw [Nat.pow_succ, ← Nat.mul_assoc, Nat.mul_comm]
    have hexponent : e - ((k + 1 : Nat) : Int) = e - k - 1 := by omega
    rw [hdigits, hexponent, ofDecimal_shift, ih]

/-- In the range of the format a decimal is rounded as the ratio that it is. -/
theorem ofDecimal_of_range (hd : d ≠ 0) (hlow : -330 ≤ (Nat.toDigits 10 d).length + e)
    (hhigh : (Nat.toDigits 10 d).length + e ≤ 310) :
    ofDecimal negative d e =
      if 0 ≤ e then ofRatio negative (d * tenTo e.toNat) 1 else ofRatio negative d (tenTo (-e).toNat) := by
  simp only [ofDecimal, if_neg hd, if_neg (not_lt.mpr hhigh), if_neg (not_lt.mpr hlow)]

theorem isFinite_infinity (negative : Bool) : (infinity negative).isFinite = false := by
  cases negative with
  | false => decide
  | true => decide

/-- An integer that is read as a finite number is rounded to it. -/
theorem ofRatio_of_ofDecimal (hf : x.isFinite = true) (hd : d ≠ 0) (h : ofDecimal negative d 0 = x) :
    ofRatio negative d 1 = x := by
  have hhigh : ((Nat.toDigits 10 d).length : Int) + 0 ≤ 310 := by
    refine not_lt.mp fun hlt => ?_
    simp only [ofDecimal, if_neg hd, if_pos hlt] at h
    rw [← h, isFinite_infinity] at hf
    cases hf
  rw [ofDecimal_of_range hd (by omega) hhigh] at h
  simpa using h

/-! ### The fewest digits -/

theorem eq_of_onGrid? (h : onGrid? x place = some (d, e)) : ofDecimal x.negative d e = x ∧ e = place := by
  obtain ⟨found, hfound, heq⟩ := Option.map_eq_some_iff.mp h
  cases heq
  exact ⟨by simpa using List.find?_some hfound, rfl⟩

theorem eq_of_firstGrid? {count : Nat} (h : firstGrid? x place count = some (d, e)) : ofDecimal x.negative d e = x := by
  induction count generalizing place with
  | zero => cases h
  | succ count ih =>
    unfold firstGrid? at h
    split at h
    · next found hfound =>
      cases h
      exact (eq_of_onGrid? hfound).1
    · exact ih h

/-- A grid on which a neighbour reads back is not passed. -/
theorem firstGrid?_of_onGrid? {count : Nat} (hgrid : (onGrid? x place).isSome) (hlow : place ≤ e)
    (hcount : e < place + count) : ∃ d e', firstGrid? x e count = some (d, e') ∧ place ≤ e' := by
  induction count generalizing e with
  | zero => omega
  | succ count ih =>
    unfold firstGrid?
    cases hfound : onGrid? x e with
    | some found =>
      obtain ⟨d, e'⟩ := found
      exact ⟨d, e', rfl, (eq_of_onGrid? hfound).2 ▸ hlow⟩
    | none =>
      have hne : e ≠ place := fun he => by simp [← he, hfound] at hgrid
      exact ih (by omega) (by omega)

theorem five_pow_mul_two_pow (k : Nat) : 5 ^ k * 2 ^ k = 10 ^ k := by rw [← Nat.mul_pow]

theorem lt_pow_length_toDigits (n : Nat) : n < 10 ^ (Nat.toDigits 10 n).length :=
  (Nat.length_toDigits_le_iff (by decide) Nat.length_toDigits_pos).mp (Nat.le_refl _)

theorem lt_length_toDigits_add {m : Nat} (h : 10 ^ k ≤ n * 10 ^ m) : k < (Nat.toDigits 10 n).length + m := by
  refine (Nat.pow_lt_pow_iff_right (a := 10) (by decide)).mp ?_
  calc 10 ^ k ≤ n * 10 ^ m := h
    _ < 10 ^ (Nat.toDigits 10 n).length * 10 ^ m :=
        Nat.mul_lt_mul_of_pos_right (lt_pow_length_toDigits n) (Nat.pow_pos (by decide))
    _ = 10 ^ ((Nat.toDigits 10 n).length + m) := (Nat.pow_add ..).symm

/-- The exact decimal of a number reads back. -/
theorem ofDecimal_exactDecimal (hf : x.isFinite = true) (hz : x.isZero = false) :
    ofDecimal x.negative x.exactDecimal.1 x.exactDecimal.2 = x := by
  have hratio := ofRatio_ratio hf hz
  obtain ⟨hpos, hlt, hleast, hbeyond, -⟩ := has_significand hf hz
  have hsignificand : x.significand < 2 ^ 53 := hlt
  have hleast : -1074 ≤ x.exponent := hleast
  have hbeyond : x.exponent < 972 := hbeyond
  unfold exactDecimal
  unfold ratio at hratio
  split
  · next he =>
    rw [if_pos he] at hratio
    have hne : x.significand * twoTo x.exponent.toNat ≠ 0 := (Nat.mul_pos hpos (Nat.two_pow_pos _)).ne'
    have hbound : x.significand * twoTo x.exponent.toNat < 10 ^ 310 := by
      calc x.significand * 2 ^ x.exponent.toNat
          ≤ 2 ^ 53 * 2 ^ 972 := Nat.mul_le_mul hsignificand.le (Nat.pow_le_pow_right (by decide) (by omega))
        _ < 10 ^ 310 := by decide +kernel
    have hlength := (Nat.length_toDigits_le_iff (by decide) (by decide)).mpr hbound
    rw [ofDecimal_of_range hne (by omega) (by omega)]
    simpa using hratio
  · next he =>
    rw [if_neg he] at hratio
    obtain ⟨k, hk⟩ : ∃ k : Nat, x.exponent = -k := ⟨(-x.exponent).toNat, by omega⟩
    have hsame : (- -(k : Int)).toNat = k := by omega
    rw [hk, hsame] at hratio ⊢
    have hk1 : 0 < k := by omega
    have hne : x.significand * Nat.pow 5 k ≠ 0 := (Nat.mul_pos hpos (Nat.pow_pos (by decide))).ne'
    -- at most 17 digits stand before the point, and at most 330 zeros behind it
    have hhigh : (Nat.toDigits 10 (x.significand * 5 ^ k)).length ≤ k + 16 := by
      refine (Nat.length_toDigits_le_iff (by decide) (by omega)).mpr ?_
      calc x.significand * 5 ^ k < 2 ^ 53 * 5 ^ k := Nat.mul_lt_mul_of_pos_right hsignificand (Nat.pow_pos (by decide))
        _ ≤ 10 ^ 16 * 10 ^ k := Nat.mul_le_mul (by decide) (Nat.pow_le_pow_left (by decide) k)
        _ = 10 ^ (k + 16) := by rw [← Nat.pow_add, Nat.add_comm]
    have hlow : k < (Nat.toDigits 10 (x.significand * 5 ^ k)).length + 330 := by
      refine lt_length_toDigits_add ?_
      have hten : 2 ^ k ≤ 10 ^ 330 := by
        calc 2 ^ k ≤ 2 ^ 1074 := Nat.pow_le_pow_right (by decide) (by omega)
          _ ≤ 10 ^ 330 := by decide +kernel
      rw [← five_pow_mul_two_pow k]
      exact Nat.mul_le_mul (Nat.le_mul_of_pos_left _ hpos) hten
    have hpow : Nat.pow 5 k = 5 ^ k := rfl
    rw [hpow] at hne ⊢
    rw [ofDecimal_of_range hne (by omega) (by omega), if_neg (by omega), hsame, tenTo_eq, ← five_pow_mul_two_pow,
      Nat.mul_comm x.significand, ofRatio_mul_mul (Nat.pow_pos (by decide)) (Nat.two_pow_pos k)]
    exact hratio

/-- The fewest digits of a finite number read back. -/
theorem ofDecimal_shortest (hf : x.isFinite = true) : ofDecimal x.negative x.shortest.1 x.shortest.2 = x := by
  unfold shortest
  split
  · next hz => exact ofParts_zero hz
  · next hz =>
    have hback : ∀ found : Nat × Int, ofDecimal x.negative found.1 found.2 = x →
        ofDecimal x.negative (if found.1 = 10 then (1, found.2 + 1) else found).1
          (if found.1 = 10 then (1, found.2 + 1) else found).2 = x := by
      rintro ⟨d, e⟩ hfound
      split
      · next hten =>
        have hshift := ofDecimal_shift x.negative 1 (e + 1)
        rw [add_sub_cancel_right] at hshift
        obtain rfl : d = 10 := hten
        exact hshift.symm.trans hfound
      · exact hfound
    cases hgrid : firstGrid? x (leadingPlace x.ratio.1 x.ratio.2) 17 with
    | some found => exact hback found (eq_of_firstGrid? hgrid)
    | none => exact hback x.exactDecimal (ofDecimal_exactDecimal hf (by simpa using hz))

/-! ### Integers -/

theorem natAbs_truncate (x : Binary64) : x.truncate.natAbs = x.ratio.1 / x.ratio.2 := by
  rw [truncate]
  split
  · rw [Int.natAbs_neg, Int.natAbs_natCast]
  · exact Int.natAbs_natCast _

theorem isFinite_of_isIntegral (hi : x.isIntegral = true) : x.isFinite = true := (Bool.and_eq_true_iff.mp hi).1

theorem ratio_of_isIntegral (hi : x.isIntegral = true) : x.ratio.1 = x.ratio.2 * x.truncate.natAbs := by
  have hmod : x.ratio.1 % x.ratio.2 = 0 := by simpa using (Bool.and_eq_true_iff.mp hi).2
  rw [natAbs_truncate, Nat.mul_div_cancel' (Nat.dvd_of_mod_eq_zero hmod)]

theorem truncate_pos (hi : x.isIntegral = true) (hz : x.isZero = false) : 0 < x.truncate.natAbs := by
  have hnum := (ratio_pos hz).1
  rw [ratio_of_isIntegral hi] at hnum
  exact Nat.pos_of_mul_pos_left hnum

theorem ofRatio_truncate (hi : x.isIntegral = true) (hz : x.isZero = false) :
    ofRatio x.negative x.truncate.natAbs 1 = x := by
  have hden := (ratio_pos hz).2
  have hscale := ofRatio_mul_mul hden Nat.one_pos x.negative x.truncate.natAbs
  rw [← ratio_of_isIntegral hi, Nat.mul_one] at hscale
  rw [← hscale, ofRatio_ratio (isFinite_of_isIntegral hi) hz]

theorem leadingPlace_of_isIntegral (hi : x.isIntegral = true) (hz : x.isZero = false) :
    leadingPlace x.ratio.1 x.ratio.2 = (Nat.toDigits 10 x.truncate.natAbs).length - 1 := by
  have hscaled : x.ratio.1 * tenTo 324 / x.ratio.2 = x.truncate.natAbs * 10 ^ 324 := by
    rw [ratio_of_isIntegral hi, Nat.mul_assoc, Nat.mul_div_cancel_left _ (ratio_pos hz).2, tenTo_eq]
  rw [leadingPlace, hscaled, toDigits_mul_pow (truncate_pos hi hz)]
  simp only [List.length_append, List.length_replicate]
  omega

/-- An integer below `10 ^ 16` is on the grid of the integers. -/
theorem shortest_of_isIntegral (hi : x.isIntegral = true) (hlt : x.truncate.natAbs < 10 ^ 16) :
    0 ≤ x.shortest.2 := by
  unfold shortest
  split
  · exact le_refl _
  · next hz =>
    have hz : x.isZero = false := by simpa using hz
    have hpos := truncate_pos hi hz
    have hlength : 0 < (Nat.toDigits 10 x.truncate.natAbs).length := Nat.length_toDigits_pos
    have hlength' : (Nat.toDigits 10 x.truncate.natAbs).length ≤ 16 :=
      (Nat.length_toDigits_le_iff (by decide) (by decide)).mpr hlt
    have hread : ofDecimal x.negative x.truncate.natAbs 0 = x := by
      rw [ofDecimal_of_range hpos.ne' (by omega) (by omega)]
      simpa using ofRatio_truncate hi hz
    have hgrid : (onGrid? x 0).isSome := by
      have hcell : grid x.ratio.1 x.ratio.2 0 = (x.truncate.natAbs, false) := by
        have hden := (ratio_pos hz).2
        simp [grid, ratio_of_isIntegral hi, hden.ne']
      simp [onGrid?, hcell, hread]
    have hplace := leadingPlace_of_isIntegral hi hz
    obtain ⟨d, e, hfound, he⟩ : ∃ d e, firstGrid? x (leadingPlace x.ratio.1 x.ratio.2) 17 = some (d, e) ∧ 0 ≤ e :=
      firstGrid?_of_onGrid? hgrid (by omega) (by omega)
    rw [hfound]
    simp only [Option.getD_some]
    split
    · show 0 ≤ e + 1
      omega
    · exact he

end Binary64

end Settings.Number
