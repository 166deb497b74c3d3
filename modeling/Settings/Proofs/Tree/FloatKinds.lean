import Settings.Proofs.Binding.IntegerLiterals
import Settings.Proofs.Number.Integral

/-! # Floats that read back as floats

The text of a finite float shows a point, or it denotes an integer that no word holds, unless the float is an integer
from `10 ^ 16` on below `2 ^ 63`. Such a float reads back as an integer, which is rounded to it. Every other leaf of a
tree keeps its kind, and its value too, apart from the floats that have no text of their own. -/

namespace Settings

namespace Number

variable {negative : Bool} {c : Char} {cs : List Char} {k : IntKind} {i : Int} {x : Binary64}

/-- An integer that is too large to be written with a point, and that a word holds. -/
def Binary64.Wordlike (x : Binary64) : Prop :=
  x.isIntegral = true ∧ 10 ^ 16 ≤ x.truncate.natAbs ∧ x.truncate.natAbs < 2 ^ 63

instance : DecidablePred Binary64.Wordlike := fun _ => inferInstanceAs (Decidable (_ ∧ _ ∧ _))

/-- A text that is read as an integer behind its sign has nothing but digits. -/
theorem isDigit_of_readInt (hc : c.isDigit) (hs : k.signed) (h : readInt k (literal negative (c :: cs)) = .ok i) :
    ∀ d ∈ c :: cs, d.isDigit := by
  cases negative with
  | false =>
    have h : readInt k (c :: cs) = .ok i := h
    rw [readInt_cons hc] at h
    obtain ⟨n, hn, -⟩ := ok_of_map h
    exact (of_readDigits hn).1
  | true =>
    have h : readInt k ('-' :: c :: cs) = .ok i := h
    rw [readInt_minus hs (List.cons_ne_nil c cs)] at h
    obtain ⟨n, hn, -⟩ := ok_of_map h
    exact (of_readDigits hn).1

theorem Placed.not_readInt_of_point (h : Placed x cs) (hpoint : '.' ∈ cs) :
    readInt .word (literal negative cs) ≠ .ok i := by
  intro hint
  obtain ⟨c, rest, rfl, hc⟩ := h.head
  exact absurd (isDigit_of_readInt hc rfl hint '.' hpoint) (by decide)

end Number

namespace Tree

open Number (Binary64 literal literalValue IntKind Placed readInt digitsValue)

variable {x : Binary64} {cs : List Char} {t : Tree}

/-! ### Words -/

/-- The text of a number by place stands for an integer just where it is read as one. -/
theorem ofWord_placed_iff (h : Placed x cs) :
    (∃ n, ofWord (String.ofList (literal x.negative cs)) = int n) ↔ ∃ i, readInt .word (literal x.negative cs) = .ok i := by
  obtain ⟨hinteger, hfloat⟩ := ofWord_of_looksNumeric (looksNumeric_placed h)
  constructor
  · rintro ⟨n, hn⟩
    cases hint : readInt .word (literal x.negative cs) with
    | ok i => exact ⟨i, rfl⟩
    | error why => cases hn.symm.trans (hfloat why x hint h.readDecimal)
  · rintro ⟨i, hi⟩
    exact ⟨_, hinteger i hi⟩

theorem readInt_toDigits_iff (negative : Bool) {n : Nat} (hn : n ≠ 2 ^ 63) :
    (∃ i, readInt .word (literal negative (Nat.toDigits 10 n)) = .ok i) ↔ n < 2 ^ 63 := by
  have hdigits : ∀ c ∈ Nat.toDigits 10 n, c.isDigit := fun _ => Nat.isDigit_of_mem_toDigits (by decide) (by decide)
  obtain ⟨hholds, hfails⟩ := Number.readInt_literal negative Nat.toDigits_ne_nil hdigits
  have hword : IntKind.word.holds (literalValue negative (Nat.toDigits 10 n)) ↔ n < 2 ^ 63 := by
    rw [Number.word_holds_iff, literalValue, Number.digitsValue_toDigits]
    split
    · omega
    · omega
  constructor
  · rintro ⟨i, hi⟩
    refine not_le.mp fun hle => ?_
    obtain ⟨why, hwhy⟩ := hfails (mt hword.mp (not_lt.mpr hle))
    cases hi.symm.trans hwhy
  · exact fun hlt => ⟨_, hholds (hword.mpr hlt)⟩

/-- The text of a finite float stands for an integer if and only if the float is one from `10 ^ 16` on that is below
    `2 ^ 63`. -/
theorem ofWord_floatText_int_iff (hf : x.isFinite = true) :
    (∃ n, ofWord (String.ofList (floatText x)) = int n) ↔ x.Wordlike := by
  by_cases hsmall : x.isIntegral = true ∧ x.truncate.natAbs < 10 ^ 16
  · obtain ⟨hi, hlt⟩ := hsmall
    have htext : floatText x = literal x.negative _ := floatText_pointed hi hlt
    have hplaced := Binary64.placed_integral hf hi hlt
    rw [htext, ofWord_placed_iff hplaced]
    constructor
    · rintro ⟨i, h⟩
      exact absurd h (hplaced.not_readInt_of_point (by simp))
    · exact fun h => absurd hlt (not_lt.mpr h.2.1)
  have htext : floatText x = literal x.negative _ := floatText_unpointed hf hsmall
  have hz := isZero_eq_false hf hsmall
  have hplaced := Binary64.placed_plain hf hz
  rw [htext, ofWord_placed_iff hplaced]
  cases hi : x.isIntegral with
  | false =>
    have he : x.shortest.2 < 0 := not_le.mp fun he => by simp [(Binary64.isIntegral_iff hf hz).mpr he] at hi
    obtain ⟨whole, places, hpoint, -⟩ := Binary64.byPlace_of_neg he (Binary64.shortest_ne_zero hf hz)
    constructor
    · rintro ⟨i, h⟩
      exact absurd h (hplaced.not_readInt_of_point (by simp [hpoint]))
    · rintro ⟨h, -⟩
      cases hi.symm.trans h
  | true =>
    have hge : 10 ^ 16 ≤ x.truncate.natAbs := not_lt.mp fun hlt => hsmall ⟨hi, hlt⟩
    have he := (Binary64.isIntegral_iff hf hz).mp hi
    obtain ⟨hbelow, habove⟩ := Binary64.shortest_large_iff hi hz
    have hne : x.shortest.1 * 10 ^ x.shortest.2.toNat ≠ 2 ^ 63 := by
      rcases Nat.lt_or_ge x.truncate.natAbs (2 ^ 63) with hlt | hle
      · exact (hbelow hlt).ne
      · exact (habove hle).ne'
    rw [Binary64.byPlace_of_nonneg he, readInt_toDigits_iff _ hne]
    constructor
    · exact fun h => ⟨hi, hge, not_le.mp fun hle => absurd (habove hle) (by omega)⟩
    · exact fun h => hbelow h.2.2

/-! ### Trees -/

mutual

/-- The tree with `null` for each float that is no finite number. -/
def nulled : Tree → Tree
  | float x => if x.isFinite then float x else null
  | list ts => list (nulledItems ts)
  | map ms => map (nulledMembers ms)
  | t => t

def nulledItems : List Tree → List Tree
  | [] => []
  | t :: ts => t.nulled :: nulledItems ts

def nulledMembers : List (String × Tree) → List (String × Tree)
  | [] => []
  | (k, t) :: ms => (k, t.nulled) :: nulledMembers ms

end

/-- A leaf that is no float of which the text stands for an integer. -/
def KeepsKind (t : Tree) : Prop := ∀ x, t = float x → ¬ x.Wordlike

theorem reread_float_iff (x : Binary64) : (float x).reread = (float x).nulled ↔ ¬ x.Wordlike := by
  rw [reread, nulled]
  cases hf : x.isFinite with
  | false =>
    have hnull : floatText x = ['n', 'u', 'l', 'l'] := by simp [floatText, hf]
    have hword : ¬ x.Wordlike := fun h => by simp [Binary64.isFinite_of_isIntegral h.1] at hf
    rw [hnull]
    exact iff_of_true rfl hword
  | true =>
    rw [if_pos rfl, ← ofWord_floatText_int_iff hf]
    rcases ofWord_floatText hf with h | ⟨n, h, -⟩
    · rw [h]
      simp
    · rw [h]
      simp

mutual

theorem reread_eq_nulled_iff (t : Tree) : t.reread = t.nulled ↔ t.Everywhere KeepsKind := by
  cases t with
  | float x => exact (reread_float_iff x).trans ⟨fun h y hy => by cases hy; exact h, fun h => h x rfl⟩
  | list ts =>
    rw [reread, nulled, list.injEq, rereadItems_eq_nulledItems_iff ts]
    exact (and_iff_right (nofun : KeepsKind (list ts))).symm
  | map ms =>
    rw [reread, nulled, map.injEq, rereadMembers_eq_nulledMembers_iff ms]
    exact (and_iff_right (nofun : KeepsKind (map ms))).symm
  | null | bool b | int n | text s => exact iff_of_true rfl nofun

theorem rereadItems_eq_nulledItems_iff (ts : List Tree) :
    rereadItems ts = nulledItems ts ↔ EverywhereItems KeepsKind ts := by
  cases ts with
  | nil => exact iff_of_true rfl trivial
  | cons t ts =>
    rw [rereadItems, nulledItems, List.cons.injEq, reread_eq_nulled_iff t, rereadItems_eq_nulledItems_iff ts]
    rfl

theorem rereadMembers_eq_nulledMembers_iff (ms : List (String × Tree)) :
    rereadMembers ms = nulledMembers ms ↔ EverywhereMembers KeepsKind ms := by
  cases ms with
  | nil => exact iff_of_true rfl trivial
  | cons m ms =>
    obtain ⟨k, t⟩ := m
    rw [rereadMembers, nulledMembers, List.cons.injEq, Prod.mk.injEq, eq_self, true_and, reread_eq_nulled_iff t,
      rereadMembers_eq_nulledMembers_iff ms]
    rfl

end

/-- A finite float reads back as a float, the same one, if and only if it is no integer from `10 ^ 16` on below `2 ^ 63`;
    one of these reads back as an integer that is rounded to it. A tree reads back as it was, with `null` for each float
    that is no finite number, if and only if none of its leaves is such a float. Only a tree of too many lists and maps in
    each other is not read at all. -/
theorem read_print_floats (layout : Layout) :
    (∀ x : Binary64, x.isFinite = true →
      ¬ x.Wordlike ∧ read ((float x).print layout) = .ok (float x) ∨
        x.Wordlike ∧ ∃ n, read ((float x).print layout) = .ok (int n) ∧ Binary64.ofInt n.toInt = x) ∧
    ∀ t : Tree, t.Distinct →
      t.depth ≤ depthLimit ∧ (read (t.print layout) = .ok t.nulled ↔ t.Everywhere KeepsKind) ∨
        depthLimit < t.depth ∧ ∃ e, read (t.print layout) = .error e := by
  constructor
  · intro x hf
    have hread : read ((float x).print layout) = .ok (ofWord (String.ofList (floatText x))) :=
      read_print_reread layout (nofun : KeysDiffer (float x)) (Nat.zero_le _)
    have hkind := ofWord_floatText_int_iff hf
    rw [hread]
    rcases ofWord_floatText hf with h | ⟨n, h, hround⟩
    · refine .inl ⟨fun hword => ?_, congrArg _ h⟩
      obtain ⟨n, hn⟩ := hkind.mpr hword
      cases h.symm.trans hn
    · exact .inr ⟨hkind.mp ⟨n, h⟩, n, congrArg _ h, hround⟩
  · intro t hdist
    rcases read_print_cases layout hdist with ⟨hdepth, h⟩ | hdeep
    · refine .inl ⟨hdepth, ?_⟩
      rw [h, Except.ok.injEq, reread_eq_nulled_iff]
    · exact .inr hdeep

/-- Minus zero, the least and the greatest finite number, `2 ^ 63`, a number next to `10 ^ 16` below, and infinity. -/
def measures : Tree :=
  map [("a", list [float ⟨0x8000000000000000⟩, float ⟨1⟩, float ⟨0x7FEFFFFFFFFFFFFF⟩]),
    ("b", map [("c", float ⟨0x43E0000000000000⟩), ("d", float ⟨0x4341C37937E07FFF⟩)]), ("e", float ⟨0x7FF0000000000000⟩)]

theorem read_measures :
    read (measures.print .pretty) = .ok (map [
      ("a", list [float ⟨0x8000000000000000⟩, float ⟨1⟩, float ⟨0x7FEFFFFFFFFFFFFF⟩]),
      ("b", map [("c", float ⟨0x43E0000000000000⟩), ("d", float ⟨0x4341C37937E07FFF⟩)]), ("e", null)]) ∧
    ∃ n, read ((float ⟨0xC341C37937E08000⟩).print .compact) = .ok (int n) ∧
      Binary64.ofInt n.toInt = ⟨0xC341C37937E08000⟩ := by
  constructor
  · have hdist : measures.Distinct := by
      simp [measures, Distinct, Everywhere, EverywhereMembers, EverywhereItems, KeysDiffer]
    have hkinds : measures.Everywhere KeepsKind := by
      simp only [measures, Everywhere, EverywhereMembers, EverywhereItems, KeepsKind, reduceCtorEq, false_implies,
        implies_true, float.injEq, forall_eq', true_and, and_true]
      decide +kernel
    rcases (read_print_floats .pretty).2 measures hdist with ⟨-, h⟩ | ⟨hdeep, -⟩
    · exact (h.mpr hkinds).trans rfl
    · exact absurd hdeep (by decide)
  · rcases (read_print_floats .compact).1 ⟨0xC341C37937E08000⟩ (by decide +kernel) with ⟨h, -⟩ | ⟨-, h⟩
    · exact absurd (by decide +kernel) h
    · exact h

/-- `10 ^ 16` is written without a point, and reads back as an integer. -/
theorem read_print_tenToSixteen :
    (⟨0x4341C37937E08000⟩ : Binary64) = .ofInt (10 ^ 16) ∧ (⟨0x4341C37937E08000⟩ : Binary64).isFinite = true ∧
      (float ⟨0x4341C37937E08000⟩).print .compact = "10000000000000000" ∧
        read ((float ⟨0x4341C37937E08000⟩).print .compact) = .ok (int 10000000000000000) ∧
          ∀ x, read ((float ⟨0x4341C37937E08000⟩).print .compact) ≠ .ok (float x) := by
  have hprint : (float ⟨0x4341C37937E08000⟩).print .compact = "10000000000000000" := by decide +kernel
  have hread : read "10000000000000000" = .ok (int 10000000000000000) := by
    have hdigits : ∀ c ∈ "10000000000000000".toList, c.isDigit := List.all_eq_true.mp (by decide)
    rw [show "10000000000000000" = String.ofList (literal false "10000000000000000".toList) from rfl,
      read_literal (by decide) hdigits, if_pos (by decide +kernel)]
    rfl
  rw [hprint, hread]
  exact ⟨by decide +kernel, by decide +kernel, rfl, rfl, nofun⟩

end Tree

end Settings
