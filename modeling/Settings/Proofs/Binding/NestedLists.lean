import Settings.Proofs.Binding.Containers
import Settings.Proofs.Text.Spacing

/-! # Lists in lists

A shape of lists reads its text as it reads the texts of the items: if each item comes back whatever white space stands
around its commas and brackets, then so does the list. So lists of integers come back, and lists of these. -/

namespace Settings

open Text (Spaced Padded Contained element)

namespace Number

/-! ### The characters of integers -/

theorem not_isWhite_of_isDigit {c : Char} (h : c.isDigit) : Text.isWhite c = false := by
  simp only [Char.isDigit, Bool.and_eq_true, decide_eq_true_eq] at h
  have hlow : 48 ≤ c.toNat := UInt32.le_iff_toNat_le.mp h.1
  have hhigh : c.toNat ≤ 57 := UInt32.le_iff_toNat_le.mp h.2
  cases hwhite : Text.isWhite c with
  | false => rfl
  | true =>
    simp only [Text.isWhite, Bool.or_eq_true, Bool.and_eq_true, decide_eq_true_eq, beq_iff_eq] at hwhite
    omega

/-- Integers are written without marks of lists, quotes and white space. -/
theorem intText_plain {i : Int} {c : Char} (hc : c ∈ intText i) :
    Text.isWhite c = false ∧ ∀ d ∈ [',', '[', ']', '{', '}', '"', '\''], c ≠ d := by
  rcases mem_intText hc with rfl | hdigit
  · refine ⟨rfl, fun d hd => ?_⟩
    rintro rfl
    exact absurd hd (by decide)
  · have hmarks : ∀ d ∈ [',', '[', ']', '{', '}', '"', '\''], (!d.isDigit) = true := List.all_eq_true.mp (by decide)
    refine ⟨not_isWhite_of_isDigit hdigit, fun d hd => ?_⟩
    rintro rfl
    simpa [hdigit] using hmarks c hd

theorem intText_not_mem (i : Int) : ∀ d ∈ [',', '[', ']', '{', '}', '"', '\''], d ∉ intText i :=
  fun d hd hmem => (intText_plain hmem).2 d hd rfl

theorem trim_intText (i : Int) : Text.trim (intText i) = intText i := by
  have hplain : ∀ {o : Option Char}, (∀ c ∈ o, c ∈ intText i) → o.any Text.isWhite = false := by
    intro o ho
    cases o with
    | none => rfl
    | some c => exact (intText_plain (ho c rfl)).1
  exact Text.trim_eq (hplain fun _ hc => List.mem_of_head? hc) (hplain fun _ hc => List.mem_of_getLast? hc)

end Number

namespace Shape

variable {s : Shape} {cs t : List Char} {d : Datum}

/-! ### Values from texts with white space in them -/

/-- A shape reads a value from each text that is this one with white space around it, and around its commas and
    brackets, and the text may be an item of a list. -/
structure ReadsSpaced (s : Shape) (cs : List Char) (d : Datum) : Prop where
  contained : ∀ t, Spaced cs t → Contained t
  read : ∀ t u, Spaced cs t → Text.trim u = Text.trim t → s.read (.text (String.ofList u)) = .of d

theorem contained_intText (i : Int) : Contained (Number.intText i) where
  kept := Text.opened_of_not_mem fun d hd => Number.intText_not_mem i d (List.mem_append_left ['"', '\''] hd)
  closed := Text.unclosed?_of_not_mem (Number.intText_not_mem i _ (by decide)) (Number.intText_not_mem i _ (by decide))
  begins := by
    obtain ⟨c, cs, hcs⟩ := List.exists_cons_of_ne_nil (Number.intText_ne_nil (i := i))
    obtain ⟨hwhite, hne⟩ := Number.intText_plain (hcs ▸ List.mem_cons_self : c ∈ Number.intText i)
    exact ⟨[], c, cs, List.forall_mem_nil _, hwhite, ⟨hne _ (by decide), hne _ (by decide)⟩, hcs⟩

theorem readsSpaced_int32 (n : Int32) : ReadsSpaced Sample.i32 (Number.intText n.toInt) (Datum.ofInt32 n) := by
  have hplain : ∀ t, Spaced (Number.intText n.toInt) t → t = Number.intText n.toInt := fun t ht =>
    ht.eq_of_plain fun d hd => Number.intText_not_mem _ d (List.mem_append_left ['{', '}', '"', '\''] hd)
  refine ⟨fun t ht => hplain t ht ▸ contained_intText _, fun t u ht hu => ?_⟩
  rw [hplain t ht] at hu
  have helement : element u = Number.intText n.toInt := by
    rw [Text.element_congr hu, (contained_intText n.toInt).element_eq, Number.trim_intText]
  have hread : (Tree.text (String.ofList u)).asInt ⟨true, 32⟩ = .ok n.toInt := by
    rw [Tree.asInt, String.toList_ofList, helement, Number.readInt_intText (holds_int32 n).1]
  rw [Sample.i32, Shape.read, if_neg (by decide), hread]
  rfl

section Items
variable {α : Type} {items : List α} {f : α → List Char} {g : α → Datum}

theorem each_spaced {texts : List (List Char)} (h : ∀ a ∈ items, ReadsSpaced s (f a) (g a))
    (htexts : List.Forall₂ Padded (items.map f) texts) (i : Nat) :
    each s.read i ((texts.map element).map fun t => .text (String.ofList t)) = .of (items.map g) := by
  induction items generalizing texts i with
  | nil =>
    cases htexts
    rfl
  | cons a items ih =>
    obtain ⟨ha, hitems⟩ := List.forall_mem_cons.mp h
    obtain ⟨t, texts, hpadded, hrest, rfl⟩ := List.forall₂_cons_left_iff.mp htexts
    have hread : s.read (.text (String.ofList (element t))) = .of (g a) := by
      have helement := (hpadded.contained ha.contained).element_eq
      obtain ⟨front, spaced, back, hfront, hspaced, hback, rfl⟩ := hpadded
      refine ha.read spaced _ hspaced ?_
      rw [helement, Text.trim_trim, Text.trim_padded hfront hback]
    rw [List.map_cons, List.map_cons, each, hread, Fit.below_of, Fit.of_andThen, ih hitems hrest, Fit.map_of,
      List.map_cons]

/-- A list is read from its text item by item. -/
theorem ReadsSpaced.list (h : ∀ a ∈ items, ReadsSpaced s (f a) (g a)) :
    ReadsSpaced (.list s) ('[' :: [','].intercalate (items.map f) ++ [']']) (.list (items.map g)) where
  contained t ht := (Text.splitList_spaced (List.forall_mem_map.mpr fun a ha => (h a ha).contained) ht).1
  read t u ht hu := by
    obtain ⟨-, texts, htexts, hsplit⟩ :=
      Text.splitList_spaced (List.forall_mem_map.mpr fun a ha => (h a ha).contained) ht
    have hu : Text.splitList (String.ofList u) = (texts.map element).map String.ofList := by
      rw [← Text.splitList_trim, hu, Text.splitList_trim, hsplit]
    rw [Shape.read, Tree.asItems, plain_of, Fit.of_andThen, hu, List.map_map]
    exact congrArg (Fit.map Datum.list) (each_spaced h htexts 0)

end Items

/-! ### Rows of integers -/

/-- The compact text of rows of integers. -/
def rowsText (rows : List (List Int32)) : List Char :=
  '[' :: [','].intercalate
    (rows.map fun row => '[' :: [','].intercalate (row.map fun n => Number.intText n.toInt) ++ [']']) ++ [']']

theorem marshal_rows (rows : List (List Int32)) :
    (Datum.ofRows rows).marshal .compact = .ok (String.ofList (rowsText rows)) := by
  have hrow (row : List Int32) := Carries.list fun n (_ : n ∈ row) => carries_int32 n
  have hrows := Carries.list fun row (_ : row ∈ rows) => hrow row
  have hint : ∀ (n : Int32) level, (Tree.int (Int64.ofInt n.toInt)).write .compact level = Number.intText n.toInt := by
    intro n level
    rw [Tree.write, Number.toInt_ofInt (holds_int32 n).2]
  have htree : (Datum.ofRows rows).toTree = .ok _ := hrows.toTree
  rw [Datum.marshal, htree]
  simp only [Tree.print, Tree.write_compact_list, List.map_map, Function.comp_def, hint, rowsText]

/-- Rows of integers come back from their compact text, whatever white space is put around its commas and brackets. -/
theorem convert_rows (rows : List (List Int32)) :
    ∃ compact, (Datum.ofRows rows).marshal .compact = .ok compact ∧
      ∀ raw : String, Spaced compact.toList raw.toList → (list (list Sample.i32)).convert raw = .ok (Datum.ofRows rows) := by
  refine ⟨_, marshal_rows rows, fun raw hraw => ?_⟩
  rw [String.toList_ofList] at hraw
  have hread : (list (list Sample.i32)).read (.text raw) = .of (Datum.ofRows rows) := by
    have hrows := ReadsSpaced.list fun row (_ : row ∈ rows) => ReadsSpaced.list fun n (_ : n ∈ row) => readsSpaced_int32 n
    have hback := hrows.read raw.toList raw.toList hraw rfl
    rwa [String.ofList_toList] at hback
  rw [convert, hread]
  rfl

/-- A negative integer, a row that is empty, and white space of several kinds. -/
theorem convert_rows_spaced :
    (Datum.ofRows [[-1], []]).marshal .compact = .ok "[[-1],[]]" ∧
      Spaced "[[-1],[]]".toList " [[-1\n], [ ] ]".toList ∧
      (list (list Sample.i32)).convert " [[-1\n], [ ] ]" = .ok (Datum.ofRows [[-1], []]) := by
  have hmarshal : (Datum.ofRows [[-1], []]).marshal .compact = .ok "[[-1],[]]" := by
    rw [marshal_rows]
    decide
  have hspace : ∀ c ∈ [' '], Text.isWhite c := List.all_eq_true.mp (by decide)
  have hfeed : ∀ c ∈ ['\n'], Text.isWhite c := List.all_eq_true.mp (by decide)
  have hnone : ∀ c ∈ ([] : List Char), Text.isWhite c := List.forall_mem_nil _
  have hspaced : Spaced "[[-1],[]]".toList " [[-1\n], [ ] ]".toList := by
    refine @Spaced.mark '[' _ _ [' '] [] (by decide) hspace hnone ?_
    refine .char '[' (.char '-' (.char '1' ?_))
    refine @Spaced.mark ']' _ _ ['\n'] [] (by decide) hfeed hnone ?_
    refine @Spaced.mark ',' _ _ [] [' '] (by decide) hnone hspace ?_
    refine @Spaced.mark '[' _ _ [] [' '] (by decide) hnone hspace ?_
    refine .char ']' ?_
    exact @Spaced.mark ']' _ _ [' '] [] (by decide) hspace hnone .nil
  obtain ⟨compact, hcompact, hconvert⟩ := convert_rows [[-1], []]
  rw [hmarshal] at hcompact
  cases hcompact
  exact ⟨hmarshal, hspaced, hconvert _ hspaced⟩

end Shape

end Settings
