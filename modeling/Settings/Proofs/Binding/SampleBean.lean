import Settings.Proofs.Shape.Carrying
import Settings.Proofs.Text.Elements
import Settings.Shape.Sample

/-! # The sample record and its text

A value of the sample record comes back out of its text with each of its texts taken out of its quotes, so it comes
back as it was just where none of them is in quotes. -/

namespace Settings

open Number (Binary64)
open Shape (Carries Field)

/-- A value of the record `NestedBean`. -/
@[ext]
structure NestedBean where
  name : String
  cost : UInt32
  deriving DecidableEq, Repr

/-- A value of the record `SampleBean`. -/
structure SampleBean where
  name : String
  cost : UInt32
  threshold : Binary64
  active : Bool
  langs : List String
  nested : Option NestedBean
  deriving DecidableEq, Repr

namespace NestedBean

def toDatum (b : NestedBean) : Datum := .record [("name", .text b.name), ("cost", .int ⟨false, 32⟩ b.cost.toNat)]

def optional : Option NestedBean → Datum
  | none => .none
  | some b => .some b.toDatum

/-- The record with its text taken out of its quotes. -/
def unquoted (b : NestedBean) : NestedBean := { b with name := Text.unquoted b.name }

end NestedBean

namespace SampleBean

def toDatum (b : SampleBean) : Datum :=
  .record
    [("name", .text b.name), ("cost", .int ⟨false, 32⟩ b.cost.toNat), ("threshold", .float b.threshold),
     ("active", .bool b.active), ("langs", .list (b.langs.map .text)), ("nested", NestedBean.optional b.nested)]

/-- The record with each of its texts taken out of its quotes. -/
def unquoted (b : SampleBean) : SampleBean :=
  { b with
    name := Text.unquoted b.name
    langs := b.langs.map Text.unquoted
    nested := b.nested.map NestedBean.unquoted }

/-- The texts in a record. -/
def texts (b : SampleBean) : List String := b.name :: b.langs ++ (b.nested.map NestedBean.name).toList

end SampleBean

/-! ### There and back -/

def nameField (name : String) : Field := ⟨"name", .text, .text name, .text name, .text (Text.unquoted name)⟩

def costField (cost : UInt32) : Field :=
  ⟨"cost", Shape.Sample.u32, .int ⟨false, 32⟩ cost.toNat, .int (Int64.ofInt cost.toNat), .int ⟨false, 32⟩ cost.toNat⟩

theorem carries_cost (cost : UInt32) :
    Carries Shape.Sample.u32 (.int ⟨false, 32⟩ cost.toNat) 0 (.int (Int64.ofInt cost.toNat))
      (.int ⟨false, 32⟩ cost.toNat) :=
  Shape.carries_natural (by decide) cost.toNat_lt

namespace NestedBean

def fields (b : NestedBean) : List Field := [nameField b.name, costField b.cost]

theorem carries (b : NestedBean) : ∃ ms, Carries Shape.Sample.nestedBean b.toDatum 1 (.map ms) b.unquoted.toDatum := by
  refine ⟨_, Carries.record b.fields (by simp [fields, nameField, costField]) ?_ ?_⟩
  · simp only [fields, List.forall_mem_cons]
    exact ⟨Shape.carries_text b.name, carries_cost b.cost, List.forall_mem_nil _⟩
  · simp only [fields, List.forall_mem_cons]
    refine ⟨fun hnull => ?_, fun hnull => ?_, List.forall_mem_nil _⟩
    all_goals cases hnull

theorem carries_optional (nested : Option NestedBean) :
    ∃ t, Carries (.option Shape.Sample.nestedBean) (optional nested) 1 t (optional (nested.map unquoted)) := by
  cases nested with
  | none => exact ⟨.null, (Shape.carries_none _).mono (by decide)⟩
  | some b =>
    obtain ⟨ms, hms⟩ := b.carries
    exact ⟨.map ms, hms.some rfl⟩

theorem optional_inj {nested nested' : Option NestedBean} (h : optional nested = optional nested') :
    nested = nested' := by
  cases nested with
  | none =>
    cases nested' with
    | none => rfl
    | some b' => cases h
  | some b =>
    cases nested' with
    | none => cases h
    | some b' =>
      obtain ⟨name, cost⟩ := b
      obtain ⟨name', cost'⟩ := b'
      simp only [optional, toDatum, Datum.some.injEq, Datum.record.injEq, List.cons.injEq, Prod.mk.injEq,
        Datum.text.injEq, Datum.int.injEq, true_and, and_true] at h
      obtain ⟨rfl, hcost⟩ := h
      obtain rfl : cost = cost' := UInt32.toNat_inj.mp (Int.natCast_inj.mp hcost)
      rfl

end NestedBean

namespace SampleBean

variable {b : SampleBean}

def fields (b : SampleBean) (nested : Tree) : List Field :=
  [nameField b.name, costField b.cost,
   ⟨"threshold", .float, .float b.threshold, .float b.threshold, .float b.threshold⟩,
   ⟨"active", .bool, .bool b.active, .bool b.active, .bool b.active⟩,
   ⟨"langs", .list .text, .list (b.langs.map .text), .list (b.langs.map .text),
    .list ((b.langs.map Text.unquoted).map .text)⟩,
   ⟨"nested", .option Shape.Sample.nestedBean, NestedBean.optional b.nested, nested,
    NestedBean.optional (b.nested.map NestedBean.unquoted)⟩]

theorem carries (hf : b.threshold.isFinite = true) :
    ∃ t, Carries Shape.Sample.sampleBean b.toDatum 2 t b.unquoted.toDatum := by
  obtain ⟨nested, hnested⟩ := NestedBean.carries_optional b.nested
  have hlangs : Carries (.list .text) (.list (b.langs.map .text)) 1 (.list (b.langs.map .text))
      (.list ((b.langs.map Text.unquoted).map .text)) := by
    rw [List.map_map]
    exact Carries.list fun s _ => Shape.carries_text s
  refine ⟨_, Carries.record (b.fields nested) (by simp [fields, nameField, costField]) ?_ ?_⟩
  · simp only [fields, List.forall_mem_cons]
    refine ⟨(Shape.carries_text b.name).mono (by decide), (carries_cost b.cost).mono (by decide), ?_⟩
    refine ⟨(Shape.carries_float hf).mono (by decide), (Shape.carries_bool b.active).mono (by decide), hlangs, ?_⟩
    exact ⟨hnested, List.forall_mem_nil _⟩
  · simp only [fields, List.forall_mem_cons]
    refine ⟨fun hnull => ?_, fun hnull => ?_, fun hnull => ?_, fun hnull => ?_, fun hnull => ?_, fun _ => ⟨_, rfl⟩,
      List.forall_mem_nil _⟩
    all_goals cases hnull

/-! ### Texts in quotes -/

theorem toDatum_inj {b b' : SampleBean} (h : b.toDatum = b'.toDatum) : b = b' := by
  obtain ⟨name, cost, threshold, active, langs, nested⟩ := b
  obtain ⟨name', cost', threshold', active', langs', nested'⟩ := b'
  simp only [toDatum, Datum.record.injEq, List.cons.injEq, Prod.mk.injEq, Datum.text.injEq, Datum.int.injEq,
    Datum.float.injEq, Datum.bool.injEq, Datum.list.injEq, true_and, and_true] at h
  obtain ⟨rfl, hcost, rfl, rfl, hlangs, hnested⟩ := h
  obtain rfl : cost = cost' := UInt32.toNat_inj.mp (Int.natCast_inj.mp hcost)
  obtain rfl : langs = langs' := List.map_injective_iff.mpr (fun _ _ => Datum.text.inj) hlangs
  rw [NestedBean.optional_inj hnested]

theorem unquoted_eq_iff : b.unquoted = b ↔ ∀ s ∈ b.texts, ¬ Text.Quoted s.toList := by
  obtain ⟨name, cost, threshold, active, langs, nested⟩ := b
  have hlangs : langs.map Text.unquoted = langs ↔ ∀ s ∈ langs, ¬ Text.Quoted s.toList := by
    induction langs with
    | nil => simp
    | cons s langs ih => rw [List.map_cons, List.cons.injEq, List.forall_mem_cons, Text.unquoted_eq_iff, ih]
  have hnested : nested.map NestedBean.unquoted = nested ↔
      ∀ s ∈ (nested.map NestedBean.name).toList, ¬ Text.Quoted s.toList := by
    cases nested with
    | none => simp
    | some b => simp [NestedBean.unquoted, NestedBean.ext_iff, Text.unquoted_eq_iff]
  simp only [unquoted, texts, SampleBean.mk.injEq, true_and, Text.unquoted_eq_iff, hlangs, hnested, List.cons_append,
    List.forall_mem_cons, List.forall_mem_append]

/-- A record comes back out of its text, in either layout, with each of its texts taken out of its quotes; so it
    comes back as it was just where none of them is in quotes. -/
theorem unmarshal_marshal (hf : b.threshold.isFinite = true) (layout : Layout) :
    ∃ text, b.toDatum.marshal layout = .ok text ∧
      (Shape.Sample.sampleBean.unmarshal text).result = .ok b.unquoted.toDatum ∧
      ((Shape.Sample.sampleBean.unmarshal text).result = .ok b.toDatum ↔ ∀ s ∈ b.texts, ¬ Text.Quoted s.toList) := by
  obtain ⟨t, ht⟩ := carries hf
  obtain ⟨text, htext, hback⟩ := ht.reads_back (by decide) layout
  refine ⟨text, htext, ?_, ?_⟩
  · rw [hback]
    rfl
  · rw [hback, ← unquoted_eq_iff]
    constructor
    · intro h
      exact toDatum_inj (Except.ok.inj h)
    · intro h
      rw [h]
      rfl

/-- Quotes inside of a text are kept, and so are a single one at its start and the text `null`. -/
theorem unmarshal_marshal_plain :
    ∃ text, (SampleBean.mk "say \"x\"" 7 ⟨0x3FB999999999999A⟩ true ["", "\"a, b"] (some ⟨"null", 1⟩)).toDatum.marshal
        .pretty = .ok text ∧
      (Shape.Sample.sampleBean.unmarshal text).result =
        .ok (SampleBean.mk "say \"x\"" 7 ⟨0x3FB999999999999A⟩ true ["", "\"a, b"] (some ⟨"null", 1⟩)).toDatum := by
  obtain ⟨text, htext, -, hiff⟩ := unmarshal_marshal
    (b := SampleBean.mk "say \"x\"" 7 ⟨0x3FB999999999999A⟩ true ["", "\"a, b"] (some ⟨"null", 1⟩)) (by decide) .pretty
  exact ⟨text, htext, hiff.mpr (unquoted_eq_iff.mp (by decide))⟩

/-- A name in quotes comes back without them. -/
theorem unmarshal_marshal_quoted :
    ¬ ∃ text, (SampleBean.mk "\"x\"" 0 .zero false [] none).toDatum.marshal .compact = .ok text ∧
      (Shape.Sample.sampleBean.unmarshal text).result =
        .ok (SampleBean.mk "\"x\"" 0 .zero false [] none).toDatum := by
  rintro ⟨text, htext, hback⟩
  obtain ⟨t, ht⟩ := carries (b := SampleBean.mk "\"x\"" 0 .zero false [] none) (by decide)
  obtain ⟨text', htext', hback'⟩ := ht.reads_back (by decide) .compact
  obtain rfl : text = text' := Except.ok.inj (htext.symm.trans htext')
  rw [hback'] at hback
  exact absurd (toDatum_inj (Except.ok.inj hback)) (by decide)

end SampleBean

end Settings
