import Settings.Proofs.Shape.Carrying
import Settings.Shape.Sample

/-! # Containers and their texts

Lists of optional values, lists of lists, lists of a choice with a variant of each kind and maps with keys that are no
texts come back out of their texts as they were: no quotes are taken away from any of their parts, and the lenient
reading of scalars leaves them alone. -/

namespace Settings

open Shape (Carries Field)

/-- A value of the choice `Mode`. -/
inductive Mode where
  | fast
  | limited (count : UInt32)
  | pair (first second : UInt8)
  | window (start stop : UInt8)
  deriving DecidableEq, Repr

/-- Entries in their order, of which no two have the same key. -/
structure Dictionary (κ β : Type) where
  entries : List (κ × β)
  nodup : (Assoc.keys entries).Nodup
  deriving Repr

/-! ### As typed values -/

def Mode.toDatum : Mode → Datum
  | fast => .unitVariant "Fast"
  | limited count => .newtypeVariant "Limited" (.int ⟨false, 32⟩ count.toNat)
  | pair first second => .listVariant "Pair" [.int ⟨false, 8⟩ first.toNat, .int ⟨false, 8⟩ second.toNat]
  | window start stop =>
    .recordVariant "Window" [("from", .int ⟨false, 8⟩ start.toNat), ("to", .int ⟨false, 8⟩ stop.toNat)]

namespace Datum

def ofInt32 (n : Int32) : Datum := .int ⟨true, 32⟩ n.toInt

def ofOption (x : Option Int32) : Datum := x.elim .none fun n => .some (ofInt32 n)

def ofOptions (xs : List (Option Int32)) : Datum := .list (xs.map ofOption)

def ofRow (xs : List Int32) : Datum := .list (xs.map ofInt32)

def ofRows (rows : List (List Int32)) : Datum := .list (rows.map ofRow)

def ofModes (modes : List Mode) : Datum := .list (modes.map Mode.toDatum)

def ofSwitches (switches : Dictionary Bool Int32) : Datum :=
  .map (switches.entries.map fun p => (.bool p.1, ofInt32 p.2))

theorem ofInt32_inj : Function.Injective ofInt32 := fun _ _ h => Int32.toInt_inj.mp (Datum.int.inj h).2

theorem ofOption_inj : Function.Injective ofOption := by
  intro x y h
  cases x with
  | none =>
    cases y with
    | none => rfl
    | some m => cases h
  | some n =>
    cases y with
    | none => cases h
    | some m => exact congrArg Option.some (ofInt32_inj (Datum.some.inj h))

theorem int_natCast_inj {kind : Number.IntKind} {n m : Nat} (h : Datum.int kind n = .int kind m) : n = m :=
  Int.natCast_inj.mp (Datum.int.inj h).2

theorem list_map_inj {α : Type} {f : α → Datum} (hf : Function.Injective f) :
    Function.Injective fun xs : List α => Datum.list (xs.map f) :=
  fun _ _ h => List.map_injective_iff.mpr hf (Datum.list.inj h)

theorem ofSwitches_inj : Function.Injective ofSwitches := by
  have hpair : Function.Injective fun p : Bool × Int32 => (Datum.bool p.1, ofInt32 p.2) := fun _ _ h =>
    Prod.ext (Datum.bool.inj (Prod.mk.inj h).1) (ofInt32_inj (Prod.mk.inj h).2)
  rintro ⟨xs, hx⟩ ⟨ys, hy⟩ h
  obtain rfl : xs = ys := List.map_injective_iff.mpr hpair (Datum.map.inj h)
  rfl

end Datum

theorem Mode.toDatum_inj : Function.Injective Mode.toDatum := by
  intro x y h
  cases x with
  | fast =>
    cases y with
    | fast => rfl
    | _ => cases h
  | limited count =>
    cases y with
    | limited count' => rw [UInt32.toNat_inj.mp (Datum.int_natCast_inj (Datum.newtypeVariant.inj h).2)]
    | _ => cases h
  | pair first second =>
    cases y with
    | pair first' second' =>
      simp only [toDatum, Datum.listVariant.injEq, List.cons.injEq, true_and, and_true] at h
      rw [UInt8.toNat_inj.mp (Datum.int_natCast_inj h.1), UInt8.toNat_inj.mp (Datum.int_natCast_inj h.2)]
    | _ => cases h
  | window start stop =>
    cases y with
    | window start' stop' =>
      simp only [toDatum, Datum.recordVariant.injEq, List.cons.injEq, Prod.mk.injEq, true_and, and_true] at h
      rw [UInt8.toNat_inj.mp (Datum.int_natCast_inj h.1), UInt8.toNat_inj.mp (Datum.int_natCast_inj h.2)]
    | _ => cases h

/-! ### Through the text -/

/-- Each value of a type comes back out of its text, in either layout, as that value and as no other. -/
def Returns {α : Type} (s : Shape) (f : α → Datum) : Prop :=
  ∀ (x : α) (layout : Layout), ∃ text, (f x).marshal layout = .ok text ∧
    ∀ y, (s.unmarshal text).result = .ok (f y) ↔ y = x

section Types
variable {α : Type} {s : Shape} {f : α → Datum} {n : Nat}

theorem returns_of_carries (hf : Function.Injective f) (hn : n ≤ Tree.depthLimit)
    (h : ∀ x, ∃ t, Carries s (f x) n t (f x)) : Returns s f := by
  intro x layout
  obtain ⟨t, ht⟩ := h x
  obtain ⟨text, htext, hback⟩ := ht.reads_back hn layout
  refine ⟨text, htext, fun y => ?_⟩
  rw [hback]
  constructor
  · intro hy
    exact hf (Except.ok.inj hy).symm
  · rintro rfl
    rfl

theorem exists_carries_list (h : ∀ x, ∃ t, Carries s (f x) n t (f x)) (xs : List α) :
    ∃ t, Carries (.list s) (.list (xs.map f)) (n + 1) t (.list (xs.map f)) := by
  choose g hg using h
  exact ⟨_, Carries.list fun x _ => hg x⟩

end Types

theorem holds_int32 (n : Int32) : Number.IntKind.holds ⟨true, 32⟩ n.toInt ∧ Number.IntKind.word.holds n.toInt := by
  have hle : -2 ^ 31 ≤ n.toInt := n.le_toInt
  have hlt : n.toInt < 2 ^ 31 := n.toInt_lt
  have hmax : Number.IntKind.max ⟨true, 32⟩ = 2 ^ 31 - 1 := by decide
  have hdepth : Number.IntKind.depth ⟨true, 32⟩ = 2 ^ 31 := by decide
  have hword : Number.IntKind.word.max = 2 ^ 63 - 1 := by decide
  have hword' : Number.IntKind.word.depth = 2 ^ 63 := by decide
  simp only [Number.IntKind.holds, Bool.and_eq_true, decide_eq_true_eq]
  omega

theorem carries_int32 (n : Int32) :
    Carries Shape.Sample.i32 (Datum.ofInt32 n) 0 (.int (Int64.ofInt n.toInt)) (Datum.ofInt32 n) :=
  Shape.carries_int (by decide) (holds_int32 n).2 (holds_int32 n).1

theorem exists_carries_option (x : Option Int32) :
    ∃ t, Carries (.option Shape.Sample.i32) (Datum.ofOption x) 0 t (Datum.ofOption x) := by
  cases x with
  | none => exact ⟨.null, Shape.carries_none _⟩
  | some n => exact ⟨_, (carries_int32 n).some rfl⟩

/-- A byte as a field of a variant. -/
def byteField (name : String) (n : UInt8) : Field :=
  ⟨name, Shape.Sample.u8, .int ⟨false, 8⟩ n.toNat, .int (Int64.ofInt n.toNat), .int ⟨false, 8⟩ n.toNat⟩

theorem carries_byteField (name : String) (n : UInt8) :
    Carries (byteField name n).shape (byteField name n).value 0 (byteField name n).tree (byteField name n).back :=
  Shape.carries_natural (by decide) n.toNat_lt

theorem exists_carries_mode (m : Mode) : ∃ t, Carries Shape.Sample.mode m.toDatum 2 t m.toDatum := by
  cases m with
  | fast => exact ⟨_, (Shape.carries_unitVariant (by decide +kernel) rfl).mono (by decide)⟩
  | limited count => exact ⟨_, ((Shape.carries_natural (by decide) count.toNat_lt).newtypeVariant rfl).mono (by decide)⟩
  | pair first second =>
    have hfields : ∀ f ∈ [byteField "" first, byteField "" second], Carries f.shape f.value 0 f.tree f.back := by
      simp only [List.forall_mem_cons]
      exact ⟨carries_byteField "" first, carries_byteField "" second, List.forall_mem_nil _⟩
    exact ⟨_, Carries.listVariant rfl hfields⟩
  | window start stop =>
    have hfields : ∀ f ∈ [byteField "from" start, byteField "to" stop], Carries f.shape f.value 0 f.tree f.back := by
      simp only [List.forall_mem_cons]
      exact ⟨carries_byteField "from" start, carries_byteField "to" stop, List.forall_mem_nil _⟩
    refine ⟨_, Carries.recordVariant rfl (by simp [byteField]) hfields ?_⟩
    simp only [List.forall_mem_cons]
    refine ⟨fun hnull => ?_, fun hnull => ?_, List.forall_mem_nil _⟩
    all_goals cases hnull

theorem exists_carries_row (xs : List Int32) :
    ∃ t, Carries (.list Shape.Sample.i32) (Datum.ofRow xs) 1 t (Datum.ofRow xs) :=
  exists_carries_list (fun n => ⟨_, carries_int32 n⟩) xs

/-- The text of a boolean key is read as that boolean. -/
theorem exists_carries_switches (switches : Dictionary Bool Int32) :
    ∃ t, Carries (.map .bool Shape.Sample.i32) (Datum.ofSwitches switches) 1 t (Datum.ofSwitches switches) := by
  have hname : Function.Injective fun b : Bool => if b then "true" else "false" := by decide
  have hkeys : (switches.entries.map fun p => if p.1 then "true" else "false").Nodup := by
    have hmap := switches.nodup.map hname
    rwa [Assoc.keys, List.map_map] at hmap
  refine ⟨_, Carries.map hkeys (fun p _ => ⟨rfl, ?_⟩) fun p _ => carries_int32 p.2⟩
  cases p.1 with
  | false => rfl
  | true => rfl

/-- Lists of optional numbers, lists of lists, lists of a choice and maps with boolean keys come back out of their
    texts as they were. -/
theorem returns_containers :
    Returns (.list (.option Shape.Sample.i32)) Datum.ofOptions ∧
      Returns (.list (.list Shape.Sample.i32)) Datum.ofRows ∧
      Returns (.list Shape.Sample.mode) Datum.ofModes ∧
      Returns (.map .bool Shape.Sample.i32) Datum.ofSwitches := by
  refine ⟨?_, ?_, ?_, ?_⟩
  · exact returns_of_carries (Datum.list_map_inj Datum.ofOption_inj) (by decide)
      (exists_carries_list exists_carries_option)
  · exact returns_of_carries (Datum.list_map_inj (Datum.list_map_inj Datum.ofInt32_inj)) (by decide)
      (exists_carries_list exists_carries_row)
  · exact returns_of_carries (Datum.list_map_inj Mode.toDatum_inj) (by decide)
      (exists_carries_list exists_carries_mode)
  · exact returns_of_carries Datum.ofSwitches_inj (by decide) exists_carries_switches

end Settings
