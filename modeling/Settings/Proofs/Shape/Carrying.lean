import Settings.Binding
import Settings.Proofs.Tree.RoundTrip

/-! # From a typed value to its text and back

What a shape reads from the text of a value is put together from what it reads for the parts of the value. Text comes
back without its outer quotes, all else as it was. -/

namespace Settings

open Number (Binary64 IntKind)

namespace Fit

variable {α β : Type} (a : α)

@[simp] theorem of_andThen (f : α → Fit β) : (of a).andThen f = f a := by
  unfold andThen of
  cases h : f a with
  | error m => simp [h]
  | ok r => simp [h]

@[simp] theorem map_of (f : α → β) : (of a).map f = of (f a) := rfl

@[simp] theorem below_of (step : PathStep) (segment : String) : (of a).below step segment = of a := rfl

@[simp] theorem within_of : (of a).within = of a := rfl

@[simp] theorem inVariant_of (variant : String) : (of a).inVariant variant = of a := rfl

theorem of_inj {a b : α} (h : of a = of b) : a = b := by
  cases h
  rfl

end Fit

namespace Shape

@[simp] theorem plain_of {α : Type} (a : α) : plain (.ok a) = .of a := rfl

/-- A value becomes a tree of at most so many levels, and from what that tree's text is read as, the shape reads a
    value again. No key is passed over. -/
structure Carries (s : Shape) (d : Datum) (n : Nat) (t : Tree) (d' : Datum) : Prop where
  toTree : d.toTree = .ok t
  distinct : t.Distinct
  depth : t.depth ≤ n
  read : s.read t.reread = .of d'

variable {s : Shape} {d d' : Datum} {n m : Nat} {t : Tree}

theorem Carries.mono (h : Carries s d n t d') (hm : n ≤ m) : Carries s d m t d' :=
  { h with depth := h.depth.trans hm }

/-! ### Scalars -/

theorem carries_text (s : String) : Carries .text (.text s) 0 (.text s) (.text (Text.unquoted s)) where
  toTree := rfl
  distinct := nofun
  depth := Nat.le_refl _
  read := rfl

theorem carries_bool (b : Bool) : Carries .bool (.bool b) 0 (.bool b) (.bool b) where
  toTree := rfl
  distinct := nofun
  depth := Nat.le_refl _
  read := rfl

theorem carries_int {kind : IntKind} {i : Int} (hbits : kind.bits ≠ 128) (hword : IntKind.word.holds i)
    (hkind : kind.holds i) : Carries (.int kind) (.int kind i) 0 (.int (Int64.ofInt i)) (.int kind i) where
  toTree := by rw [Datum.toTree, if_neg hbits, Datum.intTree, if_pos hword]
  distinct := nofun
  depth := Nat.le_refl _
  read := by
    have hback : (Int64.ofInt i).toInt = i := Number.toInt_ofInt hword
    show Shape.read (.int kind) (.int (Int64.ofInt i)) = _
    rw [Shape.read, if_neg hbits, Tree.asInt, hback, Tree.inRange, if_pos hkind]
    rfl

/-- A natural number of fewer bits than a word has. -/
theorem carries_natural {bits n : Nat} (hbits : bits < 64) (h : n < 2 ^ bits) :
    Carries (.int ⟨false, bits⟩) (.int ⟨false, bits⟩ n) 0 (.int (Int64.ofInt n)) (.int ⟨false, bits⟩ n) := by
  have hmax : IntKind.max ⟨false, bits⟩ = 2 ^ bits - 1 := rfl
  have hword : IntKind.word.max = 2 ^ 63 - 1 := by decide
  have hle : 2 ^ bits ≤ 2 ^ 63 := Nat.pow_le_pow_right (by decide) (Nat.lt_succ_iff.mp hbits)
  refine carries_int (Nat.ne_of_lt (hbits.trans (by decide))) ?_ ?_
  · simp only [IntKind.holds, Bool.and_eq_true, decide_eq_true_eq]
    omega
  · simp only [IntKind.holds, Bool.and_eq_true, decide_eq_true_eq]
    omega

theorem carries_float {x : Binary64} (hf : x.isFinite = true) : Carries .float (.float x) 0 (.float x) (.float x) where
  toTree := rfl
  distinct := nofun
  depth := Nat.le_refl _
  read := by
    have hback : Tree.asFloat (Tree.float x).reread = .ok x := by
      rw [Tree.reread]
      rcases Tree.ofWord_floatText hf with hword | ⟨i, hword, hround⟩
      · rw [hword]
        rfl
      · rw [hword, Tree.asFloat, hround]
    rw [Shape.read, hback]
    rfl

/-! ### Optional values and lists -/

theorem carries_none (s : Shape) : Carries (.option s) .none 0 .null .none where
  toTree := rfl
  distinct := nofun
  depth := Nat.le_refl _
  read := rfl

theorem Carries.some (h : Carries s d n t d') (ht : t.reread.isAbsent = false) :
    Carries (.option s) (.some d) n t (.some d') where
  toTree := h.toTree
  distinct := h.distinct
  depth := h.depth
  read := by
    rw [Shape.read, ht, if_neg (by decide), h.read, Fit.within_of, Fit.map_of]

section Items
variable {α : Type} {items : List α} {f f' : α → Datum} {g : α → Tree}

theorem itemTrees_map (h : ∀ a ∈ items, (f a).toTree = .ok (g a)) :
    Datum.itemTrees (items.map f) = .ok (items.map g) := by
  induction items with
  | nil => rfl
  | cons a items ih =>
    obtain ⟨ha, hitems⟩ := List.forall_mem_cons.mp h
    rw [List.map_cons, Datum.itemTrees, ha, ih hitems]
    rfl

theorem each_map (i : Nat) (h : ∀ a ∈ items, s.read (g a).reread = .of (f' a)) :
    each s.read i ((items.map g).map Tree.reread) = .of (items.map f') := by
  induction items generalizing i with
  | nil => rfl
  | cons a items ih =>
    obtain ⟨ha, hitems⟩ := List.forall_mem_cons.mp h
    rw [List.map_cons, List.map_cons, each, ha, Fit.below_of, Fit.of_andThen, ih (i + 1) hitems, Fit.map_of,
      List.map_cons]

/-- A list is carried item by item. -/
theorem Carries.list (h : ∀ a ∈ items, Carries s (f a) n (g a) (f' a)) :
    Carries (.list s) (.list (items.map f)) (n + 1) (.list (items.map g)) (.list (items.map f')) where
  toTree := by
    rw [Datum.toTree, itemTrees_map fun a ha => (h a ha).toTree]
    rfl
  distinct := by
    refine ⟨fun ms hms => (by cases hms), Tree.everywhereItems_iff.mpr fun t ht => ?_⟩
    obtain ⟨a, ha, rfl⟩ := List.mem_map.mp ht
    exact (h a ha).distinct
  depth := by
    refine Nat.succ_le_succ (Tree.depthItems_le fun t ht => ?_)
    obtain ⟨a, ha, rfl⟩ := List.mem_map.mp ht
    exact (h a ha).depth
  read := by
    have heach := each_map 0 fun a ha => (h a ha).read
    rw [Tree.reread, Tree.rereadItems_eq, Shape.read, Tree.asItems, plain_of, Fit.of_andThen, heach, Fit.map_of]

end Items

/-! ### Records -/

/-- A field of a record: what it holds, the tree of that, and what is read from it. -/
structure Field where
  name : String
  shape : Shape
  value : Datum
  tree : Tree
  back : Datum

/-- The fields that the text of a record has. -/
def written (fields : List Field) : List Field := fields.filter fun f => !f.tree.isNull

variable {fields : List Field}

/-- A name that is still to come is new to what is there, and takes its place there. -/
theorem nodup_move {β : Type} {done : List (String × β)} {names : List String} {k : String} (v : β)
    (h : (Assoc.keys done ++ k :: names).Nodup) :
    k ∉ Assoc.keys done ∧ (Assoc.keys (done ++ [(k, v)]) ++ names).Nodup := by
  obtain ⟨hfresh, -⟩ := List.nodup_cons.mp (List.nodup_middle.mp h)
  refine ⟨fun hmem => hfresh (List.mem_append_left _ hmem), ?_⟩
  simpa [Assoc.keys] using h

theorem fieldTrees_fields {done : List (String × Tree)} (hnames : (Assoc.keys done ++ fields.map Field.name).Nodup)
    (h : ∀ f ∈ fields, f.value.toTree = .ok f.tree) :
    Datum.fieldTrees done (fields.map fun f => (f.name, f.value)) =
      .ok (done ++ (written fields).map fun f => (f.name, f.tree)) := by
  induction fields generalizing done with
  | nil => simp [written, Datum.fieldTrees]
  | cons f fields ih =>
    obtain ⟨hf, hfields⟩ := List.forall_mem_cons.mp h
    have hstep : Datum.fieldTrees done ((f :: fields).map fun f => (f.name, f.value)) =
        Datum.fieldTrees (if f.tree.isNull then done else Assoc.insert f.name f.tree done)
          (fields.map fun f => (f.name, f.value)) := by rw [List.map_cons, Datum.fieldTrees, hf]
    rw [hstep]
    cases hnull : f.tree.isNull with
    | true =>
      have hwritten : written (f :: fields) = written fields := by simp [written, hnull]
      rw [hwritten]
      exact ih (hnames.sublist ((List.Sublist.refl _).append (List.sublist_cons_self _ _))) hfields
    | false =>
      have hwritten : written (f :: fields) = f :: written fields := by simp [written, hnull]
      obtain ⟨hfresh, hnext⟩ := nodup_move f.tree hnames
      rw [if_neg (by decide), Assoc.insert_of_not_mem hfresh, ih hnext hfields, hwritten, List.map_cons,
        List.append_assoc]
      rfl

theorem field?_fields (hnames : (fields.map Field.name).Nodup) {f : Field} (hf : f ∈ fields) :
    field? f.name (fields.map fun f => (f.name, f.shape)) = .some f.shape.read := by
  induction fields with
  | nil => cases hf
  | cons g fields ih =>
    obtain ⟨hfresh, hrest⟩ := List.nodup_cons.mp hnames
    rw [List.map_cons, field?]
    rcases List.mem_cons.mp hf with rfl | hf
    · exact if_pos rfl
    · have hne : g.name ≠ f.name := fun heq => hfresh (heq ▸ List.mem_map_of_mem hf)
      rw [if_neg hne]
      exact ih hrest hf

theorem members_fields {closed : Bool} {names : List String} {field? : String → Option (Tree → Fit Datum)}
    {done : List (String × Datum)} (hnames : (Assoc.keys done ++ fields.map Field.name).Nodup)
    (hfield : ∀ f ∈ fields, field? f.name = .some f.shape.read)
    (h : ∀ f ∈ fields, f.shape.read f.tree.reread = .of f.back) :
    members closed names field? done (fields.map fun f => (f.name, f.tree.reread)) =
      .of (done ++ fields.map fun f => (f.name, f.back)) := by
  induction fields generalizing done with
  | nil => simp [members]
  | cons f fields ih =>
    obtain ⟨hread, hreads⟩ := List.forall_mem_cons.mp h
    obtain ⟨hf, hfields⟩ := List.forall_mem_cons.mp hfield
    obtain ⟨hfresh, hnext⟩ := nodup_move f.back hnames
    rw [List.map_cons, members, hf]
    simp only [hread, Fit.below_of, Fit.of_andThen]
    rw [Assoc.insert_of_not_mem hfresh, ih hnext hfields hreads, List.map_cons, List.append_assoc]
    rfl

theorem complete_fields {strict : Bool} {found : List (String × Datum)}
    (h : ∀ f ∈ fields, Assoc.get? f.name found = .some f.back ∨
      Assoc.get? f.name found = .none ∧ f.back = .none ∧ ∃ c, f.shape = .option c) :
    complete strict found (fields.map fun f => (f.name, f.shape)) = .of (fields.map fun f => (f.name, f.back)) := by
  induction fields with
  | nil => rfl
  | cons f fields ih =>
    obtain ⟨hf, hfields⟩ := List.forall_mem_cons.mp h
    simp only [List.map_cons, complete]
    rcases hf with hfound | ⟨hnone, hback, c, hc⟩
    · simp only [hfound, Fit.of_andThen, ih hfields, Fit.map_of]
    · simp only [hnone, hc, Fit.of_andThen, ih hfields, Fit.map_of, hback]

theorem get?_written (hnames : (fields.map Field.name).Nodup) {f : Field} (hf : f ∈ fields) :
    Assoc.get? f.name ((written fields).map fun f => (f.name, f.back)) =
      if f.tree.isNull then .none else .some f.back := by
  have hwritten : ((written fields).map Field.name).Nodup := hnames.sublist (List.filter_sublist.map _)
  split
  · next hnull =>
    refine Assoc.get?_eq_none_iff.mpr fun hmem => ?_
    obtain ⟨g, hg, hname⟩ : ∃ g ∈ written fields, g.name = f.name := by simpa [Assoc.keys] using hmem
    obtain ⟨hmem, hsome⟩ := List.mem_filter.mp hg
    obtain rfl := List.inj_on_of_nodup_map hnames hmem hf hname
    simp [hnull] at hsome
  · next hnull =>
    refine Assoc.get?_of_mem ?_ (List.mem_map.mpr ⟨f, List.mem_filter.mpr ⟨hf, by simp [hnull]⟩, rfl⟩)
    simpa [Assoc.keys, Function.comp_def] using hwritten

/-- Fields come back out of the members they were written as. Only an optional field may be left out there. -/
theorem read_written {strict closed : Bool} (wrap : List (String × Datum) → Datum)
    (hnames : (fields.map Field.name).Nodup)
    (h : ∀ f ∈ fields, f.shape.read f.tree.reread = .of f.back)
    (hnull : ∀ f ∈ fields, f.tree = .null → ∃ c, f.shape = .option c) :
    ((members closed ((fields.map fun f => (f.name, f.shape)).map Prod.fst)
        (fun k => field? k (fields.map fun f => (f.name, f.shape))) []
        ((written fields).map fun f => (f.name, f.tree.reread))).andThen fun found =>
      (complete strict found (fields.map fun f => (f.name, f.shape))).map wrap) =
        .of (wrap (fields.map fun f => (f.name, f.back))) := by
  have hsub : ∀ {f}, f ∈ written fields → f ∈ fields := fun hf => (List.mem_filter.mp hf).1
  have hwritten : ((written fields).map Field.name).Nodup := hnames.sublist (List.filter_sublist.map _)
  have hcomplete : complete strict ((written fields).map fun f => (f.name, f.back))
      (fields.map fun f => (f.name, f.shape)) = .of (fields.map fun f => (f.name, f.back)) := by
    refine complete_fields fun f hf => ?_
    rw [get?_written hnames hf]
    cases hn : f.tree.isNull with
    | true =>
      have htree : f.tree = .null := Tree.isNull_iff.mp hn
      obtain ⟨c, hc⟩ := hnull f hf htree
      have hread := h f hf
      rw [hc, htree] at hread
      exact .inr ⟨rfl, Fit.of_inj (hread.symm.trans (carries_none c).read), c, hc⟩
    | false => exact .inl rfl
  rw [members_fields (by simpa using hwritten) (fun f hf => field?_fields hnames (hsub hf)) fun f hf => h f (hsub hf),
    Fit.of_andThen, List.nil_append, hcomplete, Fit.map_of]

theorem distinct_written (hnames : (fields.map Field.name).Nodup) (h : ∀ f ∈ fields, f.tree.Distinct) :
    (Tree.map ((written fields).map fun f => (f.name, f.tree))).Distinct := by
  refine ⟨?_, Tree.everywhereMembers_iff.mpr fun p hp => ?_⟩
  · rintro ms hms
    cases hms
    have hwritten : ((written fields).map Field.name).Nodup := hnames.sublist (List.filter_sublist.map _)
    simpa [Assoc.keys, Function.comp_def] using hwritten
  · obtain ⟨f, hf, rfl⟩ := List.mem_map.mp hp
    exact h f (List.mem_filter.mp hf).1

theorem depth_written (h : ∀ f ∈ fields, f.tree.depth ≤ n) :
    (Tree.map ((written fields).map fun f => (f.name, f.tree))).depth ≤ n + 1 := by
  refine Nat.succ_le_succ (Tree.depthMembers_le fun p hp => ?_)
  obtain ⟨f, hf, rfl⟩ := List.mem_map.mp hp
  exact h f (List.mem_filter.mp hf).1

theorem asMembers_written : plain (Tree.map ((written fields).map fun f => (f.name, f.tree))).reread.asMembers =
    .of ((written fields).map fun f => (f.name, f.tree.reread)) := by
  rw [Tree.reread, Tree.rereadMembers_eq, List.map_map, Tree.asMembers, plain_of]
  rfl

/-- A record is carried field by field. -/
theorem Carries.record {name : String} {strict closed : Bool} (fields : List Field)
    (hnames : (fields.map Field.name).Nodup)
    (h : ∀ f ∈ fields, Carries f.shape f.value n f.tree f.back)
    (hnull : ∀ f ∈ fields, f.tree = .null → ∃ c, f.shape = .option c) :
    Carries (.record name strict closed (fields.map fun f => (f.name, f.shape)))
      (.record (fields.map fun f => (f.name, f.value))) (n + 1)
      (.map ((written fields).map fun f => (f.name, f.tree)))
      (.record (fields.map fun f => (f.name, f.back))) where
  toTree := by
    rw [Datum.toTree, fieldTrees_fields (by simpa using hnames) fun f hf => (h f hf).toTree]
    rfl
  distinct := distinct_written hnames fun f hf => (h f hf).distinct
  depth := depth_written fun f hf => (h f hf).depth
  read := by
    rw [Shape.read, asMembers_written, Fit.of_andThen, read_written .record hnames (fun f hf => (h f hf).read)
      hnull]

/-! ### Maps -/

section Entries
variable {α : Type} {items : List α} {key : Shape} {k f f' : α → Datum} {name : α → String} {g : α → Tree}

theorem putEntry_of_fresh {key value : Datum} {done : List (Datum × Datum)}
    (h : ∀ p ∈ done, p.1.keyText.toOption ≠ key.keyText.toOption) : putEntry key value done = done ++ [(key, value)] := by
  induction done with
  | nil => rfl
  | cons p done ih =>
    obtain ⟨hp, hdone⟩ := List.forall_mem_cons.mp h
    rw [putEntry, if_neg hp, ih hdone]
    rfl

theorem entryTrees_map {done : List (String × Tree)} (hnames : (Assoc.keys done ++ items.map name).Nodup)
    (hkey : ∀ a ∈ items, (k a).keyText = .ok (name a)) (h : ∀ a ∈ items, (f a).toTree = .ok (g a)) :
    Datum.entryTrees done (items.map fun a => (k a, f a)) = .ok (done ++ items.map fun a => (name a, g a)) := by
  induction items generalizing done with
  | nil => simp [Datum.entryTrees]
  | cons a items ih =>
    obtain ⟨hk, hkeys⟩ := List.forall_mem_cons.mp hkey
    obtain ⟨ha, hitems⟩ := List.forall_mem_cons.mp h
    obtain ⟨hfresh, hnext⟩ := nodup_move (g a) hnames
    rw [List.map_cons, Datum.entryTrees, hk, ha]
    simp only [Assoc.insert_of_not_mem hfresh]
    rw [ih hnext hkeys hitems, List.map_cons, List.append_assoc]
    rfl

theorem entries_map {done : List (Datum × Datum)} (hnames : (items.map name).Nodup)
    (hfresh : ∀ p ∈ done, ∀ a ∈ items, p.1.keyText.toOption ≠ .some (name a))
    (hkey : ∀ a ∈ items, (k a).keyText = .ok (name a) ∧ key.read (.text (name a)) = .of (k a))
    (h : ∀ a ∈ items, s.read (g a).reread = .of (f' a)) :
    entries key.read s.read done (items.map fun a => (name a, (g a).reread)) =
      .of (done ++ items.map fun a => (k a, f' a)) := by
  induction items generalizing done with
  | nil => simp [entries]
  | cons a items ih =>
    obtain ⟨hname, hnames⟩ := List.nodup_cons.mp hnames
    obtain ⟨⟨htext, hread⟩, hkeys⟩ := List.forall_mem_cons.mp hkey
    obtain ⟨ha, hitems⟩ := List.forall_mem_cons.mp h
    have hput : putEntry (k a) (f' a) done = done ++ [(k a, f' a)] :=
      putEntry_of_fresh fun p hp => htext ▸ hfresh p hp a List.mem_cons_self
    have hnext : ∀ p ∈ done ++ [(k a, f' a)], ∀ b ∈ items, p.1.keyText.toOption ≠ .some (name b) := by
      intro p hp b hb
      rcases List.mem_append.mp hp with hp | hp
      · exact hfresh p hp b (List.mem_cons_of_mem a hb)
      · obtain rfl := List.mem_singleton.mp hp
        rw [htext]
        exact fun heq => hname (Option.some.inj heq ▸ List.mem_map_of_mem hb)
    simp only [List.map_cons, entries, hread, ha, Fit.below_of, Fit.of_andThen, hput]
    rw [ih hnames hnext hkeys hitems, List.append_assoc]
    rfl

/-- A map is carried entry by entry, if each of its keys is read from its own text. -/
theorem Carries.map (hnames : (items.map name).Nodup)
    (hkey : ∀ a ∈ items, (k a).keyText = .ok (name a) ∧ key.read (.text (name a)) = .of (k a))
    (h : ∀ a ∈ items, Carries s (f a) n (g a) (f' a)) :
    Carries (.map key s) (.map (items.map fun a => (k a, f a))) (n + 1) (.map (items.map fun a => (name a, g a)))
      (.map (items.map fun a => (k a, f' a))) where
  toTree := by
    rw [Datum.toTree, entryTrees_map (by simpa using hnames) (fun a ha => (hkey a ha).1) fun a ha => (h a ha).toTree]
    rfl
  distinct := by
    refine ⟨?_, Tree.everywhereMembers_iff.mpr fun p hp => ?_⟩
    · rintro ms hms
      cases hms
      simpa [Assoc.keys, Function.comp_def] using hnames
    · obtain ⟨a, ha, rfl⟩ := List.mem_map.mp hp
      exact (h a ha).distinct
  depth := by
    refine Nat.succ_le_succ (Tree.depthMembers_le fun p hp => ?_)
    obtain ⟨a, ha, rfl⟩ := List.mem_map.mp hp
    exact (h a ha).depth
  read := by
    have hfresh : ∀ p ∈ ([] : List (Datum × Datum)), ∀ a ∈ items, p.1.keyText.toOption ≠ .some (name a) :=
      List.forall_mem_nil _
    have hentries := entries_map hnames hfresh hkey fun a ha => (h a ha).read
    rw [Tree.reread, Tree.rereadMembers_eq, List.map_map, Shape.read, Tree.asMembers, plain_of, Fit.of_andThen]
    simp only [Function.comp_def, hentries]
    rw [List.nil_append, Fit.map_of]

end Entries

/-! ### Variants -/

section Variants
variable {type variant : String} {variants : List (String × Payload)} {payload : Payload}

theorem carries_unitVariant (hname : variantName variant = variant)
    (h : Assoc.get? variant variants = .some .nothing) :
    Carries (.choice type variants) (.unitVariant variant) 0 (.text variant) (.unitVariant variant) where
  toTree := rfl
  distinct := nofun
  depth := Nat.le_refl _
  read := by
    have hread : Shape.read (.choice type variants) (.text variant) = plain (bareVariant variant .nothing) := by
      simp only [Shape.read, hname, h]
    exact hread

/-- A variant with content is carried as a map of one member, whose key says how the content is read. -/
theorem carries_variant (hvar : variant? type variant variants = .some (content type variant payload))
    (htree : d.toTree = .ok (Tree.single variant t)) (hdistinct : t.Distinct) (hdepth : t.depth ≤ n)
    (hread : content type variant payload t.reread = .of d') :
    Carries (.choice type variants) d (n + 1) (Tree.single variant t) d' where
  toTree := htree
  distinct := ⟨fun ms hms => by cases hms; simp, hdistinct, trivial⟩
  depth := Nat.succ_le_succ (Nat.max_le.mpr ⟨hdepth, Nat.zero_le n⟩)
  read := by
    simp only [Tree.single, Tree.reread, Tree.rereadMembers, Shape.read, hvar]
    exact hread

theorem Carries.newtypeVariant (hvar : variant? type variant variants = .some (content type variant (.content s)))
    (h : Carries s d n t d') :
    Carries (.choice type variants) (.newtypeVariant variant d) (n + 1) (Tree.single variant t)
      (.newtypeVariant variant d') := by
  refine carries_variant hvar ?_ h.distinct h.depth ?_
  · rw [Datum.toTree, h.toTree]
    rfl
  · rw [content, h.read, Fit.within_of, Fit.map_of, Fit.inVariant_of]

theorem readItems_fields {expected : String} {i : Nat} (h : ∀ f ∈ fields, f.shape.read f.tree.reread = .of f.back) :
    readItems expected i (fields.map Field.shape) ((fields.map Field.tree).map Tree.reread) =
      .of (fields.map Field.back) := by
  induction fields generalizing i with
  | nil => rfl
  | cons f fields ih =>
    obtain ⟨hf, hfields⟩ := List.forall_mem_cons.mp h
    simp only [List.map_cons, readItems, hf, Fit.below_of, Fit.of_andThen, ih hfields, Fit.map_of]

/-- The names of the fields do not show in a variant that lists its items. -/
theorem Carries.listVariant
    (hvar : variant? type variant variants = .some (content type variant (.items (fields.map Field.shape))))
    (h : ∀ f ∈ fields, Carries f.shape f.value n f.tree f.back) :
    Carries (.choice type variants) (.listVariant variant (fields.map Field.value)) (n + 2)
      (Tree.single variant (.list (fields.map Field.tree))) (.listVariant variant (fields.map Field.back)) := by
  refine carries_variant hvar ?_ ?_ ?_ ?_
  · rw [Datum.toTree, itemTrees_map fun f hf => (h f hf).toTree]
    rfl
  · refine ⟨fun ms hms => (by cases hms), Tree.everywhereItems_iff.mpr fun t ht => ?_⟩
    obtain ⟨f, hf, rfl⟩ := List.mem_map.mp ht
    exact (h f hf).distinct
  · refine Nat.succ_le_succ (Tree.depthItems_le fun t ht => ?_)
    obtain ⟨f, hf, rfl⟩ := List.mem_map.mp ht
    exact (h f hf).depth
  · rw [Tree.reread, Tree.rereadItems_eq, content, Tree.asItems, plain_of, Fit.of_andThen,
      readItems_fields fun f hf => (h f hf).read, Fit.map_of, Fit.inVariant_of]

theorem Carries.recordVariant
    (hvar : variant? type variant variants =
      .some (content type variant (.fields (fields.map fun f => (f.name, f.shape)))))
    (hnames : (fields.map Field.name).Nodup)
    (h : ∀ f ∈ fields, Carries f.shape f.value n f.tree f.back)
    (hnull : ∀ f ∈ fields, f.tree = .null → ∃ c, f.shape = .option c) :
    Carries (.choice type variants) (.recordVariant variant (fields.map fun f => (f.name, f.value))) (n + 2)
      (Tree.single variant (.map ((written fields).map fun f => (f.name, f.tree))))
      (.recordVariant variant (fields.map fun f => (f.name, f.back))) := by
  refine carries_variant hvar ?_ (distinct_written hnames fun f hf => (h f hf).distinct)
    (depth_written fun f hf => (h f hf).depth) ?_
  · rw [Datum.toTree, fieldTrees_fields (by simpa using hnames) fun f hf => (h f hf).toTree]
    rfl
  · rw [content, asMembers_written, Fit.of_andThen,
      read_written (.recordVariant variant) hnames (fun f hf => (h f hf).read) hnull, Fit.inVariant_of]

end Variants

/-! ### Texts -/

/-- What is carried comes back out of its text, in either layout, with no field left out and no key passed over. -/
theorem Carries.reads_back (h : Carries s d n t d') (hn : n ≤ Tree.depthLimit) (layout : Layout) :
    ∃ text, d.marshal layout = .ok text ∧ s.unmarshal text = .pure d' := by
  refine ⟨t.print layout, ?_, ?_⟩
  · rw [Datum.marshal, h.toTree]
  · have hread := Tree.read_print_reread layout h.distinct (h.depth.trans hn)
    have hbind : s.bind t.reread = .pure d' := by
      rw [bind, bindWith, h.read]
      rfl
    rw [unmarshal, hread]
    exact hbind

end Shape

end Settings
