import Settings.Binding
import Settings.Proofs.Shape.Place
import Settings.Proofs.Tree.RoundTrip
import Settings.Shape.Sample

/-! # What binding leaves out

Each round of binding takes one field out of the tree. The rounds end with a tree that fits, or with one whose
misfit cannot be taken out. For a record of which every field has a default there is one such misfit only: one
inside a map that is written as text, because the field in that text is no node of the tree. -/

namespace Settings

/-! ### The field of a misfit -/

/-- A path up to the last key on it. -/
def upToKey (path : List PathStep) : List PathStep :=
  (path.reverse.dropWhile fun
    | .key _ => false
    | .index _ => true).reverse

theorem Misfit.field?_eq (m : Misfit) : m.field? = if upToKey m.path = [] then none else some (upToKey m.path) := rfl

variable {t t' u : Tree} {path : List PathStep} {m : Misfit}

theorem upToKey_key (k : String) (path : List PathStep) : upToKey (.key k :: path) = .key k :: upToKey path := by
  unfold upToKey
  rw [List.reverse_cons, List.dropWhile_append]
  split
  · next h => rw [List.isEmpty_iff.mp h]; rfl
  · rw [List.reverse_append]; rfl

theorem upToKey_index (i : Nat) (path : List PathStep) :
    upToKey (.index i :: path) = if upToKey path = [] then [] else .index i :: upToKey path := by
  unfold upToKey
  rw [List.reverse_cons, List.dropWhile_append]
  split
  · next h => rw [List.isEmpty_iff.mp h]; rfl
  · next h =>
    rw [if_neg fun he => h (List.isEmpty_iff.mpr (List.reverse_eq_nil_iff.mp he)), List.reverse_append]
    rfl

theorem upToKey_indexes (h : ∀ step ∈ path, ∃ i, step = .index i) : upToKey path = [] := by
  induction path with
  | nil => rfl
  | cons step path ih =>
    obtain ⟨⟨i, rfl⟩, hpath⟩ := List.forall_mem_cons.mp h
    rw [upToKey_index, if_pos (ih hpath)]

theorem Misfit.field?_below (k : String) (path : List PathStep) (cause : MisfitCause) :
    field? ⟨.key k :: path, cause⟩ = some (.key k :: upToKey path) := by
  rw [Misfit.field?_eq, upToKey_key, if_neg (List.cons_ne_nil _ _)]

theorem Misfit.upToKey_of_field? (hf : m.field? = some path) : upToKey m.path = path := by
  rw [Misfit.field?_eq] at hf
  split at hf
  · cases hf
  · exact Option.some.inj hf

theorem Misfit.upToKey_of_field?_none (hf : m.field? = none) : upToKey m.path = [] := by
  rw [Misfit.field?_eq] at hf
  split at hf
  · assumption
  · cases hf

/-- The field around a misfit can be taken out, unless it lies in a text. -/
theorem Place.field (h : Place t path) (hd : t.Distinct) :
    upToKey path = [] ∨ (t.remove? (upToKey path)).isSome ∨ t.CrossesText (upToKey path) := by
  induction h with
  | indexes h => exact .inl (upToKey_indexes h)
  | @text s path h =>
    cases hp : upToKey path with
    | nil => exact .inl rfl
    | cons step rest => exact .inr (.inr (.here h))
  | @member ms k t path hm h ih =>
    have hk := Assoc.get?_of_mem (hd.1 ms rfl) hm
    rw [upToKey_key]
    rcases ih (Tree.everywhereMembers_iff.mp hd.2 _ hm) with hp | hr | hc
    · exact .inr (.inl (Tree.remove?_member hk (.inl hp)))
    · exact .inr (.inl (Tree.remove?_member hk (.inr hr)))
    · exact .inr (.inr (.member hk hc))
  | @item ts i t path hi h ih =>
    rw [upToKey_index]
    split
    · exact .inl rfl
    · next hp =>
      rcases (ih (Tree.everywhereItems_iff.mp hd.2 _ (List.mem_of_getElem? hi))).resolve_left hp with hr | hc
      · exact .inr (.inl (Tree.remove?_item hi hr))
      · exact .inr (.inr (.item hi hc))

/-! ### Rounds -/

section Rounds
variable {α : Type} {type : String} {read : Tree → Fit α} {a : α} {ignored : List (List String)}

/-- A tree comes from another by leaving out, one after the other, the fields that are found not to fit. -/
inductive Rounds (read : Tree → Fit α) : Tree → Tree → Prop
  | done {t : Tree} : Rounds read t t
  | skip {t t' u : Tree} {m : Misfit} {path : List PathStep} (hm : read t = .error m) (hf : m.field? = some path)
      (hr : t.remove? path = some t') (h : Rounds read t' u) : Rounds read t u

/-- The first misfit of a tree lies in a text. -/
def StuckInText (read : Tree → Fit α) (t : Tree) : Prop :=
  ∃ m path, read t = .error m ∧ m.field? = some path ∧ t.CrossesText path

/-- One round of binding, without what is told about it. -/
theorem result_bindWith (type : String) (read : Tree → Fit α) (t : Tree) :
    (bindWith type read t).result =
      match read t with
      | .ok (a, _) => .ok a
      | .error m =>
        match m.field?.bind (Tree.remove? · t) with
        | none => .error (.binding type m.message)
        | some rest => (bindWith type read rest).result := by
  rw [bindWith]
  cases read t with
  | ok r => rfl
  | error m =>
    dsimp only
    split
    · next hf => rw [hf]; rfl
    · next path hf =>
      rw [hf, Option.bind_some]
      split
      · next hr => rw [hr]; rfl
      · next rest hr =>
        rw [hr, Noted.result_bind]
        rfl

theorem result_bindWith_error (hm : read t = .error m) (hf : m.field? = some path) :
    (bindWith type read t).result =
      match t.remove? path with
      | none => .error (.binding type m.message)
      | some rest => (bindWith type read rest).result := by
  rw [result_bindWith, hm]
  dsimp only
  rw [hf, Option.bind_some]

/-- The rounds of binding do not change what it ends with. -/
theorem Rounds.result_eq (h : Rounds read t u) (type : String) :
    (bindWith type read t).result = (bindWith type read u).result := by
  induction h with
  | done => rfl
  | skip hm hf hr h ih =>
    rw [result_bindWith_error hm hf, hr]
    exact ih

theorem Rounds.keeps {P : Tree → Prop} (hP : ∀ t t' path, P t → t.remove? path = some t' → P t') (h : Rounds read t u)
    (ht : P t) : P u := by
  induction h with
  | done => exact ht
  | skip hm hf hr h ih => exact ih (hP _ _ _ ht hr)

/-- Binding gives what is read from the tree that the rounds end with. -/
theorem bindWith_ok_iff :
    (bindWith type read t).result = .ok a ↔ ∃ u ignored, Rounds read t u ∧ read u = .ok (a, ignored) := by
  constructor
  · intro h
    induction hn : t.size using Nat.strongRecOn generalizing t with
    | ind n ih =>
      rw [result_bindWith] at h
      cases hm : read t with
      | ok r =>
        obtain ⟨b, ignored⟩ := r
        rw [hm] at h
        cases h
        exact ⟨t, ignored, .done, hm⟩
      | error m =>
        rw [hm] at h
        cases hb : m.field?.bind (Tree.remove? · t) with
        | none => simp only [hb] at h; cases h
        | some rest =>
          simp only [hb] at h
          obtain ⟨path, hf, hr⟩ := Option.bind_eq_some_iff.mp hb
          obtain ⟨u, ignored, hu, hread⟩ := ih rest.size (hn ▸ Tree.size_remove?_lt hr) h rfl
          exact ⟨u, ignored, .skip hm hf hr hu, hread⟩
  · rintro ⟨u, ignored, hu, hread⟩
    rw [hu.result_eq type, result_bindWith, hread]

theorem bindWith_fault (hm : read t = .error m) (hf : m.field? = some path) (hr : t.remove? path = none) :
    (bindWith type read t).result = .error (.binding type m.message) := by
  rw [result_bindWith_error hm hf, hr]

theorem StuckInText.not_ok (h : StuckInText read t) : (bindWith type read t).result ≠ .ok a := by
  obtain ⟨m, path, hm, hf, hc⟩ := h
  rw [bindWith_fault hm hf hc.remove?_eq_none]
  exact nofun

/-- If each misfit lies in a field that can be taken out or in a text, then binding fails only at a text. -/
theorem exists_ok (Inv : Tree → Prop) (hinv : ∀ t t' path, Inv t → t.remove? path = some t' → Inv t')
    (hfield : ∀ t m, Inv t → read t = .error m →
      ∃ path, m.field? = some path ∧ ((t.remove? path).isSome ∨ t.CrossesText path))
    (ht : Inv t) (hfree : ∀ u, Rounds read t u → ¬ StuckInText read u) :
    ∃ a, (bindWith type read t).result = .ok a := by
  induction hn : t.size using Nat.strongRecOn generalizing t with
  | ind n ih =>
    cases hm : read t with
    | ok r => exact ⟨r.1, by rw [result_bindWith, hm]⟩
    | error m =>
      obtain ⟨path, hf, hr | hc⟩ := hfield t m ht hm
      · obtain ⟨rest, hr⟩ := Option.isSome_iff_exists.mp hr
        rw [(Rounds.skip hm hf hr .done).result_eq type]
        exact ih rest.size (hn ▸ Tree.size_remove?_lt hr) (hinv t rest path ht hr)
          (fun u hu => hfree u (.skip hm hf hr hu)) rfl
      · exact absurd ⟨m, path, hm, hf, hc⟩ (hfree t .done)

end Rounds

/-! ### Records of which every field has a default -/

namespace Shape

/-- The sample records of which every field has a default. -/
def Sample.defaulted : List Shape := [sampleBean, nestedBean, endpoint, appSample, mixed]

theorem Sample.defaulted_lenient {s : Shape} (hs : s ∈ defaulted) :
    s.TextKeys ∧ ∃ name fields, s = lenient name fields := by
  simp only [defaulted, List.mem_cons, List.not_mem_nil, or_false] at hs
  rcases hs with rfl | rfl | rfl | rfl | rfl
  all_goals refine ⟨?_, _, _, rfl⟩
  all_goals
    simp [sampleBean, nestedBean, endpoint, appSample, mixed, lenient, u8, u32, i32, mode, wrapper, pairStruct, TextKeys,
      TextKeysFields, TextKeysAll, TextKeysVariants, Payload.TextKeys]

/-- A misfit among the members of a record lies below a key. -/
theorem members_fails_key {names : List String} {field? : String → Option (Tree → Fit Datum)}
    {done : List (String × Datum)} {ms : List (String × Tree)} {closed : Bool} :
    (members closed names field? done ms).Fails fun m => ∃ k path, m.path = .key k :: path := by
  induction ms generalizing done with
  | nil => exact Fit.fails_of _
  | cons p ms ih =>
    obtain ⟨k, t⟩ := p
    unfold members
    split
    · exact Fit.Fails.andThen (Fit.Fails.below (fun m _ => ⟨k, m.path, rfl⟩) _) fun _ _ _ => ih
    · split
      · exact Fit.Fails.below (fun m _ => ⟨k, m.path, rfl⟩) _
      · exact Fit.Fails.andThen nofun fun _ _ _ => ih

theorem lenient_fails_key (name : String) (fields : List (String × Shape)) (ms : List (String × Tree)) :
    ((Sample.lenient name fields).read (.map ms)).Fails fun m => ∃ k path, m.path = .key k :: path :=
  Fit.Fails.andThen nofun fun _ _ _ => Fit.Fails.andThen members_fails_key fun _ _ _ =>
    Fit.Fails.map (fails_complete nofun) _

/-- A misfit of a record of which every field has a default lies in a field of the tree or in a text. -/
theorem lenient_field {name : String} {fields : List (String × Shape)} (hs : (Sample.lenient name fields).TextKeys)
    {ms : List (String × Tree)} {m : Misfit} (hd : (Tree.map ms).Distinct)
    (hm : (Sample.lenient name fields).read (.map ms) = .error m) :
    ∃ path, m.field? = some path ∧ (((Tree.map ms).remove? path).isSome ∨ (Tree.map ms).CrossesText path) := by
  obtain ⟨k, path, hkey⟩ := lenient_fails_key name fields ms m hm
  have hne : upToKey m.path ≠ [] := by
    rw [hkey, upToKey_key]
    exact List.cons_ne_nil _ _
  refine ⟨upToKey m.path, ?_, ?_⟩
  · rw [Misfit.field?_eq, if_neg hne]
  · exact (Place.field (fails_read _ _ hs m hm) hd).resolve_left hne

/-- Binding a map to a record of which every field has a default gives what is read from the map without the fields
    that do not fit. It fails just where, after some rounds, the first misfit lies in a text that holds a map; so
    it never fails where no text holds a brace. -/
theorem bind_defaulted {s : Shape} (hs : s ∈ Sample.defaulted) {ms : List (String × Tree)}
    (hd : (Tree.map ms).Distinct) :
    (∀ d, (s.bind (.map ms)).result = .ok d ↔
      ∃ u ignored, Rounds s.read (.map ms) u ∧ s.read u = .ok (d, ignored)) ∧
    ((∃ d, (s.bind (.map ms)).result = .ok d) ↔ ∀ u, Rounds s.read (.map ms) u → ¬ StuckInText s.read u) ∧
    ((Tree.map ms).Everywhere Tree.NoBrace → ∃ d, (s.bind (.map ms)).result = .ok d) := by
  obtain ⟨hkeys, name, fields, rfl⟩ := Sample.defaulted_lenient hs
  have hiff : ∀ d, ((Sample.lenient name fields).bind (.map ms)).result = .ok d ↔
      ∃ u ignored, Rounds (Sample.lenient name fields).read (.map ms) u ∧
        (Sample.lenient name fields).read u = .ok (d, ignored) := fun d => bindWith_ok_iff
  have hfree : (∀ u, Rounds (Sample.lenient name fields).read (.map ms) u →
      ¬ StuckInText (Sample.lenient name fields).read u) →
      ∃ d, ((Sample.lenient name fields).bind (.map ms)).result = .ok d := by
    refine exists_ok (fun t => t.Distinct ∧ ∃ ms, t = .map ms) ?_ ?_ ⟨hd, ms, rfl⟩
    · rintro t t' path ⟨ht, ms, rfl⟩ hr
      exact ⟨ht.remove? hr, Tree.remove?_map hr⟩
    · rintro t m ⟨ht, ms, rfl⟩ hm
      exact lenient_field hkeys ht hm
  refine ⟨hiff, ⟨?_, hfree⟩, fun hbrace => hfree fun u hu hstuck => ?_⟩
  · rintro ⟨d, hok⟩ u hu hstuck
    exact hstuck.not_ok ((hu.result_eq _).symm.trans hok)
  · obtain ⟨m, path, -, -, hc⟩ := hstuck
    exact hc.not_noBrace (hu.keeps (fun t t' path h hr => Tree.noBrace_remove? h hr) hbrace)

theorem bind_mixed_skipping :
    ∃ d, (Sample.mixed.bind (.map [("limits", .map [("a", .text "x")]), ("pair", .text "1")])).result = .ok d := by
  refine (bind_defaulted (by simp [Sample.defaulted]) ?_).2.2 ?_
  · simp [Tree.Distinct, Tree.Everywhere, Tree.EverywhereMembers, Tree.KeysDiffer]
  · simp [Tree.Everywhere, Tree.EverywhereMembers, Tree.NoBrace]

/-- A setting of the map `limits` as text, of which one entry does not fit. -/
def Sample.limitsText : Tree := .map [("limits", .text "\x7b\"a\":\"x\"\x7d")]

theorem read_limitsText : Sample.mixed.read Sample.limitsText =
    .error ⟨[.key "limits", .key "a"], .notInteger "x" "u32" .wrongDigit⟩ := by
  have hprint : Tree.print .compact (.map [("a", .text "x")]) = "\x7b\"a\":\"x\"\x7d" := by decide
  have hread : Tree.read "\x7b\"a\":\"x\"\x7d" = .ok (.map [("a", .text "x")]) := by
    rw [← hprint]
    refine Tree.read_print .compact ?_ ?_ (by decide)
    · simp [Tree.Distinct, Tree.Everywhere, Tree.EverywhereMembers, Tree.KeysDiffer]
    · simp [Tree.FloatFree, Tree.Everywhere, Tree.EverywhereMembers, Tree.NoFloat]
  have hlimits : (Shape.map .text Sample.u32).read (.text "\x7b\"a\":\"x\"\x7d") =
      .error ⟨[.key "a"], .notInteger "x" "u32" .wrongDigit⟩ := by
    rw [read, Tree.asMembers, if_pos (by decide), hread]
    rfl
  have hfield : field? "limits" [("mode", .option Sample.mode), ("grade", .option .char),
      ("wrap", .option Sample.wrapper), ("pair", .option Sample.pairStruct), ("limits", .map .text Sample.u32),
      ("beans", .list Sample.nestedBean), ("at", .option .instant),
      ("deep", .map .text (.map .text (.list Sample.i32)))] = some (Shape.map .text Sample.u32).read := rfl
  rw [Sample.mixed, Sample.lenient, Sample.limitsText, read]
  simp only [plain, Tree.asMembers, members, hfield, hlimits, Fit.below, Fit.andThen, Fit.of]

/-- One entry of a map that is written as text costs the whole record. -/
theorem bind_limitsText : (Sample.mixed.bind Sample.limitsText).result =
    .error (.binding "Mixed" "at 'limits.a': 'x' is not a valid u32: invalid digit found in string") := by
  have hmessage : Misfit.message ⟨[.key "limits", .key "a"], .notInteger "x" "u32" .wrongDigit⟩ =
    "at 'limits.a': 'x' is not a valid u32: invalid digit found in string" := by decide
  rw [← hmessage]
  exact bindWith_fault read_limitsText rfl rfl

end Shape

end Settings
