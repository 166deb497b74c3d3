import Settings.Proofs.Text.Elements
import Settings.Proofs.Tree.Removal
import Settings.Shape.Reading

/-! # Where a misfit lies

The path of a misfit leads along the nodes of the tree, except for two things that stand in for nodes: the
single item of the list that a scalar is taken for, and what is read from a text. A text can only stand for
keys if it holds a brace. -/

namespace Settings

/-- Where the misfits of a tree lie. -/
inductive Place : Tree → List PathStep → Prop
  /-- At the node, or in the lists that it is taken for. -/
  | indexes {t : Tree} {path : List PathStep} (h : ∀ step ∈ path, ∃ i, step = .index i) : Place t path
  /-- In what a text is read as. -/
  | text {s : String} {path : List PathStep} (h : '{' ∈ s.toList) : Place (.text s) path
  | member {ms : List (String × Tree)} {k : String} {t : Tree} {path : List PathStep} (hm : (k, t) ∈ ms)
      (h : Place t path) : Place (.map ms) (.key k :: path)
  | item {ts : List Tree} {i : Nat} {t : Tree} {path : List PathStep} (hi : ts[i]? = some t) (h : Place t path) :
      Place (.list ts) (.index i :: path)

theorem Place.here (t : Tree) : Place t [] := .indexes nofun

theorem Place.index_cons {t : Tree} {path : List PathStep} (i : Nat) (h : ∀ step ∈ path, ∃ j, step = .index j) :
    Place t (.index i :: path) := .indexes (List.forall_mem_cons.mpr ⟨⟨i, rfl⟩, h⟩)

/-- A misfit of a tree itself. -/
def At (t : Tree) (m : Misfit) : Prop := Place t m.path

/-- A misfit of a list of items, of which the first has an index. -/
def InItems (i : Nat) (ts : List Tree) (m : Misfit) : Prop :=
  m.path = [] ∨ ∃ j t path, ts[j]? = some t ∧ m.path = .index (i + j) :: path ∧ Place t path

/-- A misfit of a list of members. -/
def InMembers (ms : List (String × Tree)) (m : Misfit) : Prop :=
  m.path = [] ∨ ∃ k t path, (k, t) ∈ ms ∧ m.path = .key k :: path ∧ Place t path

/-! ### Misfits of a kind -/

namespace Fit

variable {α β : Type} {Q Q' : Misfit → Prop} {x : Fit α}

/-- If there is a misfit, it is of a kind. -/
def Fails (Q : Misfit → Prop) (x : Fit α) : Prop := ∀ m, x = .error m → Q m

theorem fails_of (a : α) : (of a).Fails Q := nofun

theorem fails_fail {cause : MisfitCause} (h : Q ⟨[], cause⟩) : (fail cause : Fit α).Fails Q := by
  rintro m ⟨rfl⟩
  exact h

theorem Fails.mono (h : x.Fails Q) (hQ : ∀ m, Q m → Q' m) : x.Fails Q' := fun m hm => hQ m (h m hm)

theorem Fails.map (h : x.Fails Q) (f : α → β) : (x.map f).Fails Q := by
  cases x with
  | error m =>
    rintro _ ⟨rfl⟩
    exact h m rfl
  | ok r => exact nofun

theorem Fails.within (h : x.Fails Q) : x.within.Fails Q := by
  cases x with
  | error m =>
    rintro _ ⟨rfl⟩
    exact h m rfl
  | ok r => exact nofun

theorem Fails.andThen {f : α → Fit β} (h : x.Fails Q) (hf : ∀ a ignored, x = .ok (a, ignored) → (f a).Fails Q) :
    (x.andThen f).Fails Q := by
  cases x with
  | error m =>
    rintro _ ⟨rfl⟩
    exact h m rfl
  | ok r =>
    obtain ⟨a, ignored⟩ := r
    intro m hm
    unfold Fit.andThen at hm
    cases hfa : f a with
    | error e =>
      simp only [hfa] at hm
      cases hm
      exact hf a ignored rfl m hfa
    | ok b =>
      simp only [hfa] at hm
      cases hm

theorem Fails.below {step : PathStep} (h : x.Fails fun m => Q { m with path := step :: m.path }) (segment : String) :
    (x.below step segment).Fails Q := by
  cases x with
  | error m =>
    rintro _ ⟨rfl⟩
    exact h m rfl
  | ok r => exact nofun

theorem Fails.inVariant {variant : String} (h : x.Fails fun m => Q { m with path := .key variant :: m.path }) :
    (x.inVariant variant).Fails Q := by
  cases x with
  | error m =>
    rintro _ ⟨rfl⟩
    exact h m rfl
  | ok r => exact nofun

end Fit

/-! ### Lists and maps -/

section Parts
variable {t : Tree} {ts : List Tree} {ms : List (String × Tree)} {i : Nat} {m : Misfit}

theorem InItems.head {path : List PathStep} {cause : MisfitCause} (h : Place t path) :
    InItems i (t :: ts) ⟨.index i :: path, cause⟩ := .inr ⟨0, t, path, rfl, rfl, h⟩

theorem InItems.cons (h : InItems (i + 1) ts m) : InItems i (t :: ts) m := by
  rcases h with h | ⟨j, u, path, hj, hm, hu⟩
  · exact .inl h
  · refine .inr ⟨j + 1, u, path, ?_, ?_, hu⟩
    · rwa [List.getElem?_cons_succ]
    · rw [hm, Nat.add_right_comm, Nat.add_assoc]

theorem InMembers.head {k : String} {path : List PathStep} {cause : MisfitCause} (h : Place t path) :
    InMembers ((k, t) :: ms) ⟨.key k :: path, cause⟩ := .inr ⟨k, t, path, List.mem_cons_self, rfl, h⟩

theorem InMembers.cons {p : String × Tree} (h : InMembers ms m) : InMembers (p :: ms) m := by
  rcases h with h | ⟨k, u, path, hk, hm, hu⟩
  · exact .inl h
  · exact .inr ⟨k, u, path, List.mem_cons_of_mem p hk, hm, hu⟩

/-- A list that a node is taken for has its misfits where the node has them. -/
theorem InItems.of_asItems (ht : t.asItems = .ok ts) (h : InItems 0 ts m) : At t m := by
  unfold At
  rcases h with h | ⟨j, u, path, hj, hm, hu⟩
  · exact h ▸ Place.here t
  rw [hm, Nat.zero_add]
  cases t with
  | null =>
    cases ht
    cases hj
  | list items =>
    cases ht
    exact .item hj hu
  | map members => cases ht
  | text s =>
    cases ht
    obtain ⟨e, he, rfl⟩ := List.mem_map.mp (List.mem_of_getElem? hj)
    cases hu with
    | indexes h => exact Place.index_cons j h
    | text h => exact .text (Text.splitList_subset he h)
  | _ =>
    cases ht
    rw [List.mem_singleton.mp (List.mem_of_getElem? hj)] at hu
    cases hu with
    | indexes h => exact Place.index_cons j h

/-- Members that a node is taken for have their misfits where the node has them. -/
theorem InMembers.of_asMembers (ht : t.asMembers = .ok ms) (h : InMembers ms m) : At t m := by
  unfold At
  rcases h with h | ⟨k, u, path, hk, hm, hu⟩
  · exact h ▸ Place.here t
  rw [hm]
  cases t with
  | null =>
    cases ht
    cases hk
  | map members =>
    cases ht
    exact .member hk hu
  | text s =>
    rw [Tree.asMembers] at ht
    split at ht
    · next hbrace => exact .text (Text.trimStart_subset _ (List.mem_of_mem_head? hbrace))
    · cases ht
  | _ => cases ht

end Parts

namespace Shape

variable {α : Type} {t : Tree} {ts : List Tree} {ms : List (String × Tree)} {i : Nat}

theorem fails_plain {Q : Misfit → Prop} (h : ∀ cause, Q ⟨[], cause⟩) (x : Except MisfitCause α) :
    (plain x).Fails Q := by
  cases x with
  | error cause => exact Fit.fails_fail (h cause)
  | ok a => exact Fit.fails_of a

theorem plain_ok {x : Except MisfitCause α} {a : α} {ignored : List (List String)} (h : plain x = .ok (a, ignored)) :
    x = .ok a := by
  cases x with
  | error cause => cases h
  | ok b =>
    cases h
    rfl

theorem fails_asItems {f : List Tree → Fit α} (h : ∀ ts, (f ts).Fails (InItems 0 ts)) :
    ((plain t.asItems).andThen f).Fails (At t) :=
  Fit.Fails.andThen (fails_plain (fun _ => Place.here t) _) fun ts _ hts =>
    (h ts).mono fun _ hm => InItems.of_asItems (plain_ok hts) hm

theorem fails_asMembers {f : List (String × Tree) → Fit α} (h : ∀ ms, (f ms).Fails (InMembers ms)) :
    ((plain t.asMembers).andThen f).Fails (At t) :=
  Fit.Fails.andThen (fails_plain (fun _ => Place.here t) _) fun ms _ hms =>
    (h ms).mono fun _ hm => InMembers.of_asMembers (plain_ok hms) hm

theorem fails_each {read : Tree → Fit α} (h : ∀ t, (read t).Fails (At t)) :
    (each read i ts).Fails (InItems i ts) := by
  induction ts generalizing i with
  | nil => exact Fit.fails_of _
  | cons t ts ih =>
    refine Fit.Fails.andThen (Fit.Fails.below ((h t).mono fun m hm => InItems.head hm) _) fun a _ _ => ?_
    exact Fit.Fails.map (Fit.Fails.mono ih fun m hm => InItems.cons hm) _

theorem fails_each_take {read : Tree → Fit α} (h : ∀ t, (read t).Fails (At t)) (count : Nat) :
    (each read i (ts.take count)).Fails (InItems i ts) := by
  refine (fails_each h).mono fun m hm => ?_
  rcases hm with hm | ⟨j, u, path, hj, hm, hu⟩
  · exact .inl hm
  · refine .inr ⟨j, u, path, ?_, hm, hu⟩
    rw [List.getElem?_take] at hj
    split at hj
    · exact hj
    · cases hj

/-- A text as the key of a map is always taken. -/
theorem fails_entries {value : Tree → Fit Datum} {done : List (Datum × Datum)} (h : ∀ t, (value t).Fails (At t)) :
    (entries (read .text) value done ms).Fails (InMembers ms) := by
  induction ms generalizing done with
  | nil => exact Fit.fails_of _
  | cons p ms ih =>
    obtain ⟨k, t⟩ := p
    refine Fit.Fails.andThen nofun fun k' _ _ => ?_
    refine Fit.Fails.andThen (Fit.Fails.below ((h t).mono fun m hm => InMembers.head hm) _) fun a _ _ => ?_
    exact Fit.Fails.mono ih fun m hm => InMembers.cons hm

theorem fails_members {closed : Bool} {names : List String} {field? : String → Option (Tree → Fit Datum)}
    {done : List (String × Datum)} (h : ∀ k read, field? k = some read → ∀ t, (read t).Fails (At t)) :
    (members closed names field? done ms).Fails (InMembers ms) := by
  induction ms generalizing done with
  | nil => exact Fit.fails_of _
  | cons p ms ih =>
    obtain ⟨k, t⟩ := p
    unfold members
    split
    · next read hread =>
      refine Fit.Fails.andThen (Fit.Fails.below ((h k read hread t).mono fun m hm => InMembers.head hm) _) fun a _ _ => ?_
      exact Fit.Fails.mono ih fun m hm => InMembers.cons hm
    · split
      · exact Fit.Fails.below (Fit.fails_fail (InMembers.head (Place.here t))) _
      · exact Fit.Fails.andThen nofun fun _ _ _ => Fit.Fails.mono ih fun m hm => InMembers.cons hm

/-- Only a strict record misses fields. -/
theorem fails_complete {Q : Misfit → Prop} {strict : Bool} (h : strict → ∀ cause, Q ⟨[], cause⟩)
    {found : List (String × Datum)} {fields : List (String × Shape)} : (complete strict found fields).Fails Q := by
  induction fields with
  | nil => exact Fit.fails_of _
  | cons p fields ih =>
    obtain ⟨name, s⟩ := p
    refine Fit.Fails.andThen ?_ fun d _ _ => Fit.Fails.map ih _
    split
    · exact Fit.fails_of _
    · exact Fit.fails_of _
    · split
      · next hs => exact Fit.fails_fail (h hs _)
      · exact Fit.fails_of _

/-! ### Shapes -/

end Shape

mutual

/-- The keys of all maps inside a shape are texts. -/
def Shape.TextKeys : Shape → Prop
  | .option s | .list s | .array _ s | .newtype _ s => s.TextKeys
  | .tuple ss | .tupleRecord _ ss => Shape.TextKeysAll ss
  | .map key value => key = .text ∧ value.TextKeys
  | .record _ _ _ fields => Shape.TextKeysFields fields
  | .choice _ variants => Shape.TextKeysVariants variants
  | _ => True

def Shape.TextKeysAll : List Shape → Prop
  | [] => True
  | s :: ss => s.TextKeys ∧ Shape.TextKeysAll ss

def Shape.TextKeysFields : List (String × Shape) → Prop
  | [] => True
  | (_, s) :: fields => s.TextKeys ∧ Shape.TextKeysFields fields

def Shape.TextKeysVariants : List (String × Payload) → Prop
  | [] => True
  | (_, p) :: variants => p.TextKeys ∧ Shape.TextKeysVariants variants

def Payload.TextKeys : Payload → Prop
  | .nothing => True
  | .content s => s.TextKeys
  | .items ss => Shape.TextKeysAll ss
  | .fields fields => Shape.TextKeysFields fields

end

namespace Shape

mutual

/-- A misfit of a tree lies at a place of the tree. -/
theorem fails_read (s : Shape) (t : Tree) (hs : s.TextKeys) : (s.read t).Fails (At t) := by
  have hplain : ∀ {α : Type} (x : Except MisfitCause α), (plain x).Fails (At t) :=
    fails_plain fun _ => Place.here t
  -- A scalar shape blames the tree itself, a container hands on what the readers of its parts blame.
  cases s with
  | bool => exact hplain _
  | int kind =>
    rw [read]
    split
    · exact Fit.fails_fail (Place.here t)
    · exact hplain _
  | float => exact hplain _
  | single => exact hplain _
  | char => exact hplain _
  | text => exact hplain _
  | bytes =>
    rw [read.eq_def]
    dsimp only
    split
    · exact Fit.fails_of _
    · exact fails_asItems fun ts => Fit.Fails.map (fails_each fun t => fails_plain (fun _ => Place.here t) _) _
  | unit =>
    rw [read]
    split
    · exact Fit.fails_of _
    · exact Fit.fails_fail (Place.here t)
  | tree => exact Fit.fails_of _
  | instant => exact hplain _
  | date => exact hplain _
  | time => exact hplain _
  | dateTime => exact hplain _
  | option content =>
    rw [read]
    split
    · exact Fit.fails_of _
    · exact Fit.Fails.map (Fit.Fails.within (fails_read content t hs)) _
  | list item =>
    exact fails_asItems fun ts => Fit.Fails.map (fails_each fun t => fails_read item t hs) _
  | sortedTexts =>
    exact fails_asItems fun ts => Fit.Fails.map (fails_each fun t => fails_plain (fun _ => Place.here t) _) _
  | distinctTexts =>
    exact fails_asItems fun ts => Fit.Fails.map (fails_each fun t => fails_plain (fun _ => Place.here t) _) _
  | array count item =>
    refine fails_asItems fun ts => ?_
    have heach : ∀ t, (item.read t).Fails (At t) := fun t => fails_read item t hs
    split
    · exact Fit.Fails.andThen (fails_each heach) fun _ _ _ => Fit.fails_fail (.inl rfl)
    · exact Fit.Fails.map (fails_each_take heach count) _
  | tuple items => exact fails_asItems fun ts => Fit.Fails.map (fails_readItems _ 0 items ts hs) _
  | map key value =>
    obtain ⟨rfl, hv⟩ := hs
    exact fails_asMembers fun ms => Fit.Fails.map (fails_entries fun t => fails_read value t hv) _
  | newtype name content => exact Fit.Fails.map (Fit.Fails.within (fails_read content t hs)) _
  | tupleRecord name items => exact fails_asItems fun ts => Fit.Fails.map (fails_readItems _ 0 items ts hs) _
  | unitRecord name =>
    rw [read]
    split
    · exact Fit.fails_of _
    · exact Fit.fails_fail (Place.here t)
  | record name strict closed fields =>
    refine fails_asMembers fun ms => Fit.Fails.andThen (fails_members fun k read hread t => ?_) fun found _ _ => ?_
    · exact fails_field fields hs hread t
    · exact Fit.Fails.map (fails_complete fun _ _ => .inl rfl) _
  | choice name variants =>
    cases t with
    | text s =>
      rw [read]
      split
      · exact hplain _
      · exact Fit.fails_fail (Place.here _)
    | map ms =>
      match ms with
      | [(variant, t)] =>
        rw [read]
        split
        · next read hread => exact fails_variant name variants hs hread t
        · exact Fit.fails_fail (Place.here _)
      | [] => exact Fit.fails_fail (Place.here _)
      | _ :: _ :: _ => exact Fit.fails_fail (Place.here _)
    | _ => exact Fit.fails_fail (Place.here _)

theorem fails_readItems (expected : String) (i : Nat) (ss : List Shape) (ts : List Tree) (hs : TextKeysAll ss) :
    (readItems expected i ss ts).Fails (InItems i ts) := by
  cases ss with
  | nil => exact Fit.fails_of _
  | cons s ss =>
    cases ts with
    | nil => exact Fit.fails_fail (.inl rfl)
    | cons t ts =>
      refine Fit.Fails.andThen (Fit.Fails.below ((fails_read s t hs.1).mono fun m hm => InItems.head hm) _) fun d _ _ => ?_
      exact Fit.Fails.map ((fails_readItems expected (i + 1) ss ts hs.2).mono fun m hm => InItems.cons hm) _

theorem fails_field {k : String} {read : Tree → Fit Datum} (fields : List (String × Shape)) (hs : TextKeysFields fields)
    (hread : field? k fields = some read) (t : Tree) : (read t).Fails (At t) := by
  match fields with
  | [] => cases hread
  | (n, s) :: fields =>
    rw [field?] at hread
    split at hread
    · cases hread
      exact fails_read s t hs.1
    · exact fails_field fields hs.2 hread t

/-- The content of a variant is the only member of a map. -/
theorem fails_variant {variant : String} {read : Tree → Fit Datum} (type : String) (variants : List (String × Payload))
    (hs : TextKeysVariants variants) (hread : variant? type variant variants = some read) (t : Tree) :
    (read t).Fails (At (.map [(variant, t)])) := by
  match variants with
  | [] => cases hread
  | (n, p) :: variants =>
    rw [variant?] at hread
    split at hread
    · next hn =>
      cases hread
      subst hn
      exact fails_content type n p t hs.1
    · exact fails_variant type variants hs.2 hread t

theorem fails_content (type variant : String) (p : Payload) (t : Tree) (hs : p.TextKeys) :
    (content type variant p t).Fails (At (.map [(variant, t)])) := by
  have hmember : ∀ {x : Fit Datum}, x.Fails (At t) → (x.inVariant variant).Fails (At (.map [(variant, t)])) :=
    fun h => Fit.Fails.inVariant (h.mono fun m hm => Place.member (List.mem_singleton.mpr rfl) hm)
  cases p with
  | nothing => exact Fit.fails_of _
  | content s => exact hmember (Fit.Fails.map (Fit.Fails.within (fails_read s t hs)) _)
  | items ss => exact hmember (fails_asItems fun ts => Fit.Fails.map (fails_readItems _ 0 ss ts hs) _)
  | fields fields =>
    refine hmember (fails_asMembers fun ms => Fit.Fails.andThen (fails_members fun k read hread t => ?_) fun found _ _ => ?_)
    · exact fails_field fields hs hread t
    · exact Fit.Fails.map (fails_complete fun _ _ => .inl rfl) _

end

end Shape

end Settings
