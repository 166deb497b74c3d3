import Settings.Proofs.Tree.Form

/-! # Taking out what a path leads to

A node can be taken out of a tree unless the path to it breaks off. A path that goes on below a text breaks
off there. What holds at each node still does when a node is gone. -/

namespace Settings.Tree

variable {t t' : Tree} {ts ts' : List Tree} {ms ms' : List (String × Tree)} {k : String} {i : Nat}
  {path : List PathStep} {f : Tree → Option Tree} {P : Tree → Prop}

/-- A path goes on below a text, and the text holds a brace. -/
inductive CrossesText : Tree → List PathStep → Prop
  | here {s : String} {step : PathStep} {path : List PathStep} (hs : '{' ∈ s.toList) :
      CrossesText (.text s) (step :: path)
  | member {ms : List (String × Tree)} {k : String} {t : Tree} {path : List PathStep}
      (hk : Assoc.get? k ms = some t) (h : CrossesText t path) : CrossesText (.map ms) (.key k :: path)
  | item {ts : List Tree} {i : Nat} {t : Tree} {path : List PathStep} (hi : ts[i]? = some t)
      (h : CrossesText t path) : CrossesText (.list ts) (.index i :: path)

/-- A text holds no brace. -/
def NoBrace (t : Tree) : Prop := ∀ s, t = .text s → '{' ∉ s.toList

/-! ### Altering one entry -/

theorem alterMember_isSome_iff :
    (alterMember k f ms).isSome ↔ ∃ t, Assoc.get? k ms = some t ∧ (f t).isSome := by
  induction ms with
  | nil => simp [alterMember, Assoc.get?]
  | cons p ms ih =>
    obtain ⟨a, t⟩ := p
    unfold alterMember Assoc.get?
    split
    · simp
    · rw [Option.isSome_map, ih]

theorem alterItem_isSome_iff : (alterItem f i ts).isSome ↔ ∃ t, ts[i]? = some t ∧ (f t).isSome := by
  induction ts generalizing i with
  | nil => simp [alterItem]
  | cons t ts ih =>
    cases i with
    | zero => simp [alterItem]
    | succ i => rw [alterItem, Option.isSome_map, ih, List.getElem?_cons_succ]

theorem keys_alterMember (h : alterMember k f ms = some ms') : Assoc.keys ms' = Assoc.keys ms := by
  induction ms generalizing ms' with
  | nil => cases h
  | cons p ms ih =>
    obtain ⟨a, t⟩ := p
    unfold alterMember at h
    split at h
    · obtain ⟨t', -, rfl⟩ := Option.map_eq_some_iff.mp h
      rfl
    · obtain ⟨ms'', hms, rfl⟩ := Option.map_eq_some_iff.mp h
      rw [Assoc.keys_cons, Assoc.keys_cons, ih hms]

theorem get?_alterMember {f : Tree → Option Tree} {ms' : List (String × Tree)}
    (h : alterMember k f ms = some ms') :
    (∀ a, a ≠ k → Assoc.get? a ms' = Assoc.get? a ms) ∧
      ∃ t t', Assoc.get? k ms = some t ∧ f t = some t' ∧ Assoc.get? k ms' = some t' := by
  induction ms generalizing ms' with
  | nil => cases h
  | cons p ms ih =>
    obtain ⟨b, t⟩ := p
    rw [alterMember] at h
    split at h
    · next hb =>
      obtain ⟨t', ht, rfl⟩ := Option.map_eq_some_iff.mp h
      refine ⟨fun a ha => ?_, t, t', if_pos hb, ht, if_pos hb⟩
      have hba : b ≠ a := fun e => ha (e.symm.trans hb)
      simp only [Assoc.get?, if_neg hba]
    · next hb =>
      obtain ⟨ms'', hms, rfl⟩ := Option.map_eq_some_iff.mp h
      obtain ⟨hother, u, u', hu, hf, hu'⟩ := ih hms
      refine ⟨fun a ha => ?_, u, u', (if_neg hb).trans hu, hf, (if_neg hb).trans hu'⟩
      simp only [Assoc.get?, hother a ha]

theorem mem_alterMember (h : alterMember k f ms = some ms') {p : String × Tree} (hp : p ∈ ms') :
    p ∈ ms ∨ ∃ q ∈ ms, f q.2 = some p.2 := by
  induction ms generalizing ms' with
  | nil => cases h
  | cons q ms ih =>
    obtain ⟨a, t⟩ := q
    unfold alterMember at h
    split at h
    · obtain ⟨t', ht, rfl⟩ := Option.map_eq_some_iff.mp h
      rcases List.mem_cons.mp hp with rfl | hp
      · exact .inr ⟨(a, t), List.mem_cons_self, ht⟩
      · exact .inl (List.mem_cons_of_mem _ hp)
    · obtain ⟨ms'', hms, rfl⟩ := Option.map_eq_some_iff.mp h
      rcases List.mem_cons.mp hp with rfl | hp
      · exact .inl List.mem_cons_self
      · rcases ih hms hp with hp | ⟨q, hq, hf⟩
        · exact .inl (List.mem_cons_of_mem _ hp)
        · exact .inr ⟨q, List.mem_cons_of_mem _ hq, hf⟩

theorem mem_alterItem (h : alterItem f i ts = some ts') (ht : t ∈ ts') : t ∈ ts ∨ ∃ u ∈ ts, f u = some t := by
  induction ts generalizing i ts' with
  | nil => simp [alterItem] at h
  | cons u ts ih =>
    cases i with
    | zero =>
      obtain ⟨u', hu, rfl⟩ := Option.map_eq_some_iff.mp h
      rcases List.mem_cons.mp ht with rfl | ht
      · exact .inr ⟨u, List.mem_cons_self, hu⟩
      · exact .inl (List.mem_cons_of_mem _ ht)
    | succ i =>
      obtain ⟨ts'', hts, rfl⟩ := Option.map_eq_some_iff.mp h
      rcases List.mem_cons.mp ht with rfl | ht
      · exact .inl List.mem_cons_self
      · rcases ih hts ht with ht | ⟨u, hu, hf⟩
        · exact .inl (List.mem_cons_of_mem _ ht)
        · exact .inr ⟨u, List.mem_cons_of_mem _ hu, hf⟩

/-! ### Following a path -/

theorem remove?_key (hne : path ≠ []) :
    remove? (.key k :: path) (map ms) = (alterMember k (remove? path) ms).map map := by
  cases path with
  | nil => exact absurd rfl hne
  | cons step path => rfl

theorem remove?_index (hne : path ≠ []) :
    remove? (.index i :: path) (list ts) = (alterItem (remove? path) i ts).map list := by
  cases path with
  | nil => exact absurd rfl hne
  | cons step path => rfl

theorem remove?_member (hk : Assoc.get? k ms = some t) (h : path = [] ∨ (t.remove? path).isSome) :
    ((map ms).remove? (.key k :: path)).isSome := by
  cases path with
  | nil => rw [Tree.remove?, if_pos (by rw [hk]; rfl)]; rfl
  | cons step path =>
    rw [remove?_key (List.cons_ne_nil _ _), Option.isSome_map, alterMember_isSome_iff]
    exact ⟨t, hk, h.resolve_left (List.cons_ne_nil _ _)⟩

theorem remove?_item (hi : ts[i]? = some t) (h : (t.remove? path).isSome) :
    ((list ts).remove? (.index i :: path)).isSome := by
  cases path with
  | nil => cases h
  | cons step path =>
    rw [remove?_index (List.cons_ne_nil _ _), Option.isSome_map, alterItem_isSome_iff]
    exact ⟨t, hi, h⟩

theorem remove?_map (h : (map ms).remove? path = some t) : ∃ ms', t = map ms' := by
  match path with
  | [] => cases h
  | .index i :: path => cases path <;> cases h
  | .key k :: path =>
    by_cases hp : path = []
    · subst hp
      unfold Tree.remove? at h
      split at h
      · cases h
        exact ⟨_, rfl⟩
      · cases h
    · rw [remove?_key hp] at h
      obtain ⟨ms', -, rfl⟩ := Option.map_eq_some_iff.mp h
      exact ⟨ms', rfl⟩

/-- Taking out a member, or a node below it, leaves all other members as they are. -/
theorem get?_remove? (hms : (Assoc.keys ms).Nodup) (h : (map ms).remove? (.key k :: path) = some t') :
    ∃ ms', t' = map ms' ∧ (Assoc.keys ms').Nodup ∧ (∀ a, a ≠ k → Assoc.get? a ms' = Assoc.get? a ms) ∧
      (path = [] ∧ Assoc.get? k ms' = none ∨
        ∃ u u', Assoc.get? k ms = some u ∧ u.remove? path = some u' ∧ Assoc.get? k ms' = some u') := by
  by_cases hp : path = []
  · subst hp
    rw [Tree.remove?] at h
    split at h
    · cases h
      refine ⟨Assoc.erase k ms, rfl, hms.sublist ((Assoc.erase_sublist k ms).map Prod.fst), ?_, .inl ⟨rfl, ?_⟩⟩
      · exact fun a ha => Assoc.get?_erase_of_ne ha
      · exact Assoc.get?_erase_self hms
    · cases h
  · rw [remove?_key hp] at h
    obtain ⟨ms', hms', rfl⟩ := Option.map_eq_some_iff.mp h
    obtain ⟨hother, hself⟩ := get?_alterMember hms'
    exact ⟨ms', rfl, keys_alterMember hms' ▸ hms, hother, .inr hself⟩

theorem CrossesText.ne_nil (h : CrossesText t path) : path ≠ [] := by
  cases h with
  | _ => exact List.cons_ne_nil _ _

/-- A path that goes on below a text leads to nothing that could be taken out. -/
theorem CrossesText.remove?_eq_none (h : CrossesText t path) : t.remove? path = none := by
  induction h with
  | @here s step path hs =>
    cases step with
    | _ => cases path <;> rfl
  | @member ms k t path hk h ih =>
    rw [remove?_key h.ne_nil, Option.map_eq_none_iff, ← Option.not_isSome_iff_eq_none, alterMember_isSome_iff]
    rintro ⟨u, hu, hsome⟩
    rw [hk, Option.some.injEq] at hu
    rw [← hu, ih] at hsome
    cases hsome
  | @item ts i t path hi h ih =>
    rw [remove?_index h.ne_nil, Option.map_eq_none_iff, ← Option.not_isSome_iff_eq_none, alterItem_isSome_iff]
    rintro ⟨u, hu, hsome⟩
    rw [hi, Option.some.injEq] at hu
    rw [← hu, ih] at hsome
    cases hsome

theorem CrossesText.not_noBrace (h : CrossesText t path) : ¬ t.Everywhere NoBrace := by
  induction h with
  | here hs => exact fun hall => hall _ rfl hs
  | member hk h ih => exact fun hall => ih (everywhereMembers_iff.mp hall.2 _ (Assoc.mem_of_get? hk))
  | item hi h ih => exact fun hall => ih (everywhereItems_iff.mp hall.2 _ (List.mem_of_getElem? hi))

/-! ### What stays -/

/-- What holds at each node still does when a node is gone, if it depends on nothing but the keys of a map, and
    not on all of them being there. -/
theorem Everywhere.remove? (hlist : ∀ ts ts', P (list ts) → P (list ts'))
    (hmap : ∀ ms ms', (Assoc.keys ms').Sublist (Assoc.keys ms) → P (map ms) → P (map ms'))
    (h : t.Everywhere P) (hr : t.remove? path = some t') : t'.Everywhere P := by
  induction path generalizing t t' with
  | nil => cases hr
  | cons step path ih =>
    -- The last step takes an entry out; any other leaves the entries where they are and goes on in one of them.
    cases step with
    | key k =>
      cases t with
      | map ms =>
        have hall := everywhereMembers_iff.mp h.2
        by_cases hp : path = []
        · subst hp
          unfold Tree.remove? at hr
          split at hr
          · cases hr
            have hsub := Assoc.erase_sublist k ms
            exact ⟨hmap _ _ (hsub.map Prod.fst) h.1, everywhereMembers_iff.mpr fun p hp => hall p (hsub.subset hp)⟩
          · cases hr
        · rw [remove?_key hp] at hr
          obtain ⟨ms', hms, rfl⟩ := Option.map_eq_some_iff.mp hr
          refine ⟨hmap _ _ (keys_alterMember hms ▸ List.Sublist.refl _) h.1, everywhereMembers_iff.mpr fun p hp => ?_⟩
          rcases mem_alterMember hms hp with hp | ⟨q, hq, hf⟩
          · exact hall p hp
          · exact ih (hall q hq) hf
      | _ => cases path <;> cases hr
    | index i =>
      cases t with
      | list ts =>
        have hall := everywhereItems_iff.mp h.2
        by_cases hp : path = []
        · subst hp
          unfold Tree.remove? at hr
          split at hr
          · cases hr
            exact ⟨hlist _ _ h.1, everywhereItems_iff.mpr fun t ht => hall t (List.mem_of_mem_eraseIdx ht)⟩
          · cases hr
        · rw [remove?_index hp] at hr
          obtain ⟨ts', hts, rfl⟩ := Option.map_eq_some_iff.mp hr
          refine ⟨hlist _ _ h.1, everywhereItems_iff.mpr fun t ht => ?_⟩
          rcases mem_alterItem hts ht with ht | ⟨u, hu, hf⟩
          · exact hall t ht
          · exact ih (hall u hu) hf
      | _ => cases path <;> cases hr

theorem Distinct.remove? (h : t.Distinct) (hr : t.remove? path = some t') : t'.Distinct := by
  refine Everywhere.remove? (fun _ _ _ _ h => nomatch h) (fun ms ms' hsub hms => ?_) h hr
  rintro _ ⟨rfl⟩
  exact (hms ms rfl).sublist hsub

theorem noBrace_remove? (h : t.Everywhere NoBrace) (hr : t.remove? path = some t') : t'.Everywhere NoBrace :=
  Everywhere.remove? (fun _ _ _ _ h => nomatch h) (fun _ _ _ _ _ h => nomatch h) h hr

end Settings.Tree
