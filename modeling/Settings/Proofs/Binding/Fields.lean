import Settings.Proofs.Binding.Skipping
import Settings.Proofs.Shape.Carrying

/-! # What a field receives

A record of which every field has a default is read from a map one member at a time, and the misfits of a member lie
below its key. So a round of binding touches one member only, and what a field receives in the end depends on nothing
but the value of its own key. -/

namespace Settings

/-! ### Parts of shapes, values and trees -/

namespace Shape

def isOptional : Shape → Bool
  | option _ => true
  | _ => false

/-- The fields of a record of which each has a default. A value of the record may be absent, or be wrapped in a type of
    its own. -/
def fields? : Shape → Option (List (String × Shape))
  | record _ strict _ fields => if strict && !fields.all (·.2.isOptional) then none else some fields
  | option content => fields? content
  | newtype _ content => fields? content
  | _ => none

/-- The shape that a path of field names leads to. -/
def part? : List String → Shape → Option Shape
  | [], s => some s
  | k :: path, s => s.fields?.bind fun fields => (Assoc.get? k fields).bind (part? path)

end Shape

namespace Datum

/-- The fields of a record that is there. -/
def fields? : Datum → Option (List (String × Datum))
  | record fields => Option.some fields
  | some value => fields? value
  | newtype value => fields? value
  | _ => Option.none

/-- The value that a path of field names leads to. -/
def part? : List String → Datum → Option Datum
  | [], d => Option.some d
  | k :: path, d => d.fields?.bind fun fields => (Assoc.get? k fields).bind (part? path)

end Datum

namespace Tree

/-- The tree that has a node at the end of a path of keys and nothing else. -/
def alone : List String → Tree → Tree
  | [], t => t
  | k :: path, t => single k (alone path t)

end Tree

/-! ### Reading members -/

namespace Fit

variable {α β : Type} {x : Fit α} {f : α → Fit β} {b : β} {m : Misfit} {ignored : List (List String)}

theorem andThen_error (h : x.andThen f = .error m) :
    x = .error m ∨ ∃ a ignored, x = .ok (a, ignored) ∧ f a = .error m := by
  cases x with
  | error e => cases h; exact .inl rfl
  | ok r =>
    obtain ⟨a, ignored⟩ := r
    refine .inr ⟨a, ignored, rfl, ?_⟩
    simp only [andThen] at h
    cases hf : f a with
    | error e => rwa [hf] at h
    | ok q => rw [hf] at h; cases h

theorem andThen_ok (h : x.andThen f = .ok (b, ignored)) :
    ∃ a ignored more, x = .ok (a, ignored) ∧ f a = .ok (b, more) := by
  cases x with
  | error e => cases h
  | ok r =>
    obtain ⟨a, passed⟩ := r
    simp only [andThen] at h
    cases hf : f a with
    | error e => rw [hf] at h; cases h
    | ok q =>
      rw [hf] at h
      cases h
      exact ⟨a, passed, q.2, rfl, hf⟩

theorem below_error {step : PathStep} {segment : String} (h : x.below step segment = .error m) :
    ∃ path, m.path = step :: path ∧ x = .error ⟨path, m.cause⟩ := by
  cases x with
  | error e => cases h; exact ⟨e.path, rfl, rfl⟩
  | ok r => cases h

theorem below_ok {a : α} {step : PathStep} {segment : String} (h : x.below step segment = .ok (a, ignored)) :
    ∃ ignored, x = .ok (a, ignored) := by
  cases x with
  | error e => cases h
  | ok r => cases h; exact ⟨r.2, rfl⟩

end Fit

namespace Shape

section Reading
variable {s u : Shape} {fields : List (String × Shape)} {ms : List (String × Tree)} {closed : Bool}
  {names : List String} {reader? : String → Option (Tree → Fit Datum)} {k : String} {t : Tree} {m : Misfit}
  {done found : List (String × Datum)} {ignored : List (List String)} {d : Datum}

theorem field?_eq (k : String) (fields : List (String × Shape)) : field? k fields = (Assoc.get? k fields).map read := by
  induction fields with
  | nil => rfl
  | cons p fields ih =>
    rw [field?, Assoc.get?, ih]
    split <;> rfl

/-- A misfit among the members is the misfit of one of them, or a key that a closed record does not know. -/
theorem members_error (h : members closed names reader? done ms = .error m) :
    ∃ k path, m.path = .key k :: path ∧
      ((∃ t read, (k, t) ∈ ms ∧ reader? k = some read ∧ read t = .error ⟨path, m.cause⟩) ∨
        reader? k = none ∧ path = []) := by
  induction ms generalizing done with
  | nil => cases h
  | cons p ms ih =>
    obtain ⟨k, t⟩ := p
    -- A misfit further on is found further on.
    have hlater : ∀ done, members closed names reader? done ms = .error m →
        ∃ k' path, m.path = .key k' :: path ∧
          ((∃ t' read, (k', t') ∈ (k, t) :: ms ∧ reader? k' = some read ∧ read t' = .error ⟨path, m.cause⟩) ∨
            reader? k' = none ∧ path = []) := by
      intro done h
      obtain ⟨k', path, hm, ⟨t', read, hmem, hread, ht⟩ | hnone⟩ := ih h
      · exact ⟨k', path, hm, .inl ⟨t', read, List.mem_cons_of_mem _ hmem, hread, ht⟩⟩
      · exact ⟨k', path, hm, .inr hnone⟩
    rw [members] at h
    split at h
    · next read hread =>
      rcases Fit.andThen_error h with h | ⟨d, ignored, -, h⟩
      · obtain ⟨path, hm, ht⟩ := Fit.below_error h
        exact ⟨k, path, hm, .inl ⟨t, read, List.mem_cons_self, hread, ht⟩⟩
      · exact hlater _ h
    · next hnone =>
      split at h
      · obtain ⟨path, hm, ht⟩ := Fit.below_error h
        obtain ⟨hpath, -⟩ := Misfit.mk.inj (Except.error.inj ht)
        exact ⟨k, path, hm, .inr ⟨hnone, hpath.symm⟩⟩
      · rcases Fit.andThen_error h with h | ⟨d, ignored, -, h⟩
        · cases h
        · exact hlater _ h

/-- Each member that names a field is read, and leaves the fields that others name as they are. -/
theorem members_ok (hms : (Assoc.keys ms).Nodup) (h : members closed names reader? done ms = .ok (found, ignored))
    {read : Tree → Fit Datum} (hread : reader? k = some read) :
    (Assoc.get? k ms = none → Assoc.get? k found = Assoc.get? k done) ∧
      ∀ t, Assoc.get? k ms = some t → ∃ d ignored, read t = .ok (d, ignored) ∧ Assoc.get? k found = some d := by
  induction ms generalizing done ignored with
  | nil => cases h; exact ⟨fun _ => rfl, nofun⟩
  | cons p ms ih =>
    obtain ⟨a, t⟩ := p
    obtain ⟨ha, hms⟩ := List.nodup_cons.mp hms
    rw [members] at h
    split at h
    · next read' hread' =>
      obtain ⟨d, ignored, more, hd, h⟩ := Fit.andThen_ok h
      obtain ⟨ignored, hd⟩ := Fit.below_ok hd
      obtain ⟨hnone, hsome⟩ := ih hms h
      by_cases hka : a = k
      · subst hka
        rw [Assoc.get?, if_pos rfl]
        refine ⟨fun hnil => absurd hnil (Option.some_ne_none t), fun u hu => ?_⟩
        cases hu
        cases hread.symm.trans hread'
        exact ⟨d, ignored, hd, (hnone (Assoc.get?_eq_none_iff.mpr ha)).trans (Assoc.get?_insert_self a d done)⟩
      · rw [Assoc.get?, if_neg hka]
        exact ⟨fun hk => (hnone hk).trans (Assoc.get?_insert_of_ne (Ne.symm hka) d done), hsome⟩
    · next hnone =>
      have hka : a ≠ k := by
        rintro rfl
        rw [hnone] at hread
        cases hread
      rw [Assoc.get?, if_neg hka]
      split at h
      · cases h
      · obtain ⟨-, ignored, more, -, h⟩ := Fit.andThen_ok h
        exact ih hms h

/-- The fields of a record: those that were found, and the defaults of the others. -/
def filled (found : List (String × Datum)) (fields : List (String × Shape)) : List (String × Datum) :=
  fields.map fun p => (p.1, (Assoc.get? p.1 found).getD p.2.default)

theorem get?_filled (k : String) (found : List (String × Datum)) (fields : List (String × Shape)) :
    Assoc.get? k (filled found fields) = (Assoc.get? k fields).map fun s => (Assoc.get? k found).getD s.default :=
  Assoc.get?_map k (fun name (s : Shape) => (Assoc.get? name found).getD s.default) fields

theorem isOptional_iff : s.isOptional = true ↔ ∃ content, s = option content := by
  cases s <;> simp [isOptional]

/-- A record of which every field has a default misses none. -/
theorem complete_filled {strict : Bool} (h : ¬ (strict && !fields.all (·.2.isOptional)) = true) :
    complete strict found fields = .of (filled found fields) := by
  induction fields with
  | nil => rfl
  | cons p fields ih =>
    obtain ⟨name, s⟩ := p
    simp only [List.all_cons, Bool.and_eq_true, Bool.not_eq_true', Bool.and_eq_false_iff, not_and, not_or,
      Bool.not_eq_false] at h
    have htail := ih (by simpa using fun hs => (h hs).2)
    unfold complete
    simp only [htail]
    split
    · next d hf => simp [filled, hf]
    · next hf => simp [filled, hf, default]
    · next hf hs =>
      have hlax : strict = false := by
        by_contra hstrict
        obtain ⟨content, hcontent⟩ := isOptional_iff.mp (h (by simpa using hstrict)).1
        exact hs content hcontent
      simp [filled, hf, hlax]

/-- What a record of which every field has a default is, once the members of a map are read. -/
inductive Fills (fields : List (String × Shape)) : Fit (List (String × Datum)) → Fit Datum → Prop
  | misfit (m : Misfit) : Fills fields (.error m) (.error m)
  | found {found : List (String × Datum)} {ignored more : List (List String)} {d : Datum}
      (hd : d.fields? = some (filled found fields)) : Fills fields (.ok (found, ignored)) (.ok (d, more))

theorem Fills.wrapped {x : Fit (List (String × Datum))} {y : Fit Datum} (h : Fills fields x y) {f : Datum → Datum}
    (hf : ∀ d, (f d).fields? = d.fields?) : Fills fields x (y.within.map f) := by
  cases h with
  | misfit m => exact .misfit m
  | found hd => exact .found ((hf _).trans hd)

/-- A record of which every field has a default is made of the members that are read one by one. -/
theorem fills_read (hs : s.fields? = some fields) : ∃ closed names, ∀ ms,
    Fills fields (members closed names (fun k => field? k fields) [] ms) (s.read (.map ms)) := by
  fun_induction Shape.fields? s with
  | case1 => cases hs
  | case2 name strict closed fs h =>
    cases hs
    refine ⟨closed, fields.map Prod.fst, fun ms => ?_⟩
    rw [read, Tree.asMembers, plain_of, Fit.of_andThen]
    cases members closed (fields.map Prod.fst) (fun k => field? k fields) [] ms with
    | error m => exact .misfit m
    | ok r =>
      simp only [Fit.andThen, complete_filled h]
      exact .found rfl
  | case3 content ih =>
    obtain ⟨closed, names, h⟩ := ih hs
    exact ⟨closed, names, fun ms => (h ms).wrapped fun _ => rfl⟩
  | case4 name content ih =>
    obtain ⟨closed, names, h⟩ := ih hs
    exact ⟨closed, names, fun ms => (h ms).wrapped fun _ => rfl⟩
  | case5 => cases hs

theorem field?_of_get? {s' : Shape} (hk : Assoc.get? k fields = some s') : field? k fields = some s'.read := by
  rw [field?_eq, hk, Option.map_some]

/-- A misfit of a map that is read as a record lies in a member. -/
theorem misfit_member (hs : s.fields? = some fields) (hm : s.read (.map ms) = .error m) :
    ∃ k path, m.path = .key k :: path ∧ ∀ s', Assoc.get? k fields = some s' →
      ∃ t, (k, t) ∈ ms ∧ s'.read t = .error ⟨path, m.cause⟩ := by
  obtain ⟨closed, names, hfill⟩ := fills_read hs
  have hms := hfill ms
  rw [hm] at hms
  generalize hx : members closed names (fun k => field? k fields) [] ms = x at hms
  cases hms with
  | misfit =>
    obtain ⟨k, path, hpath, h⟩ := members_error hx
    refine ⟨k, path, hpath, fun s' hs' => ?_⟩
    rcases h with ⟨t, read, ht, hread, hmisfit⟩ | ⟨hnone, -⟩
    · cases hread.symm.trans (field?_of_get? hs')
      exact ⟨t, ht, hmisfit⟩
    · rw [field?_of_get? hs'] at hnone
      cases hnone

/-- Each field of what is read from a map is read from the member of its name, or has its default. -/
theorem read_fields (hs : s.fields? = some fields) (hms : (Assoc.keys ms).Nodup)
    (h : s.read (.map ms) = .ok (d, ignored)) :
    ∃ out, d.fields? = some out ∧ ∀ k s', Assoc.get? k fields = some s' →
      match Assoc.get? k ms with
      | some t => ∃ d ignored, s'.read t = .ok (d, ignored) ∧ Assoc.get? k out = some d
      | none => Assoc.get? k out = some s'.default := by
  obtain ⟨closed, names, hfill⟩ := fills_read hs
  have hlast := hfill ms
  rw [h] at hlast
  generalize hx : members closed names (fun k => field? k fields) [] ms = x at hlast
  cases hlast with
  | @found found _ _ _ hd =>
    refine ⟨_, hd, fun k s' hk => ?_⟩
    obtain ⟨hnone, hsome⟩ := members_ok hms hx (field?_of_get? hk)
    rw [get?_filled, hk, Option.map_some]
    cases hget : Assoc.get? k ms with
    | none =>
      rw [hnone hget]
      rfl
    | some t =>
      obtain ⟨d', ignored, hread, hfound⟩ := hsome t hget
      exact ⟨d', ignored, hread, by rw [hfound, Option.getD_some]⟩

/-- The misfit of a field's value is that of the map that holds nothing else. -/
theorem read_single_error {s' : Shape} (hs : s.fields? = some fields) (hk : Assoc.get? k fields = some s')
    (ht : s'.read t = .error m) : s.read (.single k t) = .error ⟨.key k :: m.path, m.cause⟩ := by
  obtain ⟨closed, names, hfill⟩ := fills_read hs
  have hone := hfill [(k, t)]
  simp only [members, field?_of_get? hk, ht, Fit.below, Fit.andThen] at hone
  generalize hx : s.read (.map [(k, t)]) = x at hone
  cases hone with
  | misfit => exact hx

theorem read_single_ok {s' : Shape} (hs : s.fields? = some fields) (hk : Assoc.get? k fields = some s')
    (ht : s'.read t = .ok (d, ignored)) : ∃ d ignored, s.read (.single k t) = .ok (d, ignored) := by
  obtain ⟨closed, names, hfill⟩ := fills_read hs
  have hone := hfill [(k, t)]
  simp only [members, field?_of_get? hk, ht, Fit.below, Fit.andThen, Fit.of] at hone
  generalize hx : s.read (.map [(k, t)]) = x at hone
  cases hone with
  | found => exact ⟨_, _, hx⟩

theorem read_empty (hs : s.fields? = some fields) : ∃ d ignored, s.read (.map []) = .ok (d, ignored) := by
  obtain ⟨closed, names, hfill⟩ := fills_read hs
  have hnone := hfill []
  simp only [members, Fit.of] at hnone
  generalize s.read (.map []) = x at hnone ⊢
  cases hnone with
  | found => exact ⟨_, _, rfl⟩

end Reading

/-! ### Rounds of one field -/

section Rounds
variable {s s' : Shape} {fields : List (String × Shape)} {ms : List (String × Tree)} {k : String} {t t' u : Tree}
  {m : Misfit} {path : List PathStep} {o : Option Datum} {ignored : List (List String)} {d : Datum}

/-- What a field receives from the value of its key: what is read when all that does not fit is left out of the value,
    and nothing if the value itself does not fit in the end. -/
inductive Receives (read : Tree → Fit Datum) : Option Tree → Option Datum → Prop
  | missing : Receives read none none
  | read {t u : Tree} {d : Datum} {ignored : List (List String)} (h : Rounds read t u) (hu : read u = .ok (d, ignored)) :
      Receives read (some t) (some d)
  | dropped {t u : Tree} {m : Misfit} (h : Rounds read t u) (hu : read u = .error m) (hf : m.field? = none) :
      Receives read (some t) none

theorem Receives.skip {read : Tree → Fit Datum} (hm : read t = .error m) (hf : m.field? = some path)
    (hr : t.remove? path = some t') (h : Receives read (some t') o) : Receives read (some t) o := by
  cases h with
  | read h hu => exact .read (.skip hm hf hr h) hu
  | dropped h hu hnone => exact .dropped (.skip hm hf hr h) hu hnone

/-- A round concerns one field: what the fields receive is the same before and after it. -/
theorem round_frame (hs : s.fields? = some fields) (hms : (Assoc.keys ms).Nodup) (hm : s.read (.map ms) = .error m)
    (hf : m.field? = some path) (hr : (Tree.map ms).remove? path = some t') :
    ∃ ms', t' = .map ms' ∧ (Assoc.keys ms').Nodup ∧ ∀ k s' o, Assoc.get? k fields = some s' →
      Receives s'.read (Assoc.get? k ms') o → Receives s'.read (Assoc.get? k ms) o := by
  obtain ⟨a, rest, hpath, hmember⟩ := misfit_member hs hm
  obtain rfl : .key a :: upToKey rest = path := by rw [← upToKey_key, ← hpath, Misfit.upToKey_of_field? hf]
  obtain ⟨ms', rfl, hms', hother, hself⟩ := Tree.get?_remove? hms hr
  refine ⟨ms', rfl, hms', fun k s' o hk h => ?_⟩
  -- The misfit lies in the member `a`: the fields of other names have the same node before and after.
  by_cases hka : k = a
  · subst hka
    obtain ⟨t, ht, hread⟩ := hmember s' hk
    have hget := Assoc.get?_of_mem hms ht
    rw [hget]
    rcases hself with ⟨hrest, hgone⟩ | ⟨u, u', hu, hremove, hu'⟩
    · rw [hgone] at h
      cases h
      exact .dropped .done hread (by rw [Misfit.field?_eq, if_pos hrest])
    · cases hu.symm.trans hget
      rw [hu'] at h
      have hne : upToKey rest ≠ [] := by
        intro hnil
        rw [hnil] at hremove
        cases hremove
      exact .skip hread (by rw [Misfit.field?_eq, if_neg hne]) hremove h
  · rwa [hother k hka] at h

/-- What is read in the end has in each field what the field receives from its key in the first map, or its default. -/
theorem rounds_fields (hs : s.fields? = some fields) (h : Rounds s.read t u) (ht : t = .map ms)
    (hms : (Assoc.keys ms).Nodup) (hu : s.read u = .ok (d, ignored)) :
    ∃ out, d.fields? = some out ∧ ∀ k s', Assoc.get? k fields = some s' →
      ∃ o, Receives s'.read (Assoc.get? k ms) o ∧ Assoc.get? k out = some (o.getD s'.default) := by
  induction h generalizing ms with
  | done =>
    subst ht
    obtain ⟨out, hout, hfields⟩ := read_fields hs hms hu
    refine ⟨out, hout, fun k s' hk => ?_⟩
    have hfield := hfields k s' hk
    cases hget : Assoc.get? k ms with
    | none =>
      rw [hget] at hfield
      exact ⟨none, .missing, hfield⟩
    | some t =>
      rw [hget] at hfield
      obtain ⟨d', ignored, hread, hfound⟩ := hfield
      exact ⟨some d', .read .done hread, hfound⟩
  | skip hm hf hr h ih =>
    subst ht
    obtain ⟨ms', rfl, hms', hback⟩ := round_frame hs hms hm hf hr
    obtain ⟨out, hout, hfields⟩ := ih rfl hms' hu
    refine ⟨out, hout, fun k s' hk => ?_⟩
    obtain ⟨o, ho, hget⟩ := hfields k s' hk
    exact ⟨o, hback k s' o hk ho, hget⟩

/-! ### A field that stands alone -/

/-- The rounds of the value of a field are those of the map that holds nothing else. -/
theorem rounds_single (hs : s.fields? = some fields) (hk : Assoc.get? k fields = some s') (h : Rounds s'.read t u) :
    Rounds s.read (.single k t) (.single k u) := by
  induction h with
  | done => exact .done
  | @skip t t' u m path hm hf hr h ih =>
    have hne : path ≠ [] := by
      rintro rfl
      cases hr
    refine .skip (read_single_error hs hk hm) (Misfit.field?_below k m.path m.cause) ?_ ih
    rw [Misfit.upToKey_of_field? hf, Tree.single, Tree.remove?_key hne, Tree.alterMember, if_pos rfl, hr]
    rfl

/-- A value binds alone if a field receives something from it, or nothing. -/
theorem Receives.bind_single (hs : s.fields? = some fields) (hk : Assoc.get? k fields = some s')
    (h : Receives s'.read (some t) o) : ∃ d, (s.bind (.single k t)).result = .ok d := by
  cases h with
  | @read _ u d ignored h hu =>
    obtain ⟨d', ignored', hread⟩ := read_single_ok hs hk hu
    exact ⟨d', bindWith_ok_iff.mpr ⟨_, _, rounds_single hs hk h, hread⟩⟩
  | @dropped _ u m h hu hf =>
    obtain ⟨d', ignored', hread⟩ := read_empty hs
    have hlast : Rounds s.read (.single k u) (.map []) := by
      refine .skip (read_single_error hs hk hu) (Misfit.field?_below k m.path m.cause) ?_ .done
      rw [Misfit.upToKey_of_field?_none hf, Tree.single, Tree.remove?, Assoc.get?, if_pos rfl, Assoc.erase, if_pos rfl]
      rfl
    exact ⟨d', ((rounds_single hs hk h).result_eq _).trans (bindWith_ok_iff.mpr ⟨_, _, hlast, hread⟩)⟩

/-- What a field receives is what its value binds to. -/
theorem Receives.eq {x : Option Tree} (h : Receives s.read x o) : o = x.bind fun t => (s.bind t).result.toOption := by
  cases h with
  | missing => rfl
  | read h hu =>
    have hok : (s.bind _).result = .ok _ := bindWith_ok_iff.mpr ⟨_, _, h, hu⟩
    rw [Option.bind_some, hok]
    rfl
  | @dropped t u m h hu hf =>
    have hfault : (s.bind t).result = .error (.binding s.typeName m.message) := by
      rw [bind, h.result_eq, result_bindWith, hu]
      simp only [hf, Option.bind_none]
    rw [Option.bind_some, hfault]
    rfl

/-- Each field of a record receives what the value of its key binds to, and its default if there is no such value or it
    does not bind. The value binds as well when nothing else is there. -/
theorem bind_fields (hs : s.fields? = some fields) (hms : (Assoc.keys ms).Nodup)
    (h : (s.bind (.map ms)).result = .ok d) :
    ∃ out, d.fields? = some out ∧ ∀ k s', Assoc.get? k fields = some s' →
      Assoc.get? k out = some (((Assoc.get? k ms).bind fun t => (s'.bind t).result.toOption).getD s'.default) ∧
      ∀ t, Assoc.get? k ms = some t → ∃ d, (s.bind (.single k t)).result = .ok d := by
  obtain ⟨u, ignored, hrounds, hu⟩ := bindWith_ok_iff.mp h
  obtain ⟨out, hout, hfields⟩ := rounds_fields hs hrounds rfl hms hu
  refine ⟨out, hout, fun k s' hk => ?_⟩
  obtain ⟨o, ho, hget⟩ := hfields k s' hk
  rw [← ho.eq]
  refine ⟨hget, fun t ht => ?_⟩
  rw [ht] at ho
  exact ho.bind_single hs hk

/-- A map that is read as a record of which every field has a default binds as a field's value wherever the record
    around it binds. -/
theorem Receives.of_map (hs : s.fields? = some fields) (h : Receives s.read (some (.map ms)) o) :
    ∃ d, o = some d ∧ (s.bind (.map ms)).result = .ok d := by
  cases h with
  | read h hu => exact ⟨_, rfl, bindWith_ok_iff.mpr ⟨_, _, h, hu⟩⟩
  | dropped h hu hf =>
    obtain ⟨ms', rfl⟩ := h.keeps (P := fun t => ∃ ms, t = .map ms)
      (fun t t' path ⟨ms, ht⟩ hr => Tree.remove?_map (ht ▸ hr)) ⟨ms, rfl⟩
    obtain ⟨k, path, hpath, -⟩ := misfit_member hs hu
    have hnil := Misfit.upToKey_of_field?_none hf
    rw [hpath, upToKey_key] at hnil
    cases hnil

theorem bind_single (hs : s.fields? = some fields) (hk : Assoc.get? k fields = some s')
    (h : (s'.bind t).result = .ok d) : ∃ d, (s.bind (.single k t)).result = .ok d := by
  obtain ⟨u, ignored, hrounds, hu⟩ := bindWith_ok_iff.mp h
  exact (Receives.read hrounds hu).bind_single hs hk

/-- The map of a field that is a record in turn binds, if the map around it does. -/
theorem bind_nested {fields' : List (String × Shape)} {ms' : List (String × Tree)} (hs : s.fields? = some fields)
    (hms : (Assoc.keys ms).Nodup) (h : (s.bind (.map ms)).result = .ok d) (hk : Assoc.get? k fields = some s')
    (hs' : s'.fields? = some fields') (ht : Assoc.get? k ms = some (.map ms')) :
    ∃ d', (s'.bind (.map ms')).result = .ok d' := by
  obtain ⟨u, ignored, hrounds, hu⟩ := bindWith_ok_iff.mp h
  obtain ⟨out, -, hfields⟩ := rounds_fields hs hrounds rfl hms hu
  obtain ⟨o, ho, -⟩ := hfields k s' hk
  rw [ht] at ho
  obtain ⟨d', -, hd'⟩ := ho.of_map hs'
  exact ⟨d', hd'⟩

end Rounds

/-! ### Parts that stand alone -/

section Parts
variable {s u : Shape} {path : List String} {f k : String} {m t : Tree} {ms : List (String × Tree)} {d d' : Datum}

theorem part?_cons_iff : s.part? (k :: path) = some u ↔
    ∃ fields s', s.fields? = some fields ∧ Assoc.get? k fields = some s' ∧ s'.part? path = some u := by
  simp only [part?, Option.bind_eq_some_iff]
  exact ⟨fun ⟨fields, hs, s', hk, hu⟩ => ⟨fields, s', hs, hk, hu⟩,
    fun ⟨fields, s', hs, hk, hu⟩ => ⟨fields, hs, s', hk, hu⟩⟩

theorem fields?_of_part? (hu : s.part? (path ++ [f]) = some u) : ∃ fields, s.fields? = some fields := by
  cases path with
  | nil =>
    obtain ⟨fields, -, hs, -⟩ := part?_cons_iff.mp hu
    exact ⟨fields, hs⟩
  | cons k path =>
    obtain ⟨fields, -, hs, -⟩ := part?_cons_iff.mp hu
    exact ⟨fields, hs⟩

theorem part?_fields {fields : List (String × Datum)} (hd : d.fields? = some fields) :
    d.part? (k :: path) = (Assoc.get? k fields).bind (Datum.part? path) := by
  rw [Datum.part?, hd, Option.bind_some]

/-- The field that a map of one key gives is what the value of the key binds to, or a default. -/
theorem part?_single {s' : Shape} {fields : List (String × Shape)} (hs : s.fields? = some fields)
    (hk : Assoc.get? k fields = some s') (h : (s.bind (.single k t)).result = .ok d) :
    d.part? (k :: path) = ((s'.bind t).result.toOption.getD s'.default).part? path := by
  have hkeys : (Assoc.keys [(k, t)]).Nodup := List.nodup_singleton k
  obtain ⟨out, hout, hfields⟩ := bind_fields hs hkeys h
  rw [part?_fields hout, (hfields k s' hk).1, Assoc.get?, if_pos rfl, Option.bind_some, Option.bind_some]

/-- A part of a record is what it is when the node of its path stands alone, and a default if there is no such node. -/
def Independent (s : Shape) (path : List String) (u : Shape) (node : Option Tree) (d : Datum) : Prop :=
  match node with
  | some t => ∃ d', (s.bind (Tree.alone path t)).result = .ok d' ∧
      ∃ part, d.part? path = some part ∧ d'.part? path = some part
  | none => d.part? path = some u.default

theorem Independent.unique {node : Option Tree} (h : Independent s path u node d) (h' : Independent s path u node d') :
    d'.part? path = d.part? path := by
  cases node with
  | none => exact Eq.trans h' (Eq.symm h)
  | some t =>
    obtain ⟨e, he, part, hd, hpart⟩ := h
    obtain ⟨e', he', part', hd', hpart'⟩ := h'
    cases he.symm.trans he'
    rw [hd, hd', ← hpart, ← hpart']

theorem independent_part (hm : m.Distinct) (hd : (s.bind m).result = .ok d) (hms : m.part? path = some (.map ms))
    (hu : s.part? (path ++ [f]) = some u) : Independent s (path ++ [f]) u (Assoc.get? f ms) d := by
  -- Along the path, the record that holds the next part binds by itself, to what it is in the whole.
  induction path generalizing s m d with
  | nil =>
    cases hms
    obtain ⟨fields, s', hs, hf, hpart⟩ := part?_cons_iff.mp hu
    cases hpart
    obtain ⟨out, hout, hfields⟩ := bind_fields hs (hm.1 ms rfl) hd
    obtain ⟨hget, halone⟩ := hfields f u hf
    cases hnode : Assoc.get? f ms with
    | none =>
      rw [hnode] at hget
      show d.part? [f] = some u.default
      rw [part?_fields hout, hget]
      rfl
    | some t =>
      obtain ⟨d', hd'⟩ := halone t hnode
      refine ⟨d', hd', _, ?_, part?_single hs hf hd'⟩
      rw [List.nil_append, part?_fields hout, hget, hnode]
      rfl
  | cons k path ih =>
    obtain ⟨fields, s', hs, hk, hu⟩ := part?_cons_iff.mp hu
    obtain ⟨ms₀, t, rfl, ht, hms⟩ := Tree.part?_cons hms
    obtain ⟨ms₁, rfl⟩ := Tree.map_of_part? hms
    obtain ⟨fields', hs'⟩ := fields?_of_part? hu
    have hkeys := hm.1 ms₀ rfl
    have hdistinct := Tree.everywhereMembers_iff.mp hm.2 _ (Assoc.mem_of_get? ht)
    obtain ⟨d₁, hd₁⟩ := bind_nested hs hkeys hd hk hs' ht
    have hinner := ih hdistinct hd₁ hms hu
    have hpart : d.part? (k :: (path ++ [f])) = d₁.part? (path ++ [f]) := by
      obtain ⟨out, hout, hfields⟩ := bind_fields hs hkeys hd
      rw [part?_fields hout, (hfields k s' hk).1, ht, Option.bind_some, Option.bind_some, hd₁]
      rfl
    cases hnode : Assoc.get? f ms with
    | none =>
      rw [hnode] at hinner
      exact hpart.trans hinner
    | some node =>
      rw [hnode] at hinner
      obtain ⟨d', hd', part, hfull, halone⟩ := hinner
      obtain ⟨e, he⟩ := bind_single hs hk hd'
      refine ⟨e, he, part, hpart.trans hfull, ?_⟩
      rw [List.cons_append, part?_single hs hk he, hd']
      exact halone

/-- Fields are bound independently. In whatever a map binds to as a record of which every field has a default, each
    field, and each field of the records in it, is what it is when its value is all that there is, and its default if
    it has no value. So it is the same in whatever another map binds to in which it has the same value. -/
theorem bind_part (hm : m.Distinct) (hd : (s.bind m).result = .ok d) (hms : m.part? path = some (.map ms))
    (hu : s.part? (path ++ [f]) = some u) :
    (match Assoc.get? f ms with
      | some t => ∃ d', (s.bind (Tree.alone (path ++ [f]) t)).result = .ok d' ∧
          ∃ part, d.part? (path ++ [f]) = some part ∧ d'.part? (path ++ [f]) = some part
      | none => d.part? (path ++ [f]) = some u.default) ∧
    ∀ m' ms' d', m'.Distinct → (s.bind m').result = .ok d' → m'.part? path = some (.map ms') →
      Assoc.get? f ms' = Assoc.get? f ms → d'.part? (path ++ [f]) = d.part? (path ++ [f]) := by
  have hpart := independent_part hm hd hms hu
  refine ⟨hpart, fun m' ms' d' hm' hd' hms' hsame => ?_⟩
  have hpart' := independent_part hm' hd' hms' hu
  rw [hsame] at hpart'
  exact hpart.unique hpart'

/-- Settings of a record and of a record in it; a field of each does not fit, and a key names no field. -/
def Sample.partlyFit : Tree :=
  .map [("cost", .text "lots"), ("colour", .text "blue"),
    ("nested", .map [("threshold", .list []), ("name", .text "inner")])]

theorem bind_part_partlyFit : ∃ d d', (Sample.appSample.bind Sample.partlyFit).result = .ok d ∧
    (Sample.appSample.bind (Tree.alone ["nested", "name"] (.text "inner"))).result = .ok d' ∧
    ∃ part, d.part? ["nested", "name"] = some part ∧ d'.part? ["nested", "name"] = some part := by
  have hdistinct : Sample.partlyFit.Distinct := by
    simp [Sample.partlyFit, Tree.Distinct, Tree.Everywhere, Tree.EverywhereMembers, Tree.EverywhereItems,
      Tree.KeysDiffer]
  have hskip : Rounds Sample.appSample.read Sample.partlyFit
      (.map [("colour", .text "blue"), ("nested", .map [("name", .text "inner")])]) :=
    .skip rfl rfl rfl (.skip rfl rfl rfl .done)
  have hd : (Sample.appSample.bind Sample.partlyFit).result = .ok _ := bindWith_ok_iff.mpr ⟨_, _, hskip, rfl⟩
  have hnested : Sample.partlyFit.part? ["nested"] = some (.map [("threshold", .list []), ("name", .text "inner")]) :=
    rfl
  have hname : Sample.appSample.part? (["nested"] ++ ["name"]) = some .text := rfl
  obtain ⟨d', hd', part, hpart, hpart'⟩ := (bind_part hdistinct hd hnested hname).1
  exact ⟨_, d', hd, hd', part, hpart, hpart'⟩

end Parts

end Shape

end Settings
