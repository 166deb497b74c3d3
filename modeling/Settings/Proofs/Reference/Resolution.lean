import Settings.Proofs.Reference.Meaning

/-! # Resolution finds the meaning of references

`expand` carries the chain of opened keys and the table of finished ones through its run. From every table of
finished keys it finds the expansion of a text if there is one, and else it ends with a fault; the only
fault that depends on the chain names a key that leads back to itself. -/

namespace Settings.Reference

variable {source : Source} {policy : Policy} {chain : List String} {done : List (String × List Char)}
  {text body inner rest value out : List Char} {key : String} {default : Option (List Char)}

/-! ### The steps of an expansion -/

theorem opening?_char {c : Char} {cs : List Char} (hc : ∀ body, c :: cs ≠ '$' :: '{' :: body) :
    opening? (c :: cs) = (opening? cs).map fun (a, b) => (c :: a, b) := by
  rw [opening?]
  rintro body rfl rfl
  exact hc body rfl

theorem sweep_nil : sweep source policy chain done [] = pure ([], done) := by
  rw [sweep]
  rfl

theorem sweep_char {c : Char} {cs : List Char} (hc : ∀ body, c :: cs ≠ '$' :: '{' :: body) :
    sweep source policy chain done (c :: cs) =
      sweep source policy chain done cs >>= fun (out, done) => pure (c :: out, done) := by
  rw [sweep, sweep, opening?_char hc]
  rcases opening? cs with _ | ⟨before, body⟩
  · rfl
  rw [Option.map_some]
  dsimp only
  rcases closing? 0 body with _ | ⟨inner, rest⟩
  · rfl
  · simp only [bind_assoc, pure_bind, List.cons_append]

theorem sweep_unclosed (hb : closing? 0 body = none) :
    sweep source policy chain done ('$' :: '{' :: body) = pure ('$' :: '{' :: body, done) := by
  rw [sweep, opening?_reference]
  dsimp only
  rw [hb]

theorem sweep_reference (hb : closing? 0 body = some (text, rest)) :
    sweep source policy chain done ('$' :: '{' :: body) = (do
      let (inner, done) ← expansion source policy chain done text
      let (value, done) ← valueFor source policy chain done inner
      let (out, done) ← sweep source policy chain done rest
      return (value ++ out, done)) := by
  rw [sweep, opening?_reference]
  dsimp only
  rw [hb]
  rfl

theorem expand_sweep (text : List Char) :
    expand source policy chain done text = (sweep source policy chain done text).result := by
  rw [expand, expansion, Noted.result_bind]
  rfl

theorem valueFor_cycle (hk : (keyAndDefault inner).1 ∈ chain) :
    valueFor source policy chain done inner = .fault (.referenceCycle (keyAndDefault inner).1) := by
  rw [valueFor]
  exact dif_pos hk

theorem valueFor_done (hk : (keyAndDefault inner).1 ∉ chain)
    (hd : Assoc.get? (keyAndDefault inner).1 done = some value) :
    valueFor source policy chain done inner = pure (value, done) := by
  rw [valueFor, dif_neg hk, hd]

theorem valueFor_stored {raw : String} (hk : (keyAndDefault inner).1 ∉ chain)
    (hd : Assoc.get? (keyAndDefault inner).1 done = none)
    (hs : Assoc.get? (keyAndDefault inner).1 source = some raw) :
    valueFor source policy chain done inner =
      ⟨.asks (keyAndDefault inner).1 ::
          (expansion source policy ((keyAndDefault inner).1 :: chain) done raw.toList).notices,
        (expand source policy ((keyAndDefault inner).1 :: chain) done raw.toList).map fun (value, done) =>
          (value, Assoc.insert (keyAndDefault inner).1 value done)⟩ := by
  rw [valueFor, dif_neg hk, hd]
  dsimp only
  rw [ask_stored hs]
  have hvalue := Noted.bind_pure_eq (expansion source policy ((keyAndDefault inner).1 :: chain) done raw.toList)
    fun r => (r.1, Assoc.insert (keyAndDefault inner).1 r.1 r.2)
  exact congrArg (fun x => Noted.mk (.asks (keyAndDefault inner).1 :: x.notices) x.result) hvalue

theorem valueFor_absent (hk : (keyAndDefault inner).1 ∉ chain)
    (hd : Assoc.get? (keyAndDefault inner).1 done = none) (hs : Assoc.get? (keyAndDefault inner).1 source = none) :
    valueFor source policy chain done inner =
      ⟨[.asks (keyAndDefault inner).1], (missing policy inner).map (·, done)⟩ := by
  rw [valueFor, dif_neg hk, hd]
  dsimp only
  rw [ask_absent hs]
  rfl

/-- All that can be done for the value of a reference. -/
@[elab_as_elim]
theorem valueFor_cases (source : Source) (policy : Policy) (chain : List String) (done : List (String × List Char))
    (inner : List Char) {motive : Resolving (List Char × List (String × List Char)) → Prop}
    (cycle : (keyAndDefault inner).1 ∈ chain → motive (.fault (.referenceCycle (keyAndDefault inner).1)))
    (finished : ∀ value, (keyAndDefault inner).1 ∉ chain → Assoc.get? (keyAndDefault inner).1 done = some value →
      motive (pure (value, done)))
    (stored : ∀ raw, (keyAndDefault inner).1 ∉ chain → Assoc.get? (keyAndDefault inner).1 done = none →
      Assoc.get? (keyAndDefault inner).1 source = some raw → motive
        ⟨.asks (keyAndDefault inner).1 ::
            (expansion source policy ((keyAndDefault inner).1 :: chain) done raw.toList).notices,
          (expand source policy ((keyAndDefault inner).1 :: chain) done raw.toList).map fun (value, done) =>
            (value, Assoc.insert (keyAndDefault inner).1 value done)⟩)
    (absent : (keyAndDefault inner).1 ∉ chain → Assoc.get? (keyAndDefault inner).1 done = none →
      Assoc.get? (keyAndDefault inner).1 source = none →
      motive ⟨[.asks (keyAndDefault inner).1], (missing policy inner).map (·, done)⟩) :
    motive (valueFor source policy chain done inner) := by
  by_cases hk : (keyAndDefault inner).1 ∈ chain
  · exact valueFor_cycle hk ▸ cycle hk
  cases hd : Assoc.get? (keyAndDefault inner).1 done with
  | some value => exact valueFor_done hk hd ▸ finished value hk hd
  | none =>
    cases hs : Assoc.get? (keyAndDefault inner).1 source with
    | some raw => exact valueFor_stored hk hd hs ▸ stored raw hk hd hs
    | none => exact valueFor_absent hk hd hs ▸ absent hk hd hs

/-- The value of a reference whose body has been expanded to `inner`. -/
def referenceValue (source : Source) (policy : Policy) (chain : List String) (done : List (String × List Char))
    (inner : List Char) : Except Fault (List Char × List (String × List Char)) :=
  (valueFor source policy chain done inner).result

theorem referenceValue_eq (inner : List Char) : referenceValue source policy chain done inner =
    let key := (keyAndDefault inner).1
    if key ∈ chain then .error (.referenceCycle key)
    else
      match Assoc.get? key done with
      | some value => .ok (value, done)
      | none =>
        match Assoc.get? key source with
        | some raw =>
          match expand source policy (key :: chain) done raw.toList with
          | .error e => .error e
          | .ok (value, done) => .ok (value, Assoc.insert key value done)
        | none => (missing policy inner).map (·, done) := by
  dsimp only
  rw [referenceValue]
  refine valueFor_cases source policy chain done inner ?cycle ?finished ?stored ?absent
  case cycle =>
    intro hk
    rw [if_pos hk]
    rfl
  case finished =>
    intro value hk hd
    rw [if_neg hk, hd]
    rfl
  case stored =>
    intro raw hk hd hs
    rw [if_neg hk, hd, hs]
    dsimp only
    rcases expand source policy _ done raw.toList with e | ⟨value, done'⟩ <;> rfl
  case absent =>
    intro hk hd hs
    rw [if_neg hk, hd, hs]

theorem expand_nil : expand source policy chain done [] = .ok ([], done) := by
  rw [expand_sweep, sweep_nil]
  rfl

theorem expand_char {c : Char} {cs : List Char} (hc : ∀ body, c :: cs ≠ '$' :: '{' :: body) :
    expand source policy chain done (c :: cs) =
      (expand source policy chain done cs).map fun (out, done) => (c :: out, done) := by
  rw [expand_sweep, expand_sweep, sweep_char hc]
  exact Noted.result_bind _ _

theorem expand_unclosed (hb : closing? 0 body = none) :
    expand source policy chain done ('$' :: '{' :: body) = .ok ('$' :: '{' :: body, done) := by
  rw [expand_sweep, sweep_unclosed hb]
  rfl

theorem expand_reference (hb : closing? 0 body = some (text, rest)) :
    expand source policy chain done ('$' :: '{' :: body) =
      match expand source policy chain done text with
      | .error e => .error e
      | .ok (inner, done) =>
        match referenceValue source policy chain done inner with
        | .error e => .error e
        | .ok (value, done) =>
          match expand source policy chain done rest with
          | .error e => .error e
          | .ok (out, done) => .ok (value ++ out, done) := by
  rw [expand_sweep, sweep_reference hb, Noted.result_bind, expand]
  rcases (expansion source policy chain done text).result with e | ⟨inner, done⟩
  · rfl
  show (valueFor source policy chain done inner >>= _).result = _
  rw [Noted.result_bind, ← referenceValue]
  dsimp only
  rcases referenceValue source policy chain done inner with e | ⟨value, done⟩
  · rfl
  show (sweep source policy chain done rest >>= _).result = _
  rw [Noted.result_bind, ← expand_sweep]
  dsimp only
  rcases expand source policy chain done rest with e | ⟨out, done⟩ <;> rfl

/-- The way an expansion goes: on along the text, down into a body, or to the value of a stored key that is
    not on the chain. -/
theorem expand_induction (source : Source) {motive : List String → List Char → Prop} (nil : ∀ chain, motive chain [])
    (char : ∀ chain c cs, (∀ body, c :: cs ≠ '$' :: '{' :: body) → motive chain cs → motive chain (c :: cs))
    (unclosed : ∀ chain body, closing? 0 body = none → motive chain ('$' :: '{' :: body))
    (reference : ∀ chain body text rest, closing? 0 body = some (text, rest) → motive chain text →
      (∀ key raw, key ∉ chain → Assoc.get? key source = some raw → motive (key :: chain) raw.toList) →
      motive chain rest → motive chain ('$' :: '{' :: body)) :
    ∀ chain text, motive chain text
  | chain, [] => nil chain
  | chain, c :: cs => by
    by_cases hc : ∃ body, c :: cs = '$' :: '{' :: body
    · obtain ⟨body, hbody⟩ := hc
      rw [hbody]
      match hb : closing? 0 body with
      | none => exact unclosed chain body hb
      | some (text, rest) =>
        exact reference chain body text rest hb (expand_induction source nil char unclosed reference chain text)
          (fun key raw hkey hraw => expand_induction source nil char unclosed reference (key :: chain) raw.toList)
          (expand_induction source nil char unclosed reference chain rest)
    · exact char chain c cs (fun body h => hc ⟨body, h⟩) (expand_induction source nil char unclosed reference chain cs)
termination_by chain text => (unopened source chain, text.length)
decreasing_by
  · have hlen := length_reference (opening?_reference body) hb
    rw [hbody]
    exact .right _ (by omega)
  · exact .left _ _ (unopened_cons_lt (Assoc.mem_keys_of_get? hraw) hkey)
  · have hlen := length_reference (opening?_reference body) hb
    rw [hbody]
    exact .right _ (by omega)
  · exact .right _ (Nat.lt_succ_self _)

/-! ### What an expansion ends with -/

/-- The opened keys are keys of the source. -/
def Opened (source : Source) (chain : List String) : Prop :=
  ∀ key ∈ chain, ∃ raw, Assoc.get? key source = some raw

theorem Opened.nil : Opened source [] := fun _ hk => absurd hk (by simp)

theorem Opened.cons {raw : String} (hchain : Opened source chain) (hk : Assoc.get? key source = some raw) :
    Opened source (key :: chain) := by
  intro k hk'
  rcases List.mem_cons.mp hk' with rfl | hk'
  · exact ⟨raw, hk⟩
  · exact hchain k hk'

/-- Every key of a table is stored, and its entry is what its value expands to. -/
def Finished (source : Source) (policy : Policy) (done : List (String × List Char)) : Prop :=
  ∀ key value, Assoc.get? key done = some value →
    ∃ raw, Assoc.get? key source = some raw ∧ Expands source policy raw.toList value

theorem Finished.nil : Finished source policy [] := fun key value h => by simp [Assoc.get?] at h

theorem Finished.insert {raw : String} (hd : Finished source policy done) (hk : Assoc.get? key source = some raw)
    (hv : Expands source policy raw.toList value) : Finished source policy (Assoc.insert key value done) := by
  intro k v h
  by_cases hkk : k = key
  · subst hkk
    rw [Assoc.get?_insert_self] at h
    cases h
    exact ⟨raw, hk, hv⟩
  · rw [Assoc.get?_insert_of_ne hkk] at h
    exact hd k v h

/-- What the expansion of a text may end with, when `chain` holds the opened keys. -/
inductive Outcome (source : Source) (policy : Policy) (chain : List String) (text : List Char) :
    Except Fault (List Char × List (String × List Char)) → Prop
  | expanded {out : List Char} {done : List (String × List Char)} (h : Expands source policy text out)
      (hd : Finished source policy done) : Outcome source policy chain text (.ok (out, done))
  | cycle {key : String} (ho : Opens source policy text key)
      (h : key ∈ chain ∨ LeadsBack source policy key) :
      Outcome source policy chain text (.error (.referenceCycle key))
  | lacking {key : String} (hp : policy = .fail) (hk : Assoc.get? key source = none) :
      Outcome source policy chain text (.error (.unresolvedReference key))

theorem missing_error {e : Fault} (hn : Names inner key default) (h : missing policy inner = .error e) :
    policy = .fail ∧ e = .unresolvedReference key := by
  unfold missing at h
  rw [hn.eq] at h
  cases default with
  | some d => cases h
  | none =>
    cases policy with
    | keep => cases h
    | fail =>
      cases h
      exact ⟨rfl, rfl⟩

/-- The value of a reference completes an expansion of what follows, or the fault is one of the whole text. -/
theorem referenceValue_outcome (hb : closing? 0 body = some (text, rest)) (hi : Expands source policy text inner)
    (hd : Finished source policy done) (hchain : Opened source chain)
    (ih : ∀ key raw, key ∉ chain → Assoc.get? key source = some raw → ∀ done, Finished source policy done →
      Outcome source policy (key :: chain) raw.toList (expand source policy (key :: chain) done raw.toList)) :
    match referenceValue source policy chain done inner with
    | .ok (value, done') => Finished source policy done' ∧
      ∀ out, Expands source policy rest out → Expands source policy ('$' :: '{' :: body) (value ++ out)
    | .error e => Outcome source policy chain ('$' :: '{' :: body) (.error e) := by
  have hn := names_keyAndDefault inner
  rw [referenceValue_eq]
  generalize (keyAndDefault inner).1 = key at hn
  dsimp only
  by_cases hk : key ∈ chain
  · obtain ⟨raw, hraw⟩ := hchain key hk
    rw [if_pos hk]
    exact .cycle (.key hb hi hn hraw) (Or.inl hk)
  rw [if_neg hk]
  cases hdone : Assoc.get? key done with
  | some value =>
    obtain ⟨raw, hraw, hv⟩ := hd key value hdone
    exact ⟨hd, fun out hr => .stored hb hi hn hraw hv hr⟩
  | none =>
    cases hraw : Assoc.get? key source with
    | none =>
      dsimp only
      cases hm : missing policy inner with
      | ok value => exact ⟨hd, fun out hr => .missing hb hi hn hraw (standsIn_iff.mpr hm) hr⟩
      | error e =>
        obtain ⟨hp, rfl⟩ := missing_error hn hm
        exact .lacking hp hraw
    | some raw =>
      have ho := ih key raw hk hraw done hd
      dsimp only
      generalize expand source policy (key :: chain) done raw.toList = result at ho
      cases ho with
      | expanded hv hd' => exact ⟨hd'.insert hraw hv, fun out hr => .stored hb hi hn hraw hv hr⟩
      | lacking hp hk => exact .lacking hp hk
      | cycle ho hback =>
        -- The cycle goes back to this key, or past it to one that was open before, or it lies within the value.
        rcases hback with hmem | hback
        · rcases List.mem_cons.mp hmem with rfl | hmem
          · exact .cycle (.key hb hi hn hraw) (Or.inr ⟨raw, hraw, ho⟩)
          · exact .cycle (.value hb hi hn hraw ho) (Or.inl hmem)
        · exact .cycle (.value hb hi hn hraw ho) (Or.inr hback)

theorem expand_outcome (chain : List String) (text : List Char) :
    Opened source chain → ∀ done, Finished source policy done →
      Outcome source policy chain text (expand source policy chain done text) := by
  induction chain, text using expand_induction source with
  | nil chain =>
    intro _ done hd
    rw [expand_nil]
    exact .expanded .nil hd
  | char chain c cs hc ih =>
    intro hchain done hd
    have ho := ih hchain done hd
    rw [expand_char hc]
    generalize expand source policy chain done cs = result at ho
    cases ho with
    | expanded h hd' => exact .expanded (.char hc h) hd'
    | cycle ho h => exact .cycle (.char hc ho) h
    | lacking hp hk => exact .lacking hp hk
  | unclosed chain body hb =>
    intro _ done hd
    rw [expand_unclosed hb]
    exact .expanded (.unclosed hb) hd
  | reference chain body text rest hb ihText ihValue ihRest =>
    intro hchain done hd
    rw [expand_reference hb]
    have ho := ihText hchain done hd
    generalize expand source policy chain done text = result at ho
    cases ho with
    | cycle ho h => exact .cycle (.body hb ho) h
    | lacking hp hk => exact .lacking hp hk
    | @expanded inner done hi hd =>
      have hv := referenceValue_outcome hb hi hd hchain fun key raw hk hraw =>
        ihValue key raw hk hraw (hchain.cons hraw)
      dsimp only
      generalize referenceValue source policy chain done inner = result at hv
      rcases result with e | ⟨value, done'⟩
      · exact hv
      · have hr := ihRest hchain done' hv.1
        dsimp only
        generalize expand source policy chain done' rest = result at hr
        cases hr with
        | expanded h hd => exact .expanded (hv.2 _ h) hd
        | cycle ho h => exact .cycle (.rest hb ho) h
        | lacking hp hk => exact .lacking hp hk

/-! ### An expansion is found if there is one -/

theorem referenceValue_stored {raw : String} (hn : Names inner key default) (hk : key ∉ chain)
    (hraw : Assoc.get? key source = some raw) (hv : Expands source policy raw.toList value)
    (hd : Finished source policy done)
    (hrun : ∃ done', expand source policy (key :: chain) done raw.toList = .ok (value, done') ∧
      Finished source policy done') :
    ∃ done', referenceValue source policy chain done inner = .ok (value, done') ∧ Finished source policy done' := by
  rw [referenceValue_eq, hn.eq]
  dsimp only
  rw [if_neg hk]
  cases hdone : Assoc.get? key done with
  | some value' =>
    obtain ⟨raw', hraw', hv'⟩ := hd key value' hdone
    obtain rfl := Option.some.inj (hraw.symm.trans hraw')
    rw [hv.eq hv']
    exact ⟨done, rfl, hd⟩
  | none =>
    obtain ⟨done', hrun, hd'⟩ := hrun
    rw [hraw]
    dsimp only
    rw [hrun]
    exact ⟨_, rfl, hd'.insert hraw hv⟩

theorem referenceValue_missing (hn : Names inner key default) (hk : key ∉ chain)
    (hraw : Assoc.get? key source = none) (hv : StandsIn policy inner value) (hd : Finished source policy done) :
    referenceValue source policy chain done inner = .ok (value, done) := by
  rw [referenceValue_eq, hn.eq]
  dsimp only
  rw [if_neg hk]
  cases hdone : Assoc.get? key done with
  | some value' =>
    obtain ⟨raw, hraw', -⟩ := hd key value' hdone
    rw [hraw] at hraw'
    cases hraw'
  | none =>
    rw [hraw]
    dsimp only
    rw [standsIn_iff.mp hv]
    rfl

theorem expand_reference_ok {done₁ done₂ done₃ : List (String × List Char)}
    (hb : closing? 0 body = some (text, rest)) (hi : expand source policy chain done text = .ok (inner, done₁))
    (hv : referenceValue source policy chain done₁ inner = .ok (value, done₂))
    (hr : expand source policy chain done₂ rest = .ok (out, done₃)) :
    expand source policy chain done ('$' :: '{' :: body) = .ok (value ++ out, done₃) := by
  rw [expand_reference hb, hi]
  dsimp only
  rw [hv]
  dsimp only
  rw [hr]

/-- Opened keys are in the way of no expansion that does not need them. -/
theorem Expands.expand_ok (h : Expands source policy text out) (hd : Finished source policy done)
    (hchain : Opened source chain) (hopen : ∀ key ∈ chain, ¬Opens source policy text key) :
    ∃ done', expand source policy chain done text = .ok (out, done') ∧ Finished source policy done' := by
  induction h generalizing chain done with
  | nil => exact ⟨done, expand_nil, hd⟩
  | char hc _ ih =>
    obtain ⟨done', h, hd'⟩ := ih hd hchain fun key hk ho => hopen key hk (.char hc ho)
    refine ⟨done', ?_, hd'⟩
    rw [expand_char hc, h]
    rfl
  | unclosed hb => exact ⟨done, expand_unclosed hb, hd⟩
  | @stored _ _ _ _ _ _ key raw _ hb hi hn hraw hv hr ihi ihv ihr =>
    obtain ⟨done₁, h₁, hd₁⟩ := ihi hd hchain fun k hk ho => hopen k hk (.body hb ho)
    have hkey : key ∉ chain := fun hk => hopen key hk (.key hb hi hn hraw)
    have hrun := ihv hd₁ (hchain.cons hraw) fun k hk ho => by
      -- The key's own value does not need the key, as it has an expansion.
      rcases List.mem_cons.mp hk with rfl | hk
      · exact hv.not_leadsBack ho ⟨raw, hraw, ho⟩
      · exact hopen k hk (.value hb hi hn hraw ho)
    obtain ⟨done₂, h₂, hd₂⟩ := referenceValue_stored hn hkey hraw hv hd₁ hrun
    obtain ⟨done₃, h₃, hd₃⟩ := ihr hd₂ hchain fun k hk ho => hopen k hk (.rest hb ho)
    exact ⟨done₃, expand_reference_ok hb h₁ h₂ h₃, hd₃⟩
  | @missing _ _ _ _ _ _ key _ hb hi hn hraw hv hr ihi ihr =>
    obtain ⟨done₁, h₁, hd₁⟩ := ihi hd hchain fun k hk ho => hopen k hk (.body hb ho)
    have hkey : key ∉ chain := fun hk => by
      obtain ⟨raw, h⟩ := hchain key hk
      rw [hraw] at h
      cases h
    obtain ⟨done₃, h₃, hd₃⟩ := ihr hd₁ hchain fun k hk ho => hopen k hk (.rest hb ho)
    exact ⟨done₃, expand_reference_ok hb h₁ (referenceValue_missing hn hkey hraw hv hd₁) h₃, hd₃⟩

/-- From any table of finished keys, an expansion that starts with no opened key gives what the text
    expands to. -/
theorem expand_ok_iff (hd : Finished source policy done) :
    (∃ done', expand source policy [] done text = .ok (out, done')) ↔ Expands source policy text out := by
  constructor
  · rintro ⟨done', h⟩
    have ho : Outcome source policy [] text (expand source policy [] done text) :=
      expand_outcome [] text .nil done hd
    rw [h] at ho
    cases ho with
    | expanded h _ => exact h
  · intro h
    obtain ⟨done', h, -⟩ := h.expand_ok hd .nil (by simp)
    exact ⟨done', h⟩

theorem resolve_ok_iff {text out : String} :
    resolve source policy text = .ok out ↔ Expands source policy text.toList out.toList := by
  rw [← expand_ok_iff .nil, resolve_eq]
  rcases expand source policy [] [] text.toList with e | ⟨value, done⟩
  · simp [Except.map]
  · simp [Except.map, ← String.toList_inj]

theorem resolve_error {text : String} {e : Fault} (h : resolve source policy text = .error e) :
    Outcome source policy [] text.toList (.error e) := by
  have ho : Outcome source policy [] text.toList (expand source policy [] [] text.toList) :=
    expand_outcome [] text.toList .nil [] .nil
  rw [resolve_eq] at h
  rcases hx : expand source policy [] [] text.toList with e' | ⟨value, done⟩ <;> rw [hx] at h ho
  · cases h
    exact ho
  · cases h

/-- Resolution gives the expansion of a text if there is one, and else a fault. A fault is a reference that
    must not be kept or a cycle: a key that the text opens and that leads back to itself. Any such key makes
    resolution fail, and a table of finished keys changes no result. -/
theorem resolve_expands (source : Source) (policy : Policy) (text : String) :
    (∀ out : String, resolve source policy text = .ok out ↔ Expands source policy text.toList out.toList) ∧
    ((∃ e, resolve source policy text = .error e) ↔ ¬∃ out, Expands source policy text.toList out) ∧
    (∀ e, resolve source policy text = .error e →
      (∃ key, e = .referenceCycle key ∧ Opens source policy text.toList key ∧ LeadsBack source policy key) ∨
        policy = .fail ∧ ∃ key, e = .unresolvedReference key ∧ Assoc.get? key source = none) ∧
    (∀ key, Opens source policy text.toList key → LeadsBack source policy key →
      ∃ e, resolve source policy text = .error e) ∧
    ∀ done, Finished source policy done → ∀ out,
      (∃ done', expand source policy [] done text.toList = .ok (out, done')) ↔
        resolve source policy text = .ok (String.ofList out) := by
  have herror : (∃ e, resolve source policy text = .error e) ↔ ¬∃ out, Expands source policy text.toList out := by
    constructor
    · rintro ⟨e, he⟩ ⟨out, h⟩
      have hok : resolve source policy text = .ok (String.ofList out) :=
        resolve_ok_iff.mpr (by rwa [String.toList_ofList])
      rw [hok] at he
      cases he
    · intro hnone
      cases h : resolve source policy text with
      | error e => exact ⟨e, rfl⟩
      | ok out => exact absurd ⟨_, resolve_ok_iff.mp h⟩ hnone
  refine ⟨fun out => resolve_ok_iff, herror, fun e he => ?_, fun key ho hback => ?_, fun done hd out => ?_⟩
  · cases resolve_error he with
    | cycle ho h =>
      rcases h with h | h
      · cases h
      · exact Or.inl ⟨_, rfl, ho, h⟩
    | lacking hp hk => exact Or.inr ⟨hp, _, rfl, hk⟩
  · exact herror.mpr fun ⟨out, h⟩ => h.not_leadsBack ho hback
  · rw [expand_ok_iff hd, resolve_ok_iff, String.toList_ofList]

end Settings.Reference
