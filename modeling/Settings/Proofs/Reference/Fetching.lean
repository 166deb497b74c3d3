import Mathlib.Data.Prod.Lex
import Settings.Proofs.Reference.Resolution

/-! # How often values are fetched

Resolution notes what it asks its source for and which texts it expands. An expansion has fewer keys left to open than
the one that it is part of, or as many and a shorter text (`Descends`), so resolution comes to an end, although keys are
put together from expanded texts. A key that is fetched is neither being expanded nor finished, and from then on it is
one of them (`Fresh`), so no key is fetched twice. What is fetched is expanded at once, and no stored value is expanded
otherwise (`Paired`). -/

namespace Settings.Reference

variable {α β : Type} {source source' : Source} {policy : Policy} {chain : List String} {done : List (String × List Char)}
  {text body rest inner : List Char} {key raw : String}

/-! ### What is fetched -/

/-- The keys of the source among those that it is asked for, in order. -/
def fetched (source : Source) (events : List Event) : List String :=
  events.filterMap fun
    | .asks key => if key ∈ Assoc.keys source then some key else none
    | .expands _ _ => none

/-- The keys whose stored values are expanded, in order. A key is opened last where its value is expanded. -/
def unfolded (source : Source) (events : List Event) : List String :=
  events.filterMap fun
    | .expands (key :: _) text => if Assoc.get? key source = some (String.ofList text) then some key else none
    | _ => none

theorem fetched_append (source : Source) (before behind : List Event) :
    fetched source (before ++ behind) = fetched source before ++ fetched source behind :=
  List.filterMap_append

theorem unfolded_append (source : Source) (before behind : List Event) :
    unfolded source (before ++ behind) = unfolded source before ++ unfolded source behind :=
  List.filterMap_append

theorem fetched_asks (hs : Assoc.get? key source = some raw) (events : List Event) :
    fetched source (.asks key :: events) = key :: fetched source events :=
  List.filterMap_cons_some (if_pos (Assoc.mem_keys_of_get? hs))

theorem fetched_asks_absent (hs : Assoc.get? key source = none) (events : List Event) :
    fetched source (.asks key :: events) = fetched source events :=
  List.filterMap_cons_none (if_neg (Assoc.get?_eq_none_iff.mp hs))

theorem unfolded_value (hs : Assoc.get? key source = some raw) (chain : List String) (events : List Event) :
    unfolded source (.expands (key :: chain) raw.toList :: events) = key :: unfolded source events :=
  List.filterMap_cons_some (if_pos (by rw [hs, String.ofList_toList]))

theorem mem_fetched_iff {events : List Event} {k : String} :
    k ∈ fetched source events ↔ .asks k ∈ events ∧ k ∈ Assoc.keys source := by
  rw [fetched, List.mem_filterMap]
  constructor
  · rintro ⟨event, hmem, hk⟩
    cases event with
    | asks key =>
      obtain ⟨hkey, ⟨⟩⟩ := Option.ite_none_right_eq_some.mp hk
      exact ⟨hmem, hkey⟩
    | expands => cases hk
  · rintro ⟨hmem, hkey⟩
    exact ⟨_, hmem, if_pos hkey⟩

theorem mem_fetched_bind {x : Resolving α} {f : α → Resolving β} {k : String}
    (h : k ∈ fetched source (x >>= f).notices) :
    k ∈ fetched source x.notices ∨ ∃ a, x.result = .ok a ∧ k ∈ fetched source (f a).notices := by
  obtain ⟨hmem, hkey⟩ := mem_fetched_iff.mp h
  rcases Noted.mem_notices_bind hmem with hmem | ⟨a, ha, hmem⟩
  · exact .inl (mem_fetched_iff.mpr ⟨hmem, hkey⟩)
  · exact .inr ⟨a, ha, mem_fetched_iff.mpr ⟨hmem, hkey⟩⟩

/-! ### Resolution comes to an end -/

/-- What is left to be done for a text: the keys that can still be opened, and the text. -/
def extent (source : Source) (chain : List String) (text : List Char) : Nat ×ₗ Nat :=
  toLex (unopened source chain, text.length)

theorem extent_lt_of_length {text' : List Char} (h : text'.length < text.length) :
    extent source chain text' < extent source chain text :=
  Prod.Lex.toLex_lt_toLex.mpr (.inr ⟨rfl, h⟩)

theorem extent_lt_of_opened (hs : Assoc.get? key source = some raw) (hkey : key ∉ chain) (text text' : List Char) :
    extent source (key :: chain) text' < extent source chain text :=
  Prod.Lex.toLex_lt_toLex.mpr (.inl (unopened_cons_lt (Assoc.mem_keys_of_get? hs) hkey))

/-- Less is left for each text that is expanded on the way than for this one. -/
def Descends (source : Source) (chain : List String) (text : List Char) (x : Resolving α) : Prop :=
  ∀ chain' text', .expands chain' text' ∈ x.notices → extent source chain' text' < extent source chain text

theorem Descends.pure (a : α) : Descends source chain text (Pure.pure a : Resolving α) := nofun

theorem Descends.bind {x : Resolving α} {f : α → Resolving β} (hx : Descends source chain text x)
    (hf : ∀ a, x.result = .ok a → Descends source chain text (f a)) : Descends source chain text (x >>= f) := by
  intro chain' text' h
  rcases Noted.mem_notices_bind h with h | ⟨a, ha, h⟩
  · exact hx chain' text' h
  · exact hf a ha chain' text' h

theorem Descends.mono {chain' : List String} {text' : List Char} {x : Resolving α}
    (h : Descends source chain' text' x) (hle : extent source chain' text' ≤ extent source chain text) :
    Descends source chain text x :=
  fun _ _ hmem => (h _ _ hmem).trans_le hle

theorem notices_expansion (source : Source) (policy : Policy) (chain : List String)
    (done : List (String × List Char)) (text : List Char) :
    (expansion source policy chain done text).notices =
      .expands chain text :: (sweep source policy chain done text).notices := by
  rw [expansion]
  rfl

theorem Descends.expansion {chain' : List String} {text' : List Char}
    (h : Descends source chain' text' (sweep source policy chain' done text'))
    (hlt : extent source chain' text' < extent source chain text) :
    Descends source chain text (expansion source policy chain' done text') := by
  intro chain'' text'' hmem
  rw [notices_expansion] at hmem
  rcases List.mem_cons.mp hmem with heq | hmem
  · cases heq
    exact hlt
  · exact (h chain'' text'' hmem).trans hlt

theorem descends_valueFor (h : ∀ key raw, key ∉ chain → Assoc.get? key source = some raw → ∀ done,
      Descends source (key :: chain) raw.toList (sweep source policy (key :: chain) done raw.toList)) :
    Descends source chain text (valueFor source policy chain done inner) := by
  refine valueFor_cases source policy chain done inner ?cycle ?finished ?stored ?absent
  case cycle => exact fun _ => nofun
  case finished => exact fun _ _ _ => .pure _
  case stored =>
    intro raw hk _ hs chain' text' hmem
    have hmem := (List.mem_cons.mp hmem).resolve_left nofun
    exact (h _ raw hk hs done).expansion (extent_lt_of_opened hs hk _ _) chain' text' hmem
  case absent => exact fun _ _ _ _ _ hmem => absurd (List.mem_singleton.mp hmem) nofun

theorem descends_sweep (source : Source) (policy : Policy) (chain : List String) (text : List Char) :
    ∀ done, Descends source chain text (sweep source policy chain done text) := by
  induction chain, text using expand_induction source with
  | nil chain =>
    intro done
    rw [sweep_nil]
    exact .pure _
  | char chain c cs hc ih =>
    intro done
    rw [sweep_char hc]
    exact .bind ((ih done).mono (extent_lt_of_length (by simp)).le) fun _ _ => .pure _
  | unclosed chain body hb =>
    intro done
    rw [sweep_unclosed hb]
    exact .pure _
  | reference chain body text rest hb ihText ihValue ihRest =>
    intro done
    have hlen := length_reference (opening?_reference body) hb
    rw [sweep_reference hb]
    refine .bind ((ihText done).expansion (extent_lt_of_length (by omega))) fun _ _ => ?_
    refine .bind (descends_valueFor ihValue) fun _ _ => ?_
    exact .bind ((ihRest _).mono (extent_lt_of_length (by omega)).le) fun _ _ => .pure _

/-! ### No value is fetched twice -/

/-- The keys that are fetched differ from each other, from the opened keys and from the finished ones, and they are what
    is finished when all of the work has been done. -/
structure Fresh (source : Source) (chain : List String) (done : List (String × List Char))
    (x : Resolving (List Char × List (String × List Char))) : Prop where
  nodup : (fetched source x.notices).Nodup
  outside : ∀ k ∈ fetched source x.notices, k ∉ chain ∧ k ∉ Assoc.keys done
  finished : ∀ out done', x.result = .ok (out, done') →
    ∀ k, k ∈ Assoc.keys done' ↔ k ∈ Assoc.keys done ∨ k ∈ fetched source x.notices

theorem Fresh.none {x : Resolving (List Char × List (String × List Char))} (hnotices : fetched source x.notices = [])
    (hresult : ∀ out done', x.result = .ok (out, done') → done' = done) : Fresh source chain done x where
  nodup := hnotices ▸ List.nodup_nil
  outside := by simp [hnotices]
  finished out done' h k := by simp [hnotices, hresult out done' h]

theorem Fresh.pure (out : List Char) : Fresh source chain done (Pure.pure (out, done)) :=
  .none rfl fun _ _ h => by cases h; rfl

theorem Fresh.bind {x : Resolving (List Char × List (String × List Char))}
    {f : List Char × List (String × List Char) → Resolving (List Char × List (String × List Char))}
    (hx : Fresh source chain done x)
    (hf : ∀ out done', x.result = .ok (out, done') → Fresh source chain done' (f (out, done'))) :
    Fresh source chain done (x >>= f) := by
  cases hresult : x.result with
  | error e =>
    have hnotices := Noted.notices_bind_of_error hresult f
    refine ⟨hnotices ▸ hx.nodup, hnotices ▸ hx.outside, fun out done' h => ?_⟩
    rw [Noted.result_bind, hresult] at h
    cases h
  | ok r =>
    obtain ⟨out, done₁⟩ := r
    have hnotices := congrArg (fetched source) (Noted.notices_bind_of_ok hresult f)
    rw [fetched_append] at hnotices
    have hbehind := hf out done₁ hresult
    have hdone := hx.finished out done₁ hresult
    constructor
    · refine hnotices ▸ List.nodup_append.mpr ⟨hx.nodup, hbehind.nodup, ?_⟩
      rintro k hk _ hk' rfl
      exact (hbehind.outside k hk').2 ((hdone k).mpr (.inr hk))
    · rw [hnotices]
      intro k hk
      rcases List.mem_append.mp hk with hk | hk
      · exact hx.outside k hk
      · obtain ⟨hchain, hmem⟩ := hbehind.outside k hk
        exact ⟨hchain, fun h => hmem ((hdone k).mpr (.inl h))⟩
    · intro out' done' h k
      obtain ⟨r, hr, h⟩ := Noted.result_bind_eq_ok.mp h
      cases hresult.symm.trans hr
      rw [hbehind.finished out' done' h, hdone, hnotices, List.mem_append, or_assoc]

theorem Fresh.expansion (h : Fresh source chain done (sweep source policy chain done text)) :
    Fresh source chain done (expansion source policy chain done text) := by
  rw [Reference.expansion]
  exact ⟨h.nodup, h.outside, h.finished⟩

theorem exists_ok_of_map {r : Except Fault α} {f : α → β} {b : β} (h : r.map f = .ok b) : ∃ a, r = .ok a ∧ f a = b := by
  cases r with
  | error e => cases h
  | ok a => exact ⟨a, rfl, Except.ok.inj h⟩

/-- A fetched key is on the chain while its value is expanded, and finished afterwards. -/
theorem Fresh.fetch {x : Resolving (List Char × List (String × List Char))} (hchain : key ∉ chain)
    (hdone : key ∉ Assoc.keys done) (hs : Assoc.get? key source = some raw) (h : Fresh source (key :: chain) done x) :
    Fresh source chain done
      ⟨.asks key :: x.notices, x.result.map fun (value, done) => (value, Assoc.insert key value done)⟩ := by
  constructor
  · rw [fetched_asks hs, List.nodup_cons]
    exact ⟨fun hk => (h.outside key hk).1 List.mem_cons_self, h.nodup⟩
  · rw [fetched_asks hs]
    intro k hk
    rcases List.mem_cons.mp hk with rfl | hk
    · exact ⟨hchain, hdone⟩
    · obtain ⟨hmem, hout⟩ := h.outside k hk
      exact ⟨fun hk => hmem (List.mem_cons_of_mem _ hk), hout⟩
  · intro out done' hresult k
    obtain ⟨⟨value, done₁⟩, hx, hresult⟩ := exists_ok_of_map hresult
    cases hresult
    rw [fetched_asks hs, Assoc.mem_keys_insert, h.finished _ _ hx, List.mem_cons, or_left_comm]

theorem fresh_valueFor (h : ∀ key raw, key ∉ chain → Assoc.get? key source = some raw → ∀ done,
      Fresh source (key :: chain) done (sweep source policy (key :: chain) done raw.toList)) :
    Fresh source chain done (valueFor source policy chain done inner) := by
  refine valueFor_cases source policy chain done inner ?cycle ?finished ?stored ?absent
  case cycle => exact fun _ => .none rfl nofun
  case finished => exact fun value _ _ => .pure value
  case stored =>
    intro raw hk hd hs
    exact .fetch hk (Assoc.get?_eq_none_iff.mp hd) hs (h _ raw hk hs done).expansion
  case absent =>
    intro _ _ hs
    refine .none (fetched_asks_absent hs []) fun out done' hresult => ?_
    obtain ⟨value, -, hresult⟩ := exists_ok_of_map hresult
    exact (Prod.mk.inj hresult).2.symm

theorem fresh_sweep (source : Source) (policy : Policy) (chain : List String) (text : List Char) :
    ∀ done, Fresh source chain done (sweep source policy chain done text) := by
  induction chain, text using expand_induction source with
  | nil chain =>
    intro done
    rw [sweep_nil]
    exact .pure _
  | char chain c cs hc ih =>
    intro done
    rw [sweep_char hc]
    exact (ih done).bind fun _ _ _ => .pure _
  | unclosed chain body hb =>
    intro done
    rw [sweep_unclosed hb]
    exact .pure _
  | reference chain body text rest hb ihText ihValue ihRest =>
    intro done
    rw [sweep_reference hb]
    refine (ihText done).expansion.bind fun _ done₁ _ => ?_
    refine (fresh_valueFor ihValue).bind fun _ done₂ _ => ?_
    exact (ihRest done₂).bind fun _ _ _ => .pure _

/-! ### What is fetched is expanded once -/

/-- The stored values that are expanded are those that are fetched, in the same order. -/
def Paired (source : Source) (x : Resolving α) : Prop := unfolded source x.notices = fetched source x.notices

theorem Paired.pure (a : α) : Paired source (Pure.pure a : Resolving α) := rfl

theorem Paired.bind {x : Resolving α} {f : α → Resolving β} (hx : Paired source x)
    (hf : ∀ a, x.result = .ok a → Paired source (f a)) : Paired source (x >>= f) := by
  unfold Paired at hx hf ⊢
  cases hresult : x.result with
  | error e => rw [Noted.notices_bind_of_error hresult, hx]
  | ok a => rw [Noted.notices_bind_of_ok hresult, unfolded_append, fetched_append, hx, hf a hresult]

/-- The text is no longer than the value of the key that is opened last. -/
def Within (source : Source) (chain : List String) (text : List Char) : Prop :=
  ∀ key ∈ chain.head?, ∃ raw, Assoc.get? key source = some raw ∧ text.length ≤ raw.toList.length

theorem Within.mono {text' : List Char} (h : Within source chain text) (hle : text'.length ≤ text.length) :
    Within source chain text' := by
  intro key hkey
  obtain ⟨raw, hs, hlen⟩ := h key hkey
  exact ⟨raw, hs, hle.trans hlen⟩

/-- A text that is shorter than the value of the key that is opened last is not that value. -/
theorem unfolded_expands {text' : List Char} (h : Within source chain text) (hlt : text'.length < text.length)
    (events : List Event) : unfolded source (.expands chain text' :: events) = unfolded source events := by
  cases chain with
  | nil => rfl
  | cons key chain =>
    refine List.filterMap_cons_none (if_neg fun hs => ?_)
    obtain ⟨raw, hraw, hlen⟩ := h key rfl
    cases hs.symm.trans hraw
    rw [String.toList_ofList] at hlen
    omega

theorem paired_valueFor (h : ∀ key raw, key ∉ chain → Assoc.get? key source = some raw →
      Within source (key :: chain) raw.toList → ∀ done,
      Paired source (sweep source policy (key :: chain) done raw.toList)) :
    Paired source (valueFor source policy chain done inner) := by
  refine valueFor_cases source policy chain done inner ?cycle ?finished ?stored ?absent
  case cycle => exact fun _ => rfl
  case finished => exact fun _ _ _ => .pure _
  case stored =>
    intro raw hk _ hs
    have hwithin : Within source ((keyAndDefault inner).1 :: chain) raw.toList := by
      rintro _ ⟨rfl⟩
      exact ⟨raw, hs, le_rfl⟩
    have hpaired := h _ raw hk hs hwithin done
    unfold Paired at hpaired ⊢
    rw [fetched_asks hs, notices_expansion]
    exact (unfolded_value hs chain _).trans (congrArg _ hpaired)
  case absent =>
    intro _ _ hs
    exact (fetched_asks_absent hs []).symm

theorem paired_sweep (source : Source) (policy : Policy) (chain : List String) (text : List Char) :
    Within source chain text → ∀ done, Paired source (sweep source policy chain done text) := by
  induction chain, text using expand_induction source with
  | nil chain =>
    intro _ done
    rw [sweep_nil]
    exact .pure _
  | char chain c cs hc ih =>
    intro hwithin done
    rw [sweep_char hc]
    exact (ih (hwithin.mono (by simp)) done).bind fun _ _ => .pure _
  | unclosed chain body hb =>
    intro _ done
    rw [sweep_unclosed hb]
    exact .pure _
  | reference chain body text rest hb ihText ihValue ihRest =>
    intro hwithin done
    have hlen := length_reference (opening?_reference body) hb
    have htext : Paired source (expansion source policy chain done text) := by
      unfold Paired
      rw [notices_expansion, unfolded_expands hwithin (by omega)]
      exact ihText (hwithin.mono (by omega)) done
    rw [sweep_reference hb]
    refine htext.bind fun _ _ => ?_
    refine (paired_valueFor ihValue).bind fun _ _ => ?_
    exact (ihRest (hwithin.mono (by omega)) _).bind fun _ _ => .pure _

/-! ### Which values are fetched -/

theorem expand_ok {out : List Char} {done' : List (String × List Char)} (hchain : Opened source chain)
    (hd : Finished source policy done) (h : expand source policy chain done text = .ok (out, done')) :
    Expands source policy text out ∧ Finished source policy done' := by
  have ho := expand_outcome chain text hchain done hd
  rw [h] at ho
  cases ho with
  | expanded h hd => exact ⟨h, hd⟩

theorem finished_valueFor {value : List Char} {done' : List (String × List Char)}
    (hb : closing? 0 body = some (text, rest)) (hi : Expands source policy text inner)
    (hd : Finished source policy done) (hchain : Opened source chain)
    (h : (valueFor source policy chain done inner).result = .ok (value, done')) : Finished source policy done' := by
  have ho := referenceValue_outcome hb hi hd hchain fun key raw _ hraw => expand_outcome _ _ (hchain.cons hraw)
  rw [referenceValue, h] at ho
  exact ho.1

theorem opens_valueFor (hb : closing? 0 body = some (text, rest)) (hi : Expands source policy text inner)
    (h : ∀ key raw, key ∉ chain → Assoc.get? key source = some raw →
      ∀ k ∈ fetched source (sweep source policy (key :: chain) done raw.toList).notices,
        Opens source policy raw.toList k) :
    ∀ k ∈ fetched source (valueFor source policy chain done inner).notices,
      Opens source policy ('$' :: '{' :: body) k := by
  have hn := names_keyAndDefault inner
  refine valueFor_cases source policy chain done inner ?cycle ?finished ?stored ?absent
  case cycle => exact fun _ => nofun
  case finished => exact fun _ _ _ => nofun
  case stored =>
    intro raw hk _ hs k hmem
    rw [fetched_asks hs, notices_expansion] at hmem
    rcases List.mem_cons.mp hmem with rfl | hmem
    · exact .key hb hi hn hs
    · exact .value hb hi hn hs (h _ raw hk hs k hmem)
  case absent =>
    intro _ _ hs
    rw [fetched_asks_absent hs]
    exact nofun

/-- Only what the text opens is fetched. -/
theorem opens_sweep (chain : List String) (text : List Char) :
    Opened source chain → ∀ done, Finished source policy done →
      ∀ k ∈ fetched source (sweep source policy chain done text).notices, Opens source policy text k := by
  induction chain, text using expand_induction source with
  | nil chain =>
    intro _ done _
    rw [sweep_nil]
    exact nofun
  | char chain c cs hc ih =>
    intro hchain done hd k hk
    rw [sweep_char hc] at hk
    rcases mem_fetched_bind hk with hk | ⟨_, -, hk⟩
    · exact .char hc (ih hchain done hd k hk)
    · cases hk
  | unclosed chain body hb =>
    intro _ done _
    rw [sweep_unclosed hb]
    exact nofun
  | reference chain body text rest hb ihText ihValue ihRest =>
    intro hchain done hd k hk
    rw [sweep_reference hb] at hk
    rcases mem_fetched_bind hk with hk | ⟨⟨inner, done₁⟩, hinner, hk⟩
    · rw [notices_expansion] at hk
      exact .body hb (ihText hchain done hd k hk)
    obtain ⟨hi, hd₁⟩ := expand_ok hchain hd hinner
    rcases mem_fetched_bind hk with hk | ⟨⟨value, done₂⟩, hvalue, hk⟩
    · exact opens_valueFor hb hi (fun key raw hkey hs => ihValue key raw hkey hs (hchain.cons hs) done₁ hd₁) k hk
    rcases mem_fetched_bind hk with hk | ⟨_, -, hk⟩
    · exact .rest hb (ihRest hchain done₂ (finished_valueFor hb hi hd₁ hchain hvalue) k hk)
    · cases hk

/-- What the values of finished keys open is finished as well. -/
def Closed (source : Source) (policy : Policy) (done : List (String × List Char)) : Prop :=
  ∀ key ∈ Assoc.keys done, ∀ raw, Assoc.get? key source = some raw → ∀ k, Opens source policy raw.toList k →
    k ∈ Assoc.keys done

theorem Closed.insert (hc : Closed source policy done) (hs : Assoc.get? key source = some raw)
    (h : ∀ k, Opens source policy raw.toList k → k ∈ Assoc.keys done) (value : List Char) :
    Closed source policy (Assoc.insert key value done) := by
  intro key' hkey' raw' hs' k hk
  refine Assoc.mem_keys_insert.mpr (.inr ?_)
  rcases Assoc.mem_keys_insert.mp hkey' with rfl | hkey'
  · obtain rfl := Option.some.inj (hs.symm.trans hs')
    exact h k hk
  · exact hc key' hkey' raw' hs' k hk

/-- What a text opens is finished in the end, and what the values of finished keys open, too. -/
def Exhausts (source : Source) (policy : Policy) (text : List Char)
    (result : Except Fault (List Char × List (String × List Char))) : Prop :=
  ∀ out done', result = .ok (out, done') →
    Closed source policy done' ∧ ∀ k, Opens source policy text k → k ∈ Assoc.keys done'

theorem closed_valueFor {value : List Char} {done' : List (String × List Char)} (hc : Closed source policy done)
    (h : ∀ key raw, key ∉ chain → Assoc.get? key source = some raw →
      Exhausts source policy raw.toList (sweep source policy (key :: chain) done raw.toList).result)
    (hv : (valueFor source policy chain done inner).result = .ok (value, done')) :
    Closed source policy done' ∧
      ∀ raw, Assoc.get? (keyAndDefault inner).1 source = some raw → (keyAndDefault inner).1 ∈ Assoc.keys done' := by
  revert hv
  refine valueFor_cases source policy chain done inner ?cycle ?finished ?stored ?absent
  case cycle => exact fun _ => nofun
  case finished =>
    rintro value _ hd ⟨rfl⟩
    exact ⟨hc, fun _ _ => Assoc.mem_keys_of_get? hd⟩
  case stored =>
    intro raw hk _ hs hv
    obtain ⟨⟨value, done₁⟩, hrun, heq⟩ := exists_ok_of_map hv
    cases heq
    rw [expand_sweep] at hrun
    obtain ⟨hc₁, hopen⟩ := h _ raw hk hs value done₁ hrun
    exact ⟨hc₁.insert hs hopen value, fun _ _ => Assoc.mem_keys_insert.mpr (.inl rfl)⟩
  case absent =>
    intro _ _ hs hv
    obtain ⟨value, -, heq⟩ := exists_ok_of_map hv
    cases heq
    exact ⟨hc, fun raw hs' => by rw [hs] at hs'; cases hs'⟩

/-- When all of the text has been expanded, what it opens is finished. -/
theorem exhausts_sweep (chain : List String) (text : List Char) :
    Opened source chain → ∀ done, Finished source policy done → Closed source policy done →
      Exhausts source policy text (sweep source policy chain done text).result := by
  induction chain, text using expand_induction source with
  | nil chain =>
    intro _ done _ hc out done' h
    rw [sweep_nil] at h
    cases h
    exact ⟨hc, nofun⟩
  | char chain c cs hchar ih =>
    intro hchain done hd hc out done' h
    rw [sweep_char hchar] at h
    obtain ⟨⟨out', done₁⟩, hrest, h⟩ := Noted.result_bind_eq_ok.mp h
    cases h
    obtain ⟨hc', hopen⟩ := ih hchain done hd hc _ _ hrest
    exact ⟨hc', fun k hk => hopen k (hk.char_inv hchar)⟩
  | unclosed chain body hb =>
    intro _ done _ hc out done' h
    rw [sweep_unclosed hb] at h
    cases h
    exact ⟨hc, fun k hk => absurd hb hk.closing⟩
  | reference chain body text rest hb ihText ihValue ihRest =>
    intro hchain done hd hc out done' h
    rw [sweep_reference hb] at h
    obtain ⟨⟨inner, done₁⟩, hinner, h⟩ := Noted.result_bind_eq_ok.mp h
    obtain ⟨⟨value, done₂⟩, hvalue, h⟩ := Noted.result_bind_eq_ok.mp h
    obtain ⟨⟨tail, done₃⟩, hrest, h⟩ := Noted.result_bind_eq_ok.mp h
    cases h
    obtain ⟨hi, hd₁⟩ := expand_ok hchain hd hinner
    have hd₂ := finished_valueFor hb hi hd₁ hchain hvalue
    rw [← expand, expand_sweep] at hinner
    obtain ⟨hc₁, htext⟩ := ihText hchain done hd hc inner done₁ hinner
    obtain ⟨hc₂, hkey⟩ :=
      closed_valueFor hc₁ (fun key raw hkey hs => ihValue key raw hkey hs (hchain.cons hs) done₁ hd₁ hc₁) hvalue
    obtain ⟨hc₃, htail⟩ := ihRest hchain done₂ hd₂ hc₂ _ _ hrest
    -- What is finished stays so: behind the body, behind the value and behind the rest.
    have hgrow₂ :=
      (fresh_valueFor fun key raw _ _ => fresh_sweep source policy (key :: chain) raw.toList).finished _ _ hvalue
    have hgrow₃ := (fresh_sweep source policy chain rest done₂).finished _ _ hrest
    refine ⟨hc₃, fun k hk => ?_⟩
    rcases hk.reference_inv hb hi (names_keyAndDefault inner) with hk | hk | ⟨raw, hs, rfl | hk⟩
    · exact (hgrow₃ k).mpr (.inl ((hgrow₂ k).mpr (.inl (htext k hk))))
    · exact htail k hk
    · exact (hgrow₃ _).mpr (.inl (hkey raw hs))
    · exact (hgrow₃ k).mpr (.inl (hc₂ _ (hkey raw hs) raw hs k hk))

/-! ### A source is read by asking it -/

/-- Another source gives the same answers to all that is asked. -/
def Agrees (source source' : Source) (x : Resolving α) : Prop :=
  ∀ key, .asks key ∈ x.notices → Assoc.get? key source' = Assoc.get? key source

theorem Agrees.first {x : Resolving α} {f : α → Resolving β} (h : Agrees source source' (x >>= f)) :
    Agrees source source' x :=
  fun key hk => h key ((Noted.notices_prefix_bind x f).subset hk)

theorem Agrees.behind {x : Resolving α} {f : α → Resolving β} (h : Agrees source source' (x >>= f)) (a : α)
    (ha : x.result = .ok a) : Agrees source source' (f a) :=
  fun key hk => h key (Noted.notices_bind_of_ok ha f ▸ List.mem_append_right _ hk)

theorem Agrees.bind_eq {x y : Resolving α} {f g : α → Resolving β} (h : Agrees source source' (x >>= f))
    (hx : Agrees source source' x → y = x) (hf : ∀ a, Agrees source source' (f a) → g a = f a) :
    y >>= g = x >>= f := by
  rw [hx h.first]
  exact Noted.bind_congr fun a ha => hf a (h.behind a ha)

/-- Work on the text goes the same way with another source if that gives the same answers. -/
def Steady (source source' : Source) (policy : Policy) (chain : List String) (text : List Char) : Prop :=
  ∀ done, Agrees source source' (sweep source policy chain done text) →
    sweep source' policy chain done text = sweep source policy chain done text

theorem Steady.expansion (h : Steady source source' policy chain text)
    (hagrees : Agrees source source' (expansion source policy chain done text)) :
    expansion source' policy chain done text = expansion source policy chain done text := by
  rw [Reference.expansion] at hagrees ⊢
  rw [h done (hagrees.behind () rfl), Reference.expansion]

theorem steady_valueFor (h : ∀ key raw, key ∉ chain → Assoc.get? key source = some raw →
      Steady source source' policy (key :: chain) raw.toList)
    (hagrees : Agrees source source' (valueFor source policy chain done inner)) :
    valueFor source' policy chain done inner = valueFor source policy chain done inner := by
  revert hagrees
  refine valueFor_cases source policy chain done inner ?cycle ?finished ?stored ?absent
  case cycle => exact fun hk _ => valueFor_cycle hk
  case finished => exact fun _ hk hd _ => valueFor_done hk hd
  case stored =>
    intro raw hk hd hs hagrees
    have hs' := (hagrees _ List.mem_cons_self).trans hs
    have hvalue := (h _ raw hk hs).expansion fun k hk => hagrees k (List.mem_cons_of_mem _ hk)
    rw [valueFor_stored hk hd hs', expand, expand, hvalue]
  case absent =>
    intro hk hd hs hagrees
    exact valueFor_absent hk hd ((hagrees _ List.mem_cons_self).trans hs)

theorem steady (source source' : Source) (policy : Policy) (chain : List String) (text : List Char) :
    Steady source source' policy chain text := by
  induction chain, text using expand_induction source with
  | nil chain =>
    intro done _
    rw [sweep_nil, sweep_nil]
  | char chain c cs hc ih =>
    intro done h
    rw [sweep_char hc] at h ⊢
    rw [sweep_char hc]
    exact h.bind_eq (ih done) fun _ _ => rfl
  | unclosed chain body hb =>
    intro done _
    rw [sweep_unclosed hb, sweep_unclosed hb]
  | reference chain body text rest hb ihText ihValue ihRest =>
    intro done h
    rw [sweep_reference hb] at h ⊢
    rw [sweep_reference hb]
    refine h.bind_eq ihText.expansion fun _ h => ?_
    refine h.bind_eq (steady_valueFor ihValue) fun _ h => ?_
    exact h.bind_eq (ihRest _) fun _ _ => rfl

/-! ### Resolution as a whole -/

theorem fetched_expansion (source : Source) (policy : Policy) (chain : List String) (done : List (String × List Char))
    (text : List Char) :
    fetched source (expansion source policy chain done text).notices =
      fetched source (sweep source policy chain done text).notices := by
  rw [notices_expansion]
  rfl

/-- From no finished keys, all that the text opens is fetched when all of it has been expanded. -/
theorem mem_fetched (hchain : Opened source chain) {out : List Char} {done' : List (String × List Char)}
    (h : expand source policy chain [] text = .ok (out, done')) {k : String} (hk : Opens source policy text k) :
    k ∈ fetched source (expansion source policy chain [] text).notices := by
  rw [expand_sweep] at h
  have hdone := (exhausts_sweep chain text hchain [] .nil nofun out done' h).2 k hk
  rw [fetched_expansion]
  exact (((fresh_sweep source policy chain text []).finished out done' h k).mp hdone).resolve_left nofun

theorem resolution_of_agrees {text : String} (h : Agrees source source' (resolution source policy text)) :
    resolution source' policy text = resolution source policy text :=
  h.bind_eq (steady source source' policy [] _).expansion fun _ _ => rfl

theorem keyResolution_of_agrees (h : Agrees source source' (keyResolution source policy key)) :
    keyResolution source' policy key = keyResolution source policy key := by
  cases hs : Assoc.get? key source with
  | none =>
    rw [keyResolution_absent hs] at h ⊢
    exact keyResolution_absent ((h key List.mem_cons_self).trans hs) policy
  | some raw =>
    rw [keyResolution_stored hs] at h ⊢
    have hvalue := (steady source source' policy [key] raw.toList).expansion fun k hk =>
      h k (List.mem_cons_of_mem _ hk)
    rw [keyResolution_stored ((h key List.mem_cons_self).trans hs), expand, expand, hvalue]

theorem resolution_once (source : Source) (policy : Policy) (text : String) :
    let events := (resolution source policy text).notices
    (fetched source events).Nodup ∧ unfolded source events = fetched source events ∧
      (∀ k ∈ fetched source events, Opens source policy text.toList k) ∧
      ((∃ out, resolve source policy text = .ok out) →
        ∀ k, Opens source policy text.toList k → k ∈ fetched source events) := by
  dsimp only
  rw [resolution_eq, fetched_expansion]
  refine ⟨(fresh_sweep source policy [] _ []).nodup, ?_, opens_sweep [] _ .nil [] .nil, ?_⟩
  · rw [notices_expansion]
    exact paired_sweep source policy [] _ nofun []
  · rintro ⟨out, hout⟩ k hk
    rw [resolve_eq] at hout
    obtain ⟨⟨value, done⟩, hvalue, -⟩ := exists_ok_of_map hout
    exact fetched_expansion .. ▸ mem_fetched .nil hvalue hk

/-- The key itself is opened while its value is expanded, and so it is fetched at the start only. -/
theorem keyResolution_once (source : Source) (policy : Policy) (hs : Assoc.get? key source = some raw) :
    let events := (keyResolution source policy key).notices
    (fetched source events).Nodup ∧ unfolded source events = fetched source events ∧
      (∀ k ∈ fetched source events, k = key ∨ Opens source policy raw.toList k) ∧
      ((∃ out, resolveKey source policy key = .ok out) →
        ∀ k, k = key ∨ Opens source policy raw.toList k → k ∈ fetched source events) := by
  have hopened : Opened source [key] := Opened.nil.cons hs
  have hwithin : Within source [key] raw.toList := by
    rintro _ ⟨rfl⟩
    exact ⟨raw, hs, le_rfl⟩
  have hfresh : Fresh source [key] [] (expansion source policy [key] [] raw.toList) :=
    (fresh_sweep source policy [key] raw.toList []).expansion
  dsimp only
  rw [keyResolution_stored hs, fetched_asks hs]
  refine ⟨?_, ?_, fun k hk => ?_, ?_⟩
  · exact List.nodup_cons.mpr ⟨fun hk => (hfresh.outside key hk).1 List.mem_cons_self, hfresh.nodup⟩
  · rw [notices_expansion]
    exact (unfolded_value hs [] _).trans (congrArg _ (paired_sweep source policy [key] _ hwithin []))
  · rw [fetched_expansion] at hk
    exact (List.mem_cons.mp hk).imp id (opens_sweep [key] _ hopened [] .nil k)
  · rintro ⟨out, hout⟩ k hk
    rw [resolveKey_stored hs] at hout
    obtain ⟨⟨value, done⟩, hvalue, -⟩ := exists_ok_of_map hout
    exact List.mem_cons.mpr (hk.imp id (mem_fetched hopened hvalue))

/-- Resolving a text or a key comes to an end: within each expansion there is less left to be done for every text that
    is expanded on the way, fewer stored keys to open, or as many and a shorter text. On the way each stored value is
    fetched at most once, and expanded as often; only those that the text opens are, and all of these are when there is
    no fault. Nothing else of the source counts than what it is asked for. -/
theorem resolve_once (source : Source) (policy : Policy) :
    (∀ chain done text, ∃ more, (expansion source policy chain done text).notices = .expands chain text :: more ∧
      ∀ chain' text', .expands chain' text' ∈ more → extent source chain' text' < extent source chain text) ∧
    (∀ text : String,
      let events := (resolution source policy text).notices
      (fetched source events).Nodup ∧ unfolded source events = fetched source events ∧
        (∀ k ∈ fetched source events, Opens source policy text.toList k) ∧
        ((∃ out, resolve source policy text = .ok out) →
          ∀ k, Opens source policy text.toList k → k ∈ fetched source events) ∧
        ∀ source', (∀ k, .asks k ∈ events → Assoc.get? k source' = Assoc.get? k source) →
          resolution source' policy text = resolution source policy text) ∧
    ∀ key : String,
      let events := (keyResolution source policy key).notices
      (fetched source events).Nodup ∧ unfolded source events = fetched source events ∧
        (key ∉ Assoc.keys source → resolveKey source policy key = .ok none ∧ fetched source events = []) ∧
        (∀ raw, Assoc.get? key source = some raw →
          (∀ k ∈ fetched source events, k = key ∨ Opens source policy raw.toList k) ∧
          ((∃ out, resolveKey source policy key = .ok out) →
            ∀ k, k = key ∨ Opens source policy raw.toList k → k ∈ fetched source events)) ∧
        ∀ source', (∀ k, .asks k ∈ events → Assoc.get? k source' = Assoc.get? k source) →
          keyResolution source' policy key = keyResolution source policy key := by
  refine ⟨fun chain done text => ?_, fun text => ?_, fun key => ?_⟩
  · exact ⟨_, notices_expansion source policy chain done text, descends_sweep source policy chain text done⟩
  · obtain ⟨hnodup, hpaired, hopens, hall⟩ := resolution_once source policy text
    exact ⟨hnodup, hpaired, hopens, hall, fun _ => resolution_of_agrees⟩
  · have hsteady : ∀ source', Agrees source source' (keyResolution source policy key) → _ :=
      fun _ => keyResolution_of_agrees
    cases hs : Assoc.get? key source with
    | none =>
      dsimp only
      rw [keyResolution_absent hs, fetched_asks_absent hs]
      rw [keyResolution_absent hs] at hsteady
      exact ⟨List.nodup_nil, rfl, fun _ => ⟨resolveKey_absent hs policy, rfl⟩, nofun, hsteady⟩
    | some raw =>
      obtain ⟨hnodup, hpaired, hopens, hall⟩ := keyResolution_once source policy hs
      refine ⟨hnodup, hpaired, fun hkey => ?_, ?_, hsteady⟩
      · exact absurd hs (Assoc.get?_eq_none_iff.mpr hkey ▸ nofun)
      · rintro _ ⟨rfl⟩
        exact ⟨hopens, hall⟩

-- The value of `c` stands four times in what is made of `a`.
example :
    let doubling := [("a", "$\x7bb\x7d$\x7bb\x7d"), ("b", "$\x7bc\x7d$\x7bc\x7d"), ("c", "x")]
    let doubled := resolution doubling .fail "$\x7ba\x7d"
    doubled.result = .ok "xxxx" ∧ fetched doubling doubled.notices = ["a", "b", "c"] := by
  cbv

end Settings.Reference
