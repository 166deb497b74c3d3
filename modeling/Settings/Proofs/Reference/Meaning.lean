import Settings.Proofs.Text.Cutting
import Settings.Reference

/-! # What references mean

The meaning of a text with references, said without a chain of opened keys and without a table of finished
ones: a text expands to a result if there is a finite derivation of it. A derivation is unique, and no key
that it opens leads back to itself. -/

namespace Settings.Reference

/-- The key and the default that an expanded body names: the text before its first comma and the text
    behind it, both trimmed. -/
inductive Names : List Char → String → Option (List Char) → Prop
  | alone {inner : List Char} (h : ',' ∉ inner) : Names inner (String.ofList (Text.trim inner)) none
  | withDefault {a b : List Char} (h : ',' ∉ a) :
      Names (a ++ ',' :: b) (String.ofList (Text.trim a)) (some (Text.trim b))

/-- What a reference to a missing key is replaced by: its default, or else, if it may be kept, itself with
    its body expanded. -/
inductive StandsIn (policy : Policy) : List Char → List Char → Prop
  | default {inner value : List Char} {key : String} (h : Names inner key (some value)) :
      StandsIn policy inner value
  | kept {inner : List Char} {key : String} (hp : policy = .keep) (h : Names inner key none) :
      StandsIn policy inner ('$' :: '{' :: inner ++ ['}'])

/-- A text expands to a result. -/
inductive Expands (source : Source) (policy : Policy) : List Char → List Char → Prop
  | nil : Expands source policy [] []
  | char {c : Char} {cs out : List Char} (hc : ∀ body, c :: cs ≠ '$' :: '{' :: body)
      (h : Expands source policy cs out) : Expands source policy (c :: cs) (c :: out)
  /-- A reference that is not closed leaves the rest of the text as it is. -/
  | unclosed {body : List Char} (hb : closing? 0 body = none) :
      Expands source policy ('$' :: '{' :: body) ('$' :: '{' :: body)
  | stored {body text rest inner value out : List Char} {key raw : String} {default : Option (List Char)}
      (hb : closing? 0 body = some (text, rest)) (hi : Expands source policy text inner)
      (hn : Names inner key default) (hk : Assoc.get? key source = some raw)
      (hv : Expands source policy raw.toList value) (hr : Expands source policy rest out) :
      Expands source policy ('$' :: '{' :: body) (value ++ out)
  | missing {body text rest inner value out : List Char} {key : String} {default : Option (List Char)}
      (hb : closing? 0 body = some (text, rest)) (hi : Expands source policy text inner)
      (hn : Names inner key default) (hk : Assoc.get? key source = none) (hv : StandsIn policy inner value)
      (hr : Expands source policy rest out) :
      Expands source policy ('$' :: '{' :: body) (value ++ out)

/-- The expansion of a text needs the value of a key of the source, at whatever depth. -/
inductive Opens (source : Source) (policy : Policy) : List Char → String → Prop
  | char {c : Char} {cs : List Char} {key : String} (hc : ∀ body, c :: cs ≠ '$' :: '{' :: body)
      (h : Opens source policy cs key) : Opens source policy (c :: cs) key
  | body {body text rest : List Char} {key : String} (hb : closing? 0 body = some (text, rest))
      (h : Opens source policy text key) : Opens source policy ('$' :: '{' :: body) key
  | key {body text rest inner : List Char} {key raw : String} {default : Option (List Char)}
      (hb : closing? 0 body = some (text, rest)) (hi : Expands source policy text inner)
      (hn : Names inner key default) (hk : Assoc.get? key source = some raw) :
      Opens source policy ('$' :: '{' :: body) key
  | value {body text rest inner : List Char} {key key' raw : String} {default : Option (List Char)}
      (hb : closing? 0 body = some (text, rest)) (hi : Expands source policy text inner)
      (hn : Names inner key default) (hk : Assoc.get? key source = some raw)
      (h : Opens source policy raw.toList key') : Opens source policy ('$' :: '{' :: body) key'
  | rest {body text rest : List Char} {key : String} (hb : closing? 0 body = some (text, rest))
      (h : Opens source policy rest key) : Opens source policy ('$' :: '{' :: body) key

/-- The value of a key needs the value of that key. -/
def LeadsBack (source : Source) (policy : Policy) (key : String) : Prop :=
  ∃ raw, Assoc.get? key source = some raw ∧ Opens source policy raw.toList key

variable {source : Source} {policy : Policy} {body text rest inner value out out' : List Char} {key k : String}
  {default : Option (List Char)}

/-! ### Keys and defaults -/

theorem names_keyAndDefault (inner : List Char) : Names inner (keyAndDefault inner).1 (keyAndDefault inner).2 := by
  unfold keyAndDefault
  cases h : Text.cut? ',' inner with
  | none => exact .alone (Text.cut?_eq_none_iff.mp h)
  | some p =>
    obtain ⟨ha, rfl⟩ := Text.cut?_eq_some_iff.mp h
    exact .withDefault ha

theorem Names.eq (h : Names inner key default) : keyAndDefault inner = (key, default) := by
  cases h with
  | alone h => rw [keyAndDefault, Text.cut?_eq_none_iff.mpr h]
  | withDefault h => rw [keyAndDefault, Text.cut?_append h]

theorem Names.key_eq (h : Names inner key default) (h' : Names inner k default') : key = k :=
  (Prod.mk.inj (h.eq.symm.trans h'.eq)).1

/-- What stands in for a missing key is what `missing` gives. -/
theorem standsIn_iff : StandsIn policy inner value ↔ missing policy inner = .ok value := by
  constructor
  · rintro (h | ⟨rfl, h⟩) <;> simp [missing, h.eq]
  · intro h
    have hn := names_keyAndDefault inner
    unfold missing at h
    rcases hd : keyAndDefault inner with ⟨key, _ | d⟩ <;> rw [hd] at h hn
    · cases policy with
      | keep =>
        cases h
        exact .kept rfl hn
      | fail => cases h
    · cases h
      exact .default hn

theorem StandsIn.eq {value' : List Char} (h : StandsIn policy inner value) (h' : StandsIn policy inner value') :
    value = value' := Except.ok.inj ((standsIn_iff.mp h).symm.trans (standsIn_iff.mp h'))

/-! ### Reading a derivation off its text -/

theorem Expands.char_inv {c : Char} {cs : List Char} (hc : ∀ body, c :: cs ≠ '$' :: '{' :: body)
    (h : Expands source policy (c :: cs) out) : ∃ out', out = c :: out' ∧ Expands source policy cs out' := by
  cases h with
  | char _ h => exact ⟨_, rfl, h⟩
  | unclosed | stored | missing => exact absurd rfl (hc _)

theorem Expands.unclosed_inv (hb : closing? 0 body = none) (h : Expands source policy ('$' :: '{' :: body) out) :
    out = '$' :: '{' :: body := by
  cases h with
  | char hc => exact absurd rfl (hc _)
  | unclosed => rfl
  | stored hb' | missing hb' =>
    rw [hb] at hb'
    cases hb'

theorem Expands.reference_inv (hb : closing? 0 body = some (text, rest))
    (h : Expands source policy ('$' :: '{' :: body) out) : ∃ inner key default value tail,
      out = value ++ tail ∧ Expands source policy text inner ∧ Names inner key default ∧
      Expands source policy rest tail ∧
      ((∃ raw, Assoc.get? key source = some raw ∧ Expands source policy raw.toList value) ∨
        Assoc.get? key source = none ∧ StandsIn policy inner value) := by
  cases h with
  | char hc => exact absurd rfl (hc _)
  | unclosed hb' =>
    rw [hb] at hb'
    cases hb'
  | stored hb' hi hn hk hv hr =>
    obtain ⟨rfl, rfl⟩ := Prod.mk.inj (Option.some.inj (hb.symm.trans hb'))
    exact ⟨_, _, _, _, _, rfl, hi, hn, hr, Or.inl ⟨_, hk, hv⟩⟩
  | missing hb' hi hn hk hv hr =>
    obtain ⟨rfl, rfl⟩ := Prod.mk.inj (Option.some.inj (hb.symm.trans hb'))
    exact ⟨_, _, _, _, _, rfl, hi, hn, hr, Or.inr ⟨hk, hv⟩⟩

/-- A text has one expansion at most. -/
theorem Expands.eq (h : Expands source policy text out) (h' : Expands source policy text out') : out = out' := by
  induction h generalizing out' with
  | nil =>
    cases h'
    rfl
  | char hc _ ih =>
    obtain ⟨tail, rfl, ht⟩ := h'.char_inv hc
    rw [ih ht]
  | unclosed hb => exact (h'.unclosed_inv hb).symm
  | stored hb _ hn hk _ _ ihi ihv ihr =>
    obtain ⟨inner', key', default', value', tail, rfl, hi', hn', hr', h'⟩ := h'.reference_inv hb
    obtain rfl := ihi hi'
    obtain rfl := hn.key_eq hn'
    rcases h' with ⟨raw', hk', hv'⟩ | ⟨hk', -⟩ <;> rw [hk] at hk' <;> cases hk'
    rw [ihv hv', ihr hr']
  | missing hb _ hn hk hv _ ihi ihr =>
    obtain ⟨inner', key', default', value', tail, rfl, hi', hn', hr', h'⟩ := h'.reference_inv hb
    obtain rfl := ihi hi'
    obtain rfl := hn.key_eq hn'
    rcases h' with ⟨raw', hk', -⟩ | ⟨-, hv'⟩
    · rw [hk] at hk'
      cases hk'
    · rw [hv.eq hv', ihr hr']

/-! ### No key of a derivation leads back to itself -/

theorem Opens.char_inv {c : Char} {cs : List Char} (hc : ∀ body, c :: cs ≠ '$' :: '{' :: body)
    (h : Opens source policy (c :: cs) key) : Opens source policy cs key := by
  cases h with
  | char _ h => exact h
  | body | key | value | rest => exact absurd rfl (hc _)

theorem Opens.closing (h : Opens source policy ('$' :: '{' :: body) key) : closing? 0 body ≠ none := by
  cases h with
  | char hc => exact absurd rfl (hc _)
  | body hb | key hb | value hb | rest hb => simp [hb]

theorem Opens.reference_inv (hb : closing? 0 body = some (text, rest)) (hi : Expands source policy text inner)
    (hn : Names inner key default) (h : Opens source policy ('$' :: '{' :: body) k) :
    Opens source policy text k ∨ Opens source policy rest k ∨
      ∃ raw, Assoc.get? key source = some raw ∧ (k = key ∨ Opens source policy raw.toList k) := by
  cases h with
  | char hc => exact absurd rfl (hc _)
  | body hb' h =>
    obtain ⟨rfl, rfl⟩ := Prod.mk.inj (Option.some.inj (hb.symm.trans hb'))
    exact Or.inl h
  | rest hb' h =>
    obtain ⟨rfl, rfl⟩ := Prod.mk.inj (Option.some.inj (hb.symm.trans hb'))
    exact Or.inr (Or.inl h)
  | key hb' hi' hn' hk' =>
    obtain ⟨rfl, rfl⟩ := Prod.mk.inj (Option.some.inj (hb.symm.trans hb'))
    obtain rfl := hi.eq hi'
    obtain rfl := hn.key_eq hn'
    exact Or.inr (Or.inr ⟨_, hk', Or.inl rfl⟩)
  | value hb' hi' hn' hk' h =>
    obtain ⟨rfl, rfl⟩ := Prod.mk.inj (Option.some.inj (hb.symm.trans hb'))
    obtain rfl := hi.eq hi'
    obtain rfl := hn.key_eq hn'
    exact Or.inr (Or.inr ⟨_, hk', Or.inr h⟩)

theorem Expands.not_leadsBack (h : Expands source policy text out) (ho : Opens source policy text key) :
    ¬LeadsBack source policy key := by
  induction h generalizing key with
  | nil => cases ho
  | char hc _ ih => exact ih (ho.char_inv hc)
  | unclosed hb => exact absurd hb ho.closing
  | @stored _ _ _ _ _ _ key₀ raw _ hb hi hn hk _ _ ihi ihv ihr =>
    rcases ho.reference_inv hb hi hn with ho | ho | ⟨raw', hk', rfl | ho⟩
    · exact ihi ho
    · exact ihr ho
    · -- The value of the key would open the key, which the derivation of that value excludes.
      rintro ⟨raw'', hk'', hback⟩
      obtain rfl := Option.some.inj (hk.symm.trans hk'')
      exact ihv hback ⟨_, hk, hback⟩
    · obtain rfl := Option.some.inj (hk.symm.trans hk')
      exact ihv ho
  | missing hb hi hn hk _ _ ihi ihr =>
    rcases ho.reference_inv hb hi hn with ho | ho | ⟨raw', hk', -⟩
    · exact ihi ho
    · exact ihr ho
    · rw [hk] at hk'
      cases hk'

end Settings.Reference
