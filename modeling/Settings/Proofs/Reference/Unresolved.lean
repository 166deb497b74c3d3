import Settings.Proofs.Reference.Resolution

/-! # References that cannot be resolved

Where unresolved references are kept and no comma gives a default, a text that opens no key of the source is its own
expansion, however its references and braces are nested or left open. -/

namespace Settings.Reference

variable {source : Source} {text : List Char}

/-- A text without defaults that needs no key of the source expands to itself. -/
theorem Expands.of_not_opens (text : List Char) (hcomma : ',' ∉ text) (hopen : ∀ key, ¬Opens source .keep text key) :
    Expands source .keep text text := by
  -- The chain of opened keys plays no part: the induction only goes along the text and down into its references.
  induction ([] : List String), text using expand_induction source with
  | nil => exact .nil
  | char _ c cs hc ih =>
    rw [List.mem_cons, not_or] at hcomma
    exact .char hc (ih hcomma.2 fun key hkey => hopen key (.char hc hkey))
  | unclosed _ body hb => exact .unclosed hb
  | reference _ body text rest hb ihText _ ihRest =>
    obtain rfl := closing?_eq hb
    simp only [List.mem_cons, List.mem_append, not_or] at hcomma
    obtain ⟨-, -, htext, -, hrest⟩ := hcomma
    have hinner := ihText htext fun key hkey => hopen key (.body hb hkey)
    have hnames : Names text (String.ofList (Text.trim text)) none := .alone htext
    have hmissing : Assoc.get? (String.ofList (Text.trim text)) source = none := by
      cases hget : Assoc.get? (String.ofList (Text.trim text)) source with
      | none => rfl
      | some raw => exact absurd (.key hb hinner hnames hget) (hopen _)
    have hout := Expands.missing hb hinner hnames hmissing (.kept rfl hnames)
      (ihRest hrest fun key hkey => hopen key (.rest hb hkey))
    simpa using hout

/-- From an empty source nothing is opened. -/
theorem not_opens_of_empty {policy : Policy} {key : String} (hsource : ∀ key, Assoc.get? key source = none) :
    ¬Opens source policy text key := by
  intro h
  induction h with
  | char _ _ ih | body _ _ ih | rest _ _ ih => exact ih
  | key _ _ _ hk | value _ _ _ hk =>
    rw [hsource] at hk
    cases hk

/-- A text without commas comes back as it was from a source that holds no key. -/
theorem resolve_unresolved (text : String) (hcomma : ',' ∉ text.toList) (source : Source)
    (hsource : ∀ key, Assoc.get? key source = none) : resolve source .keep text = .ok text :=
  resolve_ok_iff.mpr (.of_not_opens text.toList hcomma fun _ => not_opens_of_empty hsource)

/-- References in a reference, one that is not closed, and stray dollars and braces. -/
theorem resolve_unresolved_nested :
    ',' ∉ "\x7d $\x7b a$\x7b$\x7bb\x7d.\x7bc\x7d \x7d $$\x7b\x7d$\x7bd \x7b$\x7be\x7d $".toList ∧
    resolve [] .keep "\x7d $\x7b a$\x7b$\x7bb\x7d.\x7bc\x7d \x7d $$\x7b\x7d$\x7bd \x7b$\x7be\x7d $" =
      .ok "\x7d $\x7b a$\x7b$\x7bb\x7d.\x7bc\x7d \x7d $$\x7b\x7d$\x7bd \x7b$\x7be\x7d $" :=
  ⟨by decide, resolve_unresolved _ (by decide) [] fun _ => rfl⟩

end Settings.Reference
