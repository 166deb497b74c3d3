import Settings.Proofs.Dialect.HoconTokens

/-! # The directives that a run comes to

A reader asks for an included document at the end of the line of its directive, and for nothing else. What is asked for
up to there does not depend on what is in the documents that have been included, since the reader never looks at its
store; it only depends on whether they could be had. -/

namespace Settings

namespace Hocon

variable {load load' : Nat → String → Watched Store} {r r' : Reader} {l : Lexeme} {tape : Tape} {store : Store}
  {e : Fault} {p : Nat × String}

/-- The line and the text of the directive that ends with this lexeme, if one does. -/
def asks? (r : Reader) (l : Lexeme) : Option (Nat × String) :=
  match r.mode, l.token with
  | .directive line raw, .eol | .directive line raw, .eof => some (line, raw)
  | _, _ => none

/-- The directives that a run comes to, each with its line. -/
def asked (load : Nat → String → Watched Store) (r : Reader) : Tape → List (Nat × String)
  | .torn _ => []
  | .ended line => (asks? r ⟨line, .eof⟩).toList
  | .cons l rest =>
    (asks? r l).toList ++
      match (step load r l).result with
      | .ok r' => asked load r' rest
      | .error _ => []

/-! ### One lexeme -/

/-- The end of a directive's line asks for what the directive names; any other lexeme asks for nothing. -/
theorem step_cases (r : Reader) (l : Lexeme) :
    (∃ line raw, asks? r l = some (line, raw) ∧
      ∀ load, step load r l = load line raw >>= merge { r with mode := .key }) ∨
    asks? r l = none ∧ ∀ load load', step load r l = step load' r l := by
  obtain ⟨store, scopes, key, value, depth, mode⟩ := r
  obtain ⟨line, tok⟩ := l
  cases mode with
  | directive first raw =>
    cases tok with
    | eol | eof => exact .inl ⟨first, raw, rfl, fun _ => rfl⟩
    | word | quoted | char | blank => exact .inr ⟨rfl, fun _ _ => rfl⟩
  | key | «include» | value =>
    cases tok with
    | _ => exact .inr ⟨rfl, fun _ _ => rfl⟩

section Stores
variable {s : Store} {scopes : List String} {key value : String} {depth line : Nat} {mode : Mode} {dollar : Bool}

theorem keyToken_otherStore (h : (.of (keyToken ⟨s, scopes, key, value, depth, mode⟩ l) : Watched _).result = .ok r')
    (t : Store) :
    ∃ u, (.of (keyToken ⟨t, scopes, key, value, depth, mode⟩ l) : Watched _).result = .ok { r' with store := u } := by
  refine ⟨t, ?_⟩
  rw [Noted.result_of] at h ⊢
  obtain ⟨line, tok⟩ := l
  cases tok with
  | word w =>
    simp only [keyToken] at h ⊢
    split_ifs at h ⊢
    all_goals
      cases h
      rfl
  | quoted | blank | eol | eof =>
    cases h
    rfl
  | char c =>
    simp only [keyToken, Reader.openScope, Reader.closeScope] at h ⊢
    split_ifs at h ⊢
    all_goals
      cases h
      rfl

theorem valueToken_otherStore (h : (valueToken ⟨s, scopes, key, value, depth, mode⟩ dollar l).result = .ok r')
    (t : Store) : ∃ u, (valueToken ⟨t, scopes, key, value, depth, mode⟩ dollar l).result = .ok { r' with store := u } := by
  obtain ⟨line, tok⟩ := l
  cases tok with
  | word | quoted | blank | eol | eof =>
    cases h
    exact ⟨t, rfl⟩
  | char c =>
    simp only [valueToken] at h ⊢
    split_ifs at h ⊢ with hopen hdepth hvalue hclose hin
    · cases h
      exact ⟨t, rfl⟩
    · cases h
    · cases h
      exact ⟨t, rfl⟩
    · cases h
      exact ⟨t, rfl⟩
    · -- A brace that closes a scope stores the value first.
      rw [Noted.result_bind] at h ⊢
      change Reader.closeScope ⟨s.set _ _, scopes, "", "", 0, .key⟩ line = _ at h
      refine ⟨t.set (dottedKey (scopes ++ [key])) (Text.trimmed value), ?_⟩
      change Reader.closeScope ⟨t.set _ _, scopes, "", "", 0, .key⟩ line = _
      rw [Reader.closeScope] at h ⊢
      split_ifs at h ⊢
      cases h
      rfl
    · cases h
      exact ⟨t, rfl⟩

theorem endLine_otherStore (h : (endLine ⟨s, scopes, key, value, depth, mode⟩ line).result = .ok r') (t : Store) :
    ∃ u, (endLine ⟨t, scopes, key, value, depth, mode⟩ line).result = .ok { r' with store := u } := by
  cases mode with
  | value dollar =>
    cases h
    exact ⟨_, rfl⟩
  | key | «include» | directive =>
    simp only [endLine] at h ⊢
    split_ifs at h ⊢
    · cases h
      exact ⟨t, rfl⟩
    · cases h

end Stores

/-- The end of a directive's line fails as the included document does; otherwise only the store changes. -/
theorem step_asks (h : asks? r l = some p) (load : Nat → String → Watched Store) :
    (∃ e, (load p.1 p.2).result = .error e ∧ (step load r l).result = .error e) ∨
    ∃ included, (load p.1 p.2).result = .ok included ∧
      (step load r l).result =
        .ok { r with mode := .key, store := r.store.setAll (included.pairs.map (prefixed r.scopes)) } := by
  rcases step_cases r l with ⟨line, raw, hasks, hstep⟩ | ⟨hasks, -⟩
  · cases hasks.symm.trans h
    rw [hstep, Noted.result_bind]
    cases hload : (load line raw).result with
    | error e => exact .inl ⟨e, rfl, rfl⟩
    | ok included => exact .inr ⟨included, rfl, result_merge _ _⟩
  · cases hasks.symm.trans h

theorem ok_of_asks (h : asks? r l = some p) (hstep : (step load r l).result = .ok r') :
    ∃ included, (load p.1 p.2).result = .ok included := by
  rcases step_asks h load with ⟨e, -, he⟩ | ⟨included, hload, -⟩
  · cases he.symm.trans hstep
  · exact ⟨included, hload⟩

theorem step_of_error (h : asks? r l = some p) (hp : (load p.1 p.2).result = .error e) :
    (step load r l).result = .error e := by
  rcases step_asks h load with ⟨e', he, hstep⟩ | ⟨included, hload, -⟩
  · cases he.symm.trans hp
    exact hstep
  · cases hload.symm.trans hp

/-- What a lexeme does to the rest of a reader depends neither on its store nor on what is included, if that can be
    had. -/
theorem step_otherStore (h : (step load r l).result = .ok r')
    (hp : ∀ p ∈ asks? r l, ∃ included, (load' p.1 p.2).result = .ok included) (s : Store) :
    ∃ t, (step load' { r with store := s } l).result = .ok { r' with store := t } := by
  cases hasks : asks? r l with
  | some p =>
    obtain ⟨included, hload'⟩ := hp p hasks
    have hasks' : asks? { r with store := s } l = some p := hasks
    rcases step_asks hasks load with ⟨e, -, he⟩ | ⟨_, -, hstep⟩
    · cases he.symm.trans h
    · rcases step_asks hasks' load' with ⟨e, he, -⟩ | ⟨_, -, hstep'⟩
      · cases he.symm.trans hload'
      · cases hstep.symm.trans h
        exact ⟨_, hstep'⟩
  | none =>
    obtain ⟨store, scopes, key, value, depth, mode⟩ := r
    obtain ⟨line, tok⟩ := l
    cases mode with
    | directive first raw =>
      cases tok with
      | eol | eof => cases hasks
      | word | quoted | char | blank =>
        cases h
        exact ⟨s, rfl⟩
    | «include» =>
      cases tok with
      | word w =>
        cases h
        exact ⟨s, rfl⟩
      | eol | eof => exact endLine_otherStore h s
      | quoted | char | blank => exact keyToken_otherStore h s
    | key =>
      cases tok with
      | eol | eof => exact endLine_otherStore h s
      | word | quoted | char | blank => exact keyToken_otherStore h s
    | value dollar =>
      cases tok with
      | eol | eof => exact endLine_otherStore h s
      | word | quoted | char | blank => exact valueToken_otherStore h s

/-! ### Whole runs -/

theorem asked_cons_of_ok {rest : Tape} (h : (step load r l).result = .ok r') :
    asked load r (.cons l rest) = (asks? r l).toList ++ asked load r' rest := by
  rw [asked, h]

theorem asked_cons_of_error {rest : Tape} (h : (step load r l).result = .error e) :
    asked load r (.cons l rest) = (asks? r l).toList := by
  rw [asked, h, List.append_nil]

/-- Only the documents that a run asks for count. -/
theorem run_congr (h : ∀ p ∈ asked load r tape, p ∈ asked load' r tape → load p.1 p.2 = load' p.1 p.2) :
    run load r tape = run load' r tape := by
  have hstep : ∀ {r l}, (∀ p ∈ asks? r l, load p.1 p.2 = load' p.1 p.2) → step load r l = step load' r l := by
    intro r l hp
    rcases step_cases r l with ⟨line, raw, hasks, hload⟩ | ⟨-, hsame⟩
    · rw [hload, hload, hp _ hasks]
    · exact hsame load load'
  induction tape generalizing r with
  | torn e => rfl
  | ended line =>
    rw [run, run, hstep fun p hp => h p (Option.mem_toList.mpr hp) (Option.mem_toList.mpr hp)]
  | cons l rest ih =>
    have hmem : ∀ load, ∀ p ∈ asks? r l, p ∈ asked load r (.cons l rest) := fun load p hp =>
      List.mem_append_left _ (Option.mem_toList.mpr hp)
    have heq : step load r l = step load' r l := hstep fun p hp => h p (hmem load p hp) (hmem load' p hp)
    rw [run, run, heq]
    refine Noted.bind_congr fun r' hr' => ih fun p hp hp' => h p ?_ ?_
    · rw [asked_cons_of_ok (heq ▸ hr')]
      exact List.mem_append_right _ hp
    · rw [asked_cons_of_ok hr']
      exact List.mem_append_right _ hp'

/-- A run that succeeds has got every document that it would ask for if it got other ones. -/
theorem ok_of_asked (h : (run load r tape).result = .ok store) (s : Store)
    (hp : p ∈ asked load' { r with store := s } tape) : ∃ included, (load p.1 p.2).result = .ok included := by
  induction tape generalizing r s with
  | torn e => cases h
  | ended line =>
    obtain ⟨r', hstep, -⟩ := Noted.result_bind_eq_ok.mp h
    exact ok_of_asks (r := r) (Option.mem_toList.mp hp) hstep
  | cons l rest ih =>
    obtain ⟨r₁, hstep, hrest⟩ := Noted.result_bind_eq_ok.mp h
    rcases List.mem_append.mp hp with hp | hp
    · exact ok_of_asks (r := r) (Option.mem_toList.mp hp) hstep
    · -- The other run has passed this lexeme too, so both readers differ in their stores only.
      cases hstep' : (step load' { r with store := s } l).result with
      | error e =>
        rw [hstep'] at hp
        cases hp
      | ok r₂ =>
        rw [hstep'] at hp
        obtain ⟨t, ht⟩ := step_otherStore hstep (fun q hq => ok_of_asks (r := { r with store := s }) hq hstep') s
        cases ht.symm.trans hstep'
        exact ih hrest t hp

/-- A run that can have more documents asks for more. -/
theorem asked_prefix
    (hload : ∀ line raw included, (load line raw).result = .ok included →
      ∃ included', (load' line raw).result = .ok included') (s : Store) :
    asked load r tape <+: asked load' { r with store := s } tape := by
  induction tape generalizing r s with
  | torn | ended => exact List.prefix_refl _
  | cons l rest ih =>
    cases hstep : (step load r l).result with
    | error e =>
      rw [asked_cons_of_error hstep]
      exact List.prefix_append _ _
    | ok r₁ =>
      have hasks : ∀ p ∈ asks? r l, ∃ included, (load' p.1 p.2).result = .ok included := by
        intro p hp
        obtain ⟨included, hok⟩ := ok_of_asks hp hstep
        exact hload p.1 p.2 included hok
      obtain ⟨t, ht⟩ := step_otherStore hstep hasks s
      rw [asked_cons_of_ok hstep, asked_cons_of_ok ht]
      exact (List.prefix_append_right_inj _).mpr (ih t)

theorem asks_of_split {before after : List (Nat × String)} (h : (asks? r l).toList = before ++ p :: after) :
    asks? r l = some p ∧ after = [] := by
  cases hasks : asks? r l with
  | none =>
    rw [hasks] at h
    cases List.append_ne_nil_of_right_ne_nil before (List.cons_ne_nil p after) h.symm
  | some q =>
    rw [hasks, Option.toList_some] at h
    cases before with
    | nil =>
      cases h
      exact ⟨rfl, rfl⟩
    | cons => cases List.append_ne_nil_of_right_ne_nil _ (List.cons_ne_nil p after) (List.cons.inj h).2.symm

/-- A run stops at the first document that cannot be had. -/
theorem run_of_error {before after : List (Nat × String)} (hasked : asked load r tape = before ++ p :: after)
    (hp : (load p.1 p.2).result = .error e) : after = [] ∧ (run load r tape).result = .error e := by
  induction tape generalizing r before with
  | torn => cases List.append_ne_nil_of_right_ne_nil before (List.cons_ne_nil p after) hasked.symm
  | ended line =>
    obtain ⟨hasks, rfl⟩ := asks_of_split hasked
    rw [run, Noted.result_bind, step_of_error hasks hp]
    exact ⟨rfl, rfl⟩
  | cons l rest ih =>
    cases hstep : (step load r l).result with
    | error e' =>
      rw [asked_cons_of_error hstep] at hasked
      obtain ⟨hasks, rfl⟩ := asks_of_split hasked
      rw [run, Noted.result_bind, step_of_error hasks hp]
      exact ⟨rfl, rfl⟩
    | ok r₁ =>
      rw [asked_cons_of_ok hstep] at hasked
      rw [run, Noted.result_bind, hstep]
      rcases append_split hasked with ⟨more, hasks, -⟩ | ⟨before', -, hrest⟩
      · obtain ⟨hasks, -⟩ := asks_of_split hasks
        cases hstep.symm.trans (step_of_error hasks hp)
      · exact ih hrest

end Hocon

end Settings
