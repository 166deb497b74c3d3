import Settings.Proofs.Lexeme.Tape
import Settings.Proofs.Reference.Closing
import Settings.Proofs.Text.Cutting
import Settings.Store

/-! # References in values

The dialects with scopes in braces copy a reference into the value they read: from a brace behind a dollar to the brace
at which all braces since then are closed. The value is stored without the white space around it, so the reference is
in it as it was copied. -/

namespace Settings

/-! ### Readers that copy -/

/-- What a dialect does with a lexeme, and what its reader knows of the value it reads. -/
structure Copier (σ : Type) where
  rules : LexRules
  start : σ
  step : σ → Lexeme → Except Fault σ
  /-- A value is being read. -/
  reading : σ → Bool
  /-- The lexeme before was a dollar sign of the value. -/
  dollar : σ → Bool
  value : σ → String
  /-- The open braces of references in the value. -/
  depth : σ → Nat
  /-- The key that the value is stored under. -/
  key : σ → String
  store : σ → Store
  /-- What is stored of a value. -/
  kept : String → String

/-- A token that is no quoted text, and no word with a brace in it. -/
def Token.Bare : Token → Prop
  | .word w => '{' ∉ w.toList ∧ '}' ∉ w.toList
  | .quoted _ _ => False
  | _ => True

namespace Copier

section Runs
variable {σ : Type} (c : Copier σ)

/-- Lexemes are taken one after the other; each reader behind one of them has a property. -/
inductive Runs (P : σ → Prop) : σ → List Lexeme → σ → Prop
  | done {r : σ} : Runs P r [] r
  | take {r r' r'' : σ} {l : Lexeme} {ls : List Lexeme} (hstep : c.step r l = .ok r') (hP : P r')
      (h : Runs P r' ls r'') : Runs P r (l :: ls) r''

/-- A reference of a document is copied into a value that is stored: the readers behind the brace that opens the
    reference, behind the one that closes it, and before and behind the lexeme that ends the value. No text in quotes
    belongs to the reference. -/
inductive Copies (text : String) : σ → σ → σ → σ → Prop
  | intro {before inside behind after : List Lexeme} {opening closing ending : Lexeme} {r₀ r₁ r₂ r₃ r₄ r₅ : σ}
      (hlexemes : (Tape.ofText c.rules text).lexemes =
        before ++ opening :: inside ++ closing :: behind ++ ending :: after)
      (hbefore : c.Runs (fun _ => True) c.start before r₀)
      (hopening : c.step r₀ opening = .ok r₁) (houtside : c.depth r₀ = 0) (hopened : 0 < c.depth r₁)
      (hinside : c.Runs (0 < c.depth ·) r₁ inside r₂) (hquotes : ∀ l ∈ inside, ∀ q s, l.token ≠ .quoted q s)
      (hclosing : c.step r₂ closing = .ok r₃) (hbrace : closing.token = .char '}') (hclosed : c.depth r₃ = 0)
      (hbehind : c.Runs (c.reading · = true) r₃ behind r₄)
      (hending : c.step r₄ ending = .ok r₅) (hended : c.reading r₅ = false) : Copies text r₁ r₃ r₄ r₅

/-- What a lexeme does to a value. -/
inductive Takes (r : σ) (l : Lexeme) (r' : σ) : Prop
  /-- The value gets longer, without a brace of a reference. -/
  | text {cs : List Char} (hv : (c.value r').toList = (c.value r).toList ++ cs) (hd : c.depth r' = c.depth r)
      (hr : c.reading r' = true) (hdollar : c.dollar r' = true → cs = ['$'])
      (hl : l.token.Bare → '{' ∉ cs ∧ '}' ∉ cs)
  | opening (hv : (c.value r').toList = (c.value r).toList ++ ['{']) (hd : c.depth r' = c.depth r + 1)
      (hr : c.reading r' = true) (hdollar : c.dollar r' = false) (hin : c.dollar r = true ∨ 0 < c.depth r)
  | closing (hv : (c.value r').toList = (c.value r).toList ++ ['}']) (hd : c.depth r = c.depth r' + 1)
      (hr : c.reading r' = true) (hdollar : c.dollar r' = false)
  | stores (hs : (c.store r').get? (c.key r) = some (c.kept (c.value r))) (hd : c.depth r' = 0)
      (hr : c.reading r' = false) (hdollar : c.dollar r' = false) (hl : l.token = .char '}' → c.depth r = 0)
  /-- There is no value after all. -/
  | leaves (hv : Text.trim (c.value r).toList = []) (hd : c.depth r = 0) (hd' : c.depth r' = 0)
      (hr : c.reading r' = false) (hdollar : c.dollar r' = false)

/-- What holds of the steps of a reader that copies references. -/
structure Lawful : Prop where
  words : c.rules.isWordChar '{' = false ∧ c.rules.isWordChar '}' = false
  start : c.depth c.start = 0 ∧ c.dollar c.start = false
  outside {r r' : σ} {l : Lexeme} (h : c.step r l = .ok r') (hr : c.reading r = false) (hd : c.depth r = 0)
    (hdollar : c.dollar r = false) : c.depth r' = 0 ∧ c.dollar r' = false
  takes {r r' : σ} {l : Lexeme} (h : c.step r l = .ok r') (hr : c.reading r = true) : c.Takes r l r'
  kept {s : String} {as bs : List Char} (hs : s.toList = as ++ '}' :: bs) :
    ∃ cs, (c.kept s).toList = Text.trimStart as ++ '}' :: cs

end Runs

end Copier

/-! ### What is copied -/

namespace Copier

variable {σ : Type} {c : Copier σ} {r r' : σ} {l : Lexeme} {ls : List Lexeme} {P : σ → Prop} {d : Nat}

/-- A parser that takes lexeme after lexeme reads a document as what its reader has stored behind the last one. -/
theorem runs_of_run (c : Copier σ) (run : σ → Tape → Watched Store) {tape : Tape} {store : Store}
    (htorn : ∀ r e, (run r (.torn e)).result ≠ .ok store)
    (hended : ∀ r line, (run r (.ended line)).result = .ok store →
      ∃ r', c.step r ⟨line, .eof⟩ = .ok r' ∧ c.store r' = store)
    (hcons : ∀ r l rest, (run r (.cons l rest)).result = .ok store →
      ∃ r', c.step r l = .ok r' ∧ (run r' rest).result = .ok store)
    (h : (run r tape).result = .ok store) : ∃ r', c.Runs (fun _ => True) r tape.lexemes r' ∧ c.store r' = store := by
  induction tape generalizing r with
  | torn e => exact absurd h (htorn r e)
  | ended line =>
    obtain ⟨r', hstep, hstore⟩ := hended r line h
    exact ⟨r', .take hstep trivial .done, hstore⟩
  | cons l rest ih =>
    obtain ⟨r₁, hstep, hrest⟩ := hcons r l rest h
    obtain ⟨r', hr', hstore⟩ := ih hrest
    exact ⟨r', .take hstep trivial hr', hstore⟩

/-- A character that is no brace makes the value longer. -/
theorem Takes.char {ch : Char} (hopen : ch ≠ '{') (hclose : ch ≠ '}') (hv : c.value r' = c.value r ++ ch.toString)
    (hd : c.depth r' = c.depth r) (hr : c.reading r' = true) (hdollar : c.dollar r' = true → ch = '$') :
    c.Takes r l r' := by
  have hlonger : (c.value r').toList = (c.value r).toList ++ [ch] := by
    rw [hv, String.toList_append, Char.toString_eq_singleton, String.toList_singleton]
  refine .text hlonger hd hr (fun h => ?_) fun _ => ?_
  · rw [hdollar h]
  · exact ⟨fun hm => hopen (List.mem_singleton.mp hm).symm, fun hm => hclose (List.mem_singleton.mp hm).symm⟩

/-- Outside of values no reference is open, and behind a dollar sign the value ends with it. -/
def Sound (c : Copier σ) (r : σ) : Prop :=
  (c.reading r = false → c.depth r = 0 ∧ c.dollar r = false) ∧
    (c.dollar r = true → ∃ cs, (c.value r).toList = cs ++ ['$'])

theorem Lawful.sound_start (hc : c.Lawful) : c.Sound c.start :=
  ⟨fun _ => hc.start, fun h => nomatch h.symm.trans hc.start.2⟩

theorem Lawful.sound_step (hc : c.Lawful) (h : c.step r l = .ok r') (hr : c.Sound r) : c.Sound r' := by
  cases hreading : c.reading r with
  | false =>
    obtain ⟨hdepth, hdollar⟩ := hr.1 hreading
    obtain ⟨hdepth', hdollar'⟩ := hc.outside h hreading hdepth hdollar
    simp [Sound, hdepth', hdollar']
  | true =>
    cases hc.takes h hreading with
    | text hv hd hr' hdollar hl =>
      have hends : c.dollar r' = true → ∃ cs, (c.value r').toList = cs ++ ['$'] := fun hd' =>
        ⟨(c.value r).toList, by rw [hv, hdollar hd']⟩
      exact ⟨fun hfalse => (nomatch hr'.symm.trans hfalse), hends⟩
    | opening hv hd hr' hdollar hin => simp [Sound, hr', hdollar]
    | closing hv hd hr' hdollar => simp [Sound, hr', hdollar]
    | stores hs hd hr' hdollar hl => simp [Sound, hd, hdollar]
    | leaves hv hd hd' hr' hdollar => simp [Sound, hd', hdollar]

theorem Lawful.sound_runs (hc : c.Lawful) (h : c.Runs P r ls r') (hr : c.Sound r) : c.Sound r' := by
  induction h with
  | done => exact hr
  | take hstep hP h ih => exact ih (hc.sound_step hstep hr)

/-- The brace that opens a reference stands behind a dollar. -/
theorem Lawful.opened (hc : c.Lawful) (h : c.step r l = .ok r') (hr : c.Sound r) (hout : c.depth r = 0)
    (hin : 0 < c.depth r') :
    c.reading r' = true ∧ c.depth r' = 1 ∧ ∃ cs, (c.value r').toList = cs ++ ['$', '{'] := by
  cases hreading : c.reading r with
  | false =>
    obtain ⟨hdepth, hdollar⟩ := hr.1 hreading
    have hdepth' := (hc.outside h hreading hdepth hdollar).1
    omega
  | true =>
    cases hc.takes h hreading with
    | opening hv hd hr' hdollar hbefore =>
      have hdollar' : c.dollar r = true := hbefore.resolve_right (by omega)
      obtain ⟨cs, hcs⟩ := hr.2 hdollar'
      refine ⟨hr', by omega, cs, ?_⟩
      rw [hv, hcs, List.append_assoc]
      rfl
    | _ => omega

/-- Inside a reference the braces of the value are counted. -/
theorem Lawful.inside (hc : c.Lawful) (h : c.Runs (0 < c.depth ·) r ls r') (hr : c.reading r = true)
    (hd : c.depth r = d + 1) (hbare : ∀ l ∈ ls, l.token.Bare) :
    c.reading r' = true ∧ ∃ cs d', (c.value r').toList = (c.value r).toList ++ cs ∧ c.depth r' = d' + 1 ∧
      Reference.braces? d cs = some d' := by
  -- The brace that opened the reference is not in the text that is copied from here on: the reader counts one more.
  induction h generalizing d with
  | done => exact ⟨hr, [], d, (List.append_nil _).symm, hd, rfl⟩
  | @take r r₁ r' l ls hstep hin h ih =>
    obtain ⟨hl, hls⟩ := List.forall_mem_cons.mp hbare
    have hon : ∃ cs d₁, (c.value r₁).toList = (c.value r).toList ++ cs ∧ c.reading r₁ = true ∧
        c.depth r₁ = d₁ + 1 ∧ Reference.braces? d cs = some d₁ := by
      cases hc.takes hstep hr with
      | text hv hd' hr' hdollar hplain =>
        obtain ⟨hopen, hclose⟩ := hplain hl
        exact ⟨_, d, hv, hr', hd'.trans hd, Reference.braces?_plain hopen hclose⟩
      | opening hv hd' hr' hdollar hbefore => exact ⟨_, d + 1, hv, hr', by omega, rfl⟩
      | closing hv hd' hr' hdollar =>
        obtain ⟨e, rfl⟩ : ∃ e, d = e + 1 := ⟨c.depth r₁ - 1, by omega⟩
        exact ⟨_, e, hv, hr', by omega, rfl⟩
      | stores hs hd' hr' hdollar hl => omega
      | leaves hv hd₀ hd' hr' hdollar => omega
    obtain ⟨cs, d₁, hv, hr₁, hd₁, hcs⟩ := hon
    obtain ⟨hr', ds, d', hv', hd', hds⟩ := ih hr₁ hd₁ hls
    refine ⟨hr', cs ++ ds, d', ?_, hd', ?_⟩
    · rw [hv', hv, List.append_assoc]
    · rw [Reference.braces?_append, hcs, Option.bind_some, hds]

theorem Lawful.closed (hc : c.Lawful) (h : c.step r l = .ok r') (hr : c.reading r = true) (hin : 0 < c.depth r)
    (hl : l.token = .char '}') (hout : c.depth r' = 0) :
    c.reading r' = true ∧ c.depth r = 1 ∧ (c.value r').toList = (c.value r).toList ++ ['}'] := by
  cases hc.takes h hr with
  | closing hv hd hr' hdollar => exact ⟨hr', by omega, hv⟩
  | stores hs hd hr' hdollar hfirst => exact absurd (hfirst hl) (by omega)
  | _ => omega

/-- A value only gets longer. -/
theorem Lawful.grows (hc : c.Lawful) (h : c.Runs (c.reading · = true) r ls r') (hr : c.reading r = true) :
    c.reading r' = true ∧ ∃ cs, (c.value r').toList = (c.value r).toList ++ cs := by
  induction h with
  | done => exact ⟨hr, [], (List.append_nil _).symm⟩
  | @take r r₁ r' l ls hstep hr₁ h ih =>
    obtain ⟨hr', ds, hds⟩ := ih hr₁
    have hon : ∃ cs, (c.value r₁).toList = (c.value r).toList ++ cs := by
      cases hc.takes hstep hr with
      | text hv => exact ⟨_, hv⟩
      | opening hv => exact ⟨_, hv⟩
      | closing hv => exact ⟨_, hv⟩
      | stores hs hd hfalse => cases hr₁.symm.trans hfalse
      | leaves hv hd hd' hfalse => cases hr₁.symm.trans hfalse
    obtain ⟨cs, hcs⟩ := hon
    exact ⟨hr', cs ++ ds, by rw [hds, hcs, List.append_assoc]⟩

theorem Lawful.stored (hc : c.Lawful) (h : c.step r l = .ok r') (hr : c.reading r = true) (hr' : c.reading r' = false)
    (hv : Text.trim (c.value r).toList ≠ []) : (c.store r').get? (c.key r) = some (c.kept (c.value r)) := by
  cases hc.takes h hr with
  | stores hs => exact hs
  | leaves hblank => exact absurd hblank hv
  | text _ _ htrue => cases htrue.symm.trans hr'
  | opening _ _ htrue => cases htrue.symm.trans hr'
  | closing _ _ htrue => cases htrue.symm.trans hr'

/-- Outside of quotes, no lexeme but a brace holds one. -/
theorem Lawful.bare (hc : c.Lawful) {text : String} (h : l ∈ (Tape.ofText c.rules text).lexemes)
    (hquotes : ∀ q s, l.token ≠ .quoted q s) : l.token.Bare := by
  cases htok : l.token with
  | word w =>
    have hword := Scanner.word_of_mem h htok
    exact ⟨fun hm => (nomatch (hword _ hm).symm.trans hc.words.1),
      fun hm => (nomatch (hword _ hm).symm.trans hc.words.2)⟩
  | quoted q s => exact absurd htok (hquotes q s)
  | _ => trivial

/-- Where the resolver takes a reference to end that was copied into a value: at the same brace just where no brace
    without a dollar is opened in the reference, and at an earlier one otherwise. -/
def Ends (c : Copier σ) (opened closed last stored : σ) : Prop :=
  ∃ lead before body after value, (∀ ch ∈ lead, Text.isWhite ch = true) ∧
    (c.value opened).toList = lead ++ before ++ ['$', '{'] ∧
    (c.value closed).toList = lead ++ before ++ '$' :: '{' :: body ++ ['}'] ∧
    (c.store stored).get? (c.key last) = some value ∧ value.toList = before ++ '$' :: '{' :: body ++ '}' :: after ∧
    (Reference.closing? 0 (body ++ '}' :: after) = some (body, after) ↔ Reference.opensPlain body = false) ∧
    (Reference.opensPlain body = true → ∃ a b, body = a ++ '}' :: b ∧
      Reference.closing? 0 (body ++ '}' :: after) = some (a, b ++ '}' :: after))

theorem Lawful.ends (hc : c.Lawful) {text : String} {r₁ r₃ r₄ r₅ : σ} (h : c.Copies text r₁ r₃ r₄ r₅) :
    c.Ends r₁ r₃ r₄ r₅ := by
  cases h with
  | @intro _ inside _ _ opening closing ending r₀ _ r₂ _ _ _ hlexemes hbefore hopening houtside hopened hinside hquotes
      hclosing hbrace hclosed hbehind hending hended =>
    have hmem : ∀ l ∈ inside, l ∈ (Tape.ofText c.rules text).lexemes := fun l hl => by
      rw [hlexemes]
      simp [hl]
    obtain ⟨hr₁, hd₁, w, hw⟩ := hc.opened hopening (hc.sound_runs hbefore hc.sound_start) houtside hopened
    obtain ⟨hr₂, body, d, hv₂, hd₂, hbody⟩ := hc.inside hinside hr₁ hd₁ fun l hl => hc.bare (hmem l hl) (hquotes l hl)
    obtain ⟨hr₃, hone, hv₃⟩ := hc.closed hclosing hr₂ (by omega) hbrace hclosed
    obtain ⟨hr₄, more, hv₄⟩ := hc.grows hbehind hr₃
    obtain rfl : d = 0 := by omega
    rw [hv₂, hw] at hv₃
    rw [hv₃] at hv₄
    have hlast : (c.value r₄).toList = (w ++ '$' :: '{' :: body) ++ '}' :: more := by rw [hv₄]; simp
    -- White space is cut off in front of the dollar and behind the brace, so what is stored has all of the reference.
    have hfull : Text.trim (c.value r₄).toList ≠ [] := by
      rw [hlast, Text.trim_around rfl]
      simp
    obtain ⟨after, hafter⟩ := hc.kept hlast
    rw [Text.trimStart_append rfl] at hafter
    refine ⟨w.takeWhile Text.isWhite, Text.trimStart w, body, after, _, ?_, ?_, ?_,
      hc.stored hending hr₄ hended hfull, ?_, Reference.closing?_eq_body_iff hbody after⟩
    · exact List.all_eq_true.mp List.all_takeWhile
    · rw [hw, Text.trimStart, List.takeWhile_append_dropWhile]
    · rw [hv₃, Text.trimStart, List.takeWhile_append_dropWhile]
      simp
    · rw [hafter]

end Copier

end Settings
