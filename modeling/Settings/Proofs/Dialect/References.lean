import Settings.Dialect.Json
import Settings.Proofs.Dialect.Copying
import Settings.Proofs.Dialect.HoconInclude

/-! # References in the dialects with scopes

The readers of the HOCON and of the flat JSON dialect copy references by the same laws. So for both the resolver finds
the end of a reference where the reader has seen it, unless the reference has an opening brace without a dollar. -/

namespace Settings

/-! ### The HOCON dialect -/

namespace Hocon

/-- A value is being read. -/
def Mode.isValue : Mode → Bool
  | .value _ => true
  | _ => false

/-- The reader of the HOCON dialect. -/
def copier (load : Nat → String → Watched Store) : Copier Reader where
  rules := .hocon
  start := .start
  step r l := (step load r l).result
  reading r := r.mode.isValue
  dollar r := r.mode = .value true
  value r := r.value
  depth r := r.depth
  key r := r.path r.key
  store r := r.store
  kept := Text.trimmed

variable {load : Nat → String → Watched Store} {r r' : Reader} {l : Lexeme} {dollar : Bool}

theorem ne_value_of_not_isValue {m : Mode} (h : m.isValue = false) : m ≠ .value dollar := by
  rintro rfl
  cases h

/-- Where a key stands, no lexeme changes the braces of references, and none leads behind a dollar of a value. -/
theorem keyToken_outside (h : keyToken r l = .ok r') (hr : r.mode.isValue = false) :
    r'.depth = r.depth ∧ r'.mode ≠ .value true := by
  have hmode : r.mode ≠ .value true := ne_value_of_not_isValue hr
  unfold keyToken at h
  split at h
  · split at h <;> cases h <;> exact ⟨rfl, nofun⟩
  · cases h
    exact ⟨rfl, nofun⟩
  · cases h
    exact ⟨rfl, hmode⟩
  · split at h
    · cases h
      exact ⟨rfl, nofun⟩
    split at h
    · cases h
      exact ⟨rfl, hmode⟩
    split at h
    · split at h <;> cases h
      exact ⟨rfl, nofun⟩
    split at h
    · cases h
      exact ⟨rfl, nofun⟩
    split at h
    · split at h
      · cases h
      · unfold Reader.closeScope at h
        split at h <;> cases h
        exact ⟨rfl, hmode⟩
    · cases h
  · cases h
    exact ⟨rfl, hmode⟩
  · cases h
    exact ⟨rfl, hmode⟩

theorem endLine_outside {line : Nat} (h : (endLine r line).result = .ok r') (hr : r.mode.isValue = false) :
    r'.depth = r.depth ∧ r'.mode ≠ .value true := by
  have hmode : r.mode ≠ .value true := ne_value_of_not_isValue hr
  unfold endLine at h
  split at h
  · next heq =>
    rw [heq] at hr
    cases hr
  · split at h
    · cases h
      exact ⟨rfl, hmode⟩
    · cases h

theorem directive_outside {line : Nat} {raw : String}
    (h : (load line raw >>= fun included => merge { r with mode := .key } included).result = .ok r') :
    r'.depth = r.depth ∧ r'.mode ≠ .value true := by
  obtain ⟨included, -, hmerge⟩ := Noted.result_bind_eq_ok.mp h
  cases (result_merge { r with mode := .key } included).symm.trans hmerge
  exact ⟨rfl, nofun⟩

theorem step_outside (h : (step load r l).result = .ok r') (hr : r.mode.isValue = false) :
    r'.depth = r.depth ∧ r'.mode ≠ .value true := by
  unfold step at h
  split at h
  · split at h
    · cases h
      exact ⟨rfl, nofun⟩
    · cases h
      exact ⟨rfl, nofun⟩
    · cases h
      exact ⟨rfl, nofun⟩
    · cases h
      exact ⟨rfl, ne_value_of_not_isValue hr⟩
    · exact directive_outside h
    · exact directive_outside h
  · split at h
    · cases h
      exact ⟨rfl, nofun⟩
    · exact endLine_outside (r := { r with mode := .key }) h rfl
    · exact endLine_outside (r := { r with mode := .key }) h rfl
    · exact keyToken_outside h hr
  · split at h
    · exact endLine_outside h hr
    · exact endLine_outside h hr
    · exact keyToken_outside h hr
  · next heq =>
    rw [heq] at hr
    cases hr

theorem result_storeValue (r : Reader) : r.storeValue.result =
    .ok { r with store := r.store.set (r.path r.key) (Text.trimmed r.value), key := "", value := "", depth := 0,
                 mode := .key } := rfl

theorem takes_step (h : (step load r l).result = .ok r') (hr : r.mode.isValue = true) :
    (copier load).Takes r l r' := by
  obtain ⟨line, tok⟩ := l
  obtain ⟨dollar, hmode⟩ : ∃ dollar, r.mode = .value dollar := by
    cases hm : r.mode with
    | value dollar => exact ⟨dollar, rfl⟩
    | _ => rw [hm] at hr; cases hr
  have hend : endLine r line = r.storeValue := by rw [endLine, hmode]
  -- Only a brace and the end of the line do more to a value than make it longer.
  cases tok with
  | word w =>
    simp only [step, hmode] at h
    cases h
    exact .text String.toList_append rfl rfl nofun id
  | quoted q text =>
    simp only [step, hmode] at h
    cases h
    exact .text String.toList_append rfl rfl nofun False.elim
  | blank =>
    simp only [step, hmode] at h
    cases h
    refine .text String.toList_append rfl rfl nofun fun _ => ?_
    split <;> decide
  | eol =>
    simp only [step, hmode, hend] at h
    cases h
    exact .stores (Store.get?_set_self _ _ _) rfl rfl rfl nofun
  | eof =>
    simp only [step, hmode, hend] at h
    cases h
    exact .stores (Store.get?_set_self _ _ _) rfl rfl rfl nofun
  | char ch =>
    simp only [step, hmode, valueToken] at h
    by_cases hopen : ch = '{'
    · subst hopen
      by_cases hin : dollar = true ∨ 0 < r.depth
      · rw [if_pos rfl, if_pos hin] at h
        cases h
        exact .opening String.toList_append rfl rfl rfl (hin.imp_left fun hd => decide_eq_true (by rw [hmode, hd]))
      · obtain ⟨-, hout⟩ := not_or.mp hin
        rw [if_pos rfl, if_neg hin] at h
        split at h
        · cases h
        · next hblank =>
          cases h
          have hdepth : r.depth = 0 := Nat.eq_zero_of_not_pos hout
          exact .leaves (Decidable.of_not_not hblank) hdepth hdepth rfl rfl
    by_cases hclose : ch = '}'
    · subst hclose
      by_cases hin : 0 < r.depth
      · rw [if_neg hopen, if_pos rfl, if_pos hin] at h
        cases h
        exact .closing String.toList_append (Nat.sub_add_cancel hin).symm rfl rfl
      · rw [if_neg hopen, if_pos rfl, if_neg hin] at h
        obtain ⟨r₁, hstored, hclosed⟩ := Noted.result_bind_eq_ok.mp h
        cases (result_storeValue r).symm.trans hstored
        rw [Noted.result_of, Reader.closeScope] at hclosed
        split at hclosed
        · cases hclosed
        · cases hclosed
          exact .stores (Store.get?_set_self _ _ _) rfl rfl rfl fun _ => Nat.eq_zero_of_not_pos hin
    · rw [if_neg hopen, if_neg hclose] at h
      cases h
      refine .char hopen hclose rfl rfl rfl fun hd => ?_
      have hmode' : Mode.value (decide (ch = '$')) = .value true := of_decide_eq_true hd
      exact of_decide_eq_true (Mode.value.inj hmode')

/-- What a document is read as is what its reader has stored behind the last lexeme. -/
theorem runs_of_run {tape : Tape} {store : Store} (h : (run load r tape).result = .ok store) :
    ∃ r', (copier load).Runs (fun _ => True) r tape.lexemes r' ∧ r'.store = store := by
  refine (copier load).runs_of_run (run load) (fun r e h => ?_) (fun r line h => ?_) (fun r l rest h => ?_) h
  · cases h
  · obtain ⟨r', hstep, hfinish⟩ := Noted.result_bind_eq_ok.mp h
    split at hfinish
    · cases hfinish
      exact ⟨r', hstep, rfl⟩
    · cases hfinish
  · exact Noted.result_bind_eq_ok.mp h

theorem lawful_copier (load : Nat → String → Watched Store) : (copier load).Lawful where
  words := by
    show LexRules.hocon.isWordChar '{' = false ∧ LexRules.hocon.isWordChar '}' = false
    decide
  start := ⟨rfl, rfl⟩
  outside h hr hd _ := ⟨(step_outside h hr).1.trans hd, decide_eq_false (step_outside h hr).2⟩
  takes h hr := takes_step h hr
  kept {s as bs} hs := by
    refine ⟨Text.trimEnd bs, ?_⟩
    show (Text.trimmed s).toList = _
    rw [Text.trimmed, String.toList_ofList, hs, Text.trim_around rfl]

end Hocon

/-! ### The flat JSON dialect -/

namespace FlatJson

/-- The reader of the flat JSON dialect. -/
def copier : Copier Reader where
  rules := .json
  start := .start
  step r l := (step r l).result
  reading r := r.separated
  dollar r := r.dollar
  value r := r.value
  depth r := r.depth
  key r := dottedKey (r.scopes ++ [r.key])
  store r := r.store
  kept := trimValue

variable {r r' : Reader} {l : Lexeme}

theorem endLine_outside {line : Nat} (h : (endLine r line).result = .ok r') (hr : r.separated = false) : r' = r := by
  unfold endLine Reader.hasValue at h
  rw [hr] at h
  simp only [Bool.false_and, Bool.false_eq_true, if_false, Bool.not_false, Bool.true_and] at h
  split at h
  · cases h
  · cases h
    rfl

theorem openScope_ok {line : Nat} (h : openScope r line = .ok r') :
    r.hasValue = false ∧ r' = { r with scopes := r.scopes ++ [r.key], key := "", separated := false } := by
  unfold openScope at h
  split at h
  · cases h
  · next hv =>
    cases h
    exact ⟨by simpa using hv, rfl⟩

theorem closeScope_ok {line : Nat} (h : (closeScope r line).result = .ok r') :
    ∃ r₁, r' = { r₁ with scopes := r₁.scopes.dropLast } ∧
      (r.hasValue = true ∧ r.storeValue.result = .ok r₁ ∨
        r.hasValue = false ∧ r₁ = { r with value := "", separated := false }) := by
  have hpop : ∀ r₁ : Reader, (if r₁.scopes = [] then Noted.fault (.structural line .strayBrace)
      else pure { r₁ with scopes := r₁.scopes.dropLast } : Watched Reader).result = .ok r' →
      r' = { r₁ with scopes := r₁.scopes.dropLast } := by
    intro r₁ h
    split at h
    · cases h
    · cases h
      rfl
  unfold closeScope at h
  dsimp only at h
  split at h
  · next hv =>
    obtain ⟨r₁, hstored, hpopped⟩ := Noted.result_bind_eq_ok.mp h
    exact ⟨r₁, hpop r₁ hpopped, .inl ⟨hv, hstored⟩⟩
  · next hv =>
    split at h
    · obtain ⟨r₁, hfault, -⟩ := Noted.result_bind_eq_ok.mp h
      cases hfault
    · obtain ⟨r₁, hleft, hpopped⟩ := Noted.result_bind_eq_ok.mp h
      cases hleft
      exact ⟨_, hpop _ hpopped, .inr ⟨by simpa using hv, rfl⟩⟩

theorem keyChar_outside {line : Nat} {ch : Char} (h : keyChar r line ch = .ok r') :
    r'.depth = r.depth ∧ r'.dollar = r.dollar := by
  unfold keyChar at h
  split at h
  · cases h
    exact ⟨rfl, rfl⟩
  split at h
  · split at h <;> cases h
    exact ⟨rfl, rfl⟩
  split at h
  · cases h
    exact ⟨rfl, rfl⟩
  · cases h

/-- Where a key stands, no lexeme opens a reference, and none is a dollar sign of a value. -/
theorem step_outside (h : (step r l).result = .ok r') (hr : r.separated = false) (hd : r.depth = 0)
    (hdollar : r.dollar = false) : r'.depth = 0 ∧ r'.dollar = false := by
  obtain ⟨line, tok⟩ := l
  have hout : ¬ (r.dollar = true ∨ 0 < r.depth) := by simp [hd, hdollar]
  have hno : ({ r with dollar := false } : Reader).hasValue = false := by simp [Reader.hasValue, hr]
  unfold step take at h
  cases tok with
  | eol | eof =>
    obtain rfl := endLine_outside h hr
    exact ⟨hd, rfl⟩
  | blank =>
    cases h
    exact ⟨hd, rfl⟩
  | word w =>
    simp only [hr] at h
    cases h
    exact ⟨hd, rfl⟩
  | quoted q text =>
    simp only [hr] at h
    cases h
    exact ⟨hd, rfl⟩
  | char ch =>
    simp only at h
    split at h
    · obtain ⟨-, rfl⟩ := openScope_ok h
      exact ⟨hd, rfl⟩
    split at h
    · rw [if_neg (fun hin => hout (.inr hin))] at h
      obtain ⟨r₁, rfl, ⟨hv, -⟩ | ⟨-, rfl⟩⟩ := closeScope_ok h
      · rw [hno] at hv
        cases hv
      · exact ⟨hd, rfl⟩
    · rw [hr, if_neg Bool.false_ne_true] at h
      obtain ⟨hdepth, hd'⟩ := keyChar_outside h
      exact ⟨hdepth.trans hd, hd'⟩

theorem takes_step (h : (step r l).result = .ok r') (hr : r.separated = true) : copier.Takes r l r' := by
  obtain ⟨line, tok⟩ := l
  have hvalue : ({ r with dollar := false } : Reader).hasValue = (r.value != "") := by
    rw [Reader.hasValue, hr, Bool.true_and]
  have hstored (r₁ : Reader) (scopes : List String) (h₁ : (Reader.storeValue { r with dollar := false }).result = .ok r₁)
      (hl : tok = .char '}' → r.depth = 0) : copier.Takes r ⟨line, tok⟩ { r₁ with scopes := scopes } := by
    cases h₁
    exact .stores (Store.get?_set_self _ _ _) rfl rfl rfl hl
  have hempty (hv : (r.value != "") = false) : Text.trim r.value.toList = [] := by
    rw [bne_eq_false_iff_eq.mp hv]
    rfl
  unfold step take at h
  cases tok with
  | eol | eof =>
    simp only [endLine, hvalue] at h
    split at h
    · exact hstored r' r'.scopes h nofun
    · rw [hr] at h
      cases h
      exact .text (List.append_nil _).symm rfl rfl nofun fun _ => ⟨List.not_mem_nil, List.not_mem_nil⟩
  | blank =>
    cases h
    exact .text (List.append_nil _).symm rfl hr nofun fun _ => ⟨List.not_mem_nil, List.not_mem_nil⟩
  | word w =>
    simp only [hr, if_true] at h
    cases h
    exact .text String.toList_append rfl rfl nofun id
  | quoted q text =>
    simp only [hr, if_true] at h
    cases h
    exact .text String.toList_append rfl rfl nofun False.elim
  | char ch =>
    dsimp only at h
    by_cases hopen : ch = '{'
    · subst hopen
      rw [if_pos rfl] at h
      split at h
      · next hin =>
        cases h
        exact .opening String.toList_append rfl hr rfl hin
      · next hin =>
        obtain ⟨hv, rfl⟩ := openScope_ok h
        have hdepth : r.depth = 0 := Nat.eq_zero_of_not_pos (not_or.mp hin).2
        exact .leaves (hempty (hvalue.symm.trans hv)) hdepth hdepth rfl rfl
    by_cases hclose : ch = '}'
    · subst hclose
      rw [if_neg hopen, if_pos rfl] at h
      split at h
      · next hin =>
        cases h
        exact .closing String.toList_append (Nat.sub_add_cancel hin).symm hr rfl
      · next hin =>
        have hdepth : r.depth = 0 := Nat.eq_zero_of_not_pos hin
        obtain ⟨r₁, rfl, ⟨-, h₁⟩ | ⟨hv, rfl⟩⟩ := closeScope_ok h
        · exact hstored r₁ _ h₁ fun _ => hdepth
        · exact .leaves (hempty (hvalue.symm.trans hv)) hdepth hdepth rfl rfl
    · rw [if_neg hopen, if_neg hclose, hr, if_pos rfl] at h
      cases h
      exact .char hopen hclose rfl rfl rfl of_decide_eq_true

/-- What a document is read as is what its reader has stored behind the last lexeme. -/
theorem runs_of_run {tape : Tape} {store : Store} (h : (run r tape).result = .ok store) :
    ∃ r', copier.Runs (fun _ => True) r tape.lexemes r' ∧ r'.store = store := by
  refine copier.runs_of_run run (fun r e h => ?_) (fun r line h => ?_) (fun r l rest h => ?_) h
  · cases h
  · obtain ⟨r', hstep, hfinish⟩ := Noted.result_bind_eq_ok.mp h
    rw [Noted.result_of, finish] at hfinish
    split at hfinish
    · cases hfinish
    split at hfinish
    · cases hfinish
    · cases hfinish
      exact ⟨r', hstep, rfl⟩
  · exact Noted.result_bind_eq_ok.mp h

theorem lawful_copier : copier.Lawful where
  words := by decide
  start := ⟨rfl, rfl⟩
  outside h hr hd hdollar := step_outside h hr hd hdollar
  takes h hr := takes_step h hr
  kept {s as bs} hs := by
    obtain ⟨cs, hcs⟩ := Text.beforeLast?_around (show '}' ≠ ',' by decide) (Text.trimStart as) (Text.trimEnd bs)
    refine ⟨cs, ?_⟩
    show (trimValue s).toList = _
    rw [trimValue, String.toList_ofList, hs, Text.trim_around rfl, hcs]

end FlatJson

/-- The parser of either dialect and the resolver agree on where a reference ends just where no brace without a dollar is
    opened in it. Where one is, the resolver stops at an earlier brace. What a document is read as is what the readers of
    the parser have stored behind its last lexeme. -/
theorem copied_ends (load : Nat → String → Watched Store) (text : String) :
    (∀ opened closed last stored, (Hocon.copier load).Copies text opened closed last stored →
      (Hocon.copier load).Ends opened closed last stored) ∧
    (∀ opened closed last stored, FlatJson.copier.Copies text opened closed last stored →
      FlatJson.copier.Ends opened closed last stored) ∧
    (∀ store, (Hocon.parse load text).result = .ok store →
      ∃ r, (Hocon.copier load).Runs (fun _ => True) .start (Tape.ofText .hocon text).lexemes r ∧ r.store = store) ∧
    ∀ store, (FlatJson.parse text).result = .ok store →
      ∃ r, FlatJson.copier.Runs (fun _ => True) .start (Tape.ofText .json text).lexemes r ∧ r.store = store :=
  ⟨fun _ _ _ _ h => (Hocon.lawful_copier load).ends h, fun _ _ _ _ h => FlatJson.lawful_copier.ends h,
    fun _ h => Hocon.runs_of_run h, fun _ h => FlatJson.runs_of_run h⟩

/-- The reader of the HOCON dialect inside the value of `k`. -/
def Hocon.within (value : String) (depth : Nat) : Hocon.Reader := ⟨.empty, [], "k", value, depth, .value false⟩

/-- The reader of the HOCON dialect behind the only setting of a document. -/
def Hocon.behind (value : String) : Hocon.Reader := between (Store.empty.set "k" value) []

/-- The reader of the flat JSON dialect inside the value of `k`. -/
def FlatJson.within (value : String) (depth : Nat) : FlatJson.Reader := ⟨.empty, [], "k", value, true, false, depth⟩

/-- The reader of the flat JSON dialect behind the only setting of a document. -/
def FlatJson.behind (value : String) : FlatJson.Reader := ⟨Store.empty.set "k" value, [], "", "", false, false, 0⟩

/-- A reference in a reference, and a word behind it. -/
theorem copied_ends_nested :
    (Hocon.copier Hocon.refuse).Ends (Hocon.within "$\x7b" 1) (Hocon.within "$\x7ba,$\x7bb\x7d\x7d" 0)
      (Hocon.within "$\x7ba,$\x7bb\x7d\x7dc" 0) (Hocon.behind "$\x7ba,$\x7bb\x7d\x7dc") ∧
    FlatJson.copier.Ends (FlatJson.within "$\x7b" 1) (FlatJson.within "$\x7ba,$\x7bb\x7d\x7d" 0)
      (FlatJson.within "$\x7ba,$\x7bb\x7d\x7dc" 0) (FlatJson.behind "$\x7ba,$\x7bb\x7d\x7dc") := by
  have hlexemes : ∀ rules ∈ [LexRules.hocon, LexRules.json],
      (Tape.ofText rules "k=$\x7ba,$\x7bb\x7d\x7dc").lexemes =
        [⟨1, .word "k"⟩, ⟨1, .char '='⟩, ⟨1, .char '$'⟩] ++ ⟨1, .char '{'⟩ ::
        [⟨1, .word "a"⟩, ⟨1, .char ','⟩, ⟨1, .char '$'⟩, ⟨1, .char '{'⟩, ⟨1, .word "b"⟩, ⟨1, .char '}'⟩] ++
        ⟨1, .char '}'⟩ :: [⟨1, .word "c"⟩] ++ ⟨1, .eof⟩ :: [] := by
    decide +kernel
  obtain ⟨hhocon, hjson, -⟩ := copied_ends Hocon.refuse "k=$\x7ba,$\x7bb\x7d\x7dc"
  constructor
  · have hbefore : (Hocon.copier Hocon.refuse).Runs (fun _ => True) .start
        [⟨1, .word "k"⟩, ⟨1, .char '='⟩, ⟨1, .char '$'⟩] { Hocon.within "$" 0 with mode := .value true } :=
      .take rfl trivial (.take rfl trivial (.take rfl trivial .done))
    have hinside : (Hocon.copier Hocon.refuse).Runs (0 < ·.depth) (Hocon.within "$\x7b" 1)
        [⟨1, .word "a"⟩, ⟨1, .char ','⟩, ⟨1, .char '$'⟩, ⟨1, .char '{'⟩, ⟨1, .word "b"⟩, ⟨1, .char '}'⟩]
        (Hocon.within "$\x7ba,$\x7bb\x7d" 1) :=
      .take rfl (by decide) (.take rfl (by decide) (.take rfl (by decide) (.take rfl (by decide)
        (.take rfl (by decide) (.take rfl (by decide) .done)))))
    have hbehind : (Hocon.copier Hocon.refuse).Runs (·.mode.isValue = true) (Hocon.within "$\x7ba,$\x7bb\x7d\x7d" 0)
        [⟨1, .word "c"⟩] (Hocon.within "$\x7ba,$\x7bb\x7d\x7dc" 0) :=
      .take rfl rfl .done
    exact hhocon _ _ _ _ (.intro (hlexemes _ (by decide)) hbefore rfl rfl (by decide) hinside (by simp) rfl rfl rfl
      hbehind rfl rfl)
  · have hbefore : FlatJson.copier.Runs (fun _ => True) .start [⟨1, .word "k"⟩, ⟨1, .char '='⟩, ⟨1, .char '$'⟩]
        { FlatJson.within "$" 0 with dollar := true } :=
      .take rfl trivial (.take rfl trivial (.take rfl trivial .done))
    have hinside : FlatJson.copier.Runs (0 < ·.depth) (FlatJson.within "$\x7b" 1)
        [⟨1, .word "a"⟩, ⟨1, .char ','⟩, ⟨1, .char '$'⟩, ⟨1, .char '{'⟩, ⟨1, .word "b"⟩, ⟨1, .char '}'⟩]
        (FlatJson.within "$\x7ba,$\x7bb\x7d" 1) :=
      .take rfl (by decide) (.take rfl (by decide) (.take rfl (by decide) (.take rfl (by decide)
        (.take rfl (by decide) (.take rfl (by decide) .done)))))
    have hbehind : FlatJson.copier.Runs (·.separated = true) (FlatJson.within "$\x7ba,$\x7bb\x7d\x7d" 0)
        [⟨1, .word "c"⟩] (FlatJson.within "$\x7ba,$\x7bb\x7d\x7dc" 0) :=
      .take rfl rfl .done
    exact hjson _ _ _ _ (.intro (hlexemes _ (by decide)) hbefore rfl rfl (by decide) hinside (by simp) rfl rfl rfl
      hbehind rfl rfl)

/-- A brace in a default: the parser copies the reference to its end, and the resolver stops one brace earlier. -/
theorem bracedDefault_ends :
    (Hocon.copier Hocon.refuse).Copies "k = $\x7ba,\x7bb\x7d\x7d" (Hocon.within "$\x7b" 1)
      (Hocon.within "$\x7ba,\x7bb\x7d\x7d" 0) (Hocon.within "$\x7ba,\x7bb\x7d\x7d" 0)
      (Hocon.behind "$\x7ba,\x7bb\x7d\x7d") ∧
    Reference.closing? 0 ("a,\x7bb\x7d".toList ++ ['}']) ≠ some ("a,\x7bb\x7d".toList, []) ∧
    Reference.closing? 0 ("a,\x7bb\x7d".toList ++ ['}']) = some ("a,\x7bb".toList, ['}']) := by
  have hlexemes : (Tape.ofText .hocon "k = $\x7ba,\x7bb\x7d\x7d").lexemes =
      [⟨1, .word "k"⟩, ⟨1, .blank⟩, ⟨1, .char '='⟩, ⟨1, .blank⟩, ⟨1, .char '$'⟩] ++ ⟨1, .char '{'⟩ ::
      [⟨1, .word "a"⟩, ⟨1, .char ','⟩, ⟨1, .char '{'⟩, ⟨1, .word "b"⟩, ⟨1, .char '}'⟩] ++
      ⟨1, .char '}'⟩ :: [] ++ ⟨1, .eof⟩ :: [] := by
    decide +kernel
  have hbefore : (Hocon.copier Hocon.refuse).Runs (fun _ => True) .start
      [⟨1, .word "k"⟩, ⟨1, .blank⟩, ⟨1, .char '='⟩, ⟨1, .blank⟩, ⟨1, .char '$'⟩]
      { Hocon.within "$" 0 with mode := .value true } :=
    .take rfl trivial (.take rfl trivial (.take rfl trivial (.take rfl trivial (.take rfl trivial .done))))
  have hinside : (Hocon.copier Hocon.refuse).Runs (0 < ·.depth) (Hocon.within "$\x7b" 1)
      [⟨1, .word "a"⟩, ⟨1, .char ','⟩, ⟨1, .char '{'⟩, ⟨1, .word "b"⟩, ⟨1, .char '}'⟩]
      (Hocon.within "$\x7ba,\x7bb\x7d" 1) :=
    .take rfl (by decide) (.take rfl (by decide) (.take rfl (by decide) (.take rfl (by decide)
      (.take rfl (by decide) .done))))
  exact ⟨.intro hlexemes hbefore rfl rfl (by decide) hinside (by simp) rfl rfl rfl .done rfl rfl, by decide, by decide⟩

end Settings
