import Settings.Proofs.Dialect.HoconLines
import Settings.Proofs.Lexeme.Lines
import Settings.Proofs.Store.Keys
import Settings.Proofs.Store.Overlay

/-! # A HOCON document as tokens

What a HOCON document reads as, if it reads as anything, depends on its tokens only. Each token moves the reader in one
of six ways; which one it is does not depend on the store, on the scopes that are open, or on the line. -/

namespace Settings.Hocon

variable {load : Nat → String → Watched Store} {r r' : Reader} {tok : Token} {as bs toks : List Token} {s store : Store}
  {scopes : List String} {key value : String} {depth : Nat} {mode : Mode}

/-! ### Moves -/

/-- A pair of a document that is included inside scopes. -/
def prefixed (scopes : List String) (p : String × String) : String × String := (dottedKey (scopes ++ [p.1]), p.2)

/-- What a token does to a reader. -/
inductive Move where
  /-- The store and the scopes stay. -/
  | stay (key value : String) (depth : Nat) (mode : Mode)
  | enter (scope : String)
  | leave
  | store (key value : String)
  | storeAndLeave (key value : String)
  | merge (raw : String)

/-- The reader behind a move. -/
def Move.target? (load : Nat → String → Watched Store) (store : Store) (scopes : List String) : Move → Option Reader
  | stay key value depth mode => some ⟨store, scopes, key, value, depth, mode⟩
  | enter scope => some (between store (scopes ++ [scope]))
  | leave => if scopes = [] then none else some (between store scopes.dropLast)
  | Move.store key value => some (between (store.set (dottedKey (scopes ++ [key])) (Text.trimmed value)) scopes)
  | storeAndLeave key value =>
    if scopes = [] then none
    else some (between (store.set (dottedKey (scopes ++ [key])) (Text.trimmed value)) scopes.dropLast)
  | merge raw =>
    (load 1 raw).result.toOption.map fun included =>
      between (store.setAll (included.pairs.map (prefixed scopes))) scopes

/-- Outside a value nothing is left of one. The word that may start a directive is a key until another word comes. -/
def Tidy (key value : String) (depth : Nat) : Mode → Prop
  | .key => value = "" ∧ depth = 0
  | .include => key ≠ "" ∧ value = "" ∧ depth = 0
  | .directive _ _ => key = "" ∧ value = "" ∧ depth = 0
  | .value _ => True

def Move.Tidy : Move → Prop
  | stay key value depth mode => Hocon.Tidy key value depth mode
  | _ => True

/-- The move leads between two lines. -/
def Move.Ends : Move → Prop
  | stay key value depth mode => key = "" ∧ value = "" ∧ depth = 0 ∧ mode = .key
  | _ => True

def Reader.Tidy (r : Reader) : Prop := Hocon.Tidy r.key r.value r.depth r.mode

theorem tidy_start : Reader.start.Tidy := ⟨rfl, rfl⟩

theorem tidy_between (s : Store) (scopes : List String) : (between s scopes).Tidy := ⟨rfl, rfl⟩

/-- Each move leads between two lines, unless the store and the scopes stay. -/
theorem Move.target?_cases {m : Move} (h : m.target? load store scopes = some r) :
    (∃ key value depth mode, m = stay key value depth mode ∧ r = ⟨store, scopes, key, value, depth, mode⟩) ∨
      r = between r.store r.scopes := by
  cases m with
  | stay key value depth mode =>
    cases h
    exact .inl ⟨key, value, depth, mode, rfl, rfl⟩
  | enter | store =>
    cases h
    exact .inr rfl
  | leave | storeAndLeave =>
    rw [target?] at h
    split at h
    · cases h
    · cases h
      exact .inr rfl
  | merge =>
    obtain ⟨_, -, rfl⟩ := Option.map_eq_some_iff.mp h
    exact .inr rfl

theorem Move.Tidy.target? {m : Move} (hm : m.Tidy) (h : m.target? load store scopes = some r) : r.Tidy := by
  rcases Move.target?_cases h with ⟨key, value, depth, mode, rfl, rfl⟩ | hr
  · exact hm
  · exact hr ▸ tidy_between _ _

/-- The line on which a directive began counts for faults only. -/
def Mode.lineless : Mode → Mode
  | .directive _ raw => .directive 1 raw
  | m => m

def Reader.lineless (r : Reader) : Reader := { r with mode := r.mode.lineless }

/-- What is included does not depend on the line of the directive. -/
def Lineless (load : Nat → String → Watched Store) : Prop :=
  ∀ line line' raw, (load line raw).result.toOption = (load line' raw).result.toOption

/-- Something that is done with a store, the open scopes and what is included is this move, on whatever line, or else
    it is always at fault. -/
structure Moves (f : (Nat → String → Watched Store) → Nat → Store → List String → Except Fault Reader)
    (m : Option Move) : Prop where
  tidy : ∀ m' ∈ m, m'.Tidy
  target : ∀ load, Lineless load → ∀ line store scopes,
    (f load line store scopes).toOption.map Reader.lineless = m.bind (·.target? load store scopes)

section Moves
variable {f : (Nat → String → Watched Store) → Nat → Store → List String → Except Fault Reader} {m : Move}

theorem Moves.fault (h : ∀ load line store scopes, (f load line store scopes).toOption = none) : Moves f none :=
  ⟨nofun, fun load _ line store scopes => by rw [h]; rfl⟩

theorem Moves.of (hm : m.Tidy)
    (h : ∀ load line store scopes,
      (f load line store scopes).toOption.map Reader.lineless = m.target? load store scopes) : Moves f (some m) := by
  refine ⟨?_, fun load _ => h load⟩
  rintro _ ⟨rfl⟩
  exact hm

end Moves

theorem closeScope_between (load : Nat → String → Watched Store) (store : Store) (scopes : List String) (line : Nat) :
    ((between store scopes).closeScope line).toOption.map Reader.lineless = Move.leave.target? load store scopes := by
  by_cases hscopes : scopes = []
  · rw [Reader.closeScope, Move.target?, if_pos hscopes]
    exact congrArg (Option.map Reader.lineless <| Except.toOption ·) (if_pos hscopes)
  · rw [Reader.closeScope, Move.target?, if_neg hscopes]
    exact congrArg (Option.map Reader.lineless <| Except.toOption ·) (if_neg hscopes)

theorem moves_keyToken (hkey : mode = .key ∨ mode = .include ∧ key ≠ "") (tok : Token)
    (heol : tok ≠ .eol) (heof : tok ≠ .eof) :
    ∃ m, Moves (fun _ line store scopes => keyToken ⟨store, scopes, key, "", 0, mode⟩ ⟨line, tok⟩) m := by
  have hstay : Hocon.Tidy key "" 0 mode := by
    rcases hkey with rfl | ⟨rfl, hk⟩
    · exact ⟨rfl, rfl⟩
    · exact ⟨hk, rfl, rfl⟩
  have hline : mode.lineless = mode := by
    rcases hkey with rfl | ⟨rfl, -⟩
    · rfl
    · rfl
  unfold keyToken
  -- The cases are the branches of the reader, in its order.
  cases tok with
  | word w =>
    by_cases hw : key = "" ∧ w = "include"
    · refine ⟨_, .of (m := .stay w "" 0 .include) ⟨by rw [hw.2]; decide, rfl, rfl⟩ fun _ _ _ _ => ?_⟩
      simp only [if_pos hw]
      rfl
    · refine ⟨_, .of (m := .stay (key ++ w) "" 0 .key) ⟨rfl, rfl⟩ fun _ _ _ _ => ?_⟩
      simp only [if_neg hw]
      rfl
  | quoted q text => exact ⟨_, .of (m := .stay (key ++ text) "" 0 .key) ⟨rfl, rfl⟩ fun _ _ _ _ => rfl⟩
  | blank =>
    refine ⟨_, .of (m := .stay key "" 0 mode) hstay fun _ _ _ _ => ?_⟩
    simp only [Except.toOption, Option.map_some, Reader.lineless, hline]
    rfl
  | char c =>
    by_cases hplain : c = '.' ∨ c = '-'
    · refine ⟨_, .of (m := .stay (key.push c) "" 0 .key) ⟨rfl, rfl⟩ fun _ _ _ _ => ?_⟩
      simp only [if_pos hplain]
      rfl
    by_cases hcomma : c = ',' ∧ key = ""
    · refine ⟨_, .of (m := .stay key "" 0 mode) hstay fun _ _ _ _ => ?_⟩
      simp only [if_neg hplain, if_pos hcomma, Except.toOption, Option.map_some, Reader.lineless, hline]
      rfl
    by_cases hsep : c = '=' ∨ c = ':'
    · by_cases hk : key = ""
      · refine ⟨_, .fault fun _ _ _ _ => ?_⟩
        simp only [if_neg hplain, if_neg hcomma, if_pos hsep, if_pos hk]
        rfl
      · refine ⟨_, .of (m := .stay key "" 0 (.value false)) trivial fun _ _ _ _ => ?_⟩
        simp only [if_neg hplain, if_neg hcomma, if_pos hsep, if_neg hk]
        rfl
    by_cases hopen : c = '{'
    · refine ⟨_, .of (m := .enter key) trivial fun _ _ _ _ => ?_⟩
      simp only [if_neg hplain, if_neg hcomma, if_neg hsep, if_pos hopen]
      rfl
    by_cases hclose : c = '}'
    · subst hclose
      by_cases hk : key = ""
      · subst hk
        obtain rfl : mode = .key := hkey.resolve_right fun h => h.2 rfl
        exact ⟨_, .of (m := .leave) trivial fun load line store scopes => closeScope_between load store scopes line⟩
      · exact ⟨_, .fault fun _ _ _ _ => congrArg Except.toOption (if_pos hk)⟩
    · refine ⟨_, .fault fun _ _ _ _ => ?_⟩
      simp only [if_neg hplain, if_neg hcomma, if_neg hsep, if_neg hopen, if_neg hclose]
      rfl
  | eol => exact absurd rfl heol
  | eof => exact absurd rfl heof

theorem moves_valueToken (key value : String) (depth : Nat) (dollar : Bool) (tok : Token)
    (heol : tok ≠ .eol) (heof : tok ≠ .eof) :
    ∃ m, Moves (fun _ line store scopes =>
      (valueToken ⟨store, scopes, key, value, depth, .value dollar⟩ dollar ⟨line, tok⟩).result) m := by
  unfold valueToken
  cases tok with
  | word w => exact ⟨_, .of (m := .stay key (value ++ w) depth (.value false)) trivial fun _ _ _ _ => rfl⟩
  | quoted q text => exact ⟨_, .of (m := .stay key (value ++ text) depth (.value false)) trivial fun _ _ _ _ => rfl⟩
  | blank =>
    exact ⟨_, .of (m := .stay key (value ++ if value = "" then "" else " ") depth (.value false)) trivial
      fun _ _ _ _ => rfl⟩
  | char c =>
    by_cases hopen : c = '{'
    · by_cases hin : dollar ∨ 0 < depth
      · refine ⟨_, .of (m := .stay key (value ++ "\x7b") (depth + 1) (.value false)) trivial fun _ _ _ _ => ?_⟩
        simp only [if_pos hopen, if_pos hin]
        rfl
      by_cases hvalue : Text.trim value.toList ≠ []
      · refine ⟨_, .fault fun _ _ _ _ => ?_⟩
        simp only [if_pos hopen, if_neg hin, if_pos hvalue]
        rfl
      · obtain rfl : depth = 0 := Nat.eq_zero_of_not_pos fun h => hin (.inr h)
        refine ⟨_, .of (m := .enter key) trivial fun _ _ _ _ => ?_⟩
        simp only [if_pos hopen, if_neg hin, if_neg hvalue]
        rfl
    by_cases hclose : c = '}'
    · by_cases hin : 0 < depth
      · refine ⟨_, .of (m := .stay key (value ++ "\x7d") (depth - 1) (.value false)) trivial fun _ _ _ _ => ?_⟩
        simp only [if_neg hopen, if_pos hclose, if_pos hin]
        rfl
      · refine ⟨_, .of (m := .storeAndLeave key value) trivial fun load line store scopes => ?_⟩
        simp only [if_neg hopen, if_pos hclose, if_neg hin]
        rw [Noted.result_bind]
        exact closeScope_between load _ scopes line
    · refine ⟨_, .of (m := .stay key (value ++ c.toString) depth (.value (c = '$'))) trivial fun _ _ _ _ => ?_⟩
      simp only [if_neg hopen, if_neg hclose]
      rfl
  | eol => exact absurd rfl heol
  | eof => exact absurd rfl heof

/-! ### Included documents -/

theorem dottedKey_anonymous (h : scopes.all (· = "")) (k : String) : dottedKey (scopes ++ [k]) = k := by
  have hscopes : dottedKey scopes = "" := by
    have hfilter : scopes.filter (· != "") = [] := by
      rw [List.filter_eq_nil_iff]
      intro scope hs
      simpa using List.all_eq_true.mp h scope hs
    rw [dottedKey, hfilter]
    rfl
  rw [dottedKey_append, hscopes, dottedKey_empty_left, dottedKey_singleton]

/-- A document that is included is laid over the store, its keys prefixed with the open scopes. -/
theorem result_merge (r : Reader) (included : Store) :
    (merge r included).result =
      .ok { r with store := r.store.setAll (included.pairs.map (prefixed r.scopes)) } := by
  rw [merge]
  split
  · next hall =>
    have hmap : included.pairs.map (prefixed r.scopes) = included.pairs := by
      have hid : ∀ p : String × String, prefixed r.scopes p = p := fun p => by
        rw [prefixed, dottedKey_anonymous hall]
      rw [funext hid]
      exact List.map_id _
    rw [hmap]
    rfl
  · rw [Store.enterEach_eq]
    rfl

/-! ### One token -/

/-- What a lexeme does to a reader, as `Moves` has it. -/
def stepAt (key value : String) (depth : Nat) (mode : Mode) (tok : Token) :
    (Nat → String → Watched Store) → Nat → Store → List String → Except Fault Reader :=
  fun load line store scopes => (step load ⟨store, scopes, key, value, depth, mode⟩ ⟨line, tok⟩).result

theorem step_eof (load : Nat → String → Watched Store) (r : Reader) (line : Nat) :
    step load r ⟨line, .eof⟩ = step load r ⟨line, .eol⟩ := by
  obtain ⟨store, scopes, key, value, depth, mode⟩ := r
  cases mode with
  | _ => rfl

theorem stepAt_eof : stepAt key value depth mode .eof = stepAt key value depth mode .eol := by
  funext load line store scopes
  exact congrArg Noted.result (step_eof load _ line)

theorem moves_directive_eol (line : Nat) (raw : String) :
    Moves (stepAt "" "" 0 (.directive line raw) .eol) (some (.merge raw)) := by
  refine ⟨?_, fun load hload line' store scopes => ?_⟩
  · rintro _ ⟨rfl⟩
    trivial
  · have hstep : stepAt "" "" 0 (.directive line raw) .eol load line' store scopes =
        (load line raw).result >>= fun included => (merge (between store scopes) included).result :=
      Noted.result_bind _ _
    rw [hstep, Option.bind_some, Move.target?, hload 1 line raw]
    cases (load line raw).result with
    | error => rfl
    | ok included =>
      change ((merge (between store scopes) included).result.toOption).map Reader.lineless = _
      rw [result_merge]
      rfl

/-- The end of a line leads between two lines. -/
theorem moves_eol (ht : Hocon.Tidy key value depth mode) :
    ∃ m : Option Move, (∀ m' ∈ m, m'.Ends) ∧
      Moves (stepAt key value depth mode .eol) m ∧ Moves (stepAt key value depth mode.lineless .eol) m := by
  cases mode with
  | key =>
    obtain ⟨rfl, rfl⟩ := ht
    by_cases hk : key = ""
    · subst hk
      have hm : Moves (stepAt "" "" 0 .key .eol) (some (.stay "" "" 0 .key)) := .of ⟨rfl, rfl⟩ fun _ _ _ _ => rfl
      refine ⟨_, ?_, hm, hm⟩
      rintro _ ⟨rfl⟩
      exact ⟨rfl, rfl, rfl, rfl⟩
    · have hm : Moves (stepAt key "" 0 .key .eol) none :=
        .fault fun _ _ _ _ => congrArg (fun x : Watched Reader => x.result.toOption) (if_neg hk)
      exact ⟨none, nofun, hm, hm⟩
  | «include» =>
    obtain ⟨hk, rfl, rfl⟩ := ht
    have hm : Moves (stepAt key "" 0 .include .eol) none :=
      .fault fun _ _ _ _ => congrArg (fun x : Watched Reader => x.result.toOption) (if_neg hk)
    exact ⟨none, nofun, hm, hm⟩
  | directive line raw =>
    obtain ⟨rfl, rfl, rfl⟩ := ht
    refine ⟨_, ?_, moves_directive_eol line raw, moves_directive_eol 1 raw⟩
    rintro _ ⟨rfl⟩
    trivial
  | value dollar =>
    have hm : Moves (stepAt key value depth (.value dollar) .eol) (some (.store key value)) :=
      .of trivial fun _ _ _ _ => rfl
    refine ⟨_, ?_, hm, hm⟩
    rintro _ ⟨rfl⟩
    trivial

theorem moves_directive (raw : String) (heol : tok ≠ .eol) (heof : tok ≠ .eof) :
    ∃ m, ∀ line, Moves (stepAt "" "" 0 (.directive line raw) tok) (some m) := by
  cases tok with
  | word w => exact ⟨.stay "" "" 0 (.directive 1 (raw ++ w)), fun line => .of ⟨rfl, rfl, rfl⟩ fun _ _ _ _ => rfl⟩
  | quoted q text =>
    exact ⟨.stay "" "" 0 (.directive 1 (raw ++ text)), fun line => .of ⟨rfl, rfl, rfl⟩ fun _ _ _ _ => rfl⟩
  | char c => exact ⟨.stay "" "" 0 (.directive 1 (raw.push c)), fun line => .of ⟨rfl, rfl, rfl⟩ fun _ _ _ _ => rfl⟩
  | blank => exact ⟨.stay "" "" 0 (.directive 1 raw), fun line => .of ⟨rfl, rfl, rfl⟩ fun _ _ _ _ => rfl⟩
  | eol => exact absurd rfl heol
  | eof => exact absurd rfl heof

/-- What a token does to a reader depends neither on the store, nor on the scopes, nor on a line. -/
theorem moves_step (ht : Hocon.Tidy key value depth mode) (tok : Token) :
    ∃ m, Moves (stepAt key value depth mode tok) m ∧ Moves (stepAt key value depth mode.lineless tok) m := by
  obtain ⟨mend, -, hend⟩ := moves_eol ht
  by_cases heol : tok = .eol
  · exact ⟨mend, heol ▸ hend⟩
  by_cases heof : tok = .eof
  · refine ⟨mend, ?_⟩
    rw [heof, stepAt_eof, stepAt_eof]
    exact hend
  -- Within a line each mode leaves the lexeme to one function of the reader, and only a directive holds a line number.
  cases mode with
  | key =>
    obtain ⟨rfl, rfl⟩ := ht
    obtain ⟨m, hm⟩ := moves_keyToken (.inl rfl) tok heol heof
    have hstep : stepAt key "" 0 .key tok =
        fun _ line store scopes => keyToken ⟨store, scopes, key, "", 0, .key⟩ ⟨line, tok⟩ := by
      cases tok with
      | eol => exact absurd rfl heol
      | eof => exact absurd rfl heof
      | _ => rfl
    exact ⟨m, hstep ▸ hm, hstep ▸ hm⟩
  | «include» =>
    obtain ⟨hk, rfl, rfl⟩ := ht
    by_cases hword : ∃ w, tok = .word w
    · obtain ⟨w, rfl⟩ := hword
      have hm : Moves (stepAt key "" 0 .include (.word w)) (some (.stay "" "" 0 (.directive 1 w))) :=
        .of ⟨rfl, rfl, rfl⟩ fun _ _ _ _ => rfl
      exact ⟨_, hm, hm⟩
    · obtain ⟨m, hm⟩ := moves_keyToken (.inr ⟨rfl, hk⟩) tok heol heof
      have hstep : stepAt key "" 0 .include tok =
          fun _ line store scopes => keyToken ⟨store, scopes, key, "", 0, .include⟩ ⟨line, tok⟩ := by
        cases tok with
        | word w => exact absurd ⟨w, rfl⟩ hword
        | eol => exact absurd rfl heol
        | eof => exact absurd rfl heof
        | _ => rfl
      exact ⟨m, hstep ▸ hm, hstep ▸ hm⟩
  | directive line raw =>
    obtain ⟨rfl, rfl, rfl⟩ := ht
    obtain ⟨m, hm⟩ := moves_directive raw heol heof
    exact ⟨m, hm line, hm 1⟩
  | value dollar =>
    obtain ⟨m, hm⟩ := moves_valueToken key value depth dollar tok heol heof
    have hstep : stepAt key value depth (.value dollar) tok = fun _ line store scopes =>
        (valueToken ⟨store, scopes, key, value, depth, .value dollar⟩ dollar ⟨line, tok⟩).result := by
      cases tok with
      | eol => exact absurd rfl heol
      | eof => exact absurd rfl heof
      | _ => rfl
    exact ⟨m, hstep ▸ hm, hstep ▸ hm⟩

/-! ### Readers behind tokens -/

/-- The reader behind a token. -/
def next? (load : Nat → String → Watched Store) (r : Reader) (tok : Token) : Option Reader :=
  (step load r ⟨1, tok⟩).result.toOption.map Reader.lineless

theorem exists_move (ht : r.Tidy) (tok : Token) :
    ∃ m : Option Move, (∀ m' ∈ m, m'.Tidy) ∧ ∀ load, Lineless load → ∀ store scopes,
      next? load { r with store := store, scopes := scopes } tok = m.bind (·.target? load store scopes) := by
  obtain ⟨m, hm, -⟩ := moves_step ht tok
  exact ⟨m, hm.tidy, fun load hload store scopes => hm.target load hload 1 store scopes⟩

theorem tidy_lineless : r.lineless.Tidy ↔ r.Tidy := by
  obtain ⟨store, scopes, key, value, depth, mode⟩ := r
  cases mode with
  | _ => exact Iff.rfl

theorem toOption_step (hload : Lineless load) (ht : r.Tidy) (l : Lexeme) :
    (step load r l).result.toOption.map Reader.lineless = next? load r.lineless l.token := by
  obtain ⟨m, hm, hm'⟩ := moves_step ht l.token
  exact (hm.target load hload l.line r.store r.scopes).trans (hm'.target load hload 1 r.store r.scopes).symm

theorem tidy_next? (hload : Lineless load) (ht : r.Tidy) (h : next? load r tok = some r') : r'.Tidy := by
  obtain ⟨m, htidy, hm⟩ := exists_move ht tok
  have happly := (hm load hload r.store r.scopes).symm.trans h
  obtain ⟨m', hm', happly⟩ := Option.bind_eq_some_iff.mp happly
  exact (htidy m' hm').target? happly

theorem next?_eof (load : Nat → String → Watched Store) (r : Reader) : next? load r .eof = next? load r .eol := by
  rw [next?, step_eof]
  rfl

theorem next?_between (load : Nat → String → Watched Store) (s : Store) (scopes : List String) :
    next? load (between s scopes) .eol = some (between s scopes) := rfl

/-- A line end leads between two lines. -/
theorem between_of_next? (hload : Lineless load) (ht : r.Tidy) (h : next? load r .eol = some r') :
    r' = between r'.store r'.scopes := by
  obtain ⟨m, hends, hm, -⟩ := moves_eol ht
  obtain ⟨m', hm', h⟩ := Option.bind_eq_some_iff.mp ((hm.target load hload 1 r.store r.scopes).symm.trans h)
  rcases Move.target?_cases h with ⟨key, value, depth, mode, rfl, rfl⟩ | hr
  · obtain ⟨rfl, rfl, rfl, rfl⟩ := hends _ hm'
    rfl
  · exact hr

/-- The reader behind some tokens. -/
def feed? (load : Nat → String → Watched Store) (r : Reader) (toks : List Token) : Option Reader :=
  toks.foldlM (next? load) r

/-- The store of the tokens up to the end of the text. -/
def finish? (load : Nat → String → Watched Store) (r : Reader) : List Token → Option Store
  | [] => (next? load r .eof).bind fun r => if r.scopes = [] then some r.store else none
  | tok :: toks => (next? load r tok).bind (finish? load · toks)

theorem finish?_append (r : Reader) (as bs : List Token) :
    finish? load r (as ++ bs) = (feed? load r as).bind (finish? load · bs) := by
  induction as generalizing r with
  | nil => rfl
  | cons tok as ih =>
    rw [List.cons_append, finish?, feed?, List.foldlM_cons]
    cases next? load r tok with
    | none => rfl
    | some r' => exact ih r'

theorem feed?_append (r : Reader) (as bs : List Token) :
    feed? load r (as ++ bs) = (feed? load r as).bind (feed? load · bs) := List.foldlM_append

theorem tidy_feed? (hload : Lineless load) (ht : r.Tidy) (h : feed? load r toks = some r') : r'.Tidy := by
  induction toks generalizing r with
  | nil =>
    cases h
    exact ht
  | cons tok toks ih =>
    rw [feed?, List.foldlM_cons] at h
    obtain ⟨r₁, hnext, h⟩ := Option.bind_eq_some_iff.mp h
    exact ih (tidy_next? hload ht hnext) h

/-- Two line ends do what one does. -/
theorem finish?_spliced (hload : Lineless load) (ht : r.Tidy) {cs : List Token} (h : Tape.Spliced as bs cs) :
    finish? load r cs = (feed? load r as).bind (finish? load · bs) := by
  cases h with
  | plain => exact finish?_append r as bs
  | merged as bs =>
    rw [finish?_append, feed?_append]
    cases hfeed : feed? load r as with
    | none => rfl
    | some r₁ =>
      have hone : feed? load r₁ [.eol] = next? load r₁ .eol := List.foldlM_cons.trans (bind_pure _)
      rw [Option.bind_some, Option.bind_some, hone, finish?]
      cases hnext : next? load r₁ .eol with
      | none => rfl
      | some r₂ =>
        have hr₂ := between_of_next? hload (tidy_feed? hload ht hfeed) hnext
        rw [Option.bind_some, Option.bind_some, finish?, hr₂, next?_between, Option.bind_some]

/-! ### Whole tapes -/

theorem toOption_run (hload : Lineless load) (ht : r.Tidy) {tape : Tape} (h : tape.fault? = none) :
    (run load r tape).result.toOption = finish? load r.lineless tape.tokens := by
  induction tape generalizing r with
  | torn e => cases h
  | ended line =>
    rw [run, Noted.result_bind, Tape.tokens, finish?, ← toOption_step hload ht ⟨line, .eof⟩]
    cases (step load r ⟨line, .eof⟩).result with
    | error => rfl
    | ok r' =>
      by_cases hscopes : r'.scopes = []
      · simp [Except.toOption, Reader.lineless, hscopes, bind, Except.bind]
      · simp [Except.toOption, Reader.lineless, hscopes, bind, Except.bind]
  | cons l rest ih =>
    have hstep := toOption_step hload ht l
    rw [run, Noted.result_bind, Tape.tokens, finish?, ← hstep]
    cases hres : (step load r l).result with
    | error => rfl
    | ok r' =>
      rw [hres] at hstep
      exact ih (tidy_lineless.mp (tidy_next? hload (tidy_lineless.mpr ht) hstep.symm)) h

theorem toOption_run_torn {tape : Tape} (h : tape.fault? ≠ none) : (run load r tape).result.toOption = none := by
  induction tape generalizing r with
  | torn e => rfl
  | ended line => exact absurd rfl h
  | cons l rest ih =>
    rw [run, Noted.result_bind]
    cases (step load r l).result with
    | error => rfl
    | ok r' => exact ih h

/-! ### Lines that stand for one another -/

/-- The tape of a text from its start. -/
def tape (cs : List Char) : Tape := (⟨cs, 1, true⟩ : Scanner).tape .hocon

/-- The store that is read off a tape. -/
def read? (load : Nat → String → Watched Store) (r : Reader) (t : Tape) : Option Store :=
  if t.fault? = none then finish? load r t.tokens else none

theorem toOption_parse (hload : Lineless load) (text : String) :
    (parse load text).result.toOption = read? load Reader.start (tape text.toList) := by
  by_cases h : (tape text.toList).fault? = none
  · rw [read?, if_pos h]
    exact toOption_run hload tidy_start h
  · rw [read?, if_neg h]
    exact toOption_run_torn h

theorem read?_joins (hload : Lineless load) (ht : r.Tidy) {t u v : Tape} (h : Tape.Joins t u v) :
    read? load r v = (feed? load r t.tokens).bind (read? load · u) := by
  by_cases hu : u.fault? = none
  · simp only [read?, if_pos hu, if_pos (h.fault.mpr hu)]
    exact finish?_spliced hload ht h.tokens
  · simp only [read?, if_neg hu, if_neg fun hv => hu (h.fault.mp hv)]
    exact (Option.bind_fun_none _).symm

theorem read?_atLineEnd {after : List Char} (h : AtLineEnd after) (load : Nat → String → Watched Store) :
    ∃ f : Reader → Option Store, ∀ r, read? load r (tape after) = (next? load r .eol).bind f := by
  by_cases hfault : (tape after).fault? = none
  · simp only [read?, if_pos hfault]
    have hstart : (tape after).tokens = [] ∨ ∃ toks, (tape after).tokens = .eol :: toks :=
      Scanner.tokens_of_lineEnd LexRules.linewise_hocon.blanks h
    rcases hstart with htoks | ⟨toks, htoks⟩
    · refine ⟨fun r => if r.scopes = [] then some r.store else none, fun r => ?_⟩
      rw [htoks, finish?, next?_eof]
    · exact ⟨(finish? load · toks), fun r => by rw [htoks, finish?]⟩
  · simp only [read?, if_neg hfault]
    exact ⟨fun _ => none, fun r => (Option.bind_fun_none _).symm⟩

/-- No quotes are left open at the end of a text: what comes behind it does not mend its faults. -/
def Unquoted (cs : List Char) : Prop := ∀ more, (tape (cs ++ more)).fault? = none → (tape cs).fault? = none

variable {before lines lines' after : List Char}

/-- Behind whole lines the reader is between two lines. -/
theorem between_of_feed? (hload : Lineless load) (hbefore : before = [] ∨ EndsLine before)
    (h : (tape before).fault? = none) (hr : feed? load Reader.start (tape before).tokens = some r) :
    r = between r.store r.scopes := by
  rcases hbefore with rfl | hend
  · rw [tape, Scanner.tape_nil] at hr
    cases hr
    rfl
  · obtain ⟨toks, htoks⟩ := Scanner.tokens_of_endsLine (s := ⟨before, 1, true⟩) LexRules.linewise_hocon hend h
    rw [tape, htoks, feed?_append] at hr
    obtain ⟨r₁, hr₁, hr⟩ := Option.bind_eq_some_iff.mp hr
    have heol : next? load r₁ .eol = some r := (List.foldlM_cons.trans (bind_pure _)).symm.trans hr
    exact between_of_next? hload (tidy_feed? hload tidy_start hr₁) heol

/-- A text in three parts, of which the middle one stands on lines of its own, is read part by part. -/
theorem read?_lines (hload : Lineless load) (hbefore : before = [] ∨ EndsLine before)
    (hscan : (tape before).fault? = none) (hafter : AtLineEnd after) (h : (tape lines).fault? = none) :
    read? load Reader.start (tape (before ++ (lines ++ after))) =
      (feed? load Reader.start (tape before).tokens).bind fun r =>
        (feed? load r (tape lines).tokens).bind (read? load · (tape after)) := by
  have hmeets : (⟨before, 1, true⟩ : Scanner).Meets (lines ++ after) := by
    rcases hbefore with rfl | hend
    · exact .inr ⟨rfl, rfl⟩
    · exact .inl (.inr hend)
  have hjoins : Tape.Joins (tape before) (tape (lines ++ after)) (tape (before ++ (lines ++ after))) :=
    Scanner.tape_joins LexRules.linewise_hocon hmeets hscan 1
  have hjoins' : Tape.Joins (tape lines) (tape after) (tape (lines ++ after)) :=
    Scanner.tape_joins (s := ⟨lines, 1, true⟩) LexRules.linewise_hocon (.inl (.inl hafter)) h 1
  rw [read?_joins hload tidy_start hjoins]
  cases hr : feed? load Reader.start (tape before).tokens with
  | none => rfl
  | some r => exact read?_joins hload (tidy_feed? hload tidy_start hr) hjoins'

/-- Lines that lead from each place between two lines to the same place may stand for one another. -/
theorem read?_congr (hload : Lineless load) (hbefore : before = [] ∨ EndsLine before) (hquotes : Unquoted before)
    (hafter : AtLineEnd after) (h : (tape lines).fault? = none) (h' : (tape lines').fault? = none)
    (hlines : ∀ s scopes, (feed? load (between s scopes) (tape lines).tokens).bind (next? load · .eol) =
      (feed? load (between s scopes) (tape lines').tokens).bind (next? load · .eol)) :
    read? load Reader.start (tape (before ++ (lines ++ after))) =
      read? load Reader.start (tape (before ++ (lines' ++ after))) := by
  by_cases hscan : (tape before).fault? = none
  · obtain ⟨f, hf⟩ := read?_atLineEnd hafter load
    rw [read?_lines hload hbefore hscan hafter h, read?_lines hload hbefore hscan hafter h', funext hf]
    cases hr : feed? load Reader.start (tape before).tokens with
    | none => rfl
    | some r =>
      -- What comes behind the lines starts with the end of the last one, so only the place behind it counts.
      rw [Option.bind_some, Option.bind_some, ← Option.bind_assoc, ← Option.bind_assoc,
        between_of_feed? hload hbefore hscan hr, hlines]
  · have hnone : ∀ more, read? load Reader.start (tape (before ++ more)) = none := fun more =>
      if_neg fun h => hscan (hquotes more h)
    rw [hnone, hnone]

end Settings.Hocon
