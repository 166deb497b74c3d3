import Settings.Document
import Settings.Proofs.Dialect.HoconRoundTrip
import Settings.Proofs.Dialect.HoconTokens

/-! # An included document stands for its text

A document that includes nothing leads a reader through the same moves whether it is read alone or in the middle of
another document; there, the keys it sets lie behind the open scopes. Its store, laid over the one of the document
around it with the same prefix, is therefore the store that its text leads to in place of the include line. -/

namespace Settings

theorem Store.setAll_prefixed (s : Store) (outer : List String) (inner : Store) (scopes : List String)
    (key value : String) :
    (s.setAll (inner.pairs.map (Hocon.prefixed outer))).set (dottedKey ((outer ++ scopes) ++ [key])) value =
      s.setAll ((inner.set (dottedKey (scopes ++ [key])) value).pairs.map (Hocon.prefixed outer)) := by
  have hinj : ∀ a b, dottedKey (outer ++ [a]) = dottedKey (outer ++ [b]) → a = b := by
    intro a b h
    rw [dottedKey_append, dottedKey_append outer [b], dottedKey_singleton, dottedKey_singleton] at h
    exact dottedKey_right_inj.mp h
  have hkey : dottedKey ((outer ++ scopes) ++ [key]) = dottedKey (outer ++ [dottedKey (scopes ++ [key])]) := by
    rw [List.append_assoc, dottedKey_append, dottedKey_append outer [_], dottedKey_singleton]
  have hmap := Assoc.map_insert hinj (dottedKey (scopes ++ [key])) value inner.pairs
  apply Store.ext'
  rw [hkey]
  refine (Assoc.insertAll_insert (Assoc.nodup_map hinj inner.nodup) s.pairs _ value).symm.trans ?_
  exact congrArg (Assoc.insertAll s.pairs) hmap.symm

namespace Hocon

variable {load : Nat → String → Watched Store} {r r' : Reader} {tok : Token} {toks : List Token} {s included : Store}
  {outer : List String}

/-- An include line where nothing may be included. -/
def refuse (line : Nat) (raw : String) : Watched Store := .fault (.structural line (.badInclude raw))

theorem lineless_refuse : Lineless refuse := fun _ _ _ => rfl

/-! ### Alone and in the middle -/

/-- The reader of a document in the middle of another one. -/
def Reader.inside (s : Store) (outer : List String) (r : Reader) : Reader :=
  { r with store := s.setAll (r.store.pairs.map (prefixed outer)), scopes := outer ++ r.scopes }

theorem inside_between (s : Store) (outer : List String) (t : Store) (scopes : List String) :
    (between t scopes).inside s outer = between (s.setAll (t.pairs.map (prefixed outer))) (outer ++ scopes) := rfl

theorem Move.target?_inside {m : Move} (h : m.target? refuse r.store r.scopes = some r') :
    m.target? load (r.inside s outer).store (r.inside s outer).scopes = some (r'.inside s outer) := by
  have hleave : ∀ {t : Store}, r.scopes ≠ [] →
      (if outer ++ r.scopes = [] then none
        else some (between (s.setAll (t.pairs.map (prefixed outer))) (outer ++ r.scopes).dropLast)) =
      some ((between t r.scopes.dropLast).inside s outer) := by
    intro t hne
    rw [if_neg (List.append_ne_nil_of_right_ne_nil outer hne), List.dropLast_append_of_ne_nil hne]
    rfl
  cases m with
  | stay =>
    cases h
    rfl
  | enter scope =>
    cases h
    exact congrArg (fun scopes => some (between _ scopes)) (List.append_assoc _ _ _)
  | leave =>
    rw [target?] at h
    split at h
    · cases h
    · next hne =>
      cases h
      exact hleave hne
  | store key value =>
    cases h
    have hset := Store.setAll_prefixed s outer r.store r.scopes key (Text.trimmed value)
    exact congrArg (fun t => some (between t (outer ++ r.scopes))) hset
  | storeAndLeave key value =>
    rw [target?] at h
    split at h
    · cases h
    · next hne =>
      cases h
      rw [target?, ← hleave hne]
      simp only [Reader.inside, Store.setAll_prefixed]
  | merge raw => cases h

theorem next?_inside (hload : Lineless load) (s : Store) (outer : List String) (ht : r.Tidy)
    (h : next? refuse r tok = some r') :
    next? load (r.inside s outer) tok = some (r'.inside s outer) := by
  obtain ⟨m, -, hm⟩ := exists_move ht tok
  have hr := (hm refuse lineless_refuse r.store r.scopes).symm.trans h
  obtain ⟨m', rfl, hm'⟩ := Option.bind_eq_some_iff.mp hr
  exact (hm load hload _ _).trans (Move.target?_inside hm')

theorem feed?_inside (hload : Lineless load) (s : Store) (outer : List String) (ht : r.Tidy)
    (h : feed? refuse r toks = some r') :
    feed? load (r.inside s outer) toks = some (r'.inside s outer) := by
  induction toks generalizing r with
  | nil =>
    cases h
    rfl
  | cons tok toks ih =>
    rw [feed?, List.foldlM_cons] at h ⊢
    obtain ⟨r₁, hnext, h⟩ := Option.bind_eq_some_iff.mp h
    rw [next?_inside hload s outer ht hnext]
    exact ih (tidy_next? lineless_refuse ht hnext) h

theorem step_of_refuse {l : Lexeme} (h : (step refuse r l).result = .ok r') (load : Nat → String → Watched Store) :
    (step load r l).result = .ok r' := by
  obtain ⟨store, scopes, key, value, depth, mode⟩ := r
  obtain ⟨line, tok⟩ := l
  cases mode with
  | directive line raw =>
    cases tok with
    | eol | eof => cases h
    | _ => exact h
  | _ => exact h

/-- What a text reads as alone, it reads as where something could be included. -/
theorem run_of_refuse {tape : Tape} (h : (run refuse r tape).result = .ok s) (load : Nat → String → Watched Store) :
    (run load r tape).result = .ok s := by
  induction tape generalizing r with
  | torn e => cases h
  | ended line =>
    rw [run, Noted.result_bind] at h ⊢
    cases hstep : (step refuse r ⟨line, .eof⟩).result with
    | error e =>
      rw [hstep] at h
      cases h
    | ok r' =>
      rw [hstep] at h
      rw [step_of_refuse hstep load]
      exact h
  | cons l rest ih =>
    rw [run, Noted.result_bind] at h ⊢
    cases hstep : (step refuse r l).result with
    | error e =>
      rw [hstep] at h
      cases h
    | ok r' =>
      rw [hstep] at h
      rw [step_of_refuse hstep load]
      exact ih h

/-! ### Include lines -/

/-- What a token adds to the text of a directive. -/
def written : Token → String
  | .word w => w
  | .quoted _ text => text
  | .char c => c.toString
  | .blank | .eol | .eof => ""

/-- The line holds an include directive with this text, and perhaps blanks and a comment. -/
structure IncludeLine (line : List Char) (raw : String) : Prop where
  scans : (tape line).fault? = none
  oneLine : .eol ∉ (tape line).tokens
  tokens : ∃ w toks, (tape line).tokens.filter (· != .blank) = .word "include" :: .word w :: toks ∧
    raw = String.join ((.word w :: toks).map written)

/-- The reader inside a directive. -/
def inDirective (s : Store) (scopes : List String) (raw : String) : Reader := ⟨s, scopes, "", "", 0, .directive 1 raw⟩

theorem feed?_blanks {pre : List Token} (hr : next? load r .blank = some r) (hpre : ∀ tok ∈ pre, tok = .blank)
    (post : List Token) : feed? load r (pre ++ post) = feed? load r post := by
  induction pre with
  | nil => rfl
  | cons tok pre ih =>
    have htok := hpre tok List.mem_cons_self
    subst htok
    rw [List.cons_append, feed?, List.foldlM_cons, hr]
    exact ih fun tok htok => hpre tok (List.mem_cons_of_mem _ htok)

theorem next?_directive (s : Store) (scopes : List String) (raw : String) (heol : tok ≠ .eol) (heof : tok ≠ .eof) :
    next? load (inDirective s scopes raw) tok = some (inDirective s scopes (raw ++ written tok)) := by
  cases tok with
  | word | quoted => rfl
  | char c => exact congrArg (fun raw => some (inDirective s scopes raw)) (String.push_eq_append c)
  | blank => exact congrArg (fun raw => some (inDirective s scopes raw)) String.append_empty.symm
  | eol => exact absurd rfl heol
  | eof => exact absurd rfl heof

theorem feed?_directive (s : Store) (scopes : List String) (raw : String) (heol : .eol ∉ toks) (heof : .eof ∉ toks) :
    feed? load (inDirective s scopes raw) toks =
      some (inDirective s scopes (raw ++ String.join ((toks.filter (· != .blank)).map written))) := by
  induction toks generalizing raw with
  | nil => exact congrArg (fun raw => some (inDirective s scopes raw)) String.append_empty.symm
  | cons tok toks ih =>
    rw [List.mem_cons, not_or] at heol heof
    rw [feed?, List.foldlM_cons, next?_directive s scopes raw (Ne.symm heol.1) (Ne.symm heof.1)]
    refine (ih (raw ++ written tok) heol.2 heof.2).trans ?_
    by_cases hblank : tok = .blank
    · subst hblank
      rw [written, String.append_empty]
      rfl
    · rw [List.filter_cons_of_pos (by simpa using hblank), List.map_cons, String.join_cons, String.append_assoc]

/-- An include line leads into its directive, from wherever a line may start. -/
theorem IncludeLine.feed?_eq {line : List Char} {raw : String} (h : IncludeLine line raw) (s : Store)
    (scopes : List String) : feed? load (between s scopes) (tape line).tokens = some (inDirective s scopes raw) := by
  obtain ⟨w, toks, htoks, rfl⟩ := h.tokens
  obtain ⟨pre, rest, hrest, hpre, -, hmid⟩ := List.filter_eq_cons_iff.mp htoks
  obtain ⟨mid, post, rfl, hmid, -, hpost⟩ := List.filter_eq_cons_iff.mp hmid
  have hblank : ∀ {l : List Token}, (∀ x ∈ l, ¬ (x != .blank) = true) → ∀ x ∈ l, x = .blank := fun h x hx => by
    simpa using h x hx
  have heol : .eol ∉ post := fun hmem => h.oneLine (by simp [hrest, hmem])
  have heof : .eof ∉ post := fun hmem =>
    Scanner.eof_not_mem_tokens .hocon ⟨line, 1, true⟩ (by rw [tape] at hrest; simp [hrest, hmem])
  have hinclude : feed? load (between s scopes) (.word "include" :: (mid ++ .word w :: post)) =
      feed? load ⟨s, scopes, "include", "", 0, .include⟩ (mid ++ .word w :: post) := rfl
  have hword : feed? load ⟨s, scopes, "include", "", 0, .include⟩ (.word w :: post) =
      feed? load (inDirective s scopes w) post := rfl
  rw [hrest, feed?_blanks rfl (hblank hpre), hinclude, feed?_blanks rfl (hblank hmid), hword,
    feed?_directive s scopes w heol heof, hpost, List.map_cons, String.join_cons]
  rfl

/-- At the end of a document that stands alone the reader holds its store, and no scope is open. -/
theorem exists_reader {text : String} (h : (parse refuse text).result = .ok included) :
    (tape text.toList).fault? = none ∧ ∃ r, feed? refuse Reader.start (tape text.toList).tokens = some r ∧ r.Tidy ∧
      next? refuse r .eol = some (between included []) := by
  have hparse := toOption_parse lineless_refuse text
  rw [h, read?] at hparse
  split at hparse
  · next hscan =>
    rw [← List.append_nil (tape text.toList).tokens, finish?_append] at hparse
    obtain ⟨r, hr, hparse⟩ := Option.bind_eq_some_iff.mp hparse.symm
    have ht := tidy_feed? lineless_refuse tidy_start hr
    rw [finish?, next?_eof] at hparse
    obtain ⟨r', hr', hparse⟩ := Option.bind_eq_some_iff.mp hparse
    split at hparse
    · next hscopes =>
      cases hparse
      refine ⟨hscan, r, hr, ht, ?_⟩
      rw [hr', between_of_next? lineless_refuse ht hr', hscopes]
      rfl
    · cases hparse
  · cases hparse

/-- The text of a document that stands alone leads to its store, laid over the other one. -/
theorem feed?_alone (hload : Lineless load) {text : String} (h : (parse refuse text).result = .ok included) (s : Store)
    (scopes : List String) :
    (feed? load (between s scopes) (tape text.toList).tokens).bind (next? load · .eol) =
      some (between (s.setAll (included.pairs.map (prefixed scopes))) scopes) := by
  obtain ⟨-, r, hr, ht, heol⟩ := exists_reader h
  have hstart : Reader.start.inside s scopes = between s scopes :=
    congrArg (between s) (List.append_nil scopes)
  have hfeed := feed?_inside hload s scopes tidy_start hr
  have hnext := next?_inside hload s scopes ht heol
  rw [hstart] at hfeed
  rw [inside_between, List.append_nil] at hnext
  rw [hfeed, Option.bind_some, hnext]

/-- An include line leads to the store that is included, laid over the other one. -/
theorem feed?_include (hload : Lineless load) {line : List Char} {raw : String} (h : IncludeLine line raw)
    (hraw : (load 1 raw).result = .ok included) (s : Store) (scopes : List String) :
    (feed? load (between s scopes) (tape line).tokens).bind (next? load · .eol) =
      some (between (s.setAll (included.pairs.map (prefixed scopes))) scopes) := by
  rw [h.feed?_eq, Option.bind_some]
  refine ((moves_directive_eol 1 raw).target load hload 1 s scopes).trans ?_
  rw [Option.bind_some, Move.target?, hraw]
  rfl

end Hocon

namespace Document

variable {lib : Library} {dir : Option String} {depth : Nat}

/-- What a document includes for the text of a directive. -/
def included (lib : Library) (dir : Option String) (depth : Nat) (line : Nat) (raw : String) : Watched Store :=
  match Directive.parse? raw with
  | some directive => do
    let resource ← .of (lib.load dir directive)
    let inner ← .of (ofResource resource)
    readWithin lib depth inner
  | none => .fault (.structural line (.badInclude raw))

theorem lineless_included (lib : Library) (dir : Option String) (depth : Nat) :
    Hocon.Lineless (included lib dir depth) := by
  intro line line' raw
  unfold included
  cases Directive.parse? raw with
  | none => rfl
  | some directive => rfl

theorem toOption_readWithin (lib : Library) (depth : Nat) (source text : String) (dir : Option String) :
    ((Document.mk source .hocon text dir).readWithin lib (depth + 1)).result.toOption =
      (Hocon.parse (included lib dir depth) text).result.toOption := by
  rw [readWithin, readWith, Noted.result_bind]
  change ((Hocon.parse (included lib dir depth) text).result >>= fun store => .ok store).toOption = _
  cases (Hocon.parse (included lib dir depth) text).result with
  | error => rfl
  | ok => rfl

/-- An include line of its own, outside of quotes, stands for the text of the document it includes, if that document
    includes nothing and can be read alone: with the text in its place the document around it reads as the same store,
    or it fails as well. -/
theorem read_include {before line after raw : String} {directive : Directive} {res : Resource} {store : Store}
    (hline : Hocon.IncludeLine line.toList raw) (hraw : Directive.parse? raw = some directive)
    (hload : lib.load dir directive = .ok res) (hconf : Dialect.ofResource res.name = .ok .hocon)
    (halone : (Hocon.parse Hocon.refuse res.text).result = .ok store)
    (hbefore : before.toList = [] ∨ EndsLine before.toList) (hquotes : Hocon.Unquoted before.toList)
    (hafter : AtLineEnd after.toList) (source : String) (depth : Nat) :
    ((Document.mk source .hocon (before ++ line ++ after) dir).readWithin lib (depth + 1)).result.toOption =
      ((Document.mk source .hocon (before ++ res.text ++ after) dir).readWithin lib (depth + 1)).result.toOption := by
  have hlineless := lineless_included lib dir depth
  have hincluded : (included lib dir depth 1 raw).result = .ok store := by
    have hinner : ofResource res = .ok ⟨res.name, .hocon, res.text, res.dir⟩ := by
      rw [ofResource, hconf]
    have hdo : included lib dir depth 1 raw =
        (do readWithin lib depth (← .of (ofResource (← .of (lib.load dir directive))))) := by
      rw [included, hraw]
    rw [hdo, hload, Noted.result_bind]
    change (Noted.of (ofResource res) >>= readWithin lib depth).result = _
    rw [hinner]
    exact readWithin_hocon (Hocon.run_of_refuse halone) lib depth
  have hscan : (Hocon.tape res.text.toList).fault? = none := (Hocon.exists_reader halone).1
  have hparts : ∀ text : String,
      ((Document.mk source .hocon (before ++ text ++ after) dir).readWithin lib (depth + 1)).result.toOption =
        Hocon.read? (included lib dir depth) .start (Hocon.tape (before.toList ++ (text.toList ++ after.toList))) := by
    intro text
    rw [toOption_readWithin, Hocon.toOption_parse hlineless, String.toList_append, String.toList_append,
      List.append_assoc]
  rw [hparts, hparts]
  refine Hocon.read?_congr hlineless hbefore hquotes hafter hline.scans hscan fun s scopes => ?_
  rw [Hocon.feed?_include hlineless hline hincluded, Hocon.feed?_alone hlineless halone]

/-- A document that sets a key twice and opens a scope. -/
def shelved : String := "a = 1\nb \x7b c = 2 \x7d\na = 3"

/-- A library that holds one document. -/
def shelf : Library where
  host := ⟨"/", fun path => if path = "/lib/d.conf" then .ok shelved.toUTF8.toList else .error .missing, [], none,
    fun _ => none⟩
  roots := ["/lib"]

/-- The document is included in an anonymous scope of another one. -/
theorem read_shelved :
    ((Document.mk "host" .hocon
      ("s.a = 0\ns \x7b\n\x7b\n" ++ "  include classpath(d.conf) # there" ++ "\n\x7d\n\x7d") none).read
      shelf).result.toOption.map Store.pairs = some [("s.a", "3"), ("s.b.c", "2")] := by
  have hload : shelf.load none (.classpath "d.conf") = .ok ⟨"/lib/d.conf", shelved, some "/lib"⟩ :=
    eq_ok_of_toOption (by decide +kernel)
  have hconf : Dialect.ofResource "/lib/d.conf" = .ok .hocon := eq_ok_of_toOption (by decide +kernel)
  have hpairs : (Hocon.parse Hocon.refuse shelved).result.toOption.map Store.pairs =
      some [("a", "3"), ("b.c", "2")] := by
    decide +kernel
  obtain ⟨store, halone, -⟩ := Option.map_eq_some_iff.mp hpairs
  have hline : Hocon.IncludeLine "  include classpath(d.conf) # there".toList "classpath(d.conf)" :=
    ⟨by decide +kernel, by decide +kernel, "classpath", [.char '(', .word "d", .char '.', .word "conf", .char ')'],
      by decide +kernel, by decide +kernel⟩
  have hbefore : EndsLine "s.a = 0\ns \x7b\n\x7b\n".toList := ⟨'\n', by decide +kernel, by decide⟩
  have hquotes : Hocon.Unquoted "s.a = 0\ns \x7b\n\x7b\n".toList := fun _ _ => by decide +kernel
  have hafter : AtLineEnd "\n\x7d\n\x7d".toList := by
    have hhead : "\n\x7d\n\x7d".toList.head? = some '\n' := by decide +kernel
    intro c hc
    cases hhead.symm.trans hc
    decide
  have hread := read_include hline (by decide +kernel) hload hconf (eq_ok_of_toOption halone) (.inr hbefore) hquotes
    hafter "host" 15
  refine (congrArg (Option.map Store.pairs) hread).trans ?_
  decide +kernel

end Document

end Settings
