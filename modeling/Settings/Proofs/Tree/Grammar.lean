import Settings.Proofs.Store.Overlay
import Settings.Proofs.Tree.RoundTrip

/-! # The grammar of a tree's text

A tree's text is one value, and a value is a scalar or a bracketed list of entries. The grammar says this without a
stack and without a state; the reader accepts just what it derives. Each derivation leads the reader over its tokens,
from whatever is open around it. The other way round, a run that succeeds from an open list or map first reads the rest
of its entries and the bracket, so that by induction on the tokens that are left a derivation stands behind each run. -/

namespace Settings.Tree

/-- What a derivation is of. -/
inductive Phrase where
  | value (t : Tree)
  | elements (ts : List Tree)
  | members (ms : List (String × Tree))

/-- A token stands for a key: a quoted text or a bare word. -/
inductive IsKey : Token → String → Prop
  | quoted (q : Char) (k : String) : IsKey (.quoted q k) k
  | word (k : String) : IsKey (.word k) k

/-- Some tokens begin with a phrase, behind which the other tokens are left. Lists and maps lie at most `n` deep in it.
    Entries are separated by commas, and one more comma may follow the last of them. -/
inductive Derives : Nat → List Token → Phrase → List Token → Prop
  | quoted {n : Nat} {rest : List Token} (q : Char) (s : String) :
      Derives n (.quoted q s :: rest) (.value (text s)) rest
  | word {n : Nat} {rest : List Token} (w : String) : Derives n (.word w :: rest) (.value (ofWord w)) rest
  | list {n : Nat} {toks rest : List Token} {ts : List Tree} (h : Derives n toks (.elements ts) (.char ']' :: rest)) :
      Derives (n + 1) (.char '[' :: toks) (.value (list ts)) rest
  /-- A repeated key keeps its first place and takes its last value. -/
  | map {n : Nat} {toks rest : List Token} {ms : List (String × Tree)}
      (h : Derives n toks (.members ms) (.char '}' :: rest)) :
      Derives (n + 1) (.char '{' :: toks) (.value (map (Assoc.ofList ms))) rest
  | noElement {n : Nat} {rest : List Token} : Derives n rest (.elements []) rest
  | lastElement {n : Nat} {toks rest : List Token} {t : Tree} (h : Derives n toks (.value t) rest) :
      Derives n toks (.elements [t]) rest
  | element {n : Nat} {toks more rest : List Token} {t : Tree} {ts : List Tree}
      (h : Derives n toks (.value t) (.char ',' :: more)) (hs : Derives n more (.elements ts) rest) :
      Derives n toks (.elements (t :: ts)) rest
  | noMember {n : Nat} {rest : List Token} : Derives n rest (.members []) rest
  | lastMember {n : Nat} {tok : Token} {toks rest : List Token} {k : String} {t : Tree} (hk : IsKey tok k)
      (h : Derives n toks (.value t) rest) : Derives n (tok :: .char ':' :: toks) (.members [(k, t)]) rest
  | member {n : Nat} {tok : Token} {toks more rest : List Token} {k : String} {t : Tree} {ms : List (String × Tree)}
      (hk : IsKey tok k) (h : Derives n toks (.value t) (.char ',' :: more)) (hs : Derives n more (.members ms) rest) :
      Derives n (tok :: .char ':' :: toks) (.members ((k, t) :: ms)) rest

variable {n : Nat} {tok : Token} {toks rest more : List Token} {p : Phrase} {t root : Tree} {k old : String}

theorem Derives.suffix (h : Derives n toks p rest) : rest <:+ toks := by
  induction h with
  | quoted | word => exact List.suffix_cons _ _
  | list _ ih | map _ ih => exact ((List.suffix_cons _ _).trans ih).trans (List.suffix_cons _ _)
  | noElement | noMember => exact List.suffix_refl _
  | lastElement _ ih => exact ih
  | element _ _ ih ih' => exact (ih'.trans (List.suffix_cons _ _)).trans ih
  | lastMember _ _ ih => exact (ih.trans (List.suffix_cons _ _)).trans (List.suffix_cons _ _)
  | member _ _ _ ih ih' =>
    exact (((ih'.trans (List.suffix_cons _ _)).trans ih).trans (List.suffix_cons _ _)).trans (List.suffix_cons _ _)

theorem Derives.length_lt (h : Derives n toks (.value t) rest) : rest.length < toks.length := by
  cases h with
  | quoted | word => exact Nat.lt_succ_self _
  | list h | map h =>
    have := h.suffix.length_le
    rw [List.length_cons] at this ⊢
    omega

/-! ### Reading tokens -/

namespace Reading

variable {r r' : Reading} {l : Lexeme} {stack : List Frame} {want : Want} {done : List Tree}
  {members : List (String × Tree)}

/-- The reader behind a token. -/
def next? (r : Reading) (tok : Token) : Option Reading := (r.step ⟨1, tok⟩).toOption

/-- The tree that tokens up to the end of the text are read as. -/
def tree? (r : Reading) : List Token → Option Tree
  | [] =>
    match r.next? .eof with
    | some ⟨_, .nothing t⟩ => some t
    | _ => none
  | tok :: toks => (r.next? tok).bind (·.tree? toks)

/-- What comes of a lexeme depends on its line in a fault only. -/
def Lineless (f : Nat → Except Fault Reading) : Prop :=
  (∃ r, ∀ line, f line = .ok r) ∨ ∀ line, ∃ cause, f line = .error (.structural line cause)

theorem lineless_openFrame (r : Reading) (frame : Frame) (want : Want) :
    Lineless (r.openFrame · frame want) := by
  by_cases hd : depthLimit ≤ r.stack.length
  · exact .inr fun line => ⟨_, if_pos hd⟩
  · exact .inl ⟨_, fun line => if_neg hd⟩

theorem lineless_value (r : Reading) (tok : Token) : Lineless (r.value ⟨·, tok⟩) := by
  cases tok with
  | char c =>
    by_cases hmap : c = '{'
    · subst hmap
      exact lineless_openFrame r (.map [] "") .key
    by_cases hlist : c = '['
    · subst hlist
      exact lineless_openFrame r (.list []) .item
    · exact .inr fun line => ⟨_, (if_neg hmap).trans (if_neg hlist)⟩
  | quoted | word => exact .inl ⟨_, fun _ => rfl⟩
  | blank | eol | eof => exact .inr fun _ => ⟨_, rfl⟩

theorem lineless_key (r : Reading) (tok : Token) : Lineless (r.key ⟨·, tok⟩) := by
  cases tok with
  | quoted | word => exact .inl ⟨_, fun _ => rfl⟩
  | char c =>
    by_cases hclose : c = '}'
    · subst hclose
      exact .inl ⟨_, fun _ => rfl⟩
    · exact .inr fun line => ⟨_, if_neg (by simpa using hclose)⟩
  | blank | eol | eof => exact .inr fun _ => ⟨_, rfl⟩

theorem lineless_colon (r : Reading) (k : String) (tok : Token) : Lineless (r.colon k ⟨·, tok⟩) := by
  by_cases hcolon : tok = .char ':'
  · subst hcolon
    obtain ⟨_ | ⟨_ | _, stack⟩, want⟩ := r
    · exact .inr fun _ => ⟨_, rfl⟩
    · exact .inr fun _ => ⟨_, rfl⟩
    · exact .inl ⟨_, fun _ => rfl⟩
  · refine .inr fun line => ⟨.missingColonAfter k, ?_⟩
    change r.colon k ⟨line, tok⟩ = _
    rw [colon]
    split
    · next heq _ => exact absurd heq hcolon
    · rfl

theorem lineless_comma (r : Reading) (tok : Token) : Lineless (r.comma ⟨·, tok⟩) := by
  by_cases hcomma : tok = .char ','
  · exact .inl ⟨_, fun _ => if_pos hcomma⟩
  by_cases hclose : tok = .char (closing r.stack)
  · exact .inl ⟨_, fun _ => (if_neg hcomma).trans (if_pos hclose)⟩
  · exact .inr fun _ => ⟨_, (if_neg hcomma).trans (if_neg hclose)⟩

theorem lineless_step (r : Reading) (tok : Token) : Lineless (r.step ⟨·, tok⟩) := by
  by_cases heol : tok = .eol
  · exact .inl ⟨r, fun _ => if_pos heol⟩
  unfold step
  simp only [if_neg heol]
  cases r.want with
  | anything =>
    by_cases heof : tok = .eof
    · exact .inl ⟨_, fun _ => if_pos heof⟩
    · simpa only [if_neg heof] using lineless_value r tok
  | value => exact lineless_value r tok
  | item =>
    by_cases hclose : tok = .char ']'
    · exact .inl ⟨_, fun _ => if_pos hclose⟩
    · simpa only [if_neg hclose] using lineless_value r tok
  | key => exact lineless_key r tok
  | colon k => exact lineless_colon r k tok
  | comma => exact lineless_comma r tok
  | nothing t =>
    by_cases heof : tok = .eof
    · exact .inl ⟨_, fun _ => if_pos heof⟩
    · exact .inr fun _ => ⟨_, if_neg heof⟩

theorem next?_of_step (h : r.step ⟨1, tok⟩ = .ok r') : r.next? tok = some r' := by
  rw [next?, h]
  rfl

theorem step_cases (r : Reading) (tok : Token) :
    (∃ r', r.next? tok = some r' ∧ ∀ line, r.step ⟨line, tok⟩ = .ok r') ∨
      (r.next? tok = none ∧ ∀ line, ∃ cause, r.step ⟨line, tok⟩ = .error (.structural line cause)) := by
  rcases lineless_step r tok with ⟨r', h⟩ | h
  · exact .inl ⟨r', next?_of_step (h 1), h⟩
  · obtain ⟨cause, (hcause : r.step ⟨1, tok⟩ = _)⟩ := h 1
    refine .inr ⟨?_, h⟩
    rw [next?, hcause]
    rfl

/-- A whole tape is read by its tokens, or else with a structural fault. -/
theorem run_cases (r : Reading) {tape : Tape} (h : tape.fault? = none) :
    (∃ t, r.run tape = .ok t ∧ r.tree? tape.tokens = some t) ∨
      ((∃ line cause, r.run tape = .error (.structural line cause)) ∧ r.tree? tape.tokens = none) := by
  induction tape generalizing r with
  | torn e => cases h
  | ended line =>
    rcases step_cases r .eof with ⟨r', hnext, hr'⟩ | ⟨hnext, he⟩
    · obtain ⟨stack, want⟩ := r'
      rw [run, hr', Tape.tokens, tree?, hnext]
      cases want with
      | nothing t => exact .inl ⟨t, rfl, rfl⟩
      | _ => exact .inr ⟨⟨_, _, rfl⟩, rfl⟩
    · obtain ⟨cause, hcause⟩ := he line
      rw [run, hcause, Tape.tokens, tree?, hnext]
      exact .inr ⟨⟨_, _, rfl⟩, rfl⟩
  | cons l rest ih =>
    rcases step_cases r l.token with ⟨r', hnext, hr'⟩ | ⟨hnext, he⟩
    · rw [run_cons (hr' l.line), Tape.tokens, tree?, hnext]
      exact ih r' h
    · obtain ⟨cause, hcause⟩ := he l.line
      rw [run, hcause, Tape.tokens, tree?, hnext]
      exact .inr ⟨⟨_, _, rfl⟩, rfl⟩

/-- Line ends do not count. -/
theorem tree?_filter (r : Reading) (toks : List Token) : r.tree? (toks.filter (· != .eol)) = r.tree? toks := by
  induction toks generalizing r with
  | nil => rfl
  | cons tok toks ih =>
    by_cases heol : tok = .eol
    · subst heol
      exact ih r
    · rw [List.filter_cons, if_pos (by simpa using heol), tree?, tree?]
      congr 1
      funext r'
      exact ih r'

/-! ### From a derivation to a run -/

theorem tree?_cons (h : r.step ⟨1, tok⟩ = .ok r') (toks : List Token) : r.tree? (tok :: toks) = r'.tree? toks := by
  rw [tree?, next?_of_step h]
  rfl

theorem tree?_key (hk : IsKey tok k) (toks : List Token) :
    tree? ⟨.map members old :: stack, .key⟩ (tok :: .char ':' :: toks) =
      tree? ⟨.map members k :: stack, .value⟩ toks := by
  cases hk with
  | quoted | word => rfl

theorem tree?_comma_list (toks : List Token) :
    tree? (put (.list done :: stack) t) (.char ',' :: toks) = tree? ⟨.list (done ++ [t]) :: stack, .item⟩ toks :=
  tree?_cons rfl toks

theorem tree?_close_list (toks : List Token) :
    tree? (put (.list done :: stack) t) (.char ']' :: toks) = tree? (put stack (list (done ++ [t]))) toks :=
  tree?_cons rfl toks

theorem tree?_comma_map (toks : List Token) :
    tree? (put (.map members k :: stack) t) (.char ',' :: toks) =
      tree? ⟨.map (Assoc.insert k t members) "" :: stack, .key⟩ toks :=
  tree?_cons rfl toks

theorem tree?_close_map (toks : List Token) :
    tree? (put (.map members k :: stack) t) (.char '}' :: toks) =
      tree? (put stack (map (Assoc.insert k t members))) toks :=
  tree?_cons rfl toks

/-- What the reader makes of the tokens of a phrase where the phrase may stand. Behind the last entry it takes the
    closing bracket as well. -/
def Leads (n : Nat) (toks : List Token) : Phrase → List Token → Prop
  | .value t, rest => ∀ stack want, Admits want → stack.length + n ≤ depthLimit →
      tree? ⟨stack, want⟩ toks = tree? (put stack t) rest
  | .elements ts, rest => ∀ stack done more, rest = .char ']' :: more → stack.length + 1 + n ≤ depthLimit →
      tree? ⟨.list done :: stack, .item⟩ toks = tree? (put stack (list (done ++ ts))) more
  | .members ms, rest => ∀ stack done old more, rest = .char '}' :: more → stack.length + 1 + n ≤ depthLimit →
      tree? ⟨.map done old :: stack, .key⟩ toks = tree? (put stack (map (Assoc.insertAll done ms))) more

theorem leads (h : Derives n toks p rest) : Leads n toks p rest := by
  induction h with
  | quoted q s => exact fun stack want hw _ => tree?_cons (step_quoted hw 1 q s) _
  | word w => exact fun stack want hw _ => tree?_cons (step_word hw 1 w) _
  | list _ ih =>
    intro stack want hw hn
    rw [tree?_cons (step_openList hw (by omega) 1), ih stack [] _ rfl (by omega), List.nil_append]
  | map _ ih =>
    intro stack want hw hn
    rw [tree?_cons (step_openMap hw (by omega) 1), ih stack [] "" _ rfl (by omega), Assoc.ofList]
  | noElement =>
    rintro stack done more rfl -
    rw [List.append_nil]
    exact tree?_cons rfl more
  | lastElement _ ih =>
    rintro stack done more rfl hn
    rw [ih (.list done :: stack) .item trivial hn, tree?_close_list]
  | element _ _ ih ihs =>
    rintro stack done more rfl hn
    rw [ih (.list done :: stack) .item trivial hn, tree?_comma_list, ihs stack _ more rfl hn, List.append_assoc,
      List.singleton_append]
  | noMember =>
    rintro stack done old more rfl -
    exact tree?_cons rfl more
  | lastMember hk _ ih =>
    rintro stack done old more rfl hn
    rw [tree?_key hk, ih (.map done _ :: stack) .value trivial hn, tree?_close_map]
    rfl
  | member hk _ _ ih ihs =>
    rintro stack done old more rfl hn
    rw [tree?_key hk, ih (.map done _ :: stack) .value trivial hn, tree?_comma_map, ihs stack _ "" more rfl hn]
    rfl

/-! ### From a run to a derivation -/

theorem exists_step (h : r.tree? (tok :: toks) = some root) :
    ∃ r', r.step ⟨1, tok⟩ = .ok r' ∧ r'.tree? toks = some root := by
  rw [tree?] at h
  obtain ⟨r', hnext, h⟩ := Option.bind_eq_some_iff.mp h
  rcases step_cases r tok with ⟨_, hr', hstep⟩ | ⟨hnone, -⟩
  · cases hnext.symm.trans hr'
    exact ⟨r', hstep 1, h⟩
  · cases hnext.symm.trans hnone

/-- Where a value must start, a scalar is read in one step, or a list or map is opened. -/
theorem value_cases (h : value ⟨stack, want⟩ ⟨1, tok⟩ = .ok r') :
    (∃ t, (∀ n rest, Derives n (tok :: rest) (.value t) rest) ∧ r' = put stack t) ∨
      stack.length < depthLimit ∧
        (tok = .char '[' ∧ r' = ⟨.list [] :: stack, .item⟩ ∨ tok = .char '{' ∧ r' = ⟨.map [] "" :: stack, .key⟩) := by
  have hopen : ∀ frame w, openFrame ⟨stack, want⟩ 1 frame w = .ok r' →
      stack.length < depthLimit ∧ r' = ⟨frame :: stack, w⟩ := by
    intro frame w h
    rw [openFrame] at h
    split at h
    · cases h
    · next hd =>
      cases h
      exact ⟨Nat.not_le.mp hd, rfl⟩
  cases tok with
  | quoted q s =>
    cases h
    exact .inl ⟨text s, fun _ _ => .quoted q s, rfl⟩
  | word w =>
    cases h
    exact .inl ⟨ofWord w, fun _ _ => .word w, rfl⟩
  | char c =>
    simp only [value] at h
    split at h
    · next hc =>
      obtain ⟨hd, hr'⟩ := hopen _ _ h
      exact .inr ⟨hd, .inr ⟨by rw [hc], hr'⟩⟩
    · split at h
      · next hc =>
        obtain ⟨hd, hr'⟩ := hopen _ _ h
        exact .inr ⟨hd, .inl ⟨by rw [hc], hr'⟩⟩
      · cases h
  | blank | eol | eof => cases h

/-- Where a key may stand, a key is read or the map is closed. -/
theorem key_cases (h : key ⟨stack, want⟩ ⟨1, tok⟩ = .ok r') :
    (∃ k, IsKey tok k ∧ r' = ⟨stack, .colon k⟩) ∨ tok = .char '}' ∧ r' = close stack := by
  cases tok with
  | quoted q k =>
    cases h
    exact .inl ⟨k, .quoted q k, rfl⟩
  | word k =>
    cases h
    exact .inl ⟨k, .word k, rfl⟩
  | char c =>
    simp only [key] at h
    split at h
    · next hc =>
      cases h
      exact .inr ⟨hc, rfl⟩
    · cases h
  | blank | eol | eof => cases h

theorem colon_cases (h : colon ⟨.map members old :: stack, want⟩ k ⟨1, tok⟩ = .ok r') :
    tok = .char ':' ∧ r' = ⟨.map members k :: stack, .value⟩ := by
  unfold colon at h
  split at h
  · next heq hstack =>
    cases h
    cases hstack
    exact ⟨heq, rfl⟩
  · cases h

/-- Behind an entry, a comma is read or the list or map is closed. -/
theorem comma_cases (h : tree? ⟨stack, .comma⟩ toks = some root) (heol : .eol ∉ toks) :
    (∃ more, toks = .char ',' :: more ∧
        tree? ⟨stack, if closing stack = ']' then .item else .key⟩ more = some root) ∨
      ∃ more, toks = .char (closing stack) :: more ∧ tree? (close stack) more = some root := by
  cases toks with
  | nil => cases h
  | cons tok toks =>
    obtain ⟨r', hstep, h⟩ := exists_step h
    rw [step, if_neg (List.ne_of_not_mem_cons heol).symm] at hstep
    simp only [comma] at hstep
    split at hstep
    · next hcomma =>
      cases hstep
      exact .inl ⟨toks, by rw [hcomma], h⟩
    · split at hstep
      · next hclose =>
        cases hstep
        exact .inr ⟨toks, by rw [hclose], h⟩
      · cases hstep

/-- A run from a place of a value first reads a value. -/
def FirstValue (toks : List Token) : Prop :=
  ∀ stack n root, stack.length + n = depthLimit → tree? ⟨stack, .value⟩ toks = some root →
    ∃ t rest, Derives n toks (.value t) rest ∧ tree? (put stack t) rest = some root

/-- A run inside a list first reads the rest of its elements and the bracket. -/
def FirstElements (toks : List Token) : Prop :=
  ∀ stack done n root, stack.length + 1 + n = depthLimit → tree? ⟨.list done :: stack, .item⟩ toks = some root →
    ∃ ts rest, Derives n toks (.elements ts) (.char ']' :: rest) ∧
      tree? (put stack (list (done ++ ts))) rest = some root

/-- A run inside a map first reads the rest of its members and the bracket. -/
def FirstMembers (toks : List Token) : Prop :=
  ∀ stack done old n root, stack.length + 1 + n = depthLimit → tree? ⟨.map done old :: stack, .key⟩ toks = some root →
    ∃ ms rest, Derives n toks (.members ms) (.char '}' :: rest) ∧
      tree? (put stack (map (Assoc.insertAll done ms))) rest = some root

theorem firstValue (heol : .eol ∉ toks)
    (ih : ∀ more, more.length < toks.length → .eol ∉ more → FirstElements more ∧ FirstMembers more) :
    FirstValue toks := by
  intro stack n root hn h
  cases toks with
  | nil => cases h
  | cons tok toks =>
    rw [List.mem_cons, not_or] at heol
    obtain ⟨ihlist, ihmap⟩ := ih toks (Nat.lt_succ_self _) heol.2
    obtain ⟨r', hstep, h⟩ := exists_step h
    rw [step, if_neg (Ne.symm heol.1)] at hstep
    rcases value_cases hstep with ⟨t, ht, rfl⟩ | ⟨hd, ⟨rfl, rfl⟩ | ⟨rfl, rfl⟩⟩
    · exact ⟨t, toks, ht n toks, h⟩
    · obtain ⟨n, rfl⟩ := Nat.exists_eq_add_one_of_ne_zero (n := n) (by omega)
      obtain ⟨ts, rest, hts, h⟩ := ihlist stack [] n root (by omega) h
      exact ⟨list ts, rest, .list hts, h⟩
    · obtain ⟨n, rfl⟩ := Nat.exists_eq_add_one_of_ne_zero (n := n) (by omega)
      obtain ⟨ms, rest, hms, h⟩ := ihmap stack [] "" n root (by omega) h
      exact ⟨map (Assoc.ofList ms), rest, .map hms, h⟩

theorem tree?_item (heol : tok ≠ .eol) (hclose : tok ≠ .char ']') (toks : List Token) :
    tree? ⟨stack, .item⟩ (tok :: toks) = tree? ⟨stack, .value⟩ (tok :: toks) := by
  have hstep : step ⟨stack, .item⟩ ⟨1, tok⟩ = step ⟨stack, .value⟩ ⟨1, tok⟩ :=
    ((if_neg heol).trans (if_neg hclose)).trans (if_neg heol).symm
  rw [tree?, next?, hstep]
  rfl

theorem firstElements (heol : .eol ∉ toks) (hv : FirstValue toks)
    (ih : ∀ more, more.length < toks.length → .eol ∉ more → FirstElements more) : FirstElements toks := by
  intro stack done n root hn h
  cases toks with
  | nil => cases h
  | cons tok toks =>
    by_cases hclose : tok = .char ']'
    · subst hclose
      refine ⟨[], toks, .noElement, ?_⟩
      rw [List.append_nil]
      exact (tree?_cons rfl toks).symm.trans h
    rw [tree?_item (List.ne_of_not_mem_cons heol).symm hclose] at h
    obtain ⟨t, rest, ht, h⟩ := hv (.list done :: stack) n root hn h
    have hrest : .eol ∉ rest := fun hmem => heol (ht.suffix.mem hmem)
    rcases comma_cases h hrest with ⟨more, rfl, h⟩ | ⟨more, rfl, h⟩
    · have hmore : .eol ∉ more := List.not_mem_of_not_mem_cons hrest
      obtain ⟨ts, rest, hts, h⟩ := ih more (Nat.lt_of_succ_lt ht.length_lt) hmore stack _ n root hn h
      rw [List.append_assoc, List.singleton_append] at h
      exact ⟨t :: ts, rest, .element ht hts, h⟩
    · exact ⟨[t], more, .lastElement ht, h⟩

theorem firstMembers (heol : .eol ∉ toks) (hv : ∀ more, more.length < toks.length → .eol ∉ more → FirstValue more)
    (ih : ∀ more, more.length < toks.length → .eol ∉ more → FirstMembers more) : FirstMembers toks := by
  intro stack done old n root hn h
  cases toks with
  | nil => cases h
  | cons tok toks =>
    obtain ⟨_, hstep, h⟩ := exists_step h
    rw [step, if_neg (List.ne_of_not_mem_cons heol).symm] at hstep
    rcases key_cases hstep with ⟨k, hk, rfl⟩ | ⟨rfl, rfl⟩
    · cases toks with
      | nil => cases h
      | cons colon toks =>
        have heol := List.not_mem_of_not_mem_cons heol
        obtain ⟨_, hstep, h⟩ := exists_step h
        rw [step, if_neg (List.ne_of_not_mem_cons heol).symm] at hstep
        obtain ⟨rfl, rfl⟩ := colon_cases hstep
        have heol := List.not_mem_of_not_mem_cons heol
        have hlt : toks.length < (tok :: Token.char ':' :: toks).length := by
          rw [List.length_cons, List.length_cons]
          omega
        obtain ⟨t, rest, ht, h⟩ := hv toks hlt heol (.map done k :: stack) n root hn h
        have hrest : .eol ∉ rest := fun hmem => heol (ht.suffix.mem hmem)
        rcases comma_cases h hrest with ⟨more, rfl, h⟩ | ⟨more, rfl, h⟩
        · have hmore : .eol ∉ more := List.not_mem_of_not_mem_cons hrest
          have hlt := Nat.lt_trans (Nat.lt_of_succ_lt ht.length_lt) hlt
          obtain ⟨ms, rest, hms, h⟩ := ih more hlt hmore stack _ "" n root hn h
          exact ⟨(k, t) :: ms, rest, .member hk ht hms, h⟩
        · exact ⟨[(k, t)], more, .lastMember hk ht, h⟩
    · exact ⟨[], toks, .noMember, h⟩

theorem first_phrases (m : Nat) : ∀ toks : List Token, toks.length < m → .eol ∉ toks →
    FirstValue toks ∧ FirstElements toks ∧ FirstMembers toks := by
  induction m with
  | zero => exact fun toks h => absurd h (Nat.not_lt_zero _)
  | succ m ih =>
    intro toks hlen heol
    -- What is read first with some tokens needs what is read first with fewer; only elements need the value they start
    -- with at the same tokens.
    have ih : ∀ more, more.length < toks.length → .eol ∉ more →
        FirstValue more ∧ FirstElements more ∧ FirstMembers more :=
      fun more hlt => ih more (by omega)
    have hv := firstValue heol fun more hlt hmore => (ih more hlt hmore).2
    exact ⟨hv, firstElements heol hv fun more hlt hmore => (ih more hlt hmore).2.1,
      firstMembers heol (fun more hlt hmore => (ih more hlt hmore).1) fun more hlt hmore => (ih more hlt hmore).2.2⟩

/-! ### Whole texts -/

theorem tree?_put_nil (heol : .eol ∉ toks) (heof : .eof ∉ toks) :
    tree? (put [] t) toks = some root ↔ toks = [] ∧ t = root := by
  cases toks with
  | nil => exact ⟨fun h => ⟨rfl, Option.some.inj h⟩, fun h => congrArg some h.2⟩
  | cons tok toks =>
    refine ⟨fun h => ?_, fun h => nomatch h.1⟩
    obtain ⟨_, hstep, -⟩ := exists_step h
    have hstep := (if_neg (List.ne_of_not_mem_cons heol).symm).symm.trans hstep
    cases (if_neg (List.ne_of_not_mem_cons heof).symm).symm.trans hstep

theorem tree?_anything (heol : tok ≠ .eol) (heof : tok ≠ .eof) (toks : List Token) :
    tree? ⟨stack, .anything⟩ (tok :: toks) = tree? ⟨stack, .value⟩ (tok :: toks) := by
  have hstep : step ⟨stack, .anything⟩ ⟨1, tok⟩ = step ⟨stack, .value⟩ ⟨1, tok⟩ :=
    ((if_neg heol).trans (if_neg heof)).trans (if_neg heol).symm
  rw [tree?, next?, hstep]
  rfl

/-- Tokens without line ends are read as a tree if and only if they are derived as that tree, or there are none. -/
theorem tree?_eq_some_iff (heol : .eol ∉ toks) (heof : .eof ∉ toks) :
    tree? ⟨[], .anything⟩ toks = some t ↔ toks = [] ∧ t = null ∨ Derives depthLimit toks (.value t) [] := by
  cases toks with
  | nil =>
    constructor
    · intro h
      exact .inl ⟨rfl, (Option.some.inj h).symm⟩
    · rintro (⟨-, rfl⟩ | h)
      · rfl
      · cases h
  | cons tok toks =>
    rw [tree?_anything (List.ne_of_not_mem_cons heol).symm (List.ne_of_not_mem_cons heof).symm]
    constructor
    · intro h
      obtain ⟨u, rest, hu, h⟩ := (first_phrases _ _ (Nat.lt_succ_self _) heol).1 [] depthLimit t (Nat.zero_add _) h
      have hrest := (tree?_put_nil (fun hmem => heol (hu.suffix.mem hmem)) fun hmem => heof (hu.suffix.mem hmem)).mp h
      obtain ⟨rfl, rfl⟩ := hrest
      exact .inr hu
    · rintro (⟨h, -⟩ | h)
      · cases h
      · exact leads h [] .value trivial (Nat.le_of_eq (Nat.zero_add _))

theorem run_ok (h : r.run tape = .ok t) : tape.fault? = none := by
  induction tape generalizing r with
  | torn e => cases h
  | ended line => rfl
  | cons l rest ih =>
    rw [run] at h
    cases hstep : r.step l with
    | error e => simp [hstep] at h
    | ok r' => exact ih (by simpa only [hstep] using h)

end Reading

/-- No map in a phrase has a key twice, once its members are put together. -/
def Phrase.Distinct : Phrase → Prop
  | value t => t.Distinct
  | elements ts => EverywhereItems KeysDiffer ts
  | members ms => EverywhereMembers KeysDiffer ms

theorem Derives.distinct (h : Derives n toks p rest) : p.Distinct := by
  induction h with
  | quoted q s => exact nofun
  | word w => exact distinct_ofWord w
  | list _ ih => exact ⟨nofun, ih⟩
  | map _ ih =>
    refine ⟨?_, everywhereMembers_iff.mpr fun p hp => everywhereMembers_iff.mp ih p (Assoc.mem_ofList hp)⟩
    rintro ms hms
    cases hms
    exact Assoc.nodup_ofList _
  | noElement | noMember => trivial
  | lastElement _ ih | lastMember _ _ ih => exact ⟨ih, trivial⟩
  | element _ _ ih ih' | member _ _ _ ih ih' => exact ⟨ih, ih'⟩

open Reading in
/-- No map of a tree that has been read has a key twice. -/
theorem distinct_of_read {source : String} (h : read source = .ok t) : t.Distinct := by
  rcases run_cases ⟨[], .anything⟩ (run_ok h) with ⟨u, hrun, htree⟩ | ⟨⟨line, cause, hrun⟩, -⟩
  · obtain rfl : u = t := Except.ok.inj (hrun.symm.trans h)
    rw [← tree?_filter] at htree
    have heof : .eof ∉ (Tape.ofText .tree source).tokens.filter (· != .eol) := fun hmem =>
      Scanner.eof_not_mem_tokens _ _ (List.mem_filter.mp hmem).1
    rcases (tree?_eq_some_iff (by simp) heof).mp htree with ⟨-, rfl⟩ | hd
    · exact nofun
    · exact hd.distinct
  · cases h.symm.trans hrun

open Reading in
/-- A text that scans without a fault is read as a tree if and only if its tokens, without the line ends, are derived as
    that tree, or there are none and the tree is null. Any other such text is at fault in its structure. -/
theorem read_iff_derives {source : String} (h : (Tape.ofText .tree source).fault? = none) :
    let tokens := (Tape.ofText .tree source).tokens.filter (· != .eol)
    (∀ t, read source = .ok t ↔ tokens = [] ∧ t = null ∨ Derives depthLimit tokens (.value t) []) ∧
      ((∀ t, read source ≠ .ok t) → ∃ line cause, read source = .error (.structural line cause)) := by
  intro tokens
  have heol : .eol ∉ tokens := fun hmem => by simpa using (List.mem_filter.mp hmem).2
  have heof : .eof ∉ tokens := fun hmem => Scanner.eof_not_mem_tokens _ _ (List.mem_filter.mp hmem).1
  have hread := run_cases ⟨[], .anything⟩ h
  rw [← tree?_filter] at hread
  refine ⟨fun t => ?_, fun hne => ?_⟩
  · rw [← tree?_eq_some_iff heol heof]
    rcases hread with ⟨u, hrun, htree⟩ | ⟨⟨line, cause, hrun⟩, htree⟩
    · rw [read, hrun, htree, Except.ok.injEq, Option.some.injEq]
    · rw [read, hrun, htree]
      simp
  · rcases hread with ⟨u, hrun, -⟩ | ⟨hrun, -⟩
    · exact absurd hrun (hne u)
    · exact hrun

/-- A comma behind the last element, a line end and a repeated key. -/
def relaxed : String := "\x7bk: [w,], 'b': x,\n k: \x7b\x7d\x7d"

theorem read_relaxed :
    (Tape.ofText .tree relaxed).fault? = none ∧ read relaxed = .ok (map [("k", map []), ("b", text "x")]) := by
  have hscan : (Tape.ofText .tree relaxed).fault? = none := by decide +kernel
  have htokens : (Tape.ofText .tree relaxed).tokens.filter (· != .eol) =
      [.char '{', .word "k", .char ':', .char '[', .word "w", .char ',', .char ']', .char ',',
        .quoted '\'' "b", .char ':', .word "x", .char ',', .word "k", .char ':', .char '{', .char '}', .char '}'] := by
    decide +kernel
  refine ⟨hscan, ((read_iff_derives hscan).1 _).mpr (.inr ?_)⟩
  rw [htokens]
  have hlist {n : Nat} (rest : List Token) :
      Derives (n + 1) (.char '[' :: .word "w" :: .char ',' :: .char ']' :: rest) (.value (list [ofWord "w"])) rest :=
    .list (.element (.word "w") .noElement)
  have hlast {n : Nat} (rest : List Token) :
      Derives (n + 1) (.word "k" :: .char ':' :: .char '{' :: .char '}' :: rest) (.members [("k", map [])]) rest :=
    .lastMember (.word "k") (.map .noMember)
  exact .map (.member (.word "k") (hlist _) (.member (.quoted '\'' "b") (.word "x") (hlast _)))

end Settings.Tree
