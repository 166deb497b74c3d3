import Mathlib.Logic.Relation
import Settings.Document
import Settings.Proofs.Dialect.HoconDirectives
import Settings.Proofs.Dialect.HoconInclude

/-! # Chains of includes

A document leads to those that its directives name, and those lead on; files may name one another in a circle. Reading
counts how many includes are open. With that it always comes to an end, it fails wherever a chain has no end, and as
long as no chain is too long it does what it would do if it did not count. -/

namespace Settings.Document

variable {lib : Library} {d d' inner : Document} {included included' : Directive → Watched Store} {store : Store}
  {directive : Directive} {e : Fault} {limit : Option Nat} {opened left : Nat} {w w' : Watched Store}

/-! ### The directives of one document -/

/-- What stands in for the text of a directive. -/
def answer (included : Directive → Watched Store) (line : Nat) (raw : String) : Watched Store :=
  match Directive.parse? raw with
  | some directive => included directive
  | none => .fault (.structural line (.badInclude raw))

/-- The directives that a reading comes to, in order. -/
def asks (included : Directive → Watched Store) (d : Document) : List Directive :=
  match d.dialect with
  | .hocon =>
    (Hocon.asked (answer included) .start (Tape.ofText .hocon d.text)).filterMap fun p => Directive.parse? p.2
  | .json | .yaml | .properties => []

/-- The directives of a document, up to its first fault. -/
def directives (d : Document) : List Directive := d.asks fun _ => pure .empty

theorem answer_of_some {line : Nat} {raw : String} (h : Directive.parse? raw = some directive) :
    answer included line raw = included directive := by
  rw [answer, h]

theorem ok_of_answer {line : Nat} {raw : String} (h : (answer included line raw).result = .ok store) :
    ∃ directive, Directive.parse? raw = some directive := by
  cases hraw : Directive.parse? raw with
  | some directive => exact ⟨directive, rfl⟩
  | none =>
    rw [answer, hraw] at h
    cases h

theorem mem_asks (hd : d.dialect = .hocon) :
    directive ∈ d.asks included ↔
      ∃ p ∈ Hocon.asked (answer included) .start (Tape.ofText .hocon d.text),
        Directive.parse? p.2 = some directive := by
  rw [asks, hd]
  exact List.mem_filterMap

theorem hocon_of_mem_asks (h : directive ∈ d.asks included) : d.dialect = .hocon := by
  cases hd : d.dialect with
  | hocon => rfl
  | json | yaml | properties =>
    rw [asks, hd] at h
    cases h

/-- Only what a reading comes to counts. -/
theorem readWith_congr
    (h : ∀ directive ∈ d.asks included, directive ∈ d.asks included' → included directive = included' directive) :
    d.readWith included = d.readWith included' := by
  unfold readWith
  cases hd : d.dialect with
  | json | yaml | properties => rfl
  | hocon =>
    have hrun : Hocon.parse (answer included) d.text = Hocon.parse (answer included') d.text := by
      refine Hocon.run_congr fun p hp hp' => ?_
      cases hraw : Directive.parse? p.2 with
      | none => rw [answer, answer, hraw]
      | some directive =>
        rw [answer_of_some hraw, answer_of_some hraw]
        exact h directive ((mem_asks hd).mpr ⟨p, hp, hraw⟩) ((mem_asks hd).mpr ⟨p, hp', hraw⟩)
    exact congrArg (· >>= _) hrun

theorem mem_directives_of_mem_asks (h : directive ∈ d.asks included) : directive ∈ d.directives := by
  have hd := hocon_of_mem_asks h
  obtain ⟨p, hp, hraw⟩ := (mem_asks hd).mp h
  have hprefix : Hocon.asked (answer included) .start (Tape.ofText .hocon d.text) <+:
      Hocon.asked (answer fun _ => pure .empty) .start (Tape.ofText .hocon d.text) := by
    refine Hocon.asked_prefix (fun line raw s hs => ?_) Store.empty
    obtain ⟨directive, hraw⟩ := ok_of_answer hs
    rw [answer_of_some hraw]
    exact ⟨.empty, rfl⟩
  exact (mem_asks hd).mpr ⟨p, hprefix.subset hp, hraw⟩

/-- The result of reading a HOCON document is the one of its text. -/
theorem result_readWith (hd : d.dialect = .hocon) :
    (d.readWith included).result = (Hocon.parse (answer included) d.text).result := by
  rw [readWith, hd, Noted.result_bind]
  change ((Hocon.parse (answer included) d.text).result >>= fun store => .ok store) = _
  cases (Hocon.parse (answer included) d.text).result with
  | error => rfl
  | ok => rfl

/-- A reading that succeeds has got what each of the document's directives asks for. -/
theorem ok_of_mem_directives (h : (d.readWith included).result = .ok store) (hd : directive ∈ d.directives) :
    ∃ store, (included directive).result = .ok store := by
  have hconf := hocon_of_mem_asks hd
  obtain ⟨p, hp, hraw⟩ := (mem_asks hconf).mp hd
  have hrun : (Hocon.parse (answer included) d.text).result = .ok store := (result_readWith hconf).symm.trans h
  obtain ⟨store, hok⟩ := Hocon.ok_of_asked hrun Store.empty hp
  rw [answer_of_some hraw] at hok
  exact ⟨store, hok⟩

/-- A reading stops at the first directive that fails, with its fault. -/
theorem readWith_of_error {before after : List Directive} (h : d.asks included = before ++ directive :: after)
    (he : (included directive).result = .error e) : after = [] ∧ (d.readWith included).result = .error e := by
  have hconf : d.dialect = .hocon := hocon_of_mem_asks (h ▸ List.mem_append_right _ List.mem_cons_self)
  rw [asks, hconf] at h
  obtain ⟨ps, qs, hsplit, -, hqs⟩ := List.filterMap_eq_append_iff.mp h
  obtain ⟨skipped, p, rest, rfl, -, hraw, hrest⟩ := List.filterMap_eq_cons_iff.mp hqs
  rw [← List.append_assoc] at hsplit
  have hp : (answer included p.1 p.2).result = .error e := by rw [answer_of_some hraw, he]
  obtain ⟨rfl, hrun⟩ := Hocon.run_of_error hsplit hp
  exact ⟨hrest.symm, (result_readWith hconf).trans hrun⟩

/-! ### Documents of documents -/

/-- The document that a directive names. -/
def found (lib : Library) (dir : Option String) (directive : Directive) : Except Fault Document := do
  ofResource (← lib.load dir directive)

/-- What a directive stands for where so many more includes may be opened. -/
def granted (lib : Library) (dir : Option String) : Nat → Directive → Watched Store
  | 0, directive => .fault (.included directive.target (.tooDeep includeLimit))
  | left + 1, directive => do
    let inner ← .of (found lib dir directive)
    inner.readWithin lib left

theorem readWithin_eq (lib : Library) (left : Nat) (d : Document) :
    d.readWithin lib left = d.readWith (granted lib d.dir left) := by
  cases left with
  | zero => rfl
  | succ left =>
    refine readWith_congr fun directive _ _ => ?_
    rw [granted, found]
    cases lib.load d.dir directive with
    | error e => rfl
    | ok resource => rfl

theorem granted_of_error (h : found lib d.dir directive = .error e) (left : Nat) :
    granted lib d.dir (left + 1) directive = .fault e := by
  rw [granted, h]
  rfl

theorem granted_of_ok (h : found lib d.dir directive = .ok inner) (left : Nat) :
    granted lib d.dir (left + 1) directive = inner.readWithin lib left := by
  rw [granted, h]
  rfl

/-- What a document reads as where so many includes are open, with a limit on them or without one. -/
inductive Reads (lib : Library) (limit : Option Nat) : Nat → Document → Watched Store → Prop
  | read {opened : Nat} {d : Document} {included : Directive → Watched Store}
    (refused : ∀ n ∈ limit, n ≤ opened → ∀ directive ∈ d.asks included,
      included directive = .fault (.included directive.target (.tooDeep n)))
    (absent : (∀ n ∈ limit, opened < n) → ∀ directive ∈ d.asks included,
      ∀ e, found lib d.dir directive = .error e → included directive = .fault e)
    (nested : (∀ n ∈ limit, opened < n) → ∀ directive ∈ d.asks included,
      ∀ inner, found lib d.dir directive = .ok inner → Reads lib limit (opened + 1) inner (included directive)) :
    Reads lib limit opened d (d.readWith included)

/-- A document reads as one thing at most. -/
theorem Reads.unique (h : Reads lib limit opened d w) (h' : Reads lib limit opened d w') : w = w' := by
  induction h generalizing w' with
  | @read opened d included refused absent _ ih =>
    obtain ⟨refused', absent', nested'⟩ := h'
    -- Only directives that both readings come to have to agree: the first one of them is answered alike, and so on.
    refine readWith_congr fun directive hd hd' => ?_
    by_cases hroom : ∀ n ∈ limit, opened < n
    · cases hfound : found lib d.dir directive with
      | error e => rw [absent hroom directive hd e hfound, absent' hroom directive hd' e hfound]
      | ok inner => exact ih hroom directive hd inner hfound (nested' hroom directive hd' inner hfound)
    · obtain ⟨n, hn⟩ := Classical.not_forall.mp hroom
      obtain ⟨hmem, hfull⟩ := Classical.not_imp.mp hn
      rw [refused n hmem (Nat.le_of_not_lt hfull) directive hd, refused' n hmem (Nat.le_of_not_lt hfull) directive hd']

/-- A chain of directives, each in the document that the one before names. -/
inductive Chain (lib : Library) : Document → List Directive → Prop
  | last {d : Document} {directive : Directive} (h : directive ∈ d.directives) : Chain lib d [directive]
  | cons {d inner : Document} {directive : Directive} {rest : List Directive} (h : directive ∈ d.directives)
    (hfound : found lib d.dir directive = .ok inner) (hrest : Chain lib inner rest) : Chain lib d (directive :: rest)

/-- The second document is named by a directive of the first. -/
def Leads (lib : Library) (d d' : Document) : Prop := ∃ directive ∈ d.directives, found lib d.dir directive = .ok d'

/-- Counting down from the limit reads a document with that limit. -/
theorem reads_limit (lib : Library) (d : Document) (h : opened + left = includeLimit) :
    Reads lib (some includeLimit) opened d (d.readWithin lib left) := by
  rw [readWithin_eq]
  induction left generalizing opened d with
  | zero =>
    refine .read ?_ ?_ ?_
    · rintro _ ⟨rfl⟩ - directive -
      rfl
    · intro hroom
      have hlt := hroom includeLimit rfl
      omega
    · intro hroom
      have hlt := hroom includeLimit rfl
      omega
  | succ left ih =>
    refine .read ?_ (fun _ directive _ e hfound => granted_of_error hfound left) ?_
    · rintro _ ⟨rfl⟩ hfull
      omega
    · intro _ directive _ inner hfound
      rw [granted_of_ok hfound, readWithin_eq]
      exact ih inner (by omega)

/-- Where no chain is longer than the count, counting makes no difference. -/
theorem reads_none (opened : Nat) (h : ∀ ds, Chain lib d ds → ds.length ≤ left) :
    Reads lib none opened d (d.readWithin lib left) := by
  rw [readWithin_eq]
  induction left generalizing opened d with
  | zero =>
    -- A single directive would be a chain already.
    have hnone : ∀ directive, directive ∉ d.asks (granted lib d.dir 0) := fun directive hd =>
      absurd (h _ (.last (mem_directives_of_mem_asks hd))) (Nat.not_succ_le_zero 0)
    exact .read nofun (fun _ directive hd => absurd hd (hnone directive))
      (fun _ directive hd => absurd hd (hnone directive))
  | succ left ih =>
    refine .read nofun (fun _ directive _ e hfound => granted_of_error hfound left) ?_
    intro _ directive hd inner hfound
    rw [granted_of_ok hfound, readWithin_eq]
    refine ih (opened + 1) fun ds hds => ?_
    exact Nat.le_of_succ_le_succ (h _ (.cons (mem_directives_of_mem_asks hd) hfound hds))

/-! ### Chains without an end -/

/-- A document that can be read leads to documents that can be read with fewer includes. -/
theorem ok_of_leads (h : (d.readWithin lib left).result = .ok store) (hd : Leads lib d d') :
    ∃ left' store', left = left' + 1 ∧ (d'.readWithin lib left').result = .ok store' := by
  obtain ⟨directive, hmem, hfound⟩ := hd
  rw [readWithin_eq] at h
  obtain ⟨store', hok⟩ := ok_of_mem_directives h hmem
  cases left with
  | zero => cases hok
  | succ left =>
    rw [granted_of_ok hfound] at hok
    exact ⟨left, store', rfl, hok⟩

/-- A document that leads on forever cannot be read. -/
theorem not_ok_of_endless {P : Document → Prop} (hP : ∀ d, P d → ∃ d', Leads lib d d' ∧ P d') (hd : P d) :
    (d.readWithin lib left).result ≠ .ok store := by
  induction left using Nat.strongRecOn generalizing d store with
  | _ left ih =>
    intro h
    obtain ⟨d', hleads, hd'⟩ := hP d hd
    obtain ⟨left', store', rfl, hok⟩ := ok_of_leads h hleads
    exact ih left' (Nat.lt_succ_self left') hd' hok

/-- A document that leads to one that cannot be read cannot be read either. -/
theorem not_ok_of_leads (hd : Relation.ReflTransGen (Leads lib) d d')
    (h : ∀ left store, (d'.readWithin lib left).result ≠ .ok store) : (d.readWithin lib left).result ≠ .ok store := by
  induction hd using Relation.ReflTransGen.head_induction_on generalizing left store with
  | refl => exact h left store
  | head hleads _ ih =>
    intro hok
    obtain ⟨left', store', -, hok'⟩ := ok_of_leads hok hleads
    exact ih hok'

/-- Behind a document that comes again, perhaps by another name, the chain goes round forever. -/
theorem exists_leads_of_again {same : Document → Document → Prop}
    (hsame : ∀ a b a', same a b → Leads lib a a' → ∃ b', Leads lib b b' ∧ same a' b')
    (h : ∃ again, Relation.TransGen (Leads lib) d again ∧ same d again) :
    ∃ d', Leads lib d d' ∧ ∃ again, Relation.TransGen (Leads lib) d' again ∧ same d' again := by
  obtain ⟨again, hloop, hd⟩ := h
  obtain ⟨d', hleads, hrest⟩ := Relation.TransGen.head'_iff.mp hloop
  obtain ⟨again', hleads', hd'⟩ := hsame d again d' hd hleads
  exact ⟨d', hleads, again', .tail' hrest hleads', hd'⟩

/-! ### The directives that a reading comes to -/

/-- The directives that a reading comes to, in the documents that it opens as well, each with the number of includes
    that are open there. -/
def visits (lib : Library) (opened : Nat) : Nat → Document → List (Nat × Directive)
  | 0, d => (d.asks (granted lib d.dir 0)).map (opened, ·)
  | left + 1, d =>
    (d.asks (granted lib d.dir (left + 1))).flatMap fun directive =>
      (opened, directive) ::
        match found lib d.dir directive with
        | .ok inner => visits lib (opened + 1) left inner
        | .error _ => []

/-- A reading that comes to a directive where the limit is reached stops there. -/
theorem result_of_visits {before after : List (Nat × Directive)} (hleft : opened + left = includeLimit)
    (h : d.visits lib opened left = before ++ (includeLimit, directive) :: after) :
    after = [] ∧
      (d.readWithin lib left).result = .error (.included directive.target (.tooDeep includeLimit)) := by
  rw [readWithin_eq]
  induction left generalizing opened d before after with
  | zero =>
    obtain ⟨ds, rest, hasks, -, hrest⟩ := List.map_eq_append_iff.mp h
    obtain ⟨directive', ds', rfl, hhead, rfl⟩ := List.map_eq_cons_iff.mp hrest
    cases hhead
    obtain ⟨rfl, hres⟩ := readWith_of_error hasks rfl
    exact ⟨rfl, hres⟩
  | succ left ih =>
    obtain ⟨ds, directive', ds', bs₁, bs₂, hasks, hhead, -, rfl⟩ := flatMap_split h
    cases bs₁ with
    | nil =>
      -- The directive is one of this document, where includes are left.
      cases hhead
      omega
    | cons b bs₁ =>
      have htail := (List.cons.inj hhead).2
      cases hfound : found lib d.dir directive' with
      | error e =>
        rw [hfound] at htail
        cases List.append_ne_nil_of_right_ne_nil bs₁ (List.cons_ne_nil _ bs₂) htail.symm
      | ok inner =>
        rw [hfound] at htail
        obtain ⟨rfl, hinner⟩ := ih (by omega) htail
        have hfault : (granted lib d.dir (left + 1) directive').result =
            .error (.included directive.target (.tooDeep includeLimit)) := by
          rw [granted_of_ok hfound, readWithin_eq, hinner]
        obtain ⟨rfl, hres⟩ := readWith_of_error hasks hfault
        exact ⟨rfl, hres⟩

/-- Every document of every library is read to an end, and in one way only. A document from which directives lead back
    to one that is open, perhaps by another name, is not read successfully. While no chain of directives is longer than
    the limit, the limit makes no difference; a reading that comes to a directive with as many includes open stops
    there. -/
theorem read_includes (lib : Library) (root : Document) :
    (∀ w, Reads lib (some includeLimit) 0 root w ↔ w = root.read lib) ∧
    (∀ same : Document → Document → Prop,
      (∀ a b a', same a b → Leads lib a a' → ∃ b', Leads lib b b' ∧ same a' b') →
      ∀ d again, Relation.ReflTransGen (Leads lib) root d → Relation.TransGen (Leads lib) d again → same d again →
        ∀ store, (root.read lib).result ≠ .ok store) ∧
    ((∀ ds, Chain lib root ds → ds.length ≤ includeLimit) → ∀ w, Reads lib none 0 root w ↔ w = root.read lib) ∧
    (∀ before directive after, root.visits lib 0 includeLimit = before ++ (includeLimit, directive) :: after →
      after = [] ∧ (root.read lib).result = .error (.included directive.target (.tooDeep includeLimit)) ∧
        (IncludeCause.tooDeep includeLimit).message = "includes nested deeper than 16") := by
  have hlimit : Reads lib (some includeLimit) 0 root (root.read lib) := reads_limit lib root (Nat.zero_add _)
  refine ⟨fun w => ⟨fun hw => hw.unique hlimit, ?_⟩, ?_, fun hchains w => ⟨fun hw => ?_, ?_⟩, ?_⟩
  · rintro rfl
    exact hlimit
  · intro same hsame d again hroot hloop hd store
    refine not_ok_of_leads hroot fun left store => ?_
    exact not_ok_of_endless (fun _ => exists_leads_of_again hsame) ⟨again, hloop, hd⟩
  · exact hw.unique (reads_none 0 hchains)
  · rintro rfl
    exact reads_none 0 hchains
  · intro before directive after h
    obtain ⟨hafter, hres⟩ := result_of_visits (Nat.zero_add _) h
    exact ⟨hafter, hres, by decide +kernel⟩

/-- A document that includes itself. -/
def loop : Document := ⟨"/l.conf", .hocon, "include file(l.conf)", some "/"⟩

/-- A library that holds that document. -/
def ring : Library where
  host := ⟨"/", fun path => if path = loop.source then .ok loop.text.toUTF8.toList else .error .missing, [], none,
    fun _ => none⟩
  roots := []

/-- A document that includes the one on the shelf. -/
def borrower : Document := ⟨"host", .hocon, "include classpath(d.conf)", none⟩

theorem found_of_load {dir : Option String} {resource : Resource} {dialect : Dialect}
    (hload : lib.load dir directive = .ok resource) (hdialect : Dialect.ofResource resource.name = .ok dialect) :
    found lib dir directive = .ok ⟨resource.name, dialect, resource.text, resource.dir⟩ := by
  rw [found, hload]
  change ofResource resource = _
  rw [ofResource, hdialect]

theorem leads_loop : Leads ring loop loop := by
  have hload : ring.load loop.dir (.file "l.conf") = .ok ⟨loop.source, loop.text, loop.dir⟩ :=
    eq_ok_of_toOption (by decide +kernel)
  exact ⟨.file "l.conf", by decide +kernel, found_of_load hload (eq_ok_of_toOption (by decide +kernel))⟩

theorem length_le_of_chain_borrower {ds : List Directive} (h : Chain shelf borrower ds) : ds.length ≤ includeLimit := by
  have hload : shelf.load none (.classpath "d.conf") = .ok ⟨"/lib/d.conf", shelved, some "/lib"⟩ :=
    eq_ok_of_toOption (by decide +kernel)
  have hfound := found_of_load hload (eq_ok_of_toOption (by decide +kernel : _ = some Dialect.hocon))
  have hdirectives : borrower.directives = [.classpath "d.conf"] := by decide +kernel
  have hnone : (Document.mk "/lib/d.conf" .hocon shelved (some "/lib")).directives = [] := by decide +kernel
  cases h with
  | last => exact Nat.succ_le_succ (Nat.zero_le 15)
  | cons hmem hinner hrest =>
    rw [hdirectives, List.mem_singleton] at hmem
    subst hmem
    cases hinner.symm.trans hfound
    cases hrest with
    | last hmem | cons hmem => cases hnone ▸ hmem

/-- The document that includes itself is not read; the one that includes a document of the shelf is read as if there
    were no limit. -/
theorem read_loop :
    (∀ store, (loop.read ring).result ≠ .ok store) ∧
    (loop.read ring).result = .error (.included "l.conf" (.tooDeep includeLimit)) ∧
    ∀ w, Reads shelf none 0 borrower w ↔ w = borrower.read shelf := by
  have hvisits : loop.visits ring 0 includeLimit =
      (List.range 16).map (·, .file "l.conf") ++ (includeLimit, .file "l.conf") :: [] := by
    decide +kernel
  obtain ⟨-, hloop, -, hstop⟩ := read_includes ring loop
  refine ⟨?_, (hstop _ _ _ hvisits).2.1, (read_includes shelf borrower).2.2.1 fun _ => length_le_of_chain_borrower⟩
  refine hloop Eq ?_ loop loop .refl (.single leads_loop) rfl
  rintro a _ a' rfl hleads
  exact ⟨a', hleads, rfl⟩

end Settings.Document
