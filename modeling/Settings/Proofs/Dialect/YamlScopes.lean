import Settings.Proofs.Dialect.YamlLists

/-! # Scopes of a YAML document

Which scopes a line stands in is told by the lines before it alone: its key lies below the key of the last line before
it of each smaller indentation. The reader keeps the keys of the scopes that are open; after each line they are the keys
of those last lines, the ones that a list is attached to left out. -/

namespace Settings

namespace Yaml

variable {raw : List Char} {lines : List (List Char)} {r r' : Reader} {line level : Nat} {key value text : String}
  {s : Store}

/-! ### What stands on the lines -/

/-- What stands on a line that counts. -/
inductive Row where
  /-- A key and its value, perhaps an empty one, behind so many steps of indentation. -/
  | key (level : Nat) (key value : String)
  /-- An item, as it stands in the value of its list. -/
  | item (text : String)
  deriving DecidableEq, Repr

/-- What stands on a line, its comment left out. -/
def row? (raw : List Char) : Option Row :=
  let content := withoutComment none true raw
  let indent := (content.takeWhile (· = ' ')).length
  let body := content.dropWhile (· = ' ')
  match item? body with
  | some text => some (.item (String.ofList (listedItem text)))
  | none =>
    match Text.cut? ':' body with
    | some (key, value) =>
      if indent % indentStep = 0 then
        some (.key (indent / indentStep) (String.ofList (Text.trim key)) (String.ofList (Text.trim value)))
      else none
    | none => none

/-- The line of a key with the items that are attached to it: those of the run of items right behind it. -/
structure Entry where
  level : Nat
  key : String
  value : String
  items : List String
  deriving DecidableEq, Repr

instance : DecidablePred Idle := fun raw => inferInstanceAs (Decidable (Text.trim (withoutComment none true raw) = []))

/-- Adds a line to what stands on the lines before it. There must be a line of a key before an item. -/
def addLine (es : List Entry) (raw : List Char) : Option (List Entry) :=
  if Idle raw then some es
  else
    match row? raw with
    | some (.key level key value) => some (es ++ [⟨level, key, value, []⟩])
    | some (.item text) => es.getLast?.map fun e => es.dropLast ++ [{ e with items := e.items ++ [text] }]
    | none => none

/-- The lines of keys of a document, if each line of it counts as something or does not count. -/
def outline? (lines : List (List Char)) : Option (List Entry) := lines.foldlM addLine []

/-! ### What is stored for them -/

/-- The last line of a key whose level is at most this one. -/
def enclosing? (above : List Entry) (level : Nat) : Option Entry := above.reverse.find? (·.level ≤ level)

/-- The full key of a line: at each level below its own, the key of the last line before it whose level is at most that
    one, and then its own key. -/
def fullKey (above : List Entry) (level : Nat) (key : String) : String :=
  ".".intercalate ((List.range level).filterMap (fun j => (enclosing? above j).map Entry.key) ++ [key])

/-- The value of a line, and the list that is attached to it, both at its full key. -/
def Entry.pairs (above : List Entry) (e : Entry) : List (String × String) :=
  (if e.value = "" then [] else [(fullKey above e.level e.key, e.value)]) ++
    if e.items = [] then [] else [(fullKey above e.level e.key, ",".intercalate e.items)]

/-- What is stored for the lines behind those above. -/
def stored (above : List Entry) : List Entry → List (String × String)
  | [] => []
  | e :: es => e.pairs above ++ stored (above ++ [e]) es

/-- The lines without the list of the last one, which goes on as long as items follow. -/
def withheld (es : List Entry) : List Entry :=
  match es.getLast? with
  | none => []
  | some e => es.dropLast ++ [{ e with items := [] }]

/-- Each line of a key stands in scopes: of the lines before it whose level is at most some smaller one, the last is just
    of that level, and its key has neither a value nor a list. -/
def Nested (es : List Entry) : Prop :=
  ∀ above e, above ++ [e] <+: es → ∀ j < e.level, ∃ p, enclosing? above j = some ⟨j, p, "", []⟩

/-- The notices of pairs that are set. -/
def sets (pairs : List (String × String)) : List Notice := pairs.map fun p => .set p.1 p.2

/-- The list that ends, if there is one. -/
def Reader.ended (r : Reader) : List (String × String) :=
  match r.list with
  | none => []
  | some (path, texts) => [(path, ",".intercalate texts)]

variable {above es : List Entry} {e : Entry} {scopes : List String} {told pairs : List (String × String)}

theorem addLine_key (hidle : ¬ Idle raw) (hrow : row? raw = some (.key level key value)) (es : List Entry) :
    addLine es raw = some (es ++ [⟨level, key, value, []⟩]) := by
  simp only [addLine, if_neg hidle, hrow]

theorem addLine_item (hidle : ¬ Idle raw) (hrow : row? raw = some (.item text)) (above : List Entry) (e : Entry) :
    addLine (above ++ [e]) raw = some (above ++ [{ e with items := e.items ++ [text] }]) := by
  simp only [addLine, if_neg hidle, hrow, List.getLast?_concat, List.dropLast_concat, Option.map_some]

theorem enclosing?_concat (es : List Entry) (e : Entry) (j : Nat) :
    enclosing? (es ++ [e]) j = if e.level ≤ j then some e else enclosing? es j := by
  rw [enclosing?, List.reverse_concat, List.find?_cons]
  split
  · next h => rw [if_pos (of_decide_eq_true h)]
  · next h =>
    rw [if_neg (of_decide_eq_false h)]
    rfl

/-- The lines of at least the level of a key do not count for its path. -/
theorem fullKey_concat (h : level ≤ e.level) (es : List Entry) (key : String) :
    fullKey (es ++ [e]) level key = fullKey es level key := by
  have hscopes : ∀ j ∈ List.range level, enclosing? (es ++ [e]) j = enclosing? es j := fun j hj => by
    rw [enclosing?_concat, if_neg (Nat.not_le.mpr (Nat.lt_of_lt_of_le (List.mem_range.mp hj) h))]
  rw [fullKey, fullKey, List.filterMap_congr fun j hj => by rw [hscopes j hj]]

theorem stored_append (above es more : List Entry) :
    stored above (es ++ more) = stored above es ++ stored (above ++ es) more := by
  induction es generalizing above with
  | nil => simp [stored]
  | cons e es ih => simp [stored, ih]

theorem stored_concat (es : List Entry) (e : Entry) : stored [] (es ++ [e]) = stored [] es ++ e.pairs es := by
  rw [stored_append, List.nil_append, stored, stored, List.append_nil]

theorem withheld_concat (es : List Entry) (e : Entry) : withheld (es ++ [e]) = es ++ [{ e with items := [] }] := by
  simp [withheld]

theorem withheld_eq (h : ∀ e ∈ es.getLast?, e.items = []) : withheld es = es := by
  rcases List.eq_nil_or_concat es with rfl | ⟨es, e, rfl⟩
  · rfl
  · have hitems : e.items = [] := h e (by simp)
    rw [List.concat_eq_append, withheld_concat, ← hitems]

theorem Nested.concat (h : Nested es) (he : ∀ j < e.level, ∃ p, enclosing? es j = some ⟨j, p, "", []⟩) :
    Nested (es ++ [e]) := by
  intro above e' hfirst
  rcases List.prefix_concat_iff.mp hfirst with heq | hfirst
  · obtain ⟨rfl, rfl⟩ := List.append_inj' heq rfl |>.imp id List.singleton_inj.mp
    exact he
  · exact h above e' hfirst

theorem Nested.left (h : Nested (es ++ [e])) : Nested es :=
  fun above e' hfirst => h above e' (hfirst.trans (List.prefix_append es [e]))

/-! ### What a step does -/

theorem sets_append (pairs more : List (String × String)) : sets (pairs ++ more) = sets pairs ++ sets more :=
  List.map_append

theorem endList_eq (r : Reader) :
    r.endList = ⟨sets r.ended, .ok { r with store := r.store.setAll r.ended, list := none }⟩ := by
  obtain ⟨store, scopes, opened, list⟩ := r
  cases list with
  | none => rfl
  | some list => rfl

/-- What a line does to the reader, and the pairs that are set for it. -/
inductive Takes (r : Reader) (raw : List Char) : List (String × String) → Reader → Prop
  | idle (hidle : Idle raw) : Takes r raw [] r
  /-- An item of the list that is open. -/
  | more {path text : String} {texts : List String} (hidle : ¬ Idle raw) (hrow : row? raw = some (.item text))
      (hlist : r.list = some (path, texts)) : Takes r raw [] { r with list := some (path, texts ++ [text]) }
  /-- The first item below a key, which is no scope from here on. -/
  | first {text : String} (hidle : ¬ Idle raw) (hrow : row? raw = some (.item text)) (hlist : r.list = none)
      (hopened : r.opened = true) :
      Takes r raw [] { r with
        scopes := r.scopes.dropLast, opened := false, list := some (dottedKey r.scopes, [text]) }
  /-- A key without a value, a scope. -/
  | opens {level : Nat} {key : String} (hidle : ¬ Idle raw) (hrow : row? raw = some (.key level key ""))
      (hkey : key ≠ "") (hlevel : level ≤ r.scopes.length) :
      Takes r raw r.ended ⟨r.store.setAll r.ended, r.scopes.take level ++ [key], true, none⟩
  /-- A key with a value. -/
  | sets {level : Nat} {key value : String} (hidle : ¬ Idle raw) (hrow : row? raw = some (.key level key value))
      (hkey : key ≠ "") (hlevel : level ≤ r.scopes.length) (hvalue : value ≠ "") :
      Takes r raw (r.ended ++ [(dottedKey (r.scopes.take level ++ [key]), value)])
        ⟨(r.store.setAll r.ended).set (dottedKey (r.scopes.take level ++ [key])) value, r.scopes.take level, false,
          none⟩

theorem indentation_ok {content body : List Char} {n : Nat} (h : indentation line content = .ok (n, body)) :
    n = (content.takeWhile (· = ' ')).length ∧ body = content.dropWhile (· = ' ') := by
  unfold indentation at h
  dsimp only at h
  split at h
  · cases h
  cases h
  have hlength := congrArg List.length (List.takeWhile_append_dropWhile (p := (· = ' ')) (l := content))
  rw [List.length_append] at hlength
  exact ⟨by omega, rfl⟩

theorem row?_item {body item : List Char} {n : Nat} (hitem : item? body = some item)
    (hindent : indentation line (withoutComment none true raw) = .ok (n, body)) :
    row? raw = some (.item (String.ofList (listedItem item))) := by
  rw [(indentation_ok hindent).2] at hitem
  simp only [row?, hitem]

theorem row?_key {body key value : List Char} {n : Nat} (hitem : item? body = none)
    (hindent : indentation line (withoutComment none true raw) = .ok (n, body))
    (hcut : Text.cut? ':' body = some (key, value)) (heven : n % indentStep = 0) :
    row? raw =
      some (.key (n / indentStep) (String.ofList (Text.trim key)) (String.ofList (Text.trim value))) := by
  obtain ⟨rfl, rfl⟩ := indentation_ok hindent
  simp only [row?, hitem, hcut, if_pos heven]

theorem itemLine_ok {item : List Char} (hidle : ¬ Idle raw)
    (hrow : row? raw = some (.item (String.ofList (listedItem item)))) (h : itemLine r line item = .ok r') :
    Takes r raw [] r' := by
  unfold itemLine at h
  dsimp only at h
  split at h
  · next path texts hlist =>
    cases h
    exact .more hidle hrow hlist
  split at h
  · next hlist hopened =>
    cases h
    exact .first hidle hrow hlist hopened
  · cases h

/-- The line of a key behind the end of the list that was open. -/
theorem keyLine_ok {body : List Char} {n : Nat} (hidle : ¬ Idle raw) (hitem : item? body = none)
    (hindent : indentation line (withoutComment none true raw) = .ok (n, body))
    (h : (keyLine { r with store := r.store.setAll r.ended, list := none } line n body).result = .ok r') :
    ∃ pairs, (keyLine { r with store := r.store.setAll r.ended, list := none } line n body).notices = sets pairs ∧
      Takes r raw (r.ended ++ pairs) r' := by
  unfold keyLine at h ⊢
  cases hcut : Text.cut? ':' body with
  | none =>
    rw [hcut] at h
    cases h
  | some parts =>
    obtain ⟨key, value⟩ := parts
    simp only [hcut] at h ⊢
    split at h
    · cases h
    next heven =>
    split at h
    · cases h
    next hlevel =>
    split at h
    · cases h
    next hkey =>
    rw [if_neg heven, if_neg hlevel, if_neg hkey]
    have hrow := row?_key hitem hindent hcut (not_not.mp heven)
    split at h
    · next hvalue =>
      cases h
      rw [if_pos hvalue]
      rw [hvalue] at hrow
      refine ⟨[], rfl, ?_⟩
      rw [List.append_nil]
      exact .opens hidle hrow hkey (Nat.not_lt.mp hlevel)
    · next hvalue =>
      cases h
      rw [if_neg hvalue]
      exact ⟨_, rfl, .sets hidle hrow hkey (Nat.not_lt.mp hlevel) hvalue⟩

theorem step_ok (h : (step r line raw).result = .ok r') :
    ∃ pairs, (step r line raw).notices = sets pairs ∧ Takes r raw pairs r' := by
  rcases step_cases r line raw with
    ⟨hidle, hstep⟩ | ⟨fault, hstep⟩ | ⟨n, body, hidle, hindent, ⟨item, hitem, hstep⟩ | ⟨hitem, hstep⟩⟩
  all_goals rw [hstep] at h ⊢
  · cases h
    exact ⟨[], rfl, .idle hidle⟩
  · cases h
  · exact ⟨[], rfl, itemLine_ok hidle (row?_item hitem hindent) h⟩
  · rw [endList_eq] at h ⊢
    obtain ⟨ended, hended, h⟩ := Noted.result_bind_eq_ok.mp h
    cases hended
    obtain ⟨pairs, hnotices, htakes⟩ := keyLine_ok hidle hitem hindent h
    refine ⟨_, ?_, htakes⟩
    rw [Noted.notices_bind_of_ok rfl, hnotices, sets_append]

/-! ### What the reader holds -/

/-- What the reader holds behind lines, and the pairs that were set for them, are what stands on the lines. -/
structure Follows (es : List Entry) (told : List (String × String)) (r : Reader) : Prop where
  store : r.store = .ofPairs told
  told : told = stored [] (withheld es)
  nested : Nested es
  scope : ∀ j p, r.scopes[j]? = some p → p ≠ "" ∧ enclosing? es j = some ⟨j, p, "", []⟩
  opened : r.opened = true → ∃ above key scopes, es = above ++ [⟨scopes.length, key, "", []⟩] ∧
    r.scopes = scopes ++ [key]
  closed : r.list = none → ∀ e ∈ es.getLast?, e.items = []
  list : ∀ path texts, r.list = some (path, texts) → ∃ above level key, es = above ++ [⟨level, key, "", texts⟩] ∧
    texts ≠ [] ∧ path = fullKey above level key

theorem Follows.start : Follows [] [] Reader.start where
  store := rfl
  told := rfl
  nested := fun above e h => absurd (List.prefix_nil.mp h) (by simp)
  scope := nofun
  opened := nofun
  closed := fun _ => nofun
  list := nofun

/-- The keys of the open scopes are those that a line of a deeper level stands below. -/
theorem Follows.scopes_eq (F : Follows es told r) (hlevel : level ≤ r.scopes.length) :
    (List.range level).filterMap (fun j => (enclosing? es j).map Entry.key) = r.scopes.take level := by
  induction level with
  | zero => rfl
  | succ level ih =>
    have hscope := List.getElem?_eq_getElem (Nat.lt_of_succ_le hlevel)
    rw [List.range_succ, List.filterMap_append, ih (Nat.le_of_succ_le hlevel), List.take_add_one, hscope]
    simp [(F.scope level _ hscope).2]

theorem Follows.fullKey_eq (F : Follows es told r) (hkey : key ≠ "") (hlevel : level ≤ r.scopes.length) :
    fullKey es level key = dottedKey (r.scopes.take level ++ [key]) := by
  have hnamed : ∀ p ∈ r.scopes.take level ++ [key], (p != "") = true := by
    intro p hp
    rcases List.mem_append.mp hp with hp | hp
    · obtain ⟨j, hj⟩ := List.mem_iff_getElem?.mp (List.mem_of_mem_take hp)
      exact bne_iff_ne.mpr (F.scope j p hj).1
    · exact bne_iff_ne.mpr (List.mem_singleton.mp hp ▸ hkey)
  rw [fullKey, F.scopes_eq hlevel, dottedKey, List.filter_eq_self.mpr hnamed]

/-- The list that is open is all that is still to be stored. -/
theorem Follows.stored_eq (F : Follows es told r) : stored [] es = told ++ r.ended := by
  unfold Reader.ended
  rw [F.told]
  cases hlist : r.list with
  | none => rw [withheld_eq (F.closed hlist), List.append_nil]
  | some list =>
    obtain ⟨path, texts⟩ := list
    obtain ⟨above, level, key, rfl, hne, rfl⟩ := F.list path texts hlist
    rw [withheld_concat, stored_concat, stored_concat, List.append_assoc]
    simp [Entry.pairs, hne]

/-- The line of a key ends the list that is open; without a value its key is a scope, till an item follows. -/
theorem Follows.addKey (F : Follows es told r) (hkey : key ≠ "") (hlevel : level ≤ r.scopes.length) (value : String) :
    Follows (es ++ [⟨level, key, value, []⟩]) (told ++ (r.ended ++ Entry.pairs es ⟨level, key, value, []⟩)) {
      store := r.store.setAll (r.ended ++ Entry.pairs es ⟨level, key, value, []⟩)
      scopes := r.scopes.take level ++ if value = "" then [key] else []
      opened := decide (value = "")
      list := none } where
  store := by rw [F.store, Store.ofPairs, ← Store.setAll_append, Store.ofPairs]
  told := by rw [withheld_concat, stored_concat, F.stored_eq, List.append_assoc]
  nested := F.nested.concat fun j hj => ⟨_, (F.scope j _ (List.getElem?_eq_getElem (Nat.lt_of_lt_of_le hj hlevel))).2⟩
  scope j p hj := by
    rw [enclosing?_concat]
    rcases Nat.lt_or_ge j level with hlt | hge
    · rw [List.getElem?_append_left (by simp; omega), List.getElem?_take_of_lt hlt] at hj
      rw [if_neg (Nat.not_le.mpr hlt)]
      exact F.scope j p hj
    · rw [List.getElem?_append_right (by simp; omega), List.length_take, Nat.min_eq_left hlevel] at hj
      rw [if_pos hge]
      split at hj
      · next hvalue =>
        obtain ⟨hlast, rfl⟩ := List.getElem?_eq_some_iff.mp hj
        have hlast : j - level < 1 := hlast
        have hj : j = level := by omega
        exact ⟨by simpa using hkey, by simp [hj, hvalue]⟩
      · cases hj
  opened h := ⟨es, key, r.scopes.take level, by
    rw [of_decide_eq_true h, List.length_take, Nat.min_eq_left hlevel], by rw [if_pos (of_decide_eq_true h)]⟩
  closed _ e he := by
    rw [List.getLast?_concat] at he
    cases he
    rfl
  list := nofun

/-- An item is added to the line of a key that is no scope, or no longer one. -/
theorem Follows.addItem (F : Follows (above ++ [e]) told r) (hvalue : e.value = "")
    (hscopes : ∀ j p, scopes[j]? = some p → r.scopes[j]? = some p ∧ j < e.level) (text : String) :
    Follows (above ++ [{ e with items := e.items ++ [text] }]) told
      ⟨r.store, scopes, false, some (fullKey above e.level e.key, e.items ++ [text])⟩ where
  store := F.store
  told := by rw [F.told, withheld_concat, withheld_concat]
  nested := F.nested.left.concat fun j hj => F.nested above e (List.prefix_refl _) j hj
  scope j p hj := by
    obtain ⟨hscope, hlevel⟩ := hscopes j p hj
    have hopen := F.scope j p hscope
    rw [enclosing?_concat, if_neg (Nat.not_le.mpr hlevel)] at hopen ⊢
    exact hopen
  opened := nofun
  closed := nofun
  list := by
    rintro path texts ⟨⟩
    exact ⟨above, e.level, e.key, by rw [hvalue], by simp, rfl⟩

theorem Follows.step (F : Follows es told r) (h : Takes r raw pairs r') :
    ∃ es', addLine es raw = some es' ∧ Follows es' (told ++ pairs) r' := by
  cases h with
  | idle hidle => exact ⟨es, if_pos hidle, by rwa [List.append_nil]⟩
  | @more path text texts hidle hrow hlist =>
    obtain ⟨above, level, key, rfl, hne, rfl⟩ := F.list path texts hlist
    -- A line with a list is neither a scope nor about to become one.
    have hclosed : r.opened = false := by
      by_contra hopened
      obtain ⟨above', key', scopes, heq, -⟩ := F.opened (by simpa using hopened)
      cases List.append_inj_right' heq rfl
      exact hne rfl
    have hscopes : ∀ j p, r.scopes[j]? = some p → r.scopes[j]? = some p ∧ j < level := by
      refine fun j p hj => ⟨hj, Nat.lt_of_not_le fun hlevel => ?_⟩
      have hscope := (F.scope j p hj).2
      rw [enclosing?_concat, if_pos hlevel] at hscope
      cases hscope
      exact hne rfl
    refine ⟨_, addLine_item hidle hrow _ _, ?_⟩
    have hadded := F.addItem rfl hscopes text
    rw [← hclosed] at hadded
    rwa [List.append_nil]
  | @first text hidle hrow hlist hopened =>
    obtain ⟨above, key, scopes, rfl, hopen⟩ := F.opened hopened
    have hlast : r.scopes[scopes.length]? = some key := by rw [hopen, List.getElem?_concat_length]
    have hpath : dottedKey r.scopes = fullKey above scopes.length key := calc
      dottedKey r.scopes = dottedKey (r.scopes.take scopes.length ++ [key]) := by rw [hopen, List.take_left]
      _ = fullKey (above ++ [⟨scopes.length, key, "", []⟩]) scopes.length key :=
        (F.fullKey_eq (F.scope _ _ hlast).1 (by simp [hopen])).symm
      _ = fullKey above scopes.length key := fullKey_concat (le_refl _) above key
    have hscopes : ∀ j p, r.scopes.dropLast[j]? = some p → r.scopes[j]? = some p ∧ j < scopes.length := by
      rw [hopen, List.dropLast_concat]
      intro j p hj
      obtain ⟨hlt, -⟩ := List.getElem?_eq_some_iff.mp hj
      exact ⟨by rw [List.getElem?_append_left hlt, hj], hlt⟩
    refine ⟨_, addLine_item hidle hrow _ _, ?_⟩
    rw [hpath, List.append_nil]
    exact F.addItem rfl hscopes text
  | @opens level key hidle hrow hkey hlevel =>
    refine ⟨_, addLine_key hidle hrow es, ?_⟩
    simpa [Entry.pairs] using F.addKey hkey hlevel ""
  | @sets level key value hidle hrow hkey hlevel hvalue =>
    refine ⟨_, addLine_key hidle hrow es, ?_⟩
    have hadded := F.addKey hkey hlevel value
    have hset : ∀ s : Store, s.setAll [(fullKey es level key, value)] = s.set (fullKey es level key) value :=
      fun s => rfl
    rw [← F.fullKey_eq hkey hlevel]
    simpa [Entry.pairs, hvalue, Store.setAll_append, hset] using hadded

theorem Follows.behind (F : Follows es told r) (h : (behind r line lines).result = .ok r') :
    ∃ es' pairs, lines.foldlM addLine es = some es' ∧ (Yaml.behind r line lines).notices = sets pairs ∧
      Follows es' (told ++ pairs) r' := by
  induction lines generalizing es told r line with
  | nil =>
    cases h
    exact ⟨es, [], rfl, rfl, by rwa [List.append_nil]⟩
  | cons raw lines ih =>
    obtain ⟨r₁, hstep, hrest⟩ := Noted.result_bind_eq_ok.mp h
    obtain ⟨pairs, hnotices, htakes⟩ := step_ok hstep
    obtain ⟨es₁, hadded, F₁⟩ := F.step htakes
    obtain ⟨es', more, houtline, hmore, F'⟩ := ih F₁ hrest
    refine ⟨es', pairs ++ more, ?_, ?_, by rwa [← List.append_assoc]⟩
    · rw [List.foldlM_cons, hadded]
      exact houtline
    · rw [Yaml.behind, Noted.notices_bind_of_ok hstep, hnotices, hmore, sets_append]

/-- The end of a document ends the list that is open. -/
theorem run_nil (r : Reader) (line : Nat) : run r line [] = ⟨sets r.ended, .ok (r.store.setAll r.ended)⟩ := by
  rw [run, endList_eq]
  exact Noted.ext' (List.append_nil _) rfl

/-- In a document that is read, each line of a key stands below the keys without a value or a list that are the last
    before it of each smaller level. Its value and its list are set at the path through them, one line of a key behind
    the other, and nothing else is set: a value at once, a list when the run of its items ends. -/
theorem parse_scopes {text : String} (h : (parse text).result = .ok s) :
    ∃ es, outline? (Text.lines text.toList) = some es ∧ Nested es ∧ (parse text).notices = sets (stored [] es) ∧
      s = .ofPairs (stored [] es) ∧
      ∀ before after, Text.lines text.toList = before ++ after → ∃ es' r,
        outline? before = some es' ∧ (behind Reader.start 1 before).result = .ok r ∧
          (behind Reader.start 1 before).notices = sets (stored [] (withheld es')) ∧
          r.store = .ofPairs (stored [] (withheld es')) := by
  have hbehind : ∀ before after, Text.lines text.toList = before ++ after → ∃ es' r,
      outline? before = some es' ∧ (behind Reader.start 1 before).result = .ok r ∧
        (behind Reader.start 1 before).notices = sets (stored [] (withheld es')) ∧
        Follows es' (stored [] (withheld es')) r := by
    intro before after hlines
    have hresult := h
    rw [parse, hlines, run_append] at hresult
    obtain ⟨r, hr, -⟩ := Noted.result_bind_eq_ok.mp hresult
    obtain ⟨es', pairs, houtline, hnotices, F⟩ := Follows.start.behind hr
    obtain rfl := F.told
    exact ⟨es', r, houtline, hr, hnotices, F⟩
  obtain ⟨es, r, houtline, hr, hnotices, F⟩ := hbehind _ [] (List.append_nil _).symm
  have hparse : parse text = behind Reader.start 1 (Text.lines text.toList) >>= fun r =>
      run r (1 + (Text.lines text.toList).length) [] := by
    rw [← run_append, List.append_nil, parse]
  refine ⟨es, houtline, F.nested, ?_, ?_, ?_⟩
  · rw [hparse, Noted.notices_bind_of_ok hr, hnotices, run_nil, ← sets_append, ← F.stored_eq]
  · rw [hparse] at h
    obtain ⟨r', hr', hstore⟩ := Noted.result_bind_eq_ok.mp h
    obtain rfl := Except.ok.inj (hr.symm.trans hr')
    rw [run_nil] at hstore
    cases hstore
    rw [F.store, Store.ofPairs, ← Store.setAll_append, ← F.stored_eq, Store.ofPairs]
  · intro before after hlines
    obtain ⟨es', r', houtline', hr', hnotices', F'⟩ := hbehind before after hlines
    exact ⟨es', r', houtline', hr', hnotices', F'.store⟩

/-- A scope goes on behind a list in it, and a run of items behind a comment, however the items are indented. -/
theorem parse_scopes_listInside :
    ∃ es, outline? (Text.lines "a:\n  b:\n    - x\n\n  # y\n  - $\x7bz\x7d\n  c: 1\nd: 2\n".toList) = some es ∧
      stored [] es = [("a.b", "\"x\",$\x7bz\x7d"), ("a.c", "1"), ("d", "2")] ∧ Nested es ∧
      (parse "a:\n  b:\n    - x\n\n  # y\n  - $\x7bz\x7d\n  c: 1\nd: 2\n").notices = sets (stored [] es) := by
  have hlines : Text.lines "a:\n  b:\n    - x\n\n  # y\n  - $\x7bz\x7d\n  c: 1\nd: 2\n".toList =
      ["a:".toList, "  b:".toList, "    - x".toList, [], "  # y".toList, "  - $\x7bz\x7d".toList, "  c: 1".toList,
        "d: 2".toList] := by
    refine Eq.trans (congrArg Text.lines ?_) (Text.lines_flatMap ?_)
    · decide
    · decide
  have hparse : (parse "a:\n  b:\n    - x\n\n  # y\n  - $\x7bz\x7d\n  c: 1\nd: 2\n").result =
      .ok ⟨[("a.b", "\"x\",$\x7bz\x7d"), ("a.c", "1"), ("d", "2")], by decide⟩ := by
    rw [parse, hlines]
    rfl
  obtain ⟨es, houtline, hnested, hnotices, -⟩ := parse_scopes hparse
  have hes : outline? (Text.lines "a:\n  b:\n    - x\n\n  # y\n  - $\x7bz\x7d\n  c: 1\nd: 2\n".toList) =
      some [⟨0, "a", "", []⟩, ⟨1, "b", "", ["\"x\"", "$\x7bz\x7d"]⟩, ⟨1, "c", "1", []⟩, ⟨0, "d", "2", []⟩] := by
    rw [hlines]
    decide
  obtain rfl := Option.some.inj (houtline.symm.trans hes)
  exact ⟨_, houtline, by decide, hnested, hnotices⟩

end Yaml

end Settings
