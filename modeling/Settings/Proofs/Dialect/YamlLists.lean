import Settings.Binding
import Settings.Proofs.Dialect.YamlRoundTrip
import Settings.Proofs.Store.Overlay
import Settings.Proofs.Text.Listing

/-! # Lists of a YAML document

The items below a key without a value become one value, each of them in double quotes. That value is set when the run of
items ends, and a list of texts that it is read as holds the items again, unless an item was in quotes already and one
of its commas or brackets is taken for the list's own. -/

namespace Settings

namespace Yaml

open Text (Item listing Whole)

variable {raw key cs : List Char} {lines block before after : List (List Char)} {i : Item} {items : List Item}
  {r r' : Reader} {line n : Nat} {path : String} {texts : List String} {s store : Store}

/-! ### Lines -/

/-- A line that does not count: nothing stands on it but a comment. -/
def Idle (raw : List Char) : Prop := Text.trim (withoutComment none true raw) = []

/-- A line that an item of any form stands on. -/
def IsItem (raw : List Char) : Prop :=
  ∃ n rest, withoutComment none true raw = List.replicate n ' ' ++ '-' :: rest ∧ (rest = [] ∨ rest.head? = some ' ')

/-- A line that an item stands on, indented in any way and with white space or a comment behind it. -/
def ItemLine (i : Item) (raw : List Char) : Prop :=
  ∃ n front back, withoutComment none true raw = List.replicate n ' ' ++ '-' :: ' ' :: (front ++ i.written ++ back) ∧
    (∀ c ∈ front, Text.isWhite c) ∧ ∀ c ∈ back, Text.isWhite c

/-- A line that a key without a value stands on, behind `n` spaces. -/
def OpenLine (n : Nat) (key raw : List Char) : Prop :=
  ∃ back, withoutComment none true raw = List.replicate n ' ' ++ (key ++ ':' :: back) ∧ (∀ c ∈ back, Text.isWhite c) ∧
    ':' ∉ key ∧ key.head? ≠ some ' ' ∧ key.head? ≠ some '\t' ∧ ¬['-', ' '] <+: key

/-- A text without quotes that is no reference at its start. -/
structure Listable (i : Item) : Prop extends i.Plain where
  reference : ¬['$', '{'] <+: i.text

/-- Lines of items, perhaps with lines between them that do not count. -/
inductive Listed : List (List Char) → List Item → Prop
  | done : Listed [] []
  | idle {raw : List Char} {lines : List (List Char)} {items : List Item} (h : Idle raw) (hs : Listed lines items) :
      Listed (raw :: lines) items
  | item {raw : List Char} {lines : List (List Char)} {i : Item} {items : List Item} (h : ItemLine i raw)
      (hi : Listable i) (hs : Listed lines items) : Listed (raw :: lines) (i :: items)

theorem Listed.plain (h : Listed block items) : ∀ i ∈ items, i.Plain := by
  induction h with
  | done => exact nofun
  | idle _ _ ih => exact ih
  | item _ hi _ ih => exact List.forall_mem_cons.mpr ⟨hi.toPlain, ih⟩

/-! ### Items -/

theorem Listable.written_ne_nil (h : Listable i) : i.written ≠ [] := by
  unfold Item.written
  split
  · exact List.cons_ne_nil _ _
  · exact h.ne_nil

theorem Listable.trim_written (h : Listable i) {front back : List Char} (hfront : ∀ c ∈ front, Text.isWhite c)
    (hback : ∀ c ∈ back, Text.isWhite c) : Text.trim (front ++ i.written ++ back) = i.written := by
  have hends : i.written.head?.any Text.isWhite = false ∧ i.written.getLast?.any Text.isWhite = false := by
    unfold Item.written
    split
    · refine ⟨rfl, ?_⟩
      rw [List.getLast?_concat]
      rfl
    · exact ⟨h.front, h.back⟩
  rw [List.append_assoc, Text.trim_append hfront]
  exact Text.trim_append_white h.written_ne_nil hends.1 hends.2 hback

/-- Each item gets double quotes around it, also one that is in quotes. -/
theorem Listable.listedItem_written (h : Listable i) : listedItem i.written = i.listed := by
  have hplain : isReferenceItem i.written = false := by
    unfold isReferenceItem
    split
    · next inner hwritten =>
      unfold Item.written at hwritten
      split at hwritten
      · cases hwritten
      · exact absurd ⟨inner, hwritten.symm⟩ h.reference
    · rfl
  rw [listedItem, hplain]
  rfl

/-! ### Steps -/

theorem step_idle (h : Idle raw) (r : Reader) (line : Nat) : step r line raw = pure r := if_pos h

/-- What a line that counts is taken as lies in the text behind its indentation. -/
theorem step_indented {body : List Char} (hidle : ¬ Idle raw)
    (h : indentation line (withoutComment none true raw) = .ok (n, body)) (r : Reader) :
    step r line raw =
      match item? body with
      | some item => .of (itemLine r line item)
      | none => r.endList >>= fun r => keyLine r line n body := by
  refine (if_neg hidle).trans ?_
  have hof : (.of (.ok (n, body)) : Watched _) = pure (n, body) := rfl
  rw [h, hof]
  refine (pure_bind _ _).trans ?_
  cases hitem : item? body with
  | some item => simp only [hitem]
  | none => simp only [hitem]

theorem isItem_of_indentation {body item : List Char}
    (h : indentation line (withoutComment none true raw) = .ok (n, body)) (hitem : item? body = some item) :
    IsItem raw := by
  unfold indentation at h
  dsimp only at h
  split at h
  · cases h
  cases h
  have hspaces := List.takeWhile_append_dropWhile (p := (· = ' ')) (l := withoutComment none true raw)
  have hreplicate : (withoutComment none true raw).takeWhile (· = ' ') =
      List.replicate ((withoutComment none true raw).takeWhile (· = ' ')).length ' ' :=
    List.eq_replicate_of_mem fun c hc => by simpa using List.mem_takeWhile_imp hc
  unfold item? at hitem
  split at hitem
  · next rest hbody =>
    split at hitem
    · next hrest => exact ⟨_, rest, by rw [← hreplicate, ← hbody, hspaces], hrest⟩
    · cases hitem
  · cases hitem

/-- What becomes of a line: it does not count, it is at fault, it is an item, or it is the line of a key, before which
    the list that is open ends. -/
theorem step_cases (r : Reader) (line : Nat) (raw : List Char) :
    Idle raw ∧ step r line raw = pure r ∨
      (∃ e, step r line raw = .fault e) ∨
        ∃ n body, ¬ Idle raw ∧ indentation line (withoutComment none true raw) = .ok (n, body) ∧
          ((∃ item, item? body = some item ∧ step r line raw = .of (itemLine r line item)) ∨
            item? body = none ∧ step r line raw = r.endList >>= fun r => keyLine r line n body) := by
  by_cases hidle : Idle raw
  · exact .inl ⟨hidle, step_idle hidle r line⟩
  refine .inr ?_
  cases hindent : indentation line (withoutComment none true raw) with
  | error e =>
    refine .inl ⟨e, (if_neg hidle).trans ?_⟩
    rw [hindent]
    rfl
  | ok indented =>
    obtain ⟨n, body⟩ := indented
    have hstep := step_indented hidle hindent r
    refine .inr ⟨n, body, hidle, rfl, ?_⟩
    cases hitem : item? body with
    | some item =>
      rw [hitem] at hstep
      exact .inl ⟨item, rfl, hstep⟩
    | none =>
      rw [hitem] at hstep
      exact .inr ⟨rfl, hstep⟩

/-- The line of an item is taken as that item. -/
theorem step_item (h : ItemLine i raw) (hi : Listable i) (r : Reader) (line : Nat) :
    step r line raw = .of (itemLine r line i.written) := by
  obtain ⟨n, front, back, hcontent, hfront, hback⟩ := h
  have hidle : ¬ Idle raw := by
    rw [Idle, hcontent, Text.trim_around (c := '-') rfl]
    simp
  have hindent : indentation line (withoutComment none true raw) =
      .ok (n, '-' :: ' ' :: (front ++ i.written ++ back)) := by
    rw [hcontent]
    exact indentation_eq line n (by simp) (by simp)
  have hitem : item? ('-' :: ' ' :: (front ++ i.written ++ back)) = some i.written := by
    have hspace : ∀ c ∈ ' ' :: front, Text.isWhite c := List.forall_mem_cons.mpr ⟨rfl, hfront⟩
    have hrest := hi.trim_written hspace hback
    rw [item?, if_pos (.inr rfl)]
    exact congrArg some hrest
  rw [step_indented hidle hindent, hitem]

theorem endList_of_ok (h : r.endList.result = .ok r') : r'.scopes = r.scopes ∧ r'.list = none := by
  unfold Reader.endList at h
  split at h
  · next hlist =>
    cases h
    exact ⟨rfl, hlist⟩
  · cases h
    exact ⟨rfl, rfl⟩

/-- The line of a key without a value ends the list that is open and opens a scope. -/
theorem step_open (h : OpenLine n key raw) (hok : (step r line raw).result = .ok r') :
    r'.scopes = r.scopes.take (n / indentStep) ++ [String.ofList (Text.trim key)] ∧ r'.opened = true ∧
      r'.list = none := by
  obtain ⟨back, hcontent, hback, hcolon, hspace, htab, hhyphen⟩ := h
  have hidle : ¬ Idle raw := by
    rw [Idle, hcontent, ← List.append_assoc, Text.trim_around (c := ':') rfl]
    simp
  have hindent : indentation line (withoutComment none true raw) = .ok (n, key ++ ':' :: back) := by
    rw [hcontent]
    refine indentation_eq line n ?_ ?_
    · cases key with
      | nil => simp
      | cons c key => exact hspace
    · cases key with
      | nil => simp
      | cons c key => exact htab
  rw [step_indented hidle hindent, item?_eq_none hhyphen] at hok
  obtain ⟨ended, hended, hok⟩ := Noted.result_bind_eq_ok.mp hok
  obtain ⟨hscopes, hlist⟩ := endList_of_ok hended
  have hempty : String.ofList (Text.trim back) = "" := by
    rw [Text.trim_white hback]
  simp only [keyLine, Text.cut?_append hcolon, hempty, if_true] at hok
  split at hok
  · cases hok
  split at hok
  · cases hok
  split at hok
  · cases hok
  cases hok
  exact ⟨by rw [hscopes], rfl, hlist⟩

/-! ### Runs -/

/-- The reader behind some lines, the first of them numbered. -/
def behind (r : Reader) (line : Nat) : List (List Char) → Watched Reader
  | [] => return r
  | raw :: rest => do
    let r ← step r line raw
    behind r (line + 1) rest

theorem run_append (r : Reader) (line : Nat) (lines more : List (List Char)) :
    run r line (lines ++ more) = behind r line lines >>= fun r => run r (line + lines.length) more := by
  induction lines generalizing r line with
  | nil => rw [behind, pure_bind]; rfl
  | cons raw lines ih =>
    rw [List.cons_append, run, behind, bind_assoc]
    congr 1
    funext r'
    rw [ih, List.length_cons, Nat.add_assoc, Nat.add_comm 1]

/-- Lines of items are added to the list that is open. -/
theorem run_listed (h : Listed block items) (hlist : r.list = some (path, texts)) (line : Nat)
    (after : List (List Char)) :
    run r line (block ++ after) =
      run { r with list := some (path, texts ++ items.map fun i => String.ofList i.listed) } (line + block.length)
        after := by
  induction h generalizing r line texts with
  | done => simp [← hlist]
  | idle hraw _ ih =>
    rw [List.cons_append, run, step_idle hraw, pure_bind, ih hlist, List.length_cons, Nat.add_assoc, Nat.add_comm 1]
  | @item raw lines i items hraw hi _ ih =>
    have hstep : step r line raw =
        pure { r with list := some (path, texts ++ [String.ofList i.listed]) } := by
      rw [step_item hraw hi, itemLine, hi.listedItem_written, hlist]
      rfl
    rw [List.cons_append, run, hstep, pure_bind, ih rfl, List.length_cons, Nat.add_assoc, Nat.add_comm 1]
    simp

/-- Lines of items below a key that has just been opened make up a list of that key. -/
theorem run_opened (h : Listed block items) (hne : items ≠ []) (hopened : r.opened = true) (hlist : r.list = none)
    (line : Nat) (after : List (List Char)) :
    run r line (block ++ after) =
      run ⟨r.store, r.scopes.dropLast, false, some (dottedKey r.scopes, items.map fun i => String.ofList i.listed)⟩
        (line + block.length) after := by
  induction h generalizing line with
  | done => exact absurd rfl hne
  | idle hraw _ ih =>
    rw [List.cons_append, run, step_idle hraw, pure_bind, ih hne, List.length_cons, Nat.add_assoc, Nat.add_comm 1]
  | @item raw lines i items hraw hi hs ih =>
    have hstep : step r line raw =
        pure ⟨r.store, r.scopes.dropLast, false, some (dottedKey r.scopes, [String.ofList i.listed])⟩ := by
      rw [step_item hraw hi, itemLine, hi.listedItem_written, hlist, if_pos hopened]
      rfl
    rw [List.cons_append, run, hstep, pure_bind, run_listed hs rfl, List.length_cons, Nat.add_assoc, Nat.add_comm 1]
    rfl

/-! ### What is stored -/

/-- The pairs that notices tell to have been set. -/
def settings (notices : List Notice) : List (String × String) :=
  notices.filterMap fun
    | .set key value => some (key, value)
    | _ => none

theorem set_mem_of_mem_settings {notices : List Notice} {k v : String} (h : (k, v) ∈ settings notices) :
    Notice.set k v ∈ notices := by
  obtain ⟨notice, hmem, hpair⟩ := List.mem_filterMap.mp h
  split at hpair
  · cases hpair
    exact hmem
  · cases hpair

/-- A piece of work that begins with a store ends with that store after the settings it tells of. -/
def Tells {α : Type} (s : Store) (x : Watched α) (stored : α → Store) : Prop :=
  ∀ a, x.result = .ok a → stored a = s.setAll (settings x.notices)

theorem Tells.pure {α : Type} (stored : α → Store) (a : α) : Tells (stored a) (Pure.pure a) stored := by
  rintro _ ⟨rfl⟩
  rfl

theorem Tells.bind {α β : Type} {x : Watched α} {f : α → Watched β} {first : α → Store} {stored : β → Store}
    (hx : Tells s x first) (hf : ∀ a, x.result = .ok a → Tells (first a) (f a) stored) : Tells s (x >>= f) stored := by
  intro b hb
  obtain ⟨a, ha, hb⟩ := Noted.result_bind_eq_ok.mp hb
  rw [hf a ha b hb, hx a ha, Noted.notices_bind_of_ok ha, settings, settings, settings, List.filterMap_append,
    Store.setAll_append]

theorem tells_set (r : Reader) (key value : String) : Tells r.store (r.set key value) Reader.store := by
  rintro _ ⟨rfl⟩
  rfl

theorem tells_endList (r : Reader) : Tells r.store r.endList Reader.store := by
  unfold Reader.endList
  cases r.list with
  | none => exact .pure Reader.store r
  | some list => exact tells_set _ list.1 _

theorem tells_keyLine (r : Reader) (line indent : Nat) (body : List Char) :
    Tells r.store (keyLine r line indent body) Reader.store := by
  have hfault : ∀ fault, Tells r.store (Noted.fault fault) Reader.store := fun fault _ h => by cases h
  unfold keyLine
  cases Text.cut? ':' body with
  | none => exact hfault _
  | some parts =>
    obtain ⟨key, value⟩ := parts
    dsimp only
    split
    · exact hfault _
    split
    · exact hfault _
    split
    · exact hfault _
    split
    · exact .pure Reader.store _
    · exact tells_set ⟨r.store, _, _, _⟩ _ _

theorem tells_itemLine (r : Reader) (line : Nat) (item : List Char) :
    Tells r.store (Noted.of (itemLine r line item)) Reader.store := by
  intro r' h
  have h : itemLine r line item = .ok r' := h
  unfold itemLine at h
  dsimp only at h
  split at h
  · cases h
    rfl
  split at h
  · cases h
    rfl
  · cases h

theorem tells_step (r : Reader) (line : Nat) (raw : List Char) : Tells r.store (step r line raw) Reader.store := by
  rcases step_cases r line raw with ⟨-, h⟩ | ⟨e, h⟩ | ⟨n, body, -, -, ⟨item, -, h⟩ | ⟨-, h⟩⟩
  · rw [h]
    exact .pure Reader.store r
  · rw [h]
    exact fun _ hr => by cases hr
  · rw [h]
    exact tells_itemLine r line item
  · rw [h]
    exact (tells_endList r).bind fun r' _ => tells_keyLine r' line n body

theorem tells_run (r : Reader) (line : Nat) (lines : List (List Char)) : Tells r.store (run r line lines) id := by
  induction lines generalizing r line with
  | nil => exact (tells_endList r).bind fun r' _ => .pure id r'.store
  | cons raw lines ih => exact (tells_step r line raw).bind fun r' _ => ih r' (line + 1)

/-- Behind the last line of a list its value is set, before anything else. -/
theorem run_ends (hlist : r.list = some (path, texts)) (hend : ∀ raw ∈ after.head?, ¬ Idle raw ∧ ¬ IsItem raw)
    (h : (run r line after).result = .ok s) :
    ∃ later, (run r line after).notices = .set path (",".intercalate texts) :: later := by
  have hended : r.endList.notices = [.set path (",".intercalate texts)] := by
    rw [Reader.endList, hlist]
    rfl
  have hfirst : r.endList.notices <+: (run r line after).notices := by
    cases after with
    | nil => exact Noted.notices_prefix_bind _ _
    | cons raw after =>
      obtain ⟨hidle, hitem⟩ := hend raw rfl
      obtain ⟨r', hstep, -⟩ := Noted.result_bind_eq_ok.mp h
      have hkey : r.endList.notices <+: (step r line raw).notices := by
        rcases step_cases r line raw with ⟨h, -⟩ | ⟨e, h⟩ | ⟨n, body, -, hindent, ⟨item, h, -⟩ | ⟨-, h⟩⟩
        · exact absurd h hidle
        · rw [h] at hstep
          cases hstep
        · exact absurd (isItem_of_indentation hindent h) hitem
        · rw [h]
          exact Noted.notices_prefix_bind _ _
      exact hkey.trans (Noted.notices_prefix_bind _ _)
  obtain ⟨later, hlater⟩ := hfirst
  rw [hended] at hlater
  exact ⟨later, hlater.symm⟩

theorem intercalate_listed (items : List Item) :
    ",".intercalate (items.map fun i => String.ofList i.listed) = String.ofList (listing items) := by
  rw [← String.toList_inj, String.toList_intercalate, String.toList_ofList, listing, List.map_map]
  simp [Function.comp_def]

end Yaml

namespace Shape

/-- A list of texts that a text is read as: its elements, each taken out of its quotes once more. -/
theorem convert_texts (raw : String) :
    (list text).convert raw = .ok (.list ((Text.splitList raw).map fun s => .text (Text.unquoted s))) := by
  have heach : ∀ (ss : List String) i,
      each (read text) i (ss.map .text) = .of (ss.map fun s => .text (Text.unquoted s)) := by
    intro ss
    induction ss with
    | nil => exact fun i => rfl
    | cons s ss ih =>
      intro i
      rw [List.map_cons, each, ih]
      rfl
  have hread : (list text).read (.text raw) =
      .of (.list ((Text.splitList raw).map fun s => .text (Text.unquoted s))) := by
    rw [read]
    simp only [Tree.asItems, plain, Fit.of, Fit.andThen]
    rw [heach]
    rfl
  rw [convert, hread]
  rfl

/-- The texts of a listing, where its items are whole. -/
theorem convert_listing_iff {items : List Text.Item} (hplain : ∀ i ∈ items, i.Plain) (hne : items ≠ []) :
    (list text).convert (String.ofList (Text.listing items)) =
      .ok (.list (items.map fun i => .text (String.ofList i.text))) ↔ Text.Whole items := by
  let typed (cs : List Char) : Datum := .text (String.ofList cs)
  have htyped : Function.Injective typed := fun cs ds h => String.ofList_inj.mp (Datum.text.inj h)
  have helements : ∀ es : List (List Char),
      (es.map String.ofList).map (fun s => Datum.text (Text.unquoted s)) = (es.map Text.unquote).map typed := by
    simp [typed, Text.unquoted]
  have hitems : items.map (fun i => Datum.text (String.ofList i.text)) = (items.map Text.Item.text).map typed := by
    simp [typed]
  rw [convert_texts, Text.splitList_listing hne, ← Text.elements_listing_iff hplain hne, helements, hitems,
    Except.ok.injEq, Datum.list.injEq, htyped.list_map.eq_iff]

end Shape

namespace Yaml

open Text (Item listing Whole)

variable {key opening : List Char} {block before after : List (List Char)} {items : List Item} {n : Nat} {store : Store}

/-- The path of a key that stands behind `n` spaces. -/
def Reader.pathOf (r : Reader) (n : Nat) (key : List Char) : String :=
  dottedKey (r.scopes.take (n / indentStep) ++ [String.ofList (Text.trim key)])

/-- In a document that is read, the items below a key without a value are set as the value of the key, which it keeps
    until it is set again. A list of texts that the value is read as holds just the texts of the items, one for each
    line of an item and in their order, if and only if none of the items in quotes has a comma outside of brackets, and
    none but the last leaves a bracket open. -/
theorem parse_list {text : String} (hlines : Text.lines text.toList = before ++ opening :: (block ++ after))
    (hopening : OpenLine n key opening) (hblock : Listed block items) (hne : items ≠ [])
    (hend : ∀ raw ∈ after.head?, ¬ Idle raw ∧ ¬ IsItem raw) (hparse : (parse text).result = .ok store) :
    ∃ r value earlier later, (behind Reader.start 1 before).result = .ok r ∧
      (parse text).notices = earlier ++ .set (r.pathOf n key) value :: later ∧
      ((∀ v, Notice.set (r.pathOf n key) v ∉ later) → store.get? (r.pathOf n key) = some value) ∧
      ((Shape.list .text).convert value = .ok (.list (items.map fun i => .text (String.ofList i.text))) ↔
        Whole items) := by
  have hrun : parse text =
      behind Reader.start 1 before >>= fun r => run r (1 + before.length) (opening :: (block ++ after)) := by
    rw [parse, hlines, run_append]
  have hresult := hparse
  rw [hrun] at hresult
  obtain ⟨r, hbefore, hresult⟩ := Noted.result_bind_eq_ok.mp hresult
  obtain ⟨opened, hopen, hresult⟩ := Noted.result_bind_eq_ok.mp hresult
  obtain ⟨hscopes, hopened, hnone⟩ := step_open hopening hopen
  rw [run_opened hblock hne hopened hnone] at hresult
  obtain ⟨later, hlater⟩ := run_ends rfl hend hresult
  rw [← run_opened hblock hne hopened hnone, intercalate_listed, hscopes] at hlater
  have hnotices : (parse text).notices = (behind Reader.start 1 before).notices ++
      (step r (1 + before.length) opening).notices ++
        .set (r.pathOf n key) (String.ofList (listing items)) :: later := by
    rw [hrun, Noted.notices_bind_of_ok hbefore, run, Noted.notices_bind_of_ok hopen, hlater, List.append_assoc]
    rfl
  refine ⟨r, _, _, later, hbefore, hnotices, fun hkept => ?_, Shape.convert_listing_iff hblock.plain hne⟩
  have hstore : store = Store.empty.setAll (settings (parse text).notices) := tells_run Reader.start 1 _ store hparse
  have hmem : r.pathOf n key ∉ Assoc.keys (settings later) := by
    intro hmem
    obtain ⟨⟨k, v⟩, hpair, rfl⟩ := List.mem_map.mp hmem
    exact hkept v (set_mem_of_mem_settings hpair)
  have hsplit : settings (parse text).notices =
      settings ((behind Reader.start 1 before).notices ++ (step r (1 + before.length) opening).notices) ++
        (r.pathOf n key, String.ofList (listing items)) :: settings later := by
    rw [hnotices, settings, List.filterMap_append]
    rfl
  rw [hstore, hsplit, Store.setAll_append]
  exact (Store.get?_setAll_of_not_mem hmem _).trans (Store.get?_set_self _ _ _)

/-- A comma in the brackets of an item in quotes, and a bracket of the last item that nothing closes. -/
theorem parse_shelves :
    ∃ value, Notice.set "c" value ∈ (parse "a:\n  b: x\nc: \n- \"p [q, r]\"\n\n  -  s, t\n- \"u \x7b\"\n").notices ∧
      (Shape.list .text).convert value = .ok (.list [.text "p [q, r]", .text "s, t", .text "u \x7b"]) := by
  let before := ["a:".toList, "  b: x".toList]
  let block := ["- \"p [q, r]\"".toList, [], "  -  s, t".toList, "- \"u \x7b\"".toList]
  let items : List Item := [⟨"p [q, r]".toList, true⟩, ⟨"s, t".toList, false⟩, ⟨"u \x7b".toList, true⟩]
  have hlines : Text.lines "a:\n  b: x\nc: \n- \"p [q, r]\"\n\n  -  s, t\n- \"u \x7b\"\n".toList =
      before ++ "c: ".toList :: (block ++ []) := by
    refine Eq.trans (congrArg Text.lines ?_) (Text.lines_flatMap ?_)
    · decide
    · decide
  have hblank : ∀ c ∈ [' '], Text.isWhite c := List.all_eq_true.mp (by decide)
  have hopening : OpenLine 0 ['c'] "c: ".toList := ⟨[' '], by decide, hblank, by decide⟩
  have hblock : Listed block items := by
    refine .item ⟨0, [], [], by decide, List.forall_mem_nil _, List.forall_mem_nil _⟩
      ⟨⟨by decide, by decide, by decide, by decide, by decide⟩, by decide⟩ ?_
    refine .idle (by decide : Text.trim (withoutComment none true []) = []) ?_
    refine .item ⟨2, [' '], [], by decide, hblank, List.forall_mem_nil _⟩
      ⟨⟨by decide, by decide, by decide, by decide, by decide⟩, by decide⟩ ?_
    refine .item ⟨0, [], [], by decide, List.forall_mem_nil _, List.forall_mem_nil _⟩
      ⟨⟨by decide, by decide, by decide, by decide, by decide⟩, by decide⟩ ?_
    exact .done
  have hparse : (parse "a:\n  b: x\nc: \n- \"p [q, r]\"\n\n  -  s, t\n- \"u \x7b\"\n").result =
      .ok ⟨[("a.b", "x"), ("c", "\"\"p [q, r]\"\",\"s, t\",\"\"u \x7b\"\"")], by decide⟩ := by
    rw [parse, hlines]
    rfl
  obtain ⟨r, value, earlier, later, -, hnotices, -, hconvert⟩ :=
    parse_list hlines hopening hblock (List.cons_ne_nil _ _) (by simp) hparse
  have hpath : r.pathOf 0 ['c'] = "c" := by
    simp [Reader.pathOf, dottedKey, Text.trim, Text.trimStart, Text.trimEnd, Text.isWhite]
  have hwhole : Whole items := ⟨fun _ => by decide, fun h => absurd h (by decide), fun _ => by decide⟩
  refine ⟨value, ?_, hconvert.mpr hwhole⟩
  rw [hnotices, hpath]
  exact List.mem_append_right _ List.mem_cons_self

/-- A comma in an item that is in quotes cuts it, since the quotes around it are doubled. -/
theorem parse_doubledQuotes :
    (parse "k:\n  - \"a,b\"\n").result.map (Store.get? · "k") = .ok (some "\"\"a,b\"\"") ∧
    (Shape.list .text).convert "\"\"a,b\"\"" = .ok (.list [.text "\"\"a", .text "b\"\""]) ∧
    (Shape.list .text).convert "\"\"a,b\"\"" ≠ .ok (.list [.text "a,b"]) := by
  have hlines : Text.lines "k:\n  - \"a,b\"\n".toList = ["k:".toList, "  - \"a,b\"".toList] := by
    refine Eq.trans (congrArg Text.lines ?_) (Text.lines_flatMap ?_)
    · decide
    · decide
  have hsplit : Text.splitList "\"\"a,b\"\"" = ["\"\"a", "b\"\""] := by decide
  have hconvert : (Shape.list .text).convert "\"\"a,b\"\"" = .ok (.list [.text "\"\"a", .text "b\"\""]) := by
    rw [Shape.convert_texts, hsplit]
    rfl
  refine ⟨?_, hconvert, ?_⟩
  · rw [parse, hlines]
    rfl
  · rw [hconvert]
    simp

end Yaml

end Settings
