import Mathlib.Data.List.Induction
import Settings.Dialect.Rendering
import Settings.Document
import Settings.Proofs.Store.Keys

/-! # Following a renderer

The renderer closes the scopes that a key does not lie in and opens those that are missing. A reader that goes on over
each kind of line with the same scopes open as the renderer goes on over a whole document, and sets the pairs it was
rendered from. -/

namespace Settings

/-- A text has no white space at its ends. -/
def Flush (text : String) : Prop :=
  text.toList.head?.any Text.isWhite = false ∧ text.toList.getLast?.any Text.isWhite = false

instance : DecidablePred Flush := fun text => by unfold Flush; infer_instance

namespace Style

theorem take_shared (as bs : List (List Char)) : as.take (shared as bs) = bs.take (shared as bs) := by
  induction as generalizing bs with
  | nil => simp [shared]
  | cons a as ih =>
    cases bs with
    | nil => simp [shared]
    | cons b bs =>
      unfold shared
      split
      · next hab => rw [List.take_succ_cons, List.take_succ_cons, hab, ih]
      · rw [List.take_zero, List.take_zero]

theorem shared_le (as bs : List (List Char)) : shared as bs ≤ as.length := by
  induction as generalizing bs with
  | nil => simp [shared]
  | cons a as ih =>
    cases bs with
    | nil => simp [shared]
    | cons b bs =>
      have hle := ih bs
      unfold shared
      split
      · simpa using hle
      · exact Nat.zero_le _

/-- `At s scopes cs` says that a reader that holds the store `s` and has `scopes` open goes on over the text `cs`. It
    does so over each line whose segments and value are as they should be. -/
structure Followed (style : Style) (Segment : List Char → Prop) (Value : String → Prop)
    (At : Store → List (List Char) → List Char → Prop) : Prop where
  ne_nil : ∀ {segment}, Segment segment → segment ≠ []
  leave : ∀ {s scopes scope cs}, At s scopes cs →
    At s (scopes ++ [scope]) (style.closeLine.elim [] (style.line scopes.length) ++ cs)
  enter : ∀ {s scopes scope cs}, Segment scope → At s (scopes ++ [scope]) cs →
    At s scopes (style.line scopes.length (style.openLine scope) ++ cs)
  leaf : ∀ {s scopes key value cs}, Segment key → Value value →
    At (s.set (dottedKey (scopes.map String.ofList ++ [String.ofList key])) value) scopes cs →
    At s scopes (style.line scopes.length (style.leafLine key value.toList) ++ cs)

variable {style : Style} {Segment : List Char → Prop} {Value : String → Prop}
  {At : Store → List (List Char) → List Char → Prop} {s : Store} {scopes : List (List Char)} {cs : List Char}

theorem close_succ (style : Style) (depth count : Nat) :
    style.close (depth + 1) (count + 1) = style.closeLine.elim [] (style.line depth) ++ style.close depth count := by
  cases hline : style.closeLine with
  | none =>
    cases count with
    | zero => simp [close, hline]
    | succ count => simp [close, hline]
  | some text => simp [close, hline]

namespace Followed

theorem close (h : style.Followed Segment Value At) (inner : List (List Char)) (hcs : At s scopes cs) :
    At s (scopes ++ inner) (style.close (scopes ++ inner).length inner.length ++ cs) := by
  induction inner using List.reverseRecOn with
  | nil => simpa [Style.close] using hcs
  | append_singleton inner scope ih =>
    have hstep : At s (scopes ++ inner ++ [scope]) (style.closeLine.elim [] (style.line (scopes ++ inner).length) ++
        (style.close (scopes ++ inner).length inner.length ++ cs)) := h.leave ih
    rw [← List.append_assoc, ← close_succ, List.append_assoc] at hstep
    simpa [Nat.add_assoc] using hstep

theorem openAll (h : style.Followed Segment Value At) {inner : List (List Char)} (hinner : ∀ scope ∈ inner, Segment scope)
    (hcs : At s (scopes ++ inner) cs) : At s scopes (style.openAll scopes.length inner ++ cs) := by
  induction inner generalizing scopes with
  | nil => simpa [Style.openAll] using hcs
  | cons scope inner ih =>
    obtain ⟨hscope, hinner⟩ := List.forall_mem_cons.mp hinner
    have hrest : At s (scopes ++ [scope]) (style.openAll (scopes ++ [scope]).length inner ++ cs) :=
      ih hinner (by simpa using hcs)
    rw [List.length_append, List.length_singleton] at hrest
    rw [Style.openAll, List.append_assoc]
    exact h.enter hscope hrest

/-- Closing the scopes that a path does not lie in and opening those that are missing leads to that path. -/
theorem move (h : style.Followed Segment Value At) (scopes : List (List Char)) {path : List (List Char)}
    (hpath : ∀ scope ∈ path, Segment scope) (hcs : At s path cs) :
    At s scopes (style.close scopes.length (scopes.length - shared scopes path) ++
      (style.openAll (shared scopes path) (path.drop (shared scopes path)) ++ cs)) := by
  have htake := take_shared scopes path
  have hle := shared_le scopes path
  generalize shared scopes path = kept at htake hle ⊢
  have hkept : (path.take kept).length = kept := by
    rw [← htake, List.length_take, Nat.min_eq_left hle]
  -- both scopes and path go on from the scopes that are kept
  have hopen : At s (path.take kept) (style.openAll (path.take kept).length (path.drop kept) ++ cs) :=
    h.openAll (fun scope hscope => hpath scope (List.mem_of_mem_drop hscope)) (by rwa [List.take_append_drop])
  have hclose := h.close (scopes.drop kept) hopen
  rwa [hkept, ← htake, List.take_append_drop, List.length_drop] at hclose

/-- Where the scopes of the renderer are open, the rest of its document sets the pairs that are left. -/
theorem pairs (h : style.Followed Segment Value At) {pairs : List (String × String)}
    (hkeys : ∀ p ∈ pairs, ∀ segment ∈ Text.pieces '.' p.1.toList, Segment segment) (hvalues : ∀ p ∈ pairs, Value p.2)
    (hend : At (s.setAll pairs) [] []) : At s scopes (style.pairs scopes pairs) := by
  induction pairs generalizing s scopes with
  | nil =>
    have hclose := h.close scopes hend
    rwa [List.nil_append, List.append_nil] at hclose
  | cons p pairs ih =>
    obtain ⟨key, value⟩ := p
    obtain ⟨hkey, hkeys⟩ := List.forall_mem_cons.mp hkeys
    obtain ⟨hvalue, hvalues⟩ := List.forall_mem_cons.mp hvalues
    have hne : Text.pieces '.' key.toList ≠ [] := Text.pieces_ne_nil
    obtain ⟨path, leaf, hsegments⟩ := (List.eq_nil_or_concat _).resolve_left hne
    rw [List.concat_eq_append] at hsegments
    have hname : dottedKey (path.map String.ofList ++ [String.ofList leaf]) = key := by
      simpa [hsegments] using dottedKey_pieces fun segment hsegment => h.ne_nil (hkey segment hsegment)
    have hpath : ∀ scope ∈ path, Segment scope := fun scope hscope => hkey scope (by simp [hsegments, hscope])
    have hleaf : Segment leaf := hkey leaf (by simp [hsegments])
    have hrest : At (s.set (dottedKey (path.map String.ofList ++ [String.ofList leaf])) value) path
        (style.pairs path pairs) := by
      rw [hname]
      exact ih hkeys hvalues hend
    simp only [Style.pairs, hsegments, List.dropLast_concat, List.getLast?_concat, Option.getD_some, List.append_assoc]
    exact h.move scopes hpath (h.leaf hleaf hvalue hrest)

/-- From nothing, the lines of a store lead to that store. -/
theorem store (h : style.Followed Segment Value At) {store : Store}
    (hkeys : ∀ k ∈ store.keys, ∀ segment ∈ Text.pieces '.' k.toList, Segment segment)
    (hvalues : ∀ p ∈ store.pairs, Value p.2) (hend : At store [] []) : At .empty [] (style.pairs [] store.pairs) := by
  have hall : Store.empty.setAll store.pairs = store :=
    Store.ext' (Assoc.insertAll_of_nodup (by simpa [Store.empty] using store.nodup))
  exact h.pairs (fun p hp => hkeys p.1 (List.mem_map_of_mem hp)) hvalues (hall.symm ▸ hend)

end Followed

end Style

/-- A document whose dialect has no includes is read as its parser reads it, in every library. -/
theorem Document.result_read {d : Document} {parsed : Watched Store} {store : Store}
    (hparsed : ∀ included, d.readWith included = parsed >>= fun store => do
      Noted.note (.parsed d.source d.dialect store.size)
      return store)
    (h : parsed.result = .ok store) (lib : Library) : (d.read lib).result = .ok store := by
  have hread : ∀ included, (d.readWith included).result = .ok store := by
    intro included
    rw [hparsed, Noted.result_bind, h]
    rfl
  exact hread _

end Settings
