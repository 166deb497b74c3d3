import Settings.Document
import Settings.Proofs.Dialect.HoconLines
import Settings.Proofs.Dialect.Rendering

/-! # A rendered HOCON document reads back

The renderer closes the scopes that a key does not lie in and opens those that are missing, so the scopes it
holds open are always the reader's scopes. From each such place the rest of the document sets the pairs that
are left, and a whole document reads as the store it was rendered from. -/

namespace Settings

namespace Hocon

/-- The reader of documents goes on over each line of the renderer. -/
theorem followed (t : Store) : Style.hocon.Followed (· ≠ []) Flush
    fun s scopes cs => Yields (between s (scopes.map String.ofList)) cs t where
  ne_nil hne := hne
  leave hcs := by
    rw [List.map_append]
    exact yields_closeLine _ hcs
  enter _ hcs := by
    rw [List.map_append] at hcs
    exact yields_openLine _ hcs
  leaf hne hvalue hcs := yields_leafLine _ hne (Text.trimmed_eq hvalue.1 hvalue.2) hcs

theorem yields_end (s : Store) : Yields (between s []) [] s := fun _ load line => by
  rw [Scanner.tape_nil]
  rfl

/-- A document that was rendered from a store sets just the pairs of that store. -/
theorem parse_render {store : Store} (hkeys : ∀ k ∈ store.keys, Segmented k)
    (hvalues : ∀ p ∈ store.pairs, Flush p.2) (load : Nat → String → Watched Store) :
    (parse load (store.render .hocon)).result = .ok store := by
  have hpairs := (followed store).store hkeys hvalues (yields_end store)
  have htext : (store.render .hocon).toList = Style.hocon.pairs [] store.pairs := String.toList_ofList
  rw [parse, Tape.ofText, Scanner.start, htext]
  exact hpairs true load 1

end Hocon

namespace Document

theorem readWith_hocon {store : Store} {source text : String} {dir : Option String}
    (h : ∀ load, (Hocon.parse load text).result = .ok store) (included : Directive → Watched Store) :
    ((Document.mk source .hocon text dir).readWith included).result = .ok store := by
  unfold readWith
  rw [Noted.result_bind, h]
  rfl

theorem readWithin_hocon {store : Store} {source text : String} {dir : Option String}
    (h : ∀ load, (Hocon.parse load text).result = .ok store) (lib : Library) (depth : Nat) :
    ((Document.mk source .hocon text dir).readWithin lib depth).result = .ok store := by
  cases depth with
  | zero => exact readWith_hocon h _
  | succ depth => exact readWith_hocon h _

/-- The HOCON document of a store reads back as the store, with its pairs in their order, wherever its keys have
    no empty segment and its values no white space at their ends. -/
theorem read_render {store : Store} (hkeys : ∀ k ∈ store.keys, Segmented k) (hvalues : ∀ p ∈ store.pairs, Flush p.2)
    (lib : Library) (source : String) (dir : Option String) :
    ((Document.mk source .hocon (store.render .hocon) dir).read lib).result = .ok store :=
  readWithin_hocon (Hocon.parse_render hkeys hvalues) lib includeLimit

/-- A store of which the scope `a` closes and opens again, and is a key of its own too. -/
def reopened : Store where
  pairs := [("a.b", "$\x7bc\x7d"), ("c", ""), ("a.include", "# \n\""), ("a", "1"), ("\"x y", "=")]
  nodup := by decide

theorem read_reopened :
    ((Document.mk "store" .hocon (reopened.render .hocon) none).read ⟨⟨"/", fun _ => .error .missing, [], none, fun _ => none⟩, []⟩).result =
      .ok reopened := by
  refine read_render ?_ ?_ _ _ _
  · unfold Segmented
    decide
  · unfold Flush
    decide

end Document

end Settings
