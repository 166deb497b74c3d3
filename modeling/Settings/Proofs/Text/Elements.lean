import Settings.Text.Quotes

/-! # What the elements of a list are made of

Trimming, taking off quotes and cutting into elements only leave characters out. -/

namespace Settings.Text

variable {cs item : List Char} {depth : Nat} {quote : Option Char} {fresh : Bool}

theorem trimStart_subset (cs : List Char) : trimStart cs ⊆ cs := (List.dropWhile_sublist _).subset

theorem trimEnd_sublist (cs : List Char) : (trimEnd cs).Sublist cs := by
  rw [← List.reverse_sublist, trimEnd, List.reverse_reverse]
  exact List.dropWhile_sublist _

theorem trim_sublist (cs : List Char) : (trim cs).Sublist cs := (trimEnd_sublist _).trans (List.dropWhile_sublist _)

theorem trim_subset (cs : List Char) : trim cs ⊆ cs := (trim_sublist cs).subset

theorem unquote_subset (cs : List Char) : unquote cs ⊆ cs := by
  unfold unquote
  dsimp only
  split
  · next q rest hinner =>
    split
    · exact fun c hc => trim_subset cs (hinner ▸ List.mem_cons_of_mem q (List.dropLast_subset rest hc))
    · exact List.Subset.refl cs
  · exact List.Subset.refl cs

/-- A pair of equal quotes stands around a text, white space aside. -/
def Quoted (cs : List Char) : Prop := ∃ q inner, (q = '"' ∨ q = '\'') ∧ trim cs = q :: inner ++ [q]

theorem unquote_of_trim {q : Char} {inner : List Char} (hq : q = '"' ∨ q = '\'') (h : trim cs = q :: inner ++ [q]) :
    unquote cs = inner := by
  have hlast : (inner ++ [q]).getLast? = some q := by simp
  simp only [unquote, h, List.cons_append, hlast, and_true, if_pos hq, List.dropLast_concat]

/-- Only text that is in quotes is changed when it is taken out of them. -/
theorem unquote_eq_iff : unquote cs = cs ↔ ¬ Quoted cs := by
  constructor
  · rintro heq ⟨q, inner, hq, htrim⟩
    have hinner : unquote cs = inner := unquote_of_trim hq htrim
    have hlength : (trim cs).length ≤ cs.length := (trim_sublist cs).length_le
    rw [htrim, ← hinner, heq, List.length_append, List.length_cons] at hlength
    omega
  · intro hplain
    unfold unquote
    dsimp only
    split
    · next q rest hinner =>
      refine if_neg fun ⟨hq, hlast⟩ => hplain ⟨q, rest.dropLast, hq, ?_⟩
      obtain ⟨init, rfl⟩ := List.getLast?_eq_some_iff.mp hlast
      simpa using hinner
    · rfl

theorem unquoted_eq_iff {s : String} : unquoted s = s ↔ ¬ Quoted s.toList := by
  rw [← unquote_eq_iff, unquoted, ← String.toList_inj, String.toList_ofList]

theorem element_subset (cs : List Char) : element cs ⊆ cs :=
  fun _ hc => unquote_subset cs (trim_subset _ hc)

theorem elements_subset : ∀ e ∈ elements depth quote fresh item cs, e ⊆ item ++ cs := by
  have hmove : ∀ {e item : List Char} {c : Char} {cs : List Char}, e ⊆ item ++ [c] ++ cs → e ⊆ item ++ c :: cs :=
    fun h => by rwa [List.append_cons]
  fun_induction elements depth quote fresh item cs with
  | case1 depth quote fresh item =>
    intro e he
    rw [List.mem_singleton.mp he, List.append_nil]
    exact element_subset item
  | case2 depth fresh item c cs q ih => exact fun e he => hmove (ih e he)
  | case3 depth fresh item c cs h ih =>
    intro e he
    rcases List.mem_cons.mp he with rfl | he
    · exact fun c hc => List.mem_append_left _ (element_subset item hc)
    · exact fun d hd => List.mem_append_right _ (List.mem_cons_of_mem c (ih e he hd))
  | case4 depth fresh item c cs h hq ih => exact fun e he => hmove (ih e he)
  | case5 depth fresh item c cs h hq depth' ih => exact fun e he => hmove (ih e he)

/-- The text between the brackets of a list, or all of it if there are none. -/
theorem exists_body (raw : String) :
    ∃ body, body ⊆ raw.toList ∧
      splitList raw = if trim body = [] then [] else (elements 0 none true [] body).map String.ofList := by
  refine ⟨if encloses (trim raw.toList) then (trim raw.toList).tail.dropLast else trim raw.toList, ?_, rfl⟩
  split
  · exact fun c hc => trim_subset _ (List.mem_of_mem_tail (List.dropLast_subset _ hc))
  · exact trim_subset _

/-- An element of a list that is written as text holds only characters of that text. -/
theorem splitList_subset {raw e : String} (he : e ∈ splitList raw) : e.toList ⊆ raw.toList := by
  obtain ⟨body, hbody, hsplit⟩ := exists_body raw
  rw [hsplit] at he
  split at he
  · cases he
  · obtain ⟨cs, hcs, rfl⟩ := List.mem_map.mp he
    rw [String.toList_ofList]
    exact fun c hc => hbody (elements_subset cs hcs hc)

end Settings.Text
