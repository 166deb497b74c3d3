import Settings.Proofs.Text.Cutting
import Settings.Store

/-! # Dotted keys

Empty segments leave no trace in a dotted key, so the segments may be joined at once or part by part, and a key
behind a scope can be told from the whole key. -/

namespace Settings

/-- No segment between the dots of a key is empty. -/
def Segmented (key : String) : Prop := ∀ segment ∈ Text.pieces '.' key.toList, segment ≠ []

variable {p k l : String}

theorem dottedKey_pieces {key : String} (h : Segmented key) :
    dottedKey ((Text.pieces '.' key.toList).map String.ofList) = key := by
  have hall : ∀ k ∈ (Text.pieces '.' key.toList).map String.ofList, k ≠ "" := by
    intro k hk
    obtain ⟨segment, hs, rfl⟩ := List.mem_map.mp hk
    exact fun he => h segment hs (String.ofList_inj.mp he)
  have hfilter : ((Text.pieces '.' key.toList).map String.ofList).filter (· != "") =
      (Text.pieces '.' key.toList).map String.ofList :=
    List.filter_eq_self.mpr fun k hk => by simpa using hall k hk
  have hback : ((Text.pieces '.' key.toList).map String.ofList).map String.toList = Text.pieces '.' key.toList := by
    simp [Function.comp_def]
  rw [dottedKey, hfilter, ← String.toList_inj, String.toList_intercalate, hback]
  exact Text.intercalate_pieces '.' key.toList

theorem not_segmented_empty : ¬Segmented "" := fun h => h [] (by simp [Text.pieces]) rfl

/-- A key has no empty segment just where none of two parts of it has one. -/
theorem segmented_join {a b : String} : Segmented (a ++ "." ++ b) ↔ Segmented a ∧ Segmented b := by
  have hpieces : Text.pieces '.' (a ++ "." ++ b).toList = Text.pieces '.' a.toList ++ Text.pieces '.' b.toList := by
    rw [← Text.pieces_append, String.toList_append, String.toList_append, List.append_assoc]
    rfl
  unfold Segmented
  rw [hpieces, List.forall_mem_append]

/-! ### Segments -/

/-- What stands between the dots of a key. -/
def segments (key : String) : List String := (Text.pieces '.' key.toList).map String.ofList

theorem intercalate_segments (key : String) : ".".intercalate (segments key) = key := by
  have hback : (segments key).map String.toList = Text.pieces '.' key.toList := by
    simp [segments, Function.comp_def]
  rw [← String.toList_inj, String.toList_intercalate, hback]
  exact Text.intercalate_pieces '.' key.toList

theorem segments_inj : segments k = segments l ↔ k = l :=
  ⟨fun h => by rw [← intercalate_segments k, h, intercalate_segments], fun h => h ▸ rfl⟩

theorem segments_ne_nil : segments k ≠ [] := by simp [segments, Text.pieces_ne_nil]

theorem segments_join (a b : String) : segments (a ++ "." ++ b) = segments a ++ segments b := by
  have hlists : (a ++ "." ++ b).toList = a.toList ++ '.' :: b.toList := by simp
  rw [segments, hlists, Text.pieces_append, List.map_append, segments, segments]

/-- A key starts with another one and a dot just where it has all its segments and more. -/
theorem exists_join_iff : (∃ rest, l = k ++ "." ++ rest) ↔ segments k <+: segments l ∧ segments k ≠ segments l := by
  constructor
  · rintro ⟨rest, rfl⟩
    rw [segments_join]
    exact ⟨List.prefix_append _ _, fun h => segments_ne_nil (List.self_eq_append_right.mp h)⟩
  · rintro ⟨⟨more, hmore⟩, hne⟩
    have hmore' : more ≠ [] := fun h => hne (by rw [← hmore, h, List.append_nil])
    refine ⟨".".intercalate more, ?_⟩
    rw [← intercalate_segments l, ← hmore, String.intercalate_append_of_ne_nil segments_ne_nil hmore',
      intercalate_segments]

/-! ### Joining -/

@[simp] theorem dottedKey_singleton (k : String) : dottedKey [k] = k := by
  by_cases hk : k = ""
  · simp [dottedKey, hk]
  · simp [dottedKey, hk]

@[simp] theorem dottedKey_empty_left (k : String) : dottedKey ["", k] = k := dottedKey_singleton k

@[simp] theorem dottedKey_empty_right (p : String) : dottedKey [p, ""] = p := by
  by_cases hp : p = ""
  · simp [dottedKey, hp]
  · simp [dottedKey, hp]

theorem dottedKey_pair (hp : p ≠ "") (hk : k ≠ "") : dottedKey [p, k] = p ++ "." ++ k := by
  simp [dottedKey, hp, hk, String.intercalate_cons_cons]

theorem intercalate_ne_empty {sep : String} {ks : List String} (hne : ks ≠ []) (h : ∀ k ∈ ks, k ≠ "") :
    sep.intercalate ks ≠ "" := by
  obtain ⟨k, ks, rfl⟩ := List.exists_cons_of_ne_nil hne
  have hk : k ≠ "" := h k List.mem_cons_self
  by_cases hks : ks = []
  · simpa [hks] using hk
  · simp [String.intercalate_cons_of_ne_nil hks, hk]

/-- A key is joined part by part. -/
theorem dottedKey_append (ks ls : List String) : dottedKey (ks ++ ls) = dottedKey [dottedKey ks, dottedKey ls] := by
  have hfilter : ∀ (ks : List String), ∀ k ∈ ks.filter (· != ""), k ≠ "" := fun ks k hk => by
    simpa using (List.mem_filter.mp hk).2
  by_cases hks : ks.filter (· != "") = []
  · have hempty : dottedKey ks = "" := by simp [dottedKey, hks]
    rw [hempty, dottedKey_empty_left, dottedKey, List.filter_append, hks, List.nil_append, dottedKey]
  by_cases hls : ls.filter (· != "") = []
  · have hempty : dottedKey ls = "" := by simp [dottedKey, hls]
    rw [hempty, dottedKey_empty_right, dottedKey, List.filter_append, hls, List.append_nil, dottedKey]
  have hpair : dottedKey [dottedKey ks, dottedKey ls] = dottedKey ks ++ "." ++ dottedKey ls :=
    dottedKey_pair (intercalate_ne_empty hks (hfilter ks)) (intercalate_ne_empty hls (hfilter ls))
  rw [hpair, dottedKey, List.filter_append, String.intercalate_append_of_ne_nil hks hls]
  rfl

/-- What stands behind a scope can be told from the whole key. -/
theorem dottedKey_right_inj : dottedKey [p, k] = dottedKey [p, l] ↔ k = l := by
  refine ⟨fun h => ?_, fun h => h ▸ rfl⟩
  by_cases hp : p = ""
  · simpa [hp] using h
  have hlong : ∀ {k : String}, k ≠ "" → p ≠ dottedKey [p, k] := fun {k} hk he => by
    have hlength : p.length = p.length + 1 + k.length := by
      rw [dottedKey_pair hp hk] at he
      exact (congrArg String.length he).trans (by rw [String.length_append, String.length_append]; rfl)
    omega
  by_cases hk : k = ""
  · by_cases hl : l = ""
    · rw [hk, hl]
    · rw [hk, dottedKey_empty_right] at h
      exact absurd h (hlong hl)
  · by_cases hl : l = ""
    · rw [hl, dottedKey_empty_right] at h
      exact absurd h.symm (hlong hk)
    · rw [dottedKey_pair hp hk, dottedKey_pair hp hl] at h
      simpa using h

end Settings
