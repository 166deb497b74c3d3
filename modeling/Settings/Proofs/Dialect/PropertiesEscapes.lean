import Settings.Proofs.Dialect.PropertiesLines
import Settings.Proofs.Number.IntText

/-! # Escapes of a properties document

A `\u` that no backslash escapes takes the four characters behind it. Where they name a character, they are replaced
with it, and the texts in front of them and behind them are read on their own. Where they name none, the document is not
read at all. But a plus sign and three digits are taken for a name too. -/

namespace Settings

namespace Properties

open Number (escapedChar? Names Signed)

variable {c e : Char} {cs ds raw pre behind four text : List Char} {n : Nat}

/-! ### Escapes -/

theorem continues_cons (hc : c ≠ '\\') (cs : List Char) : continues (c :: cs) = continues cs := by
  induction cs using List.reverseRecOn with
  | nil => exact continues_char hc []
  | append_singleton cs d ih =>
    by_cases hd : d = '\\'
    · rw [hd, ← List.cons_append, continues_backslash, continues_backslash, ih]
    · rw [← List.cons_append, continues_char hd, continues_char hd]

theorem continues_escape (e : Char) (cs : List Char) : continues ('\\' :: e :: cs) = continues cs := by
  induction cs using List.reverseRecOn with
  | nil =>
    by_cases he : e = '\\'
    · rw [he]
      rfl
    · exact continues_char he ['\\']
  | append_singleton cs d ih =>
    by_cases hd : d = '\\'
    · rw [hd, ← List.cons_append, ← List.cons_append, continues_backslash, continues_backslash, ih]
    · rw [← List.cons_append, ← List.cons_append, continues_char hd, continues_char hd]

/-- A `\u` that no backslash escapes, with what stands in front of it and behind it. -/
def UnicodeAt (raw pre behind : List Char) : Prop := raw = pre ++ '\\' :: 'u' :: behind ∧ continues pre = false

theorem UnicodeAt.of_char (hc : c ≠ '\\') (h : UnicodeAt (c :: cs) pre behind) :
    ∃ pre', pre = c :: pre' ∧ UnicodeAt cs pre' behind := by
  obtain ⟨heq, heven⟩ := h
  cases pre with
  | nil =>
    cases heq
    exact absurd rfl hc
  | cons d pre' =>
    obtain ⟨rfl, hcs⟩ := List.cons.inj heq
    rw [continues_cons hc] at heven
    exact ⟨pre', rfl, hcs, heven⟩

theorem UnicodeAt.of_escape (h : UnicodeAt ('\\' :: e :: cs) pre behind) :
    (pre = [] ∧ e = 'u' ∧ behind = cs) ∨ ∃ pre', pre = '\\' :: e :: pre' ∧ UnicodeAt cs pre' behind := by
  obtain ⟨heq, heven⟩ := h
  match pre with
  | [] =>
    cases heq
    exact .inl ⟨rfl, rfl, rfl⟩
  | [d] =>
    cases heq
    cases heven
  | d :: d' :: pre' =>
    cases heq
    rw [continues_escape] at heven
    exact .inr ⟨pre', rfl, rfl, heven⟩

theorem UnicodeAt.of_plain (hrun : '\\' ∉ cs) (h : UnicodeAt (cs ++ ds) pre behind) :
    ∃ pre', pre = cs ++ pre' ∧ UnicodeAt ds pre' behind := by
  induction cs generalizing pre with
  | nil => exact ⟨pre, rfl, h⟩
  | cons c cs ih =>
    obtain ⟨hc, hrun⟩ := not_or.mp (mt List.mem_cons.mpr hrun)
    obtain ⟨pre', rfl, htail⟩ := h.of_char (Ne.symm hc)
    obtain ⟨pre'', rfl, hat⟩ := ih hrun htail
    exact ⟨pre'', rfl, hat⟩

theorem continues_plain (hrun : '\\' ∉ cs) (pre : List Char) : continues (cs ++ pre) = continues pre := by
  induction cs with
  | nil => rfl
  | cons c cs ih =>
    obtain ⟨hc, hrun⟩ := not_or.mp (mt List.mem_cons.mpr hrun)
    rw [List.cons_append, continues_cons (Ne.symm hc), ih hrun]

theorem unescape_unicode (h : escapedChar? four = some c) (cs : List Char) :
    unescape n ('\\' :: 'u' :: (four ++ cs)) = (unescape n cs).map (c :: ·) := by
  have hlength := Number.length_of_escapedChar? h
  rw [unescape]
  simp only [ne_eq, not_true_eq_false, if_false, if_true]
  rw [← hlength, List.take_left', List.drop_left', h]
  · rfl
  · rfl

/-- A text is read, and the four characters behind each `\u` are replaced with the character that they name: it stands
    between what is read of the text in front of the `\u` and what is read of the text behind the four. -/
def Replaced (n : Nat) (raw : List Char) : Prop :=
  ∃ out, unescape n raw = .ok out ∧ ∀ pre behind, UnicodeAt raw pre behind →
    ∃ c front back, escapedChar? (behind.take 4) = some c ∧ unescape n pre = .ok front ∧
      unescape n (behind.drop 4) = .ok back ∧ out = front ++ c :: back

/-- A text is at fault, for a `\u` that names no character. -/
def AtFault (n : Nat) (raw : List Char) : Prop :=
  ∃ pre behind, UnicodeAt raw pre behind ∧ escapedChar? (behind.take 4) = none ∧
    unescape n raw = .error (.lexical n (.badEscape (String.ofList (behind.take 4))))

/-- What stands for one character may be put in front of a text. -/
theorem replaced_or_atFault {lead : List Char} (hread : ∀ cs, unescape n (lead ++ cs) = (unescape n cs).map (c :: ·))
    (hat : ∀ pre behind, UnicodeAt raw pre behind → UnicodeAt (lead ++ raw) (lead ++ pre) behind)
    (hlead : ∀ pre behind, UnicodeAt (lead ++ raw) pre behind →
      (pre = [] ∧ escapedChar? (behind.take 4) = some c ∧ behind.drop 4 = raw) ∨
        ∃ pre', pre = lead ++ pre' ∧ UnicodeAt raw pre' behind)
    (h : Replaced n raw ∨ AtFault n raw) : Replaced n (lead ++ raw) ∨ AtFault n (lead ++ raw) := by
  rcases h with ⟨out, hout, hreplaced⟩ | ⟨pre, behind, hraw, hnone, herror⟩
  · refine .inl ⟨c :: out, by rw [hread, hout]; rfl, fun pre behind h => ?_⟩
    rcases hlead pre behind h with ⟨rfl, hc, rfl⟩ | ⟨pre', rfl, htail⟩
    · exact ⟨c, [], out, hc, by rw [unescape], hout, rfl⟩
    · obtain ⟨d, front, back, hd, hfront, hback, rfl⟩ := hreplaced pre' behind htail
      exact ⟨d, c :: front, back, hd, by rw [hread, hfront]; rfl, hback, rfl⟩
  · exact .inr ⟨lead ++ pre, behind, hat pre behind hraw, hnone, by rw [hread, herror]; rfl⟩

theorem unescape_cases (n : Nat) (raw : List Char) : Replaced n raw ∨ AtFault n raw := by
  fun_induction unescape n raw with
  | case1 =>
    refine .inl ⟨[], by rw [unescape], fun pre behind h => ?_⟩
    exact absurd h.1.symm (List.append_ne_nil_of_right_ne_nil _ (List.cons_ne_nil _ _))
  | case2 c cs hc ih =>
    have hread : ∀ cs, unescape n ([c] ++ cs) = (unescape n cs).map (c :: ·) := fun cs => unescape_char hc
    refine replaced_or_atFault hread (fun pre behind h => ?_) (fun pre behind h => ?_) ih
    · exact ⟨by rw [h.1]; rfl, (continues_cons hc pre).trans h.2⟩
    · exact .inr (h.of_char hc)
  | case3 c hc =>
    obtain rfl := not_not.mp hc
    refine .inl ⟨[], by rw [unescape]; rfl, fun pre behind h => ?_⟩
    have hlength := congrArg List.length h.1
    simp only [List.length_append, List.length_cons, List.length_nil] at hlength
    omega
  | case4 c hc ds d hd ih =>
    obtain rfl := not_not.mp hc
    -- No backslash is among the four characters, so each further one that counts stands behind them.
    have hplain := Number.not_backslash_of_escapedChar? hd
    have hds : '\\' :: 'u' :: ds = '\\' :: 'u' :: ds.take 4 ++ ds.drop 4 := by
      rw [List.cons_append, List.cons_append, List.take_append_drop]
    rw [hds]
    refine replaced_or_atFault (fun cs => unescape_unicode hd cs) (fun pre behind h => ?_) (fun pre behind h => ?_) ih
    · refine ⟨by rw [h.1, List.append_assoc], ?_⟩
      rw [List.cons_append, List.cons_append, continues_escape, continues_plain hplain]
      exact h.2
    · rcases h.of_escape with ⟨hpre, -, hbehind⟩ | ⟨pre', rfl, htail⟩
      · obtain rfl := hbehind.trans (List.take_append_drop 4 ds)
        exact .inl ⟨hpre, hd, rfl⟩
      · obtain ⟨pre'', rfl, hraw⟩ := htail.of_plain hplain
        exact .inr ⟨pre'', rfl, hraw⟩
  | case5 c hc ds hd =>
    obtain rfl := not_not.mp hc
    refine .inr ⟨[], ds, ⟨rfl, rfl⟩, hd, ?_⟩
    rw [unescape]
    simp [hd]
  | case6 c hc e ds he ih =>
    obtain rfl := not_not.mp hc
    have hread : ∀ cs, unescape n (['\\', e] ++ cs) = (unescape n cs).map (escaped e :: ·) := fun cs => unescape_escape he
    refine replaced_or_atFault hread (fun pre behind h => ?_) (fun pre behind h => ?_) ih
    · exact ⟨by rw [h.1]; rfl, (continues_escape e pre).trans h.2⟩
    · rcases h.of_escape with ⟨-, heq, -⟩ | hraw
      · exact absurd heq he
      · exact .inr hraw

/-! ### Documents -/

/-- The keys and the values of a document as they are written, each with the number of its line. -/
def parts (text : String) : List (Nat × List Char) :=
  (logical text).flatMap fun p => [(p.1, (splitPair p.2).1), (p.1, (splitPair p.2).2)]

/-- What a key or a value is read as, if it can be read. -/
def decoded (raw : List Char) : List Char := (unescape 1 raw).toOption.getD []

/-- The pair of a logical line. -/
def entry (text : List Char) : String × String :=
  (String.ofList (Text.trim (decoded (splitPair text).1)), String.ofList (Text.trim (decoded (splitPair text).2)))

theorem decoded_eq {out : List Char} (h : unescape n raw = .ok out) : decoded raw = out := by
  have hopt := toOption_unescape 1 n raw
  rw [h] at hopt
  rw [decoded, hopt]
  rfl

theorem pair_of_replaced (hkey : Replaced n (splitPair text).1) (hvalue : Replaced n (splitPair text).2) :
    pair n text = .ok (entry text) := by
  obtain ⟨key, hkey, -⟩ := hkey
  obtain ⟨value, hvalue, -⟩ := hvalue
  rw [pair, entry, decoded_eq hkey, decoded_eq hvalue]
  simp only [hkey, hvalue]
  rfl

/-- The pair of a line that is at fault is not set, for its key or for its value. -/
theorem pair_of_atFault (hkey : Replaced n (splitPair text).1 ∨ AtFault n (splitPair text).1)
    (h : AtFault n (splitPair text).1 ∨ AtFault n (splitPair text).2) :
    ∃ raw ∈ [(splitPair text).1, (splitPair text).2], ∃ pre behind, UnicodeAt raw pre behind ∧
      escapedChar? (behind.take 4) = none ∧
        pair n text = .error (.lexical n (.badEscape (String.ofList (behind.take 4)))) := by
  by_cases hfirst : AtFault n (splitPair text).1
  · obtain ⟨pre, behind, hat, hnone, herror⟩ := hfirst
    refine ⟨_, List.mem_cons_self, pre, behind, hat, hnone, ?_⟩
    rw [pair]
    simp only [herror]
    rfl
  · obtain ⟨key, hkey, -⟩ := hkey.resolve_right hfirst
    obtain ⟨pre, behind, hat, hnone, herror⟩ := h.resolve_left hfirst
    refine ⟨_, List.mem_cons_of_mem _ List.mem_cons_self, pre, behind, hat, hnone, ?_⟩
    rw [pair]
    simp only [hkey, herror]
    rfl

theorem put_of_ok {s : Store} {p : Nat × List Char} {kv : String × String} (h : pair p.1 p.2 = .ok kv) :
    (put s p).result = .ok (s.set kv.1 kv.2) := by
  rw [put, Noted.result_bind, Noted.result_of, h]
  rfl

theorem put_of_error {s : Store} {p : Nat × List Char} {e : Fault} (h : pair p.1 p.2 = .error e) :
    (put s p).result = .error e := by
  rw [put, Noted.result_bind, Noted.result_of, h]
  rfl

/-- Either the pairs of all lines are set, or the first line that is at fault ends the document. -/
theorem foldlM_put (s : Store) (ls : List (Nat × List Char)) :
    ((∀ p ∈ ls, Replaced p.1 (splitPair p.2).1 ∧ Replaced p.1 (splitPair p.2).2) ∧
      (ls.foldlM put s).result = .ok (s.setAll (ls.map fun p => entry p.2))) ∨
    ∃ p ∈ ls, ∃ raw ∈ [(splitPair p.2).1, (splitPair p.2).2], ∃ pre behind, UnicodeAt raw pre behind ∧
      escapedChar? (behind.take 4) = none ∧
        (ls.foldlM put s).result = .error (.lexical p.1 (.badEscape (String.ofList (behind.take 4)))) := by
  induction ls generalizing s with
  | nil => exact .inl ⟨List.forall_mem_nil _, rfl⟩
  | cons p ls ih =>
    rw [List.foldlM_cons, Noted.result_bind]
    have hkey := unescape_cases p.1 (splitPair p.2).1
    have hvalue := unescape_cases p.1 (splitPair p.2).2
    by_cases hfault : AtFault p.1 (splitPair p.2).1 ∨ AtFault p.1 (splitPair p.2).2
    · obtain ⟨raw, hraw, pre, behind, hat, hnone, herror⟩ := pair_of_atFault hkey hfault
      refine .inr ⟨p, List.mem_cons_self, raw, hraw, pre, behind, hat, hnone, ?_⟩
      rw [put_of_error herror]
      rfl
    · obtain ⟨hnokey, hnovalue⟩ := not_or.mp hfault
      have hread : Replaced p.1 (splitPair p.2).1 ∧ Replaced p.1 (splitPair p.2).2 :=
        ⟨hkey.resolve_right hnokey, hvalue.resolve_right hnovalue⟩
      rw [put_of_ok (pair_of_replaced hread.1 hread.2)]
      rcases ih (s.set (entry p.2).1 (entry p.2).2) with ⟨hall, hok⟩ | ⟨q, hq, hrest⟩
      · exact .inl ⟨List.forall_mem_cons.mpr ⟨hread, hall⟩, hok⟩
      · exact .inr ⟨q, List.mem_cons_of_mem _ hq, hrest⟩

/-- The four characters that a `\u` takes name a character, or are taken for the name of one. -/
def Taken (four : List Char) (c : Char) : Prop := Names four c ∨ Signed four c

/-- A document is not read if and only if a key or a value of it holds a `\u`, not escaped, of which the four characters
    neither name a character nor are a plus sign and three digits. The fault is that of such a `\u`. A document that is
    read has the pairs of its lines, and in each key and value what a `\u` and its four characters are read as is the
    one character, between what is read of the text in front of them and of the text behind them. -/
theorem parse_unicode (text : String) :
    ((∃ e, (parse text).result = .error e) ↔
      ∃ part ∈ parts text, ∃ pre behind, UnicodeAt part.2 pre behind ∧ ¬ ∃ c, Taken (behind.take 4) c) ∧
    (∀ e, (parse text).result = .error e →
      ∃ part ∈ parts text, ∃ pre behind, UnicodeAt part.2 pre behind ∧ (¬ ∃ c, Taken (behind.take 4) c) ∧
        e = .lexical part.1 (.badEscape (String.ofList (behind.take 4)))) ∧
    ∀ s, (parse text).result = .ok s →
      s = .ofPairs ((logical text).map fun p => entry p.2) ∧
        ∀ part ∈ parts text, ∀ pre behind, UnicodeAt part.2 pre behind →
          ∃ c, Taken (behind.take 4) c ∧ decoded part.2 = decoded pre ++ c :: decoded (behind.drop 4) := by
  have htaken : ∀ four, escapedChar? four = none ↔ ¬ ∃ c, Taken four c := fun four => by
    rw [Option.eq_none_iff_forall_ne_some, not_exists]
    exact forall_congr' fun c => not_congr Number.escapedChar?_eq_some_iff
  rw [parse_eq]
  rcases foldlM_put .empty (logical text) with ⟨hall, hok⟩ | ⟨p, hp, raw, hraw, pre, behind, hat, hnone, herror⟩
  · have hreplaced : ∀ part ∈ parts text, Replaced part.1 part.2 := by
      intro part hpart
      obtain ⟨p, hp, hpart⟩ := List.mem_flatMap.mp hpart
      simp only [List.mem_cons, List.not_mem_nil, or_false] at hpart
      rcases hpart with rfl | rfl
      · exact (hall p hp).1
      · exact (hall p hp).2
    have hdecoded : ∀ part ∈ parts text, ∀ pre behind, UnicodeAt part.2 pre behind →
        ∃ c, Taken (behind.take 4) c ∧ decoded part.2 = decoded pre ++ c :: decoded (behind.drop 4) := by
      intro part hpart pre behind hat
      obtain ⟨out, hout, hall⟩ := hreplaced part hpart
      obtain ⟨c, front, back, hc, hfront, hback, rfl⟩ := hall pre behind hat
      refine ⟨c, Number.escapedChar?_eq_some_iff.mp hc, ?_⟩
      rw [decoded_eq hout, decoded_eq hfront, decoded_eq hback]
    rw [hok]
    refine ⟨⟨nofun, ?_⟩, nofun, ?_⟩
    · rintro ⟨part, hpart, pre, behind, hat, hnone⟩
      obtain ⟨c, hc, -⟩ := hdecoded part hpart pre behind hat
      exact absurd ⟨c, hc⟩ hnone
    · rintro s ⟨rfl⟩
      exact ⟨rfl, hdecoded⟩
  · have hpart : (p.1, raw) ∈ parts text := List.mem_flatMap.mpr ⟨p, hp, by simpa using hraw⟩
    rw [herror]
    refine ⟨⟨fun _ => ⟨_, hpart, pre, behind, hat, (htaken _).mp hnone⟩, fun _ => ⟨_, rfl⟩⟩, ?_, nofun⟩
    rintro e ⟨rfl⟩
    exact ⟨_, hpart, pre, behind, hat, (htaken _).mp hnone, rfl⟩

/-- A plus sign is no digit, and counts as one. -/
theorem parse_signedEscape :
    (1, "\\u+041".toList) ∈ parts "k=\\u+041\n" ∧ UnicodeAt "\\u+041".toList [] "+041".toList ∧
      (∀ c, ¬ Names "+041".toList c) ∧
        (parse "k=\\u+041\n").result.toOption.map Store.pairs = some [("k", "A")] := by
  refine ⟨by decide +kernel, ⟨by decide, rfl⟩, fun c h => ?_, by decide +kernel⟩
  exact absurd (h.digits '+' (by decide)) (by decide)

end Properties

end Settings
