import Mathlib.Algebra.Group.Nat.Even
import Settings.Proofs.Dialect.YamlScopes
import Settings.Proofs.Text.Splitting

/-! # Comments behind the lines of a YAML document

A comment is found by one look at the whole line, from its start: an apostrophe opens quotes wherever it stands, and a
hash in quotes starts no comment. So a comment may follow a line that has an even number of apostrophes, and it changes
nothing there. Behind an odd number of them the quotes are open, and the comment is a part of the value. -/

namespace Settings

namespace Yaml

variable {raw raw' cs body more rest line comment key item : List Char} {r r' : Reader} {n k : Nat}

/-! ### Where a line is cut -/

/-- The quotes that are open behind so many apostrophes. -/
def apostrophes (n : Nat) : Option Char := if Even n then none else some '\''

theorem withoutComment_append (hhash : '#' ∉ line) (hquote : '"' ∉ line) (n : Nat) (blank : Bool) :
    withoutComment (apostrophes n) blank (line ++ ' ' :: rest) =
      line ++ ' ' :: withoutComment (apostrophes (n + line.count '\'')) true rest := by
  -- The quotes are told by the number of apostrophes passed so far, so that number goes along with the line.
  induction line generalizing n blank with
  | nil =>
    by_cases h : Even n
    · simp [apostrophes, h, withoutComment, Text.isBlank]
    · simp [apostrophes, h, withoutComment, Text.isBlank]
  | cons c line ih =>
    obtain ⟨hc, hhash⟩ := not_or.mp (mt List.mem_cons.mpr hhash)
    obtain ⟨hd, hquote⟩ := not_or.mp (mt List.mem_cons.mpr hquote)
    have ih := ih hhash hquote
    by_cases happ : c = '\''
    · subst happ
      have hcount : n + ('\'' :: line).count '\'' = n + 1 + line.count '\'' := by
        rw [List.count_cons_self]
        omega
      rw [hcount, List.cons_append, List.cons_append, ← ih (n + 1) false]
      by_cases h : Even n
      · simp [apostrophes, h, Nat.even_add_one, withoutComment]
      · simp [apostrophes, h, Nat.even_add_one, withoutComment, Text.isBlank]
    · rw [List.count_cons_of_ne happ, List.cons_append, List.cons_append, ← ih n (Text.isBlank c)]
      by_cases h : Even n
      · simp [apostrophes, h, withoutComment, happ, Ne.symm hc, Ne.symm hd]
      · simp [apostrophes, h, withoutComment, happ]

theorem withoutComment_prefix (quote : Option Char) (blank : Bool) (cs : List Char) :
    withoutComment quote blank cs <+: cs := by
  induction cs generalizing quote blank with
  | nil => exact List.nil_prefix
  | cons c cs ih =>
    rw [withoutComment.eq_def]
    dsimp only
    repeat' split
    all_goals first | exact List.nil_prefix | exact List.cons_prefix_cons.mpr ⟨rfl, ih _ _⟩

/-- Behind an even number of apostrophes a comment is cut off, and behind an odd number of them it is kept, up to what
    looks like a comment in it. -/
theorem withoutComment_comment (hhash : '#' ∉ line) (hquote : '"' ∉ line) (comment : List Char) :
    (Even (line.count '\'') → withoutComment none true (line ++ ' ' :: '#' :: comment) = line ++ [' ']) ∧
      (¬ Even (line.count '\'') → ∃ kept, kept <+: comment ∧
        withoutComment none true (line ++ ' ' :: '#' :: comment) = line ++ ' ' :: '#' :: kept) := by
  have hline : withoutComment none true (line ++ ' ' :: '#' :: comment) =
      line ++ ' ' :: withoutComment (apostrophes (0 + line.count '\'')) true ('#' :: comment) :=
    withoutComment_append hhash hquote 0 true
  rw [Nat.zero_add] at hline
  constructor
  · intro heven
    refine hline.trans ?_
    rw [apostrophes, if_pos heven]
    simp [withoutComment]
  · intro hodd
    refine ⟨_, withoutComment_prefix (some '\'') (Text.isBlank '#') comment, hline.trans ?_⟩
    rw [apostrophes, if_neg hodd]
    simp [withoutComment]

/-! ### What stands behind a line -/

theorem exists_of_not_idle (h : ¬ Idle raw) : ∃ c ∈ withoutComment none true raw, Text.isWhite c = false := by
  by_contra hnone
  push Not at hnone
  exact h (Text.trim_white fun c hc => by simpa using hnone c hc)

theorem indentation_append (h : ∃ c ∈ cs, c ≠ ' ') (n : Nat) (more : List Char) :
    indentation n (cs ++ more) = (indentation n cs).map fun (k, body) => (k, body ++ more) := by
  have hne : cs.dropWhile (· = ' ') ≠ [] := by simpa using h
  have hdrop : (cs ++ more).dropWhile (· = ' ') = cs.dropWhile (· = ' ') ++ more := by
    rw [List.dropWhile_append, if_neg (by simpa using h)]
  have hhead : (cs.dropWhile (· = ' ') ++ more).head? = (cs.dropWhile (· = ' ')).head? :=
    List.head?_append_of_ne_nil _ hne
  have hlength : (cs ++ more).length - (cs.dropWhile (· = ' ') ++ more).length =
      cs.length - (cs.dropWhile (· = ' ')).length := by
    rw [List.length_append, List.length_append]
    omega
  unfold indentation
  dsimp only
  rw [hdrop, hhead, hlength]
  split
  · rfl
  · rfl

theorem item?_append (hne : body ≠ []) (hmore : more.head? = some ' ') :
    (item? body = none → item? (body ++ more) = none) ∧
      ∀ item, item? body = some item → ∃ rest, body = '-' :: rest ∧ item = Text.trim rest ∧
        item? (body ++ more) = some (Text.trim (rest ++ more)) := by
  obtain ⟨c, rest, rfl⟩ := List.exists_cons_of_ne_nil hne
  have hrest : (rest ++ more = [] ∨ (rest ++ more).head? = some ' ') ↔ (rest = [] ∨ rest.head? = some ' ') := by
    cases rest with
    | nil => simp [hmore]
    | cons d rest => simp
  by_cases hc : c = '-'
  · subst hc
    simp only [item?, List.cons_append, hrest]
    constructor
    · intro h
      split at h
      · cases h
      · next hno => rw [if_neg hno]
    · intro item h
      split at h
      · next hyes =>
        cases h
        exact ⟨rest, rfl, rfl, if_pos hyes⟩
      · cases h
  · simp [item?, hc]

theorem cut?_append_right (h : ':' ∈ body) (more : List Char) :
    ∃ key value, Text.cut? ':' body = some (key, value) ∧ Text.cut? ':' (body ++ more) = some (key, value ++ more) := by
  obtain ⟨key, value, rfl, hkey⟩ := List.eq_append_cons_of_mem h
  refine ⟨key, value, Text.cut?_append hkey, ?_⟩
  rw [List.append_assoc, List.cons_append, Text.cut?_append hkey]

theorem trim_space (cs : List Char) : Text.trim (cs ++ [' ']) = Text.trim cs :=
  Text.trim_padded (List.forall_mem_nil _) (List.forall_mem_singleton.mpr rfl) cs

theorem keyLine_padded (r : Reader) (n k : Nat) (body : List Char) :
    keyLine r n k (body ++ [' ']) = keyLine r n k body := by
  by_cases hcolon : ':' ∈ body
  · obtain ⟨key, value, hcut, hmore⟩ := cut?_append_right hcolon [' ']
    rw [keyLine, keyLine, hcut, hmore]
    dsimp only
    rw [trim_space]
  · have hnone := Text.cut?_eq_none_iff.mpr hcolon
    have hmore : Text.cut? ':' (body ++ [' ']) = none := Text.cut?_eq_none_iff.mpr (by simpa using hcolon)
    rw [keyLine, keyLine, hnone, hmore]
    dsimp only
    rw [trim_space]

/-- A line that counts is taken as what stands behind its indentation, with more text behind it too. -/
theorem step_append (hidle : ¬ Idle raw) (h : withoutComment none true raw' = withoutComment none true raw ++ more)
    (r : Reader) (n : Nat) :
    (∃ e, step r n raw = .fault e ∧ step r n raw' = .fault e) ∨
      ∃ k body, body ≠ [] ∧ body <:+ withoutComment none true raw ∧
        (step r n raw = match item? body with
          | some item => .of (itemLine r n item)
          | none => r.endList >>= fun r => keyLine r n k body) ∧
        (step r n raw' = match item? (body ++ more) with
          | some item => .of (itemLine r n item)
          | none => r.endList >>= fun r => keyLine r n k (body ++ more)) := by
  obtain ⟨c, hc, hwhite⟩ := exists_of_not_idle hidle
  have hspace : ∃ c ∈ withoutComment none true raw, c ≠ ' ' := ⟨c, hc, by rintro rfl; exact absurd hwhite (by decide)⟩
  have hidle' : ¬ Idle raw' := by
    rw [Idle, h]
    exact Text.trim_ne_nil hwhite (List.mem_append_left _ hc)
  have hmore := indentation_append hspace n more
  rw [← h] at hmore
  cases hindent : indentation n (withoutComment none true raw) with
  | error e =>
    rw [hindent] at hmore
    refine .inl ⟨e, (if_neg hidle).trans ?_, (if_neg hidle').trans ?_⟩
    · rw [hindent]
      rfl
    · rw [hmore]
      rfl
  | ok indented =>
    obtain ⟨k, body⟩ := indented
    rw [hindent] at hmore
    obtain ⟨-, hbody⟩ := indentation_ok hindent
    refine .inr ⟨k, body, ?_, ?_, step_indented hidle hindent r, step_indented hidle' hmore r⟩
    · rw [hbody]
      simpa using hspace
    · rw [hbody]
      exact List.dropWhile_suffix _

/-- One space behind a line changes nothing. -/
theorem step_padded (hidle : ¬ Idle raw) (h : withoutComment none true raw' = withoutComment none true raw ++ [' '])
    (r : Reader) (n : Nat) : step r n raw' = step r n raw := by
  rcases step_append hidle h r n with ⟨e, hraw, hraw'⟩ | ⟨k, body, hne, -, hraw, hraw'⟩
  · rw [hraw, hraw']
  have hspace : [' '].head? = some ' ' := rfl
  obtain ⟨hnone, hsome⟩ := item?_append hne hspace
  rw [hraw, hraw']
  cases hitem : item? body with
  | none =>
    rw [hnone hitem]
    simp only [keyLine_padded]
  | some item =>
    obtain ⟨rest, -, rfl, hmore⟩ := hsome item hitem
    rw [hmore, trim_space]

theorem mem_listedItem {c : Char} (hc : c ≠ '"') : c ∈ listedItem item ↔ c ∈ item := by
  unfold listedItem
  split
  · rfl
  · simp [hc]

theorem itemLine_hash {item item' : List Char} (hitem : '#' ∉ item) (hitem' : '#' ∈ item')
    (hok : itemLine r n item = .ok r') : itemLine r n item' ≠ .ok r' := by
  intro hok'
  have hlisted : String.ofList (listedItem item) ≠ String.ofList (listedItem item') := by
    intro heq
    have hmem := (mem_listedItem (by decide)).mpr hitem'
    rw [← String.ofList_inj.mp heq, mem_listedItem (by decide)] at hmem
    exact hitem hmem
  unfold itemLine at hok hok'
  dsimp only at hok hok'
  cases hlist : r.list with
  | some list =>
    rw [hlist] at hok hok'
    cases hok
    simp only [Except.ok.injEq, Reader.mk.injEq, Option.some.injEq, Prod.mk.injEq, List.append_cancel_left_eq,
      List.cons.injEq] at hok'
    exact hlisted hok'.2.2.2.2.1.symm
  | none =>
    rw [hlist] at hok hok'
    dsimp only at hok hok'
    split at hok
    · next hopened =>
      rw [if_pos hopened] at hok'
      cases hok
      simp only [Except.ok.injEq, Reader.mk.injEq, Option.some.injEq, Prod.mk.injEq, List.cons.injEq] at hok'
      exact hlisted hok'.2.2.2.2.1.symm
    · cases hok

/-- What the line of a key leaves: an open scope, or its value. -/
theorem keyLine_value {key value : List Char} (hcut : Text.cut? ':' body = some (key, value))
    (hok : (keyLine r n k body).result = .ok r') :
    (Text.trim value = [] ∧ r'.opened = true) ∨
      (Text.trim value ≠ [] ∧ r'.opened = false ∧
        r'.store.get? (dottedKey (r.scopes.take (k / indentStep) ++ [String.ofList (Text.trim key)])) =
          some (String.ofList (Text.trim value))) := by
  unfold keyLine at hok
  rw [hcut] at hok
  dsimp only at hok
  have hempty : String.ofList (Text.trim value) = "" ↔ Text.trim value = [] := String.ofList_eq_empty_iff
  split at hok
  · cases hok
  split at hok
  · cases hok
  split at hok
  · cases hok
  split at hok
  · next hvalue =>
    cases hok
    exact .inl ⟨hempty.mp hvalue, rfl⟩
  · next hvalue =>
    cases hok
    exact .inr ⟨mt hempty.mpr hvalue, rfl, Store.get?_set_self _ _ _⟩

/-- A hash in the value of a key makes a difference. -/
theorem keyLine_hash (hbody : '#' ∉ body) (hmore : '#' ∈ more) (hok : (keyLine r n k body).result = .ok r') :
    (keyLine r n k (body ++ more)).result ≠ .ok r' := by
  intro hok'
  have hcolon : ':' ∈ body := by
    by_contra hcolon
    rw [keyLine, Text.cut?_eq_none_iff.mpr hcolon] at hok
    cases hok
  obtain ⟨key, value, hcut, hcut'⟩ := cut?_append_right hcolon more
  have hvalue : '#' ∉ Text.trim value := by
    rw [Text.mem_trim (by decide)]
    rw [Text.cut?_eq hcut, List.mem_append, List.mem_cons, not_or, not_or] at hbody
    exact hbody.2.2
  have hvalue' : '#' ∈ Text.trim (value ++ more) :=
    (Text.mem_trim (by decide)).mpr (List.mem_append_right _ hmore)
  rcases keyLine_value hcut' hok' with ⟨hnil, -⟩ | ⟨-, hclosed, hget'⟩
  · exact absurd hnil (List.ne_nil_of_mem hvalue')
  rcases keyLine_value hcut hok with ⟨-, hopened⟩ | ⟨-, -, hget⟩
  · exact absurd (hclosed.symm.trans hopened) (by decide)
  · rw [hget, Option.some.injEq, String.ofList_inj] at hget'
    exact hvalue (hget' ▸ hvalue')

/-- A text with a hash in it that is kept behind a line makes a difference. -/
theorem step_hash (hidle : ¬ Idle raw) (hraw : '#' ∉ withoutComment none true raw) (hspace : more.head? = some ' ')
    (hmore : '#' ∈ more) (h : withoutComment none true raw' = withoutComment none true raw ++ more)
    (hok : (step r n raw).result = .ok r') : (step r n raw').result ≠ .ok r' := by
  rcases step_append hidle h r n with ⟨e, hstep, -⟩ | ⟨k, body, hne, hsuffix, hstep, hstep'⟩
  · rw [hstep] at hok
    cases hok
  have hbody : '#' ∉ body := fun hmem => hraw (hsuffix.subset hmem)
  obtain ⟨hnone, hsome⟩ := item?_append hne hspace
  rw [hstep] at hok
  rw [hstep']
  cases hitem : item? body with
  | some item =>
    obtain ⟨rest, rfl, rfl, hitem'⟩ := hsome item hitem
    rw [hitem] at hok
    rw [hitem']
    have hrest : '#' ∉ Text.trim rest := fun hmem =>
      hbody (List.mem_cons_of_mem _ ((Text.mem_trim (by decide)).mp hmem))
    exact itemLine_hash hrest ((Text.mem_trim (by decide)).mpr (List.mem_append_right _ hmore)) hok
  | none =>
    rw [hitem] at hok
    rw [hnone hitem]
    intro hok'
    obtain ⟨ended, hended, hkey⟩ := Noted.result_bind_eq_ok.mp hok
    obtain ⟨ended', hended', hkey'⟩ := Noted.result_bind_eq_ok.mp hok'
    cases hended.symm.trans hended'
    exact keyLine_hash hbody hmore hkey hkey'

/-! ### Documents -/

/-- A comment may be put behind the line of a key or an item that holds neither a hash nor a double quote, and an even
    number of apostrophes: the document is read just as it was. Behind an odd number of apostrophes the comment is not
    seen. It stays, or a part of it does, and what is read of the line is another thing. -/
theorem parse_commented {before line after comment : String}
    (hat : Text.LineAt before.toList line.toList after.toList) (hidle : ¬ Idle line.toList) (hhash : '#' ∉ line.toList)
    (hquote : '"' ∉ line.toList) (hcomment : '\n' ∉ comment.toList) :
    (Even (line.toList.count '\'') →
      parse (before ++ (line ++ " #" ++ comment) ++ after) = parse (before ++ line ++ after)) ∧
    (¬ Even (line.toList.count '\'') →
      (∃ kept, kept <+: comment.toList ∧
        withoutComment none true (line ++ " #" ++ comment).toList = line.toList ++ ' ' :: '#' :: kept) ∧
      ∀ r n r', (step r n line.toList).result = .ok r' →
        (step r n (line ++ " #" ++ comment).toList).result ≠ .ok r') := by
  have htext : (line ++ " #" ++ comment).toList = line.toList ++ ' ' :: '#' :: comment.toList := by
    rw [String.toList_append, String.toList_append, List.append_assoc]
    rfl
  have hplain : withoutComment none true line.toList = line.toList := withoutComment_eq hhash none true
  constructor
  · intro heven
    have hne : line.toList ≠ [] := fun hnil => hidle (by rw [hnil]; rfl)
    obtain ⟨raw, hraw, hlines⟩ := hat.lines_of (line.toList ++ ' ' :: '#' :: comment.toList)
      (by simp [hat.feed, hcomment]) (by simp)
    obtain ⟨comment', rfl⟩ : ∃ comment', raw = line.toList ++ ' ' :: '#' :: comment' := by
      rcases hraw with rfl | rfl
      · exact ⟨_, rfl⟩
      · obtain ⟨comment', h⟩ :=
          Text.beforeLast?_around (c := '#') (d := '\r') (by decide) (line.toList ++ [' ']) comment.toList
        exact ⟨comment', by simpa [Text.withoutReturn] using h⟩
    have hstep : ∀ r n, step r n (line.toList ++ ' ' :: '#' :: comment') = step r n line.toList := by
      refine step_padded hidle ?_
      rw [hplain]
      exact (withoutComment_comment hhash hquote comment').1 heven
    rw [parse, parse, String.toList_append, String.toList_append, htext, hlines, String.toList_append,
      String.toList_append, hat.lines_eq hne, run_append, run_append]
    simp only [run, hstep]
  · intro hodd
    obtain ⟨kept, hkept, hcontent⟩ := (withoutComment_comment hhash hquote comment.toList).2 hodd
    rw [htext]
    refine ⟨⟨kept, hkept, hcontent⟩, fun r n r' hok => ?_⟩
    rw [← hplain] at hhash
    have hmore : withoutComment none true (line.toList ++ ' ' :: '#' :: comment.toList) =
        withoutComment none true line.toList ++ ' ' :: '#' :: kept := by
      rw [hcontent, hplain]
    exact step_hash hidle hhash rfl (by simp) hmore hok

theorem parse_commented_possessives :
    parse ("a:\n" ++ ("  - dogs' and cats'" ++ " #" ++ " it's late") ++ "\r\nb: 1\n") =
      parse ("a:\n" ++ "  - dogs' and cats'" ++ "\r\nb: 1\n") ∧
    ∀ r n r', (step r n "k: it's".toList).result = .ok r' →
      (step r n ("k: it's" ++ " #" ++ " note").toList).result ≠ .ok r' := by
  constructor
  · have hat : Text.LineAt "a:\n".toList "  - dogs' and cats'".toList "\r\nb: 1\n".toList :=
      ⟨.inr (by decide), by decide, .inr (.inl ⟨_, rfl⟩)⟩
    exact (parse_commented hat (by decide) (by decide) (by decide) (by decide)).1 (by decide)
  · have hat : Text.LineAt "".toList "k: it's".toList "\n".toList :=
      ⟨.inl rfl, by decide, .inr (.inr ⟨⟨_, rfl⟩, by decide⟩)⟩
    exact ((parse_commented hat (by decide) (by decide) (by decide) (by decide)).2 (by decide)).2

/-- One apostrophe within a word keeps the comment behind it in the value. -/
theorem parse_apostrophe :
    (parse "k: it's\n").result.map (Store.get? · "k") = .ok (some "it's") ∧
      (parse "k: it's # note\n").result.map (Store.get? · "k") = .ok (some "it's # note") := by
  have hlines : ∀ line : String, '\n' ∉ line.toList → line.toList.getLast? ≠ some '\r' →
      Text.lines (line ++ "\n").toList = [line.toList] := by
    intro line hfeed hreturn
    have hone : Text.lines ([line.toList].flatMap (· ++ ['\n'])) = [line.toList] :=
      Text.lines_flatMap (by simpa using ⟨hfeed, hreturn⟩)
    simpa using hone
  constructor
  · rw [parse, show "k: it's\n" = "k: it's" ++ "\n" from rfl, hlines _ (by decide) (by decide)]
    rfl
  · rw [parse, show "k: it's # note\n" = "k: it's # note" ++ "\n" from rfl, hlines _ (by decide) (by decide)]
    rfl

end Yaml

end Settings
