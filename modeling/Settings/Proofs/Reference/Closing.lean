import Settings.Reference

/-! # Which brace closes a reference

A reference may be taken to end where all braces that were opened in it are closed. The resolver counts only the braces
behind a dollar, so it stops earlier where a brace without a dollar is opened, and at the same place everywhere else. -/

namespace Settings.Reference

variable {depth d e : Nat} {c : Char} {cs ds a b rest : List Char}

/-- The braces that are open behind a text, when some are open before it; none if a brace is closed that was not
    opened. Each opening brace counts. -/
def braces? (depth : Nat) : List Char → Option Nat
  | '{' :: cs => braces? (depth + 1) cs
  | '}' :: cs =>
    match depth with
    | 0 => none
    | d + 1 => braces? d cs
  | _ :: cs => braces? depth cs
  | [] => some depth

/-- A brace is opened without a dollar in front of it. -/
def opensPlain : List Char → Bool
  | '$' :: '{' :: cs => opensPlain cs
  | '{' :: _ => true
  | _ :: cs => opensPlain cs
  | [] => false

theorem braces?_append (depth : Nat) (cs ds : List Char) :
    braces? depth (cs ++ ds) = (braces? depth cs).bind fun d => braces? d ds := by
  fun_induction braces? depth cs with
  | case1 depth cs ih => exact ih
  | case2 cs => rfl
  | case3 cs d ih => exact ih
  | case4 depth c cs hopen hclose ih => rw [List.cons_append, braces?, ih] <;> assumption
  | case5 depth => rfl

theorem braces?_plain (hopen : '{' ∉ cs) (hclose : '}' ∉ cs) : braces? depth cs = some depth := by
  induction cs with
  | nil => rfl
  | cons c cs ih =>
    rw [List.mem_cons, not_or] at hopen hclose
    rw [braces?, ih hopen.2 hclose.2]
    · exact fun h => hopen.1 h.symm
    · exact fun h => hclose.1 h.symm

/-- What stands behind the closing brace does not count. -/
theorem closing?_append (h : closing? depth cs = some (a, b)) (rest : List Char) :
    closing? depth (cs ++ rest) = some (a, b ++ rest) := by
  fun_induction closing? depth cs generalizing a b with
  | case1 depth cs ih =>
    obtain ⟨⟨a', b'⟩, hcs, hab⟩ := Option.map_eq_some_iff.mp h
    cases hab
    rw [List.cons_append, List.cons_append, closing?, ih hcs]
    rfl
  | case2 cs => cases h; rfl
  | case3 cs d ih =>
    obtain ⟨⟨a', b'⟩, hcs, hab⟩ := Option.map_eq_some_iff.mp h
    cases hab
    rw [List.cons_append, closing?, ih hcs]
    rfl
  | case4 depth c cs hopen hclose ih =>
    obtain ⟨⟨a', b'⟩, hcs, hab⟩ := Option.map_eq_some_iff.mp h
    cases hab
    rw [List.cons_append, closing?, ih hcs]
    · rfl
    · -- The dollar and the brace could only be parted if nothing stood behind the dollar.
      intro ds hc hds
      cases cs with
      | nil => cases hcs
      | cons e cs => exact hopen cs hc (congrArg (· :: cs) (List.cons.inj hds).1)
    · exact hclose
  | case5 => cases h

/-- With fewer references open than braces, the resolver finds a closing brace inside the text. -/
theorem closing?_of_lt (hlt : d < e) (h : braces? e cs = some 0) : ∃ a b, closing? d cs = some (a, b) := by
  fun_induction closing? d cs generalizing e with
  | case1 d cs ih =>
    obtain ⟨a, b, hcs⟩ := ih (Nat.succ_lt_succ hlt) h
    exact ⟨_, _, by rw [hcs]; rfl⟩
  | case2 cs => exact ⟨[], cs, rfl⟩
  | case3 cs d ih =>
    cases e with
    | zero => cases h
    | succ e =>
      obtain ⟨a, b, hcs⟩ := ih (Nat.lt_of_succ_lt_succ hlt) h
      exact ⟨_, _, by rw [hcs]; rfl⟩
  | case4 d c cs hopen hclose ih =>
    -- A brace without a dollar is counted only as a brace, so no further reference is open behind it.
    have hmore : ∃ e, d < e ∧ braces? e cs = some 0 := by
      by_cases hc : c = '{'
      · subst hc
        exact ⟨e + 1, Nat.lt_succ_of_lt hlt, h⟩
      · rw [braces?] at h
        · exact ⟨e, hlt, h⟩
        · exact hc
        · exact hclose
    obtain ⟨e, hlt, h⟩ := hmore
    obtain ⟨a, b, hcs⟩ := ih hlt h
    exact ⟨_, _, by rw [hcs]; rfl⟩
  | case5 =>
    cases h
    exact absurd hlt (Nat.not_lt_zero _)

/-- A brace without a dollar makes the resolver find a closing brace inside the text. -/
theorem closing?_of_opensPlain (hplain : opensPlain cs = true) (h : braces? d cs = some 0) :
    ∃ a b, closing? d cs = some (a, b) := by
  fun_induction closing? d cs with
  | case1 d cs ih =>
    obtain ⟨a, b, hcs⟩ := ih hplain h
    exact ⟨_, _, by rw [hcs]; rfl⟩
  | case2 cs => exact ⟨[], cs, rfl⟩
  | case3 cs d ih =>
    obtain ⟨a, b, hcs⟩ := ih hplain h
    exact ⟨_, _, by rw [hcs]; rfl⟩
  | case4 d c cs hopen hclose ih =>
    by_cases hc : c = '{'
    · subst hc
      obtain ⟨a, b, hcs⟩ := closing?_of_lt (Nat.lt_succ_self d) h
      exact ⟨_, _, by rw [hcs]; rfl⟩
    · rw [braces?] at h
      rw [opensPlain] at hplain
      · obtain ⟨a, b, hcs⟩ := ih hplain h
        exact ⟨_, _, by rw [hcs]; rfl⟩
      all_goals assumption
  | case5 => cases hplain

/-- Without such a brace, the resolver stops where all braces of the text are closed. -/
theorem closing?_of_not_opensPlain (hplain : opensPlain cs = false) (h : braces? d cs = some 0) (rest : List Char) :
    closing? d (cs ++ '}' :: rest) = some (cs, rest) := by
  fun_induction opensPlain cs generalizing d with
  | case1 cs ih =>
    rw [List.cons_append, List.cons_append, closing?, ih hplain h]
    rfl
  | case2 => cases hplain
  | case3 c cs hopen hplainc ih =>
    by_cases hc : c = '}'
    · subst hc
      cases d with
      | zero => cases h
      | succ d =>
        rw [List.cons_append, closing?, ih hplain h]
        rfl
    · rw [braces?] at h
      · rw [List.cons_append, closing?, ih hplain h]
        · rfl
        · intro ds hdollar hds
          cases cs with
          | nil => cases (List.cons.inj hds).1
          | cons e cs => exact hopen cs hdollar (congrArg (· :: cs) (List.cons.inj hds).1)
        · exact hc
      · exact hplainc
      · exact hc
  | case4 => cases h; rfl

/-- The resolver takes a text in which all braces are closed for the body of a reference just where no brace without a
    dollar is opened in it. Otherwise it stops inside the text. -/
theorem closing?_eq_body_iff (h : braces? 0 cs = some 0) (rest : List Char) :
    (closing? 0 (cs ++ '}' :: rest) = some (cs, rest) ↔ opensPlain cs = false) ∧
    (opensPlain cs = true → ∃ a b, cs = a ++ '}' :: b ∧ closing? 0 (cs ++ '}' :: rest) = some (a, b ++ '}' :: rest)) := by
  have hstops : opensPlain cs = true →
      ∃ a b, cs = a ++ '}' :: b ∧ closing? 0 (cs ++ '}' :: rest) = some (a, b ++ '}' :: rest) := by
    intro hplain
    obtain ⟨a, b, hcs⟩ := closing?_of_opensPlain hplain h
    exact ⟨a, b, closing?_eq hcs, closing?_append hcs _⟩
  refine ⟨⟨fun hclose => ?_, fun hplain => closing?_of_not_opensPlain hplain h rest⟩, hstops⟩
  cases hplain : opensPlain cs with
  | false => rfl
  | true =>
    obtain ⟨a, b, hcs, hstop⟩ := hstops hplain
    obtain ⟨rfl, -⟩ := Prod.mk.inj (Option.some.inj (hstop.symm.trans hclose))
    have hlength := congrArg List.length hcs
    simp at hlength

end Settings.Reference
