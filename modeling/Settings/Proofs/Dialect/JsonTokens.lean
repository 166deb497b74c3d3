import Settings.Dialect.Json
import Settings.Proofs.Lexeme.LineFeeds

/-! # A flat JSON document as tokens

What a document of the flat JSON dialect reads as, if it reads as anything, depends on its tokens only. Behind a line
end the reader rests: a further line end leaves it as it is, whether it awaits a key or a value. -/

namespace Settings.FlatJson

variable {r r' : Reader} {tok : Token} {as bs toks : List Token}

/-! ### Readers behind tokens -/

/-- The reader behind a token. -/
def next? (r : Reader) (tok : Token) : Option Reader := (step r ⟨1, tok⟩).result.toOption

theorem toOption_closeScope (r : Reader) (line line' : Nat) :
    (closeScope r line).result.toOption = (closeScope r line').result.toOption := by
  unfold closeScope
  repeat' split
  all_goals
    refine Noted.toOption_bind_congr rfl fun r => ?_
    by_cases hscopes : r.scopes = []
    · simp only [if_pos hscopes, Noted.result_fault]
      rfl
    · simp only [if_neg hscopes]

/-- The line of a lexeme counts for faults only. -/
theorem toOption_step (r : Reader) (l : Lexeme) : (step r l).result.toOption = next? r l.token := by
  obtain ⟨line, tok⟩ := l
  unfold next? step
  generalize ({ r with dollar := false } : Reader) = s
  generalize r.dollar = dollar
  cases tok with
  | word | quoted | blank => rfl
  | eol | eof =>
    simp only [take, endLine]
    repeat' split
    all_goals rfl
  | char c =>
    simp only [take]
    split
    · split
      · rfl
      · unfold openScope
        split
        all_goals rfl
    split
    · split
      · rfl
      · exact toOption_closeScope s line 1
    split
    · rfl
    · unfold keyChar
      repeat' split
      all_goals rfl

/-- The reader behind some tokens. -/
def feed? (r : Reader) (toks : List Token) : Option Reader := toks.foldlM next? r

/-- The store of the tokens up to the end of the text. -/
def finish? (r : Reader) : List Token → Option Store
  | [] => (next? r .eof).bind fun r => (finish r 1).toOption
  | tok :: toks => (next? r tok).bind (finish? · toks)

theorem finish?_append (r : Reader) (as bs : List Token) :
    finish? r (as ++ bs) = (feed? r as).bind (finish? · bs) := by
  induction as generalizing r with
  | nil => rfl
  | cons tok as ih =>
    rw [List.cons_append, finish?, feed?, List.foldlM_cons]
    cases next? r tok with
    | none => rfl
    | some r' => exact ih r'

theorem toOption_finish (r : Reader) (line line' : Nat) : (finish r line).toOption = (finish r line').toOption := by
  unfold finish
  repeat' split
  all_goals rfl

theorem toOption_run (r : Reader) (tape : Tape) : (run r tape).result.toOption = tape.tokens?.bind (finish? r) := by
  induction tape generalizing r with
  | torn e => rfl
  | ended line =>
    have hrun : (run r (.ended line)).result.toOption =
        (step r ⟨line, .eof⟩ >>= fun r => .of (finish r 1)).result.toOption :=
      Noted.toOption_bind_congr rfl fun r => toOption_finish r line 1
    refine hrun.trans ?_
    change _ = (next? r .eof).bind fun r => (finish r 1).toOption
    rw [Noted.result_bind, ← toOption_step r ⟨line, .eof⟩]
    cases (step r ⟨line, .eof⟩).result with
    | _ => rfl
  | cons l rest ih =>
    have hstep := toOption_step r l
    rw [run, Noted.result_bind, Tape.tokens?_cons, Option.bind_map]
    cases hres : (step r l).result with
    | error e =>
      rw [hres] at hstep
      have hnone : finish? r ∘ (l.token :: ·) = fun _ => none := by
        funext toks
        rw [Function.comp, finish?, ← hstep]
        rfl
      rw [hnone, Option.bind_fun_none]
      rfl
    | ok r' =>
      rw [hres] at hstep
      refine (ih r').trans (congrArg _ (funext fun toks => ?_))
      rw [Function.comp, finish?, ← hstep]
      rfl

theorem toOption_parse (text : String) :
    (parse text).result.toOption = (LexRules.json.scan text.toList).bind (finish? Reader.start) := toOption_run _ _

/-! ### Behind a line end -/

/-- Line ends and blanks leave the reader as it is. -/
def Rests (r : Reader) : Prop := next? r .eol = some r ∧ next? r .blank = some r

theorem rests_of_next? (h : next? r .eol = some r') : Rests r' := by
  obtain ⟨store, scopes, key, value, separated, dollar, depth⟩ := r
  change (endLine ⟨store, scopes, key, value, separated, false, depth⟩ 1).result.toOption = some r' at h
  unfold endLine at h
  split at h
  · cases h
    exact ⟨rfl, rfl⟩
  · next hvalue =>
    split at h
    · cases h
    · next hkey =>
      cases h
      exact ⟨congrArg (fun x : Watched Reader => x.result.toOption) ((if_neg hvalue).trans (if_neg hkey)), rfl⟩

theorem Rests.feed?_idle {pre : List Token} (h : Rests r) (hpre : ∀ tok ∈ pre, tok = .blank) :
    feed? r (pre ++ [.eol]) = some r := by
  induction pre with
  | nil => exact (List.foldlM_cons.trans (bind_pure _)).trans h.1
  | cons tok pre ih =>
    obtain ⟨rfl, hrest⟩ := List.forall_mem_cons.mp hpre
    rw [List.cons_append, feed?, List.foldlM_cons, h.2]
    exact ih hrest

/-- A line without tokens is passed over. -/
theorem finish?_idle (as bs : List Token) {pre : List Token} (hpre : ∀ tok ∈ pre, tok = .blank) :
    finish? r (as ++ [.eol] ++ (pre ++ [.eol]) ++ bs) = finish? r (as ++ [.eol] ++ bs) := by
  have heol : ∀ r : Reader, feed? r [.eol] = next? r .eol := fun r => List.foldlM_cons.trans (bind_pure _)
  rw [List.append_assoc, finish?_append, finish?_append r (as ++ [Token.eol]) bs]
  cases hfeed : feed? r (as ++ [.eol]) with
  | none => rfl
  | some r₁ =>
    rw [feed?, List.foldlM_append] at hfeed
    obtain ⟨r₀, -, hr₁⟩ := Option.bind_eq_some_iff.mp hfeed
    have hrests := rests_of_next? ((heol r₀).symm.trans hr₁)
    rw [Option.bind_some, Option.bind_some, finish?_append, hrests.feed?_idle hpre, Option.bind_some]

end Settings.FlatJson
