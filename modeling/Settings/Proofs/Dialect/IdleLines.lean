import Settings.Proofs.Dialect.HoconInclude
import Settings.Proofs.Dialect.JsonTokens
import Settings.Proofs.Dialect.PropertiesLines
import Settings.Proofs.Dialect.YamlLists

/-! # Lines that hold nothing

A blank line and a line that holds only a comment carry no meaning in any dialect, wherever a line may start: they may
come and go. Nor does a carriage return in front of a line feed. Each reader has its own reason. Behind a line end the
readers of tokens rest, and the tokens of such a line are blanks and one more line end. The readers of lines pass over
the line, and its number, which moves those behind it, counts for faults only. -/

namespace Settings

variable {before line cs : List Char} {n : Nat}

/-! ### HOCON -/

namespace Hocon

variable {load : Nat → String → Watched Store}

theorem toOption_parse_scan (hload : Lineless load) (text : String) :
    (parse load text).result.toOption = (LexRules.hocon.scan text.toList).bind (finish? load Reader.start) := by
  have hscan : LexRules.hocon.scan text.toList = (tape text.toList).tokens? := rfl
  rw [toOption_parse hload, read?, hscan, Tape.tokens?]
  split
  all_goals rfl

/-- A line without tokens is passed over. -/
theorem finish?_idle (hload : Lineless load) (as bs : List Token) {pre : List Token} (hpre : ∀ tok ∈ pre, tok = .blank) :
    finish? load .start (as ++ [.eol] ++ (pre ++ [.eol]) ++ bs) = finish? load .start (as ++ [.eol] ++ bs) := by
  have heol : ∀ r, feed? load r [.eol] = next? load r .eol := fun r => List.foldlM_cons.trans (bind_pure _)
  rw [List.append_assoc, finish?_append, finish?_append .start (as ++ [Token.eol]) bs]
  cases hfeed : feed? load .start (as ++ [.eol]) with
  | none => rfl
  | some r =>
    rw [feed?_append] at hfeed
    obtain ⟨r₀, hr₀, hr⟩ := Option.bind_eq_some_iff.mp hfeed
    have hbetween := between_of_next? hload (tidy_feed? hload tidy_start hr₀) ((heol r₀).symm.trans hr)
    have hidle : feed? load (between r.store r.scopes) (pre ++ [.eol]) = some (between r.store r.scopes) := by
      have hblank : next? load (between r.store r.scopes) .blank = some (between r.store r.scopes) := rfl
      rw [feed?_blanks hblank hpre, heol, next?_between]
    rw [Option.bind_some, Option.bind_some, finish?_append, hbetween, hidle, Option.bind_some]

end Hocon

/-! ### YAML -/

namespace Yaml

variable {r : Reader} {raw : List Char}

theorem toOption_indentation (n n' : Nat) (content : List Char) :
    (indentation n content).toOption = (indentation n' content).toOption := by
  unfold indentation
  dsimp only
  split
  all_goals rfl

theorem toOption_itemLine (r : Reader) (n n' : Nat) (item : List Char) :
    (itemLine r n item).toOption = (itemLine r n' item).toOption := by
  unfold itemLine
  dsimp only
  repeat' split
  all_goals rfl

theorem toOption_keyLine (r : Reader) (n n' indent : Nat) (body : List Char) :
    (keyLine r n indent body).result.toOption = (keyLine r n' indent body).result.toOption := by
  unfold keyLine
  dsimp only
  repeat' split
  all_goals rfl

theorem toOption_step (r : Reader) (n n' : Nat) (raw : List Char) :
    (step r n raw).result.toOption = (step r n' raw).result.toOption := by
  unfold step
  dsimp only
  split
  · rfl
  refine Noted.toOption_bind_congr (toOption_indentation n n' _) fun (indent, body) => ?_
  cases hitem : item? body with
  | some item =>
    exact toOption_itemLine r n n' item
  | none =>
    exact Noted.toOption_bind_congr rfl fun r' => toOption_keyLine r' n n' indent body

/-- The numbers of lines count for faults only. -/
theorem toOption_run (r : Reader) (n n' : Nat) (lines : List (List Char)) :
    (run r n lines).result.toOption = (run r n' lines).result.toOption := by
  induction lines generalizing r n n' with
  | nil => rfl
  | cons raw lines ih => exact Noted.toOption_bind_congr (toOption_step r n n' raw) fun r' => ih r' _ _

theorem toOption_run_idle (h : Idle raw) (lines more : List (List Char)) :
    (run r n (lines ++ raw :: more)).result.toOption = (run r n (lines ++ more)).result.toOption := by
  rw [run_append, run_append]
  refine Noted.toOption_bind_congr rfl fun r' => ?_
  rw [run, step_idle h, pure_bind]
  exact toOption_run r' _ _ more

theorem idle_white (h : ∀ c ∈ raw, Text.isWhite c) : Idle raw := by
  have hhash : '#' ∉ raw := fun hmem => absurd (h _ hmem) (by decide)
  rw [Idle, withoutComment_eq hhash, Text.trim_white h]

theorem withoutComment_hash (h : ∀ c ∈ raw, Text.isBlank c) (text : List Char) :
    withoutComment none true (raw ++ '#' :: text) = raw := by
  induction raw with
  | nil => rfl
  | cons c raw ih =>
    obtain ⟨hc, hraw⟩ := List.forall_mem_cons.mp h
    have hplain : c ∉ ['"', '\'', '#'] := by
      intro hmem
      simp only [List.mem_cons, List.not_mem_nil, or_false] at hmem
      rcases hmem with rfl | rfl | rfl
      all_goals exact absurd hc (by decide)
    simp only [List.mem_cons, List.not_mem_nil, or_false, not_or] at hplain
    simp [withoutComment, hplain, hc, ih hraw]

theorem idle_comment (h : ∀ c ∈ raw, Text.isBlank c) (text : List Char) : Idle (raw ++ '#' :: text) := by
  rw [Idle, withoutComment_hash h, Text.trim_white fun c hc => Text.isWhite_of_isBlank (h c hc)]

end Yaml

/-! ### Documents -/

namespace Dialect

/-- The lexemes of the dialects that are read by lexemes. The others know no quotes. -/
def rules? : Dialect → Option LexRules
  | hocon => some .hocon
  | json => some .json
  | yaml | properties => none

/-- No quotes are left open at the end of a text. -/
def Unquoted (d : Dialect) (cs : List Char) : Prop := ∀ r ∈ d.rules?, r.Unquoted cs

/-- A text ends with a line feed that ends a line: it does not stand in quotes, and no backslash joins the line with the
    next one. -/
def EndsLine (d : Dialect) (cs : List Char) : Prop :=
  cs.getLast? = some '\n' ∧ d.Unquoted cs ∧ (d = properties → Properties.goesOn false (Text.lines cs) = false)

/-- The characters that end a line. -/
def isLineEnd : Dialect → Char → Bool
  | hocon | json => Text.isLineEnd
  | yaml | properties => (· == '\n')

/-- The characters that leave a line blank. -/
def isWhite : Dialect → Char → Bool
  | hocon | json => Text.isBlank
  | yaml | properties => Text.isWhite

/-- A comment starts here, if it may start here at all. -/
def startsComment : Dialect → List Char → Bool
  | hocon => LexRules.hocon.startsComment
  | json => LexRules.json.startsComment
  | yaml => (·.head? == some '#')
  | properties => fun cs => cs.head? == some '#' || cs.head? == some '!'

/-- A blank line, or a line that holds only blanks and a comment, without its end. -/
inductive Idle (d : Dialect) : List Char → Prop
  | blank {line : List Char} (h : ∀ c ∈ line, d.isWhite c ∧ d.isLineEnd c = false) : Idle d line
  | comment {blanks comment : List Char} (hblanks : ∀ c ∈ blanks, Text.isBlank c) (hstart : d.startsComment comment)
      (hline : ∀ c ∈ comment, d.isLineEnd c = false) : Idle d (blanks ++ comment)

variable {d : Dialect} {r : LexRules} {line : List Char}

/-- A line that holds nothing, as the scanner sees it. -/
theorem Idle.lexical (hr : r ∈ d.rules?) (h : d.Idle line) :
    ∃ blanks comment, line = blanks ++ comment ∧ (∀ c ∈ blanks, Text.isBlank c) ∧ r.Remark comment := by
  cases h with
  | blank h =>
    refine ⟨line, [], (List.append_nil line).symm, fun c hc => ?_, .nil⟩
    cases d with
    | hocon | json => exact (h c hc).1
    | yaml | properties => cases hr
  | @comment blanks comment hblanks hstart hline =>
    refine ⟨blanks, comment, rfl, hblanks, ?_⟩
    cases d with
    | hocon | json =>
      cases hr
      exact ⟨.inr hstart, hline⟩
    | yaml | properties => cases hr

/-- A line that holds nothing, as it comes out of the text: a carriage return at its end may have been taken for a part of
    the line end. -/
theorem Idle.textual (hd : d = yaml ∨ d = properties) (h : d.Idle line) :
    '\n' ∉ line ∧ ∀ raw, raw = line ∨ raw = Text.withoutReturn line →
      (∀ c ∈ raw, Text.isWhite c) ∨
        ∃ blanks c text, raw = blanks ++ c :: text ∧ (∀ b ∈ blanks, Text.isBlank b) ∧ d.startsComment [c] := by
  have hwhite : d.isWhite = Text.isWhite := by rcases hd with rfl | rfl <;> rfl
  have hend : d.isLineEnd '\n' = true := by rcases hd with rfl | rfl <;> rfl
  have hmark : ∀ {comment : List Char}, d.startsComment comment →
      ∃ c text, comment = c :: text ∧ c ≠ '\r' ∧ d.startsComment [c] := by
    intro comment hstart
    cases comment with
    | nil => rcases hd with rfl | rfl <;> cases hstart
    | cons c text =>
      have hc : d.startsComment [c] := by rcases hd with rfl | rfl <;> exact hstart
      refine ⟨c, text, rfl, ?_, hc⟩
      rintro rfl
      rcases hd with rfl | rfl <;> exact absurd hc (by decide)
  cases h with
  | blank h =>
    refine ⟨fun hmem => absurd (h _ hmem).2 (by simp [hend]), fun raw hraw => .inl fun c hc => hwhite ▸ (h c ?_).1⟩
    rcases hraw with rfl | rfl
    · exact hc
    · exact Text.mem_of_mem_withoutReturn hc
  | @comment blanks comment hblanks hstart hline =>
    refine ⟨fun hmem => ?_, fun raw hraw => .inr ?_⟩
    · rcases List.mem_append.mp hmem with hmem | hmem
      · exact absurd (hblanks _ hmem) (by decide)
      · exact absurd (hline _ hmem) (by simp [hend])
    · obtain ⟨c, text, rfl, hc, hstart⟩ := hmark hstart
      obtain ⟨text', htext⟩ := Text.beforeLast?_around hc blanks text
      rcases hraw with rfl | rfl
      · exact ⟨blanks, c, text, rfl, hblanks, hstart⟩
      · exact ⟨blanks, c, text', htext, hblanks, hstart⟩

theorem Idle.yaml (h : Dialect.yaml.Idle line) :
    '\n' ∉ line ∧ ∀ raw, raw = line ∨ raw = Text.withoutReturn line → Yaml.Idle raw := by
  obtain ⟨hfeed, hraw⟩ := h.textual (.inl rfl)
  refine ⟨hfeed, fun raw heq => ?_⟩
  rcases hraw raw heq with hwhite | ⟨blanks, c, text, rfl, hblanks, hc⟩
  · exact Yaml.idle_white hwhite
  · obtain rfl : c = '#' := by simpa [startsComment] using hc
    exact Yaml.idle_comment hblanks text

theorem Idle.properties (h : Dialect.properties.Idle line) :
    '\n' ∉ line ∧ ∀ raw, raw = line ∨ raw = Text.withoutReturn line → Properties.isSkipped (Text.trimStart raw) := by
  obtain ⟨hfeed, hraw⟩ := h.textual (.inr rfl)
  refine ⟨hfeed, fun raw heq => ?_⟩
  rcases hraw raw heq with hwhite | ⟨blanks, c, text, rfl, hblanks, hc⟩
  · rw [Text.trimStart, List.dropWhile_eq_nil_iff.mpr hwhite]
    rfl
  · have hplain : Text.isWhite c = false := by
      simp only [startsComment, List.head?_cons, Bool.or_eq_true, beq_iff_eq, Option.some.injEq] at hc
      rcases hc with rfl | rfl
      all_goals decide
    rw [Text.trimStart, List.dropWhile_append_of_pos fun b hb => Text.isWhite_of_isBlank (hblanks b hb),
      List.dropWhile_cons_of_neg (by simp [hplain])]
    simpa [startsComment, Properties.isSkipped] using hc

end Dialect

theorem LexRules.endsWords_hocon : LexRules.hocon.EndsWords := LexRules.linewise_hocon.words

theorem LexRules.endsWords_json : LexRules.json.EndsWords := LexRules.linewise_hocon.words

namespace Document

variable {lib : Library} {dir : Option String}

/-- The store that a text in a dialect reads as, by its tokens or by its lines. -/
def stored? (lib : Library) (dir : Option String) : Dialect → List Char → Option Store
  | .hocon, cs => (LexRules.hocon.scan cs).bind (Hocon.finish? (included lib dir 15) .start)
  | .json, cs => (LexRules.json.scan cs).bind (FlatJson.finish? .start)
  | .yaml, cs => (Yaml.run .start 1 (Text.lines cs)).result.toOption
  | .properties, cs => (Properties.texts (Text.lines cs)).foldlM Properties.put? .empty

theorem toOption_read (lib : Library) (source : String) (d : Dialect) (text : String) (dir : Option String) :
    ((Document.mk source d text dir).read lib).result.toOption = stored? lib dir d text.toList := by
  have hnote : ∀ {x : Watched Store} {f : Store → Notice},
      (x >>= fun s => Noted.note (f s) >>= fun _ => pure s).result.toOption = x.result.toOption := by
    intro x f
    rw [Noted.result_bind]
    cases x.result with
    | _ => rfl
  cases d with
  | hocon =>
    exact (toOption_readWithin lib 15 source text dir).trans
      (Hocon.toOption_parse_scan (lineless_included lib dir 15) text)
  | json => exact hnote.trans (FlatJson.toOption_parse text)
  | yaml => exact hnote
  | properties => exact hnote.trans (Properties.toOption_parse text)

/-- Lines that hold nothing are passed over, wherever a line may start. -/
theorem stored?_idle {d : Dialect} {line ending : List Char} (hbefore : d.EndsLine before) (hline : d.Idle line)
    (hending : LexRules.IsBreak ending) (after : List Char) :
    stored? lib dir d (before ++ (line ++ ending) ++ after) = stored? lib dir d (before ++ after) := by
  obtain ⟨hlast, hquotes, hon⟩ := hbefore
  cases d with
  | hocon =>
    obtain ⟨blanks, comment, rfl, hblanks, hcomment⟩ := hline.lexical rfl
    exact LexRules.scan_bind_idle LexRules.endsWords_hocon hlast (hquotes _ rfl) hblanks hcomment hending
      (fun as bs pre => Hocon.finish?_idle (lineless_included lib dir 15) as bs) after
  | json =>
    obtain ⟨blanks, comment, rfl, hblanks, hcomment⟩ := hline.lexical rfl
    exact LexRules.scan_bind_idle LexRules.endsWords_json hlast (hquotes _ rfl) hblanks hcomment hending
      (fun as bs pre => FlatJson.finish?_idle as bs) after
  | yaml =>
    obtain ⟨hfeed, hidle⟩ := hline.yaml
    obtain ⟨raw, hraw, hlines⟩ := Text.lines_between hlast hfeed hending after
    rw [stored?, stored?, hlines, Text.lines_of_lineFeed hlast]
    exact Yaml.toOption_run_idle (hidle raw hraw) _ _
  | properties =>
    obtain ⟨hfeed, hidle⟩ := hline.properties
    obtain ⟨raw, hraw, hlines⟩ := Text.lines_between hlast hfeed hending after
    rw [stored?, stored?, hlines, Text.lines_of_lineFeed hlast, Properties.texts_append (hon rfl),
      Properties.texts_append (hon rfl), Properties.texts_skipped (hidle raw hraw)]

/-- A carriage return in front of each line feed changes nothing, if no line feed stands in quotes. -/
theorem stored?_withReturns {d : Dialect} (hreturn : '\r' ∉ cs)
    (hquotes : ∀ before after, cs = before ++ '\n' :: after → d.Unquoted (before ++ ['\n'])) :
    stored? lib dir d (Text.withReturns cs) = stored? lib dir d cs := by
  cases d with
  | hocon =>
    rw [stored?, stored?, LexRules.scan_withReturns LexRules.endsWords_hocon hreturn fun before after heq =>
      hquotes before after heq _ rfl]
  | json =>
    rw [stored?, stored?, LexRules.scan_withReturns LexRules.endsWords_json hreturn fun before after heq =>
      hquotes before after heq _ rfl]
  | yaml | properties => rw [stored?, stored?, Text.lines_withReturns hreturn]

/-- Blank lines, lines that hold only a comment, and carriage returns in front of line feeds carry no meaning. Behind a
    line feed that ends a line such a line may come and go, and where no quotes run past their line each line feed may get
    a carriage return: the document still reads as the same store, or it still fails. -/
theorem read_relined (lib : Library) (d : Dialect) (source : String) (dir : Option String) :
    (∀ before line ending after : String, d.EndsLine before.toList → d.Idle line.toList →
      ending = "\n" ∨ ending = "\r\n" →
        ((Document.mk source d (before ++ (line ++ ending) ++ after) dir).read lib).result.toOption =
          ((Document.mk source d (before ++ after) dir).read lib).result.toOption) ∧
    ∀ text : String, '\r' ∉ text.toList →
      (∀ before after, text.toList = before ++ '\n' :: after → d.Unquoted (before ++ ['\n'])) →
        ((Document.mk source d (String.ofList (Text.withReturns text.toList)) dir).read lib).result.toOption =
          ((Document.mk source d text dir).read lib).result.toOption := by
  constructor
  · intro before line ending after hbefore hline hending
    simp only [toOption_read, String.toList_append]
    refine stored?_idle hbefore hline ?_ after.toList
    rcases hending with rfl | rfl
    · exact .inl rfl
    · exact .inr rfl
  · intro text hreturn hquotes
    rw [toOption_read, toOption_read, String.toList_ofList]
    exact stored?_withReturns hreturn hquotes

/-- A value that is awaited on the next line may be awaited longer. -/
theorem read_awaited :
    ((Document.mk "host" .json ("\x7b\n\"a\" :\n" ++ ("\t// later" ++ "\r\n") ++ "1,\n\x7d") none).read
        shelf).result.toOption.map Store.pairs = some [("a", "1")] ∧
      ((Document.mk "host" .json (String.ofList (Text.withReturns "\x7b\n\"a\" :\n1,\n\x7d".toList)) none).read
        shelf).result.toOption.map Store.pairs = some [("a", "1")] := by
  have hplain : ((Document.mk "host" .json "\x7b\n\"a\" :\n1,\n\x7d" none).read shelf).result.toOption.map Store.pairs =
      some [("a", "1")] := by
    decide +kernel
  constructor
  · have hbefore : Dialect.json.EndsLine "\x7b\n\"a\" :\n".toList := by
      refine ⟨by decide +kernel, ?_, by simp⟩
      rintro _ ⟨rfl⟩ more -
      decide +kernel
    have hline : Dialect.json.Idle "\t// later".toList := by
      have hsplit : "\t// later".toList = ['\t'] ++ "// later".toList := by decide +kernel
      have hend : "// later".toList.all (!Dialect.json.isLineEnd ·) := by decide +kernel
      rw [hsplit]
      exact .comment (List.forall_mem_singleton.mpr rfl) (by decide +kernel) (by simpa using hend)
    refine (congrArg (Option.map Store.pairs)
      ((read_relined shelf .json "host" none).1 _ _ _ "1,\n\x7d" hbefore hline (.inr rfl))).trans ?_
    exact hplain
  · have hlength : "\x7b\n\"a\" :\n1,\n\x7d".toList.length = 12 := by decide +kernel
    have hscan : ∀ k < 12, ("\x7b\n\"a\" :\n1,\n\x7d".toList.take (k + 1)).getLast? = some '\n' →
        (LexRules.json.scan ("\x7b\n\"a\" :\n1,\n\x7d".toList.take (k + 1))).isSome := by
      decide +kernel
    refine (congrArg (Option.map Store.pairs)
      ((read_relined shelf .json "host" none).2 "\x7b\n\"a\" :\n1,\n\x7d" (by decide +kernel) ?_)).trans hplain
    rintro before after heq _ ⟨rfl⟩ more -
    have htake : "\x7b\n\"a\" :\n1,\n\x7d".toList.take (before.length + 1) = before ++ ['\n'] := by
      rw [heq, List.take_length_add_append]
      rfl
    rw [← htake]
    refine hscan before.length ?_ (by rw [htake, List.getLast?_concat])
    rw [← hlength, heq, List.length_append, List.length_cons]
    omega

end Document

end Settings
