import Settings.Lexeme.Cursor
import Settings.Proofs.Lexeme.Lines

/-! # Looking ahead changes nothing

Whatever is asked of a cursor in whatever order, it answers with the lexemes of the plain scan, each at its own place, up
to the first fault. Whether a lexeme waits in the cursor or is still to be scanned shows in no answer. -/

namespace Settings

variable {r : LexRules}

/-! ### The places of a scan -/

namespace Tape

variable {t : Tape} {l : Lexeme} {e : Fault} {n : Nat}

/-- What a scan comes to in a place, counted from zero. Behind the end of the text there is nothing but the end, and
    nothing is read behind a fault. -/
def nth : Tape → Nat → Except Fault Lexeme
  | ended line, _ => .ok ⟨line, .eof⟩
  | torn e, _ => .error e
  | cons l _, 0 => .ok l
  | cons _ rest, n + 1 => rest.nth n

theorem nth_of_getElem? (h : t.lexemes[n]? = some l) : t.nth n = .ok l := by
  induction t generalizing n with
  | ended line =>
    obtain ⟨hn, rfl⟩ := List.getElem?_eq_some_iff.mp h
    simp [lexemes, nth]
  | torn e => cases h
  | cons first rest ih =>
    cases n with
    | zero => exact congrArg Except.ok (Option.some.inj h)
    | succ n => exact ih h

/-- A place is at fault just where the scan meets its first fault there or before. -/
theorem nth_eq_error_iff : t.nth n = .error e ↔ t.fault? = some e ∧ t.lexemes.length ≤ n := by
  induction t generalizing n with
  | ended line => simp [nth, fault?]
  | torn e' => simp [nth, fault?, lexemes]
  | cons first rest ih =>
    cases n with
    | zero => simp [nth, lexemes]
    | succ n => simp [nth, ih, fault?, lexemes]

/-- The end of the text is the last lexeme, and it comes again in every place behind. -/
theorem nth_of_length_le (h : t.fault? = none) (hn : t.lexemes.length ≤ n) :
    ∃ l ∈ t.lexemes.getLast?, l.token = .eof ∧ t.nth n = .ok l := by
  induction t generalizing n with
  | ended line => exact ⟨⟨line, .eof⟩, rfl, rfl, rfl⟩
  | torn e => cases h
  | cons first rest ih =>
    cases n with
    | zero => simp [lexemes] at hn
    | succ n =>
      obtain ⟨l, hl, heof, hnth⟩ := ih h (Nat.le_of_succ_le_succ hn)
      exact ⟨l, by rw [lexemes, List.getLast?_cons, Option.mem_def.mp hl]; rfl, heof, hnth⟩

end Tape

/-- The results up to the first fault, that one included. -/
def upToFault {α : Type} : List (Except Fault α) → List (Except Fault α)
  | [] => []
  | .ok a :: rest => .ok a :: upToFault rest
  | .error e :: _ => [.error e]

namespace Scanner

variable {s s' : Scanner} {l : Lexeme} {e : Fault}

/-- At the end of a text a scan stays. -/
theorem tape_of_eof (h : s.next r = (.ok l, s')) (heof : l.token = .eof) :
    s.tape r = .ended l.line ∧ s'.tape r = .ended l.line := by
  have hnil := rest_of_read_eof h heof
  rw [next, read, hnil] at h
  cases h
  refine ⟨?_, ?_⟩
  · rw [tape_eq, next, read, hnil]
    rfl
  · generalize s.skip r = s at hnil
    obtain ⟨rest, line, boundary⟩ := s
    cases hnil
    exact tape_nil

theorem nth_tape_ok (h : s.next r = (.ok l, s')) (n : Nat) :
    (s.tape r).nth 0 = .ok l ∧ (s.tape r).nth (n + 1) = (s'.tape r).nth n := by
  by_cases heof : l.token = .eof
  · obtain ⟨htape, htape'⟩ := tape_of_eof h heof
    rw [htape, htape']
    exact ⟨by rw [Tape.nth, ← heof], rfl⟩
  · rw [tape_of_next h heof]
    exact ⟨rfl, rfl⟩

theorem nth_tape_error (h : s.next r = (.error e, s')) (n : Nat) : (s.tape r).nth n = .error e := by
  rw [tape_eq, h]
  rfl

end Scanner

namespace Cursor

variable {c c' : Cursor} {l : Lexeme} {e : Fault} {n count : Nat}

/-- What a cursor comes to in a place: the lexemes that wait in it stand before those of its scan. -/
def nth (r : LexRules) (c : Cursor) (n : Nat) : Except Fault Lexeme :=
  match c.ahead[n]? with
  | some l => .ok l
  | none => (c.scanner.tape r).nth (n - c.ahead.length)

theorem nth_of_lt (h : n < c.ahead.length) : c.nth r n = .ok c.ahead[n] := by
  rw [nth, List.getElem?_eq_getElem h]

theorem nth_of_le (h : c.ahead.length ≤ n) : c.nth r n = (c.scanner.tape r).nth (n - c.ahead.length) := by
  rw [nth, List.getElem?_eq_none h]

theorem nth_start (text : String) (n : Nat) : (start text).nth r n = (Tape.ofText r text).nth n := rfl

/-! ### Reading ahead -/

/-- A lexeme that has come to wait in the cursor stands where it stood in the scan. -/
theorem nth_wait {s : Scanner} (h : c.scanner.next r = (.ok l, s)) :
    (⟨s, c.ahead ++ [l]⟩ : Cursor).nth r = c.nth r := by
  funext n
  obtain ⟨hfirst, hrest⟩ := Scanner.nth_tape_ok h (n - (c.ahead.length + 1))
  rcases Nat.lt_trichotomy n c.ahead.length with hwaits | rfl | hbehind
  · rw [nth_of_lt hwaits, nth_of_lt (by simp; omega), List.getElem_append_left hwaits]
  · rw [nth_of_le (Nat.le_refl _), nth_of_lt (by simp), Nat.sub_self, hfirst]
    simp
  · have hplace : n - c.ahead.length = n - (c.ahead.length + 1) + 1 := by omega
    rw [nth_of_le (Nat.le_of_lt hbehind), hplace, hrest, nth_of_le (by simp; omega)]
    simp

theorem nth_fill (h : c.fill r count = (.ok (), c')) : c'.nth r = c.nth r := by
  induction count generalizing c with
  | zero =>
    cases h
    rfl
  | succ count ih =>
    rw [fill] at h
    split at h
    · next hnext => rw [ih h, nth_wait hnext]
    · cases h

/-- A fault that is met while `count` lexemes are read ahead is what the scan comes to in the last of their places. -/
theorem nth_fill_error (h : c.fill r count = (.error e, c')) (hn : c.ahead.length + count ≤ n + 1) :
    c.nth r n = .error e := by
  induction count generalizing c with
  | zero => cases h
  | succ count ih =>
    rw [fill] at h
    split at h
    · next l s hnext =>
      rw [← nth_wait hnext]
      refine ih h ?_
      rw [List.length_append, List.length_singleton]
      omega
    · next hnext =>
      cases h
      rw [nth_of_le (by omega), Scanner.nth_tape_error hnext]

theorem peekNth_eq (c : Cursor) (n : Nat) :
    (c.peekNth r n).1 = c.nth r n ∧ ((c.peekNth r n).1.isOk → (c.peekNth r n).2.nth r = c.nth r) := by
  unfold peekNth
  rcases hfill : c.fill r (n + 1 - c.ahead.length) with ⟨e | ⟨⟩, c'⟩
  · by_cases hwaits : n < c.ahead.length
    · -- Nothing has to be read ahead.
      rw [Nat.sub_eq_zero_of_le hwaits] at hfill
      cases hfill
    · exact ⟨(nth_fill_error hfill (by omega)).symm, nofun⟩
  · have hlength := length_ahead_fill hfill
    have hwaits : n < c'.ahead.length := by omega
    refine ⟨?_, fun _ => nth_fill hfill⟩
    rw [← nth_fill hfill, nth_of_lt hwaits]
    simp [List.getElem?_eq_getElem hwaits]

theorem next_eq (c : Cursor) :
    (c.next r).1 = c.nth r 0 ∧ ((c.next r).1.isOk → ∀ n, (c.next r).2.nth r n = c.nth r (n + 1)) := by
  obtain ⟨s, ahead⟩ := c
  cases ahead with
  | cons l ls =>
    refine ⟨rfl, fun _ n => ?_⟩
    simp [next, nth, Nat.add_sub_add_right]
  | nil =>
    rcases hnext : s.next r with ⟨e | l, s'⟩
    · refine ⟨?_, ?_⟩
      · simp [next, nth, hnext, Scanner.nth_tape_error hnext]
      · simp [next, hnext, Except.isOk, Except.toBool]
    · obtain ⟨hfirst, -⟩ := Scanner.nth_tape_ok hnext 0
      refine ⟨?_, fun _ n => ?_⟩
      · simp [next, nth, hnext, hfirst]
      · simp [next, nth, hnext, (Scanner.nth_tape_ok hnext n).2]

/-! ### Any sequence of requests -/

/-- What can be asked of a cursor. -/
inductive Request where
  | next
  | peek
  | peekNth (n : Nat)
  deriving DecidableEq

/-- How far behind the next lexeme the one stands that is asked for. -/
def Request.distance : Request → Nat
  | next | peek => 0
  | peekNth n => n

/-- How many lexemes a request takes. -/
def Request.takes : Request → Nat
  | next => 1
  | peek | peekNth _ => 0

/-- What a cursor answers, and what it is behind the answer. -/
def answer (r : LexRules) (c : Cursor) : Request → Except Fault Lexeme × Cursor
  | .next => c.next r
  | .peek => c.peek r
  | .peekNth n => c.peekNth r n

/-- The answers to some requests, up to the first fault. -/
def answers (r : LexRules) (c : Cursor) : List Request → List (Except Fault Lexeme)
  | [] => []
  | q :: qs =>
    match c.answer r q with
    | (.ok l, c) => .ok l :: answers r c qs
    | (.error e, _) => [.error e]

/-- The places that some requests ask for, when `taken` lexemes have been taken before. -/
def places (taken : Nat) : List Request → List Nat
  | [] => []
  | q :: qs => (taken + q.distance) :: places (taken + q.takes) qs

theorem answer_eq (c : Cursor) (q : Request) :
    (c.answer r q).1 = c.nth r q.distance ∧
      ((c.answer r q).1.isOk → ∀ n, (c.answer r q).2.nth r n = c.nth r (n + q.takes)) := by
  cases q with
  | next => exact next_eq c
  | peek => exact ⟨(peekNth_eq c 0).1, fun h => congrFun ((peekNth_eq c 0).2 h)⟩
  | peekNth n => exact ⟨(peekNth_eq c n).1, fun h => congrFun ((peekNth_eq c n).2 h)⟩

/-- A cursor that has come to the place `taken` of a tape answers with what the tape holds in the places asked for. -/
theorem answers_of_nth {c : Cursor} {t : Tape} {taken : Nat} (h : ∀ n, c.nth r n = t.nth (taken + n))
    (requests : List Request) : c.answers r requests = upToFault ((places taken requests).map t.nth) := by
  induction requests generalizing c taken with
  | nil => rfl
  | cons q qs ih =>
    obtain ⟨hanswer, hbehind⟩ := c.answer_eq q
    rw [places, List.map_cons, ← h, ← hanswer, answers]
    rcases hq : c.answer r q with ⟨e | l, c'⟩
    · rfl
    · rw [hq] at hbehind
      have hc' : ∀ n, c'.nth r n = t.nth (taken + q.takes + n) := fun n => by
        rw [hbehind rfl n, h, Nat.add_assoc, Nat.add_comm n]
      rw [upToFault, ← ih hc']

/-- However a cursor is read and looked ahead with, its answers are those of the plain scan in the places asked for, up
    to and including the first fault. A place holds the lexeme of its number, or the end of the text again behind the
    end, and it is at fault exactly if the scan meets its first fault there or before. -/
theorem answers_start (r : LexRules) (text : String) (requests : List Request) :
    (start text).answers r requests = upToFault ((places 0 requests).map (Tape.ofText r text).nth) ∧
    (∀ n l, (Tape.ofText r text).lexemes[n]? = some l → (Tape.ofText r text).nth n = .ok l) ∧
    (∀ n, (Tape.ofText r text).fault? = none → (Tape.ofText r text).lexemes.length ≤ n →
      ∃ l ∈ (Tape.ofText r text).lexemes.getLast?, l.token = .eof ∧ (Tape.ofText r text).nth n = .ok l) ∧
    ∀ n e, (Tape.ofText r text).nth n = .error e ↔
      (Tape.ofText r text).fault? = some e ∧ (Tape.ofText r text).lexemes.length ≤ n := by
  refine ⟨answers_of_nth (fun n => ?_) requests, fun n l => Tape.nth_of_getElem?, fun n => Tape.nth_of_length_le,
    fun n e => Tape.nth_eq_error_iff⟩
  rw [nth_start, Nat.zero_add]

end Cursor

end Settings
