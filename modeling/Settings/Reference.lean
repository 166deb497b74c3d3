import Settings.Assoc
import Settings.Noted
import Settings.Text.Blank

/-!
# References

A reference is `${key}` or `${key,default}`. Its body is expanded first, so references nest, and is then
cut at its first comma into a key and a default. The value of the key is expanded again. A key that comes
up while its own value is expanded closes a cycle. A reference that is not closed is plain text.

Expansion ends because the keys of a source are finitely many: on the way down either a key of the source
is opened, or the text gets shorter. Each question to the source and each text that is expanded is noted.
-/
namespace Settings.Reference

/-- The texts that references can look up: pairs of a key and a text, of which the first with a key
    counts. -/
abbrev Source := List (String × String)

/-- What becomes of a reference whose key is missing and that has no default. -/
inductive Policy where
  | keep
  | fail
  deriving DecidableEq, Repr

/-- The text before and behind the first `${`. -/
def opening? : List Char → Option (List Char × List Char)
  | '$' :: '{' :: body => some ([], body)
  | c :: cs => (opening? cs).map fun (a, b) => (c :: a, b)
  | [] => none

/-- The text before and behind the brace that closes a reference, when `depth` further references are
    open before it. -/
def closing? (depth : Nat) : List Char → Option (List Char × List Char)
  | '$' :: '{' :: cs => (closing? (depth + 1) cs).map fun (a, b) => ('$' :: '{' :: a, b)
  | '}' :: cs =>
    match depth with
    | 0 => some ([], cs)
    | d + 1 => (closing? d cs).map fun (a, b) => ('}' :: a, b)
  | c :: cs => (closing? depth cs).map fun (a, b) => (c :: a, b)
  | [] => none

theorem opening?_reference (body : List Char) : opening? ('$' :: '{' :: body) = some ([], body) := rfl

theorem opening?_eq {cs a b : List Char} (h : opening? cs = some (a, b)) : cs = a ++ '$' :: '{' :: b := by
  fun_induction opening? cs generalizing a b with
  | case1 body => simp only [Option.some.injEq, Prod.mk.injEq] at h; simp [← h.1, ← h.2]
  | case2 c cs _ ih =>
    simp only [Option.map_eq_some_iff, Prod.exists, Prod.mk.injEq] at h
    obtain ⟨a', b', h', rfl, rfl⟩ := h
    simp [ih h']
  | case3 => simp at h

theorem closing?_eq {depth : Nat} {cs a b : List Char} (h : closing? depth cs = some (a, b)) :
    cs = a ++ '}' :: b := by
  fun_induction closing? depth cs generalizing a b with
  | case1 depth cs ih | case3 cs d ih | case4 depth c cs _ _ ih =>
    simp only [Option.map_eq_some_iff, Prod.exists, Prod.mk.injEq] at h
    obtain ⟨a', b', h', rfl, rfl⟩ := h
    simp [ih h']
  | case2 cs => simp only [Option.some.injEq, Prod.mk.injEq] at h; simp [← h.1, ← h.2]
  | case5 => simp at h

/-- The body of a reference and what follows it are shorter than the text by the reference's own signs. -/
theorem length_reference {cs before body inner rest : List Char} (ho : opening? cs = some (before, body))
    (hc : closing? 0 body = some (inner, rest)) : inner.length + rest.length + 3 ≤ cs.length := by
  rw [opening?_eq ho, closing?_eq hc]
  simp only [List.length_append, List.length_cons]
  omega

/-- The keys of a source that are not on the chain of opened keys. -/
def unopened (source : Source) (chain : List String) : Nat :=
  ((Assoc.keys source).filter (· ∉ chain)).length

theorem unopened_cons_lt {source : Source} {chain : List String} {key : String} (h : key ∈ Assoc.keys source)
    (hc : key ∉ chain) : unopened source (key :: chain) < unopened source chain := by
  have hfilter : (Assoc.keys source).filter (· ∉ key :: chain) =
      ((Assoc.keys source).filter (· ∉ chain)).filter (· ≠ key) := by
    rw [List.filter_filter]
    exact List.filter_congr fun k _ => by simp [not_or]
  rw [unopened, unopened, hfilter, List.length_filter_lt_length_iff_exists]
  exact ⟨key, List.mem_filter.mpr ⟨h, decide_eq_true hc⟩, by simp⟩

/-- The key and the default of a body that has been expanded, both trimmed. -/
def keyAndDefault (inner : List Char) : String × Option (List Char) :=
  match Text.cut? ',' inner with
  | some (key, default) => (String.ofList (Text.trim key), some (Text.trim default))
  | none => (String.ofList (Text.trim inner), none)

/-- What stands for a reference whose key the source does not have. -/
def missing (policy : Policy) (inner : List Char) : Except Fault (List Char) :=
  match keyAndDefault inner, policy with
  | (_, some default), _ => .ok default
  | (_, none), .keep => .ok ('$' :: '{' :: inner ++ ['}'])
  | (key, none), .fail => .error (.unresolvedReference key)

/-! ### Resolving -/

/-- One thing that is done to resolve references. -/
inductive Event where
  /-- The source is asked for a key. -/
  | asks (key : String)
  /-- The expansion of a text begins; these keys are opened around it. -/
  | expands (chain : List String) (text : List Char)
  deriving DecidableEq, Repr

/-- Work that resolves references. -/
abbrev Resolving := Noted Event

/-- Asks the source for a key. -/
def ask (source : Source) (key : String) : Resolving (Option {raw // Assoc.get? key source = some raw}) := do
  Noted.note (.asks key)
  return (Assoc.get? key source).attach

theorem ask_stored {source : Source} {key raw : String} (h : Assoc.get? key source = some raw) :
    ask source key = ⟨[.asks key], .ok (some ⟨raw, h⟩)⟩ := by
  have hattach : (Assoc.get? key source).attach = some ⟨raw, h⟩ := Option.attach_eq_some_iff.mpr h
  rw [ask, hattach]
  rfl

theorem ask_absent {source : Source} {key : String} (h : Assoc.get? key source = none) :
    ask source key = ⟨[.asks key], .ok none⟩ := by
  rw [ask, Option.attach_eq_none_iff.mpr h]
  rfl

mutual

/-- Expands the references of a text. `chain` holds the keys whose values are being expanded, `done` the
    keys that have been, with what their values expanded to. -/
def expansion (source : Source) (policy : Policy) (chain : List String) (done : List (String × List Char))
    (text : List Char) : Resolving (List Char × List (String × List Char)) := do
  Noted.note (.expands chain text)
  sweep source policy chain done text
termination_by (unopened source chain, text.length, 1)
decreasing_by
  exact .right _ (.right _ Nat.zero_lt_one)

/-- Goes along a text and puts a value in the place of each reference. -/
def sweep (source : Source) (policy : Policy) (chain : List String) (done : List (String × List Char))
    (text : List Char) : Resolving (List Char × List (String × List Char)) :=
  match _ho : opening? text with
  | none => return (text, done)
  | some (before, body) =>
    match _hc : closing? 0 body with
    | none => return (text, done)
    | some (inner, rest) => do
      let (inner, done) ← expansion source policy chain done inner
      let (value, done) ← valueFor source policy chain done inner
      let (rest, done) ← sweep source policy chain done rest
      return (before ++ value ++ rest, done)
termination_by (unopened source chain, text.length, 0)
decreasing_by
  all_goals
    have := length_reference _ho _hc
    exact .right _ (.left _ _ (by omega))

/-- The value of a reference whose body has been expanded. -/
def valueFor (source : Source) (policy : Policy) (chain : List String) (done : List (String × List Char))
    (inner : List Char) : Resolving (List Char × List (String × List Char)) :=
  let key := (keyAndDefault inner).1
  if _hk : key ∈ chain then .fault (.referenceCycle key)
  else
    match Assoc.get? key done with
    | some value => return (value, done)
    | none => do
      match ← ask source key with
      | some ⟨raw, _hs⟩ =>
        let (value, done) ← expansion source policy (key :: chain) done raw.toList
        return (value, Assoc.insert key value done)
      | none => .of ((missing policy inner).map (·, done))
termination_by (unopened source chain, 0, 0)
decreasing_by
  exact .left _ _ (unopened_cons_lt (Assoc.mem_keys_of_get? _hs) _hk)

end

/-- What the expansion of a text gives. -/
def expand (source : Source) (policy : Policy) (chain : List String) (done : List (String × List Char))
    (text : List Char) : Except Fault (List Char × List (String × List Char)) :=
  (expansion source policy chain done text).result

/-- Expands every reference in a text. -/
def resolution (source : Source) (policy : Policy) (text : String) : Resolving String := do
  let (value, _) ← expansion source policy [] [] text.toList
  return String.ofList value

def resolve (source : Source) (policy : Policy) (text : String) : Except Fault String :=
  (resolution source policy text).result

theorem resolution_eq (source : Source) (policy : Policy) (text : String) :
    resolution source policy text =
      ⟨(expansion source policy [] [] text.toList).notices,
        (expand source policy [] [] text.toList).map fun (value, _) => String.ofList value⟩ :=
  Noted.bind_pure_eq _ _

theorem resolve_eq (source : Source) (policy : Policy) (text : String) :
    resolve source policy text = (expand source policy [] [] text.toList).map fun (value, _) => String.ofList value :=
  congrArg Noted.result (resolution_eq source policy text)

/-- The expanded value of a key, if the source has the key. -/
def keyResolution (source : Source) (policy : Policy) (key : String) : Resolving (Option String) := do
  match ← ask source key with
  | none => return none
  | some ⟨raw, _⟩ =>
    let (value, _) ← expansion source policy [key] [] raw.toList
    return some (String.ofList value)

def resolveKey (source : Source) (policy : Policy) (key : String) : Except Fault (Option String) :=
  (keyResolution source policy key).result

theorem keyResolution_stored {source : Source} {key raw : String} (h : Assoc.get? key source = some raw)
    (policy : Policy) :
    keyResolution source policy key =
      ⟨.asks key :: (expansion source policy [key] [] raw.toList).notices,
        (expand source policy [key] [] raw.toList).map fun (value, _) => some (String.ofList value)⟩ := by
  have hvalue := Noted.bind_pure_eq (expansion source policy [key] [] raw.toList) fun r => some (String.ofList r.1)
  rw [keyResolution, ask_stored h]
  exact congrArg (fun x => Noted.mk (.asks key :: x.notices) x.result) hvalue

theorem keyResolution_absent {source : Source} {key : String} (h : Assoc.get? key source = none) (policy : Policy) :
    keyResolution source policy key = ⟨[.asks key], .ok none⟩ := by
  rw [keyResolution, ask_absent h]
  rfl

theorem resolveKey_stored {source : Source} {key raw : String} (h : Assoc.get? key source = some raw)
    (policy : Policy) :
    resolveKey source policy key =
      (expand source policy [key] [] raw.toList).map fun (value, _) => some (String.ofList value) :=
  congrArg Noted.result (keyResolution_stored h policy)

theorem resolveKey_absent {source : Source} {key : String} (h : Assoc.get? key source = none) (policy : Policy) :
    resolveKey source policy key = .ok none :=
  congrArg Noted.result (keyResolution_absent h policy)

end Settings.Reference
