import Settings.Assoc
import Settings.Number.Binary64

/-!
# Trees

The tree a text of nested values reads as, and that typed values are bound from: scalars, lists and ordered
maps. A path leads from a tree to a node inside it; the node it leads to can be looked up and taken out.
-/
namespace Settings

open Number (Binary64)

/-- A scalar, a list, or a map whose keys have an order. -/
inductive Tree where
  | null
  | bool (b : Bool)
  | int (n : Int64)
  | float (x : Binary64)
  | text (s : String)
  | list (items : List Tree)
  | map (members : List (String × Tree))
  deriving Repr, Inhabited

/-- One step into a tree. -/
inductive PathStep where
  | key (name : String)
  | index (i : Nat)
  deriving DecidableEq, Repr

namespace Tree

/-! ### Looking inside -/

def isNull : Tree → Bool
  | null => true
  | _ => false

def text? : Tree → Option String
  | text s => some s
  | _ => none

def bool? : Tree → Option Bool
  | bool b => some b
  | _ => none

def int? : Tree → Option Int64
  | int n => some n
  | _ => none

/-- The number of a numeric node, rounded if it is an integer. -/
def float? : Tree → Option Binary64
  | float x => some x
  | int n => some (Binary64.ofInt n.toInt)
  | _ => none

def items? : Tree → Option (List Tree)
  | list items => some items
  | _ => none

def members? : Tree → Option (List (String × Tree))
  | map members => some members
  | _ => none

/-- A member of a map. -/
def get? (t : Tree) (key : String) : Option Tree := t.members?.bind (Assoc.get? key)

/-- The short name of the kind of a node, for messages. -/
def kindName : Tree → String
  | null => "null"
  | bool _ => "boolean"
  | int _ => "integer"
  | float _ => "float"
  | text _ => "string"
  | list _ => "list"
  | map _ => "map"

/-- A map of one member. -/
def single (key : String) (value : Tree) : Tree := map [(key, value)]

/-! ### Equality of values -/

mutual

/-- The same tree: numbers are compared by value, so no tree with a number that is none equals itself,
    and the order of a map's members does not count. -/
def alike : Tree → Tree → Bool
  | null, null => true
  | bool a, bool b => a == b
  | int a, int b => a == b
  | float a, float b => a.sameValue b
  | text a, text b => a == b
  | list as, list bs => alikeItems as bs
  | map as, map bs => as.length == bs.length && alikeMembers as bs
  | _, _ => false

def alikeItems : List Tree → List Tree → Bool
  | [], [] => true
  | a :: as, b :: bs => a.alike b && alikeItems as bs
  | _, _ => false

def alikeMembers : List (String × Tree) → List (String × Tree) → Bool
  | [], _ => true
  | (k, a) :: as, bs =>
    (match Assoc.get? k bs with
      | some b => a.alike b
      | none => false) && alikeMembers as bs

end

/-! ### Size -/

mutual

/-- The number of nodes below and at the root. -/
def size : Tree → Nat
  | list items => sizeItems items + 1
  | map members => sizeMembers members + 1
  | _ => 1

def sizeItems : List Tree → Nat
  | [] => 0
  | t :: ts => t.size + sizeItems ts

def sizeMembers : List (String × Tree) → Nat
  | [] => 0
  | (_, t) :: ms => t.size + sizeMembers ms

end

theorem size_pos (t : Tree) : 0 < t.size := by cases t <;> simp [size]

/-! ### Taking a node out -/

/-- Replaces the member of a key by what `f` makes of it. -/
def alterMember (key : String) (f : Tree → Option Tree) : List (String × Tree) → Option (List (String × Tree))
  | [] => none
  | (k, t) :: ms =>
    if k = key then (f t).map fun t => (k, t) :: ms else (alterMember key f ms).map ((k, t) :: ·)

/-- Replaces the item of an index by what `f` makes of it. -/
def alterItem (f : Tree → Option Tree) : Nat → List Tree → Option (List Tree)
  | _, [] => none
  | 0, t :: ts => (f t).map (· :: ts)
  | i + 1, t :: ts => (alterItem f i ts).map (t :: ·)

/-- The tree without the node a path leads to; none if there is no such node. -/
def remove? : List PathStep → Tree → Option Tree
  | [], _ => none
  | [.key k], map ms => if (Assoc.get? k ms).isSome then some (map (Assoc.erase k ms)) else none
  | [.index i], list ts => if i < ts.length then some (list (ts.eraseIdx i)) else none
  | .key k :: path, map ms => (alterMember k (remove? path) ms).map map
  | .index i :: path, list ts => (alterItem (remove? path) i ts).map list
  | _, _ => none

/-! ### Taking a node out makes a tree smaller -/

theorem sizeMembers_erase_lt {k : String} {ms : List (String × Tree)} (h : (Assoc.get? k ms).isSome) :
    sizeMembers (Assoc.erase k ms) < sizeMembers ms := by
  induction ms with
  | nil => simp [Assoc.get?] at h
  | cons m ms ih =>
    obtain ⟨a, t⟩ := m
    simp only [Assoc.get?] at h
    simp only [Assoc.erase]
    split
    · have := t.size_pos; simp only [sizeMembers]; omega
    · next hne => rw [if_neg hne] at h; have := ih h; simp only [sizeMembers]; omega

theorem sizeItems_eraseIdx_lt {i : Nat} {ts : List Tree} (h : i < ts.length) :
    sizeItems (ts.eraseIdx i) < sizeItems ts := by
  induction ts generalizing i with
  | nil => simp at h
  | cons t ts ih =>
    cases i with
    | zero => have := t.size_pos; simp only [List.eraseIdx_cons_zero, sizeItems]; omega
    | succ i =>
      have := ih (i := i) (by simpa using h)
      simp only [List.eraseIdx_cons_succ, sizeItems]; omega

theorem sizeMembers_alterMember_lt {k : String} {f : Tree → Option Tree} {ms ms' : List (String × Tree)}
    (hf : ∀ t t', f t = some t' → t'.size < t.size) (h : alterMember k f ms = some ms') :
    sizeMembers ms' < sizeMembers ms := by
  induction ms generalizing ms' with
  | nil => simp [alterMember] at h
  | cons m ms ih =>
    obtain ⟨a, t⟩ := m
    simp only [alterMember] at h
    split at h
    · simp only [Option.map_eq_some_iff] at h
      obtain ⟨t', ht, rfl⟩ := h
      have := hf _ _ ht; simp only [sizeMembers]; omega
    · simp only [Option.map_eq_some_iff] at h
      obtain ⟨ms'', hm, rfl⟩ := h
      have := ih hm; simp only [sizeMembers]; omega

theorem sizeItems_alterItem_lt {f : Tree → Option Tree} {i : Nat} {ts ts' : List Tree}
    (hf : ∀ t t', f t = some t' → t'.size < t.size) (h : alterItem f i ts = some ts') :
    sizeItems ts' < sizeItems ts := by
  induction ts generalizing i ts' with
  | nil => simp [alterItem] at h
  | cons t ts ih =>
    cases i with
    | zero =>
      simp only [alterItem, Option.map_eq_some_iff] at h
      obtain ⟨t', ht, rfl⟩ := h
      have := hf _ _ ht; simp only [sizeItems]; omega
    | succ i =>
      simp only [alterItem, Option.map_eq_some_iff] at h
      obtain ⟨ts'', hm, rfl⟩ := h
      have := ih hm; simp only [sizeItems]; omega

theorem size_remove?_lt {path : List PathStep} {t t' : Tree} (h : t.remove? path = some t') : t'.size < t.size := by
  induction path generalizing t t' with
  | nil => simp [remove?] at h
  | cons step path ih =>
    cases step with
    | key k =>
      cases t with
      | map ms =>
        cases path with
        | nil =>
          simp only [remove?] at h
          split at h
          · next hk =>
            have := sizeMembers_erase_lt hk
            rw [← Option.some.inj h]; simp only [size]; omega
          · cases h
        | cons step path =>
          simp only [remove?, Option.map_eq_some_iff] at h
          obtain ⟨ms', hm, rfl⟩ := h
          have := sizeMembers_alterMember_lt (fun t t' => ih) hm
          simp only [size]; omega
      | _ => simp [remove?] at h
    | index i =>
      cases t with
      | list ts =>
        cases path with
        | nil =>
          simp only [remove?] at h
          split at h
          · next hi =>
            have := sizeItems_eraseIdx_lt hi
            rw [← Option.some.inj h]; simp only [size]; omega
          · cases h
        | cons step path =>
          simp only [remove?, Option.map_eq_some_iff] at h
          obtain ⟨ts', hm, rfl⟩ := h
          have := sizeItems_alterItem_lt (fun t t' => ih) hm
          simp only [size]; omega
      | _ => simp [remove?] at h

end Tree

end Settings
