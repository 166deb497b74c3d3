import Settings.Tree.Basic

/-! # The form of a tree

What holds at each node of a tree, how deep its lists and maps are nested, and which node a path of keys leads to. -/

namespace Settings.Tree

mutual

/-- Each node of a tree has a property, the root included. -/
def Everywhere (P : Tree → Prop) : Tree → Prop
  | list items => P (list items) ∧ EverywhereItems P items
  | map members => P (map members) ∧ EverywhereMembers P members
  | t => P t

def EverywhereItems (P : Tree → Prop) : List Tree → Prop
  | [] => True
  | t :: ts => t.Everywhere P ∧ EverywhereItems P ts

def EverywhereMembers (P : Tree → Prop) : List (String × Tree) → Prop
  | [] => True
  | (_, t) :: ms => t.Everywhere P ∧ EverywhereMembers P ms

end

/-- A map has no key twice. -/
def KeysDiffer (t : Tree) : Prop := ∀ ms, t = map ms → (Assoc.keys ms).Nodup

/-- No map of a tree has a key twice. -/
def Distinct (t : Tree) : Prop := t.Everywhere KeysDiffer

def NoFloat (t : Tree) : Prop := ∀ x, t ≠ float x

/-- No leaf of a tree is a float. -/
def FloatFree (t : Tree) : Prop := t.Everywhere NoFloat

mutual

/-- The most lists and maps that lie in each other. -/
def depth : Tree → Nat
  | list items => depthItems items + 1
  | map members => depthMembers members + 1
  | _ => 0

def depthItems : List Tree → Nat
  | [] => 0
  | t :: ts => max t.depth (depthItems ts)

def depthMembers : List (String × Tree) → Nat
  | [] => 0
  | (_, t) :: ms => max t.depth (depthMembers ms)

end

variable {P : Tree → Prop}

theorem everywhereItems_iff {ts : List Tree} : EverywhereItems P ts ↔ ∀ t ∈ ts, t.Everywhere P := by
  induction ts with
  | nil => exact ⟨nofun, fun _ => trivial⟩
  | cons t ts ih => rw [EverywhereItems, ih, List.forall_mem_cons]

theorem everywhereMembers_iff {ms : List (String × Tree)} :
    EverywhereMembers P ms ↔ ∀ p ∈ ms, p.2.Everywhere P := by
  induction ms with
  | nil => exact ⟨nofun, fun _ => trivial⟩
  | cons p ms ih => rw [EverywhereMembers, ih, List.forall_mem_cons]

theorem isNull_iff {t : Tree} : t.isNull = true ↔ t = null := by
  cases t with
  | null => simp [isNull]
  | _ => simp [isNull]

theorem depthItems_le {n : Nat} {ts : List Tree} (h : ∀ t ∈ ts, t.depth ≤ n) : depthItems ts ≤ n := by
  induction ts with
  | nil => exact Nat.zero_le n
  | cons t ts ih =>
    obtain ⟨ht, hts⟩ := List.forall_mem_cons.mp h
    exact Nat.max_le.mpr ⟨ht, ih hts⟩

theorem depthMembers_le {n : Nat} {ms : List (String × Tree)} (h : ∀ p ∈ ms, p.2.depth ≤ n) : depthMembers ms ≤ n := by
  induction ms with
  | nil => exact Nat.zero_le n
  | cons p ms ih =>
    obtain ⟨hp, hms⟩ := List.forall_mem_cons.mp h
    exact Nat.max_le.mpr ⟨hp, ih hms⟩

/-! ### Paths of keys -/

/-- The node that a path of keys leads to. -/
def part? : List String → Tree → Option Tree
  | [], t => some t
  | k :: path, t => (t.get? k).bind (part? path)

theorem part?_cons {k : String} {path : List String} {m t : Tree} (h : m.part? (k :: path) = some t) :
    ∃ ms t', m = map ms ∧ Assoc.get? k ms = some t' ∧ t'.part? path = some t := by
  obtain ⟨t', ht, hpart⟩ := Option.bind_eq_some_iff.mp h
  obtain ⟨ms, hms, hk⟩ := Option.bind_eq_some_iff.mp ht
  cases m with
  | map members => exact ⟨members, t', rfl, by cases hms; exact hk, hpart⟩
  | _ => cases hms

theorem map_of_part? {path : List String} {m : Tree} {ms : List (String × Tree)} (h : m.part? path = some (map ms)) :
    ∃ ms', m = map ms' := by
  cases path with
  | nil => cases h; exact ⟨ms, rfl⟩
  | cons k path =>
    obtain ⟨ms', -, rfl, -⟩ := part?_cons h
    exact ⟨ms', rfl⟩

end Settings.Tree
