import Mathlib.Data.List.Induction
import Settings.Proofs.Configuration.Run

/-! # Views that are kept

A view keeps the views that are opened from it until pairs are laid over it. Those that it keeps have been opened since
then (`Since`), and their numbers are never given again. So the same key leads to the same view just until then, and
a listener is told of each key once. -/

namespace Settings

/-- What a listener is told when a view is kept. -/
def Notice.isView : Notice → Bool
  | cached _ _ view => view
  | _ => false

/-! ### Binding keeps no views -/

theorem not_isView_of_bindWith {α : Type} (type : String) (read : Tree → Fit α) (t : Tree) :
    ∀ n ∈ (bindWith type read t).notices, n.isView = false := by
  fun_induction bindWith type read t with
  | case1 t a ignored _ =>
    intro n hn
    obtain ⟨path, -, rfl⟩ := List.mem_map.mp hn
    rfl
  | case2 | case3 => exact nofun
  | case4 t m _ path _ rest _ ih =>
    intro n hn
    rcases Noted.mem_notices_bind hn with hn | ⟨-, -, hn⟩
    · rw [List.mem_singleton.mp hn]
      rfl
    · exact ih n hn

namespace Configuration

theorem not_isView_of_bind (c : Configuration) (i : Nat) (s : Shape) (key : String) :
    ∀ n ∈ (c.bind i s key).1.notices, n.isView = false := by
  intro n hn
  rw [bind_eq] at hn
  rcases Noted.mem_notices_bind hn with hn | ⟨source, -, hn⟩
  · cases hn
  · rcases Noted.mem_notices_bind hn with hn | ⟨d, -, hn⟩
    · exact not_isView_of_bindWith _ _ _ n hn
    · rw [List.mem_singleton.mp hn]
      rfl

theorem not_isView_of_append (c : Configuration) (i : Nat) (pairs : List (String × String)) :
    ∀ n ∈ c.appendNotices i pairs, n.isView = false := by
  have hset (s : Sheet) (pairs : List (String × String)) : ∀ n ∈ s.notices pairs, n.isView = false := by
    intro n hn
    unfold Sheet.notices at hn
    split at hn
    · obtain ⟨p, -, rfl⟩ := List.mem_map.mp hn
      rfl
    · cases hn
  intro n hn
  unfold appendNotices at hn
  split at hn
  · cases hn
  · rcases List.mem_append.mp hn with hn | hn
    · rcases List.mem_append.mp hn with hn | hn
      · exact hset _ _ n hn
      · split at hn
        · cases hn
        · exact hset _ _ n hn
    · obtain ⟨p, -, rfl⟩ := List.mem_map.mp hn
      rfl

/-! ### Calls -/

/-- What is done with the views of a configuration. -/
inductive Call where
  | ask (i : Nat) (key : String) (q : Query)
  | openView (i : Nat) (key : String)
  | append (i : Nat) (pairs : List (String × String))

/-- A call lays at least one pair over the view with a number. -/
def Call.LaysOver (i : Nat) (a : Call) : Prop := ∃ pairs, pairs ≠ [] ∧ a = .append i pairs

def call (c : Configuration) : Call → Configuration
  | .ask i key q => (c.ask i key q).2
  | .openView i key => (c.openView i key).2.2
  | .append i pairs => c.append i pairs

/-- The configuration after calls. -/
def run (c : Configuration) (calls : List Call) : Configuration := calls.foldl call c

/-- What listeners are told of a call on the view with a number. -/
def told (c : Configuration) (i : Nat) : Call → List Notice
  | .ask j key (.bind s) => if j = i then (c.bind i s key).1.notices else []
  | .ask .. => []
  | .openView j key => if j = i then (c.openView i key).2.1 else []
  | .append j pairs => if j = i then c.appendNotices i pairs else []

/-- All that listeners are told of calls on the view with a number. -/
def heard (c : Configuration) (i : Nat) : List Call → List Notice
  | [] => []
  | a :: calls => c.told i a ++ (c.call a).heard i calls

/-- The keys for which calls open views from the view with a number. -/
def keysOpened (i : Nat) (calls : List Call) : List String :=
  calls.filterMap fun
    | .openView j key => if j = i then some key else none
    | _ => none

/-- What a call makes of the view with a number, if there are `count` views. -/
def Call.onView (i count : Nat) (v : View) : Call → View
  | ask .. => v
  | openView j key =>
    if j = i ∧ key ∉ Assoc.keys v.kept then { v with kept := Assoc.insert key count v.kept } else v
  | append j pairs => if j = i ∧ pairs ≠ [] then v.append pairs else v

variable {c : Configuration} {i m n : Nat} {v : View} {a : Call} {calls : List Call} {key : String}

theorem run_append (c : Configuration) (calls more : List Call) : c.run (calls ++ more) = (c.run calls).run more :=
  List.foldl_append

theorem heard_concat (c : Configuration) (i : Nat) (calls : List Call) (a : Call) :
    c.heard i (calls ++ [a]) = c.heard i calls ++ (c.run calls).told i a := by
  induction calls generalizing c with
  | nil => exact List.append_nil _
  | cons b calls ih =>
    show c.told i b ++ (c.call b).heard i (calls ++ [a]) = _
    rw [ih, ← List.append_assoc]
    rfl

theorem keysOpened_concat (i : Nat) (calls : List Call) (a : Call) :
    keysOpened i (calls ++ [a]) = keysOpened i calls ++ keysOpened i [a] := List.filterMap_append

/-! ### What a call does -/

theorem openView_of_kept (h : Assoc.get? key (c.view i).kept = some n) : c.openView i key = (n, [], c) := by
  simp only [openView, h]

theorem openView_of_not_kept (h : Assoc.get? key (c.view i).kept = none) :
    c.openView i key =
      (c.views.length, [.cached ((c.view i).below key).scope ((c.view i).below key).lines true], c.opened i key) := by
  simp only [openView, h]
  rfl

theorem getElem?_call (hv : c.views[i]? = some v) (a : Call) :
    (c.call a).views[i]? = some (a.onView i c.views.length v) := by
  have hlt : i < c.views.length := (List.getElem?_eq_some_iff.mp hv).1
  cases a with
  | ask j key q => exact (congrArg (·[i]?) (c.ask_views j key q)).trans hv
  | openView j key =>
    show (c.openView j key).2.2.views[i]? = some (if _ then _ else _)
    cases hk : Assoc.get? key (c.view j).kept with
    | some n =>
      rw [openView_of_kept hk, if_neg, hv]
      rintro ⟨rfl, hnone⟩
      rw [view_eq hv, Assoc.get?_eq_none_iff.mpr hnone] at hk
      cases hk
    | none =>
      rw [openView_of_not_kept hk, opened, List.getElem?_append_left (by rwa [List.length_modify]),
        List.getElem?_modify, hv]
      by_cases hji : j = i
      · subst hji
        rw [view_eq hv] at hk
        rw [if_pos ⟨rfl, Assoc.get?_eq_none_iff.mp hk⟩]
        simp
      · simp [hji]
  | append j pairs =>
    show (c.append j pairs).views[i]? = some (if _ then _ else _)
    by_cases hne : pairs = []
    · rw [hne, append_nil, hv]
      simp
    · have hempty : pairs.isEmpty = false := by simpa using hne
      by_cases hji : j = i <;> simp [append, hempty, hv, hji, hne]

theorem length_opened (c : Configuration) (i : Nat) (key : String) :
    (c.opened i key).views.length = c.views.length + 1 := by simp [opened]

theorem length_call (c : Configuration) (a : Call) : c.views.length ≤ (c.call a).views.length := by
  cases a with
  | ask i key q => exact Nat.le_of_eq (congrArg List.length (c.ask_views i key q)).symm
  | openView i key =>
    show _ ≤ (c.openView i key).2.2.views.length
    cases hk : Assoc.get? key (c.view i).kept with
    | some n => simp [openView_of_kept hk]
    | none => simp [openView_of_not_kept hk, length_opened]
  | append i pairs =>
    show _ ≤ (c.append i pairs).views.length
    unfold append
    split
    · exact Nat.le_refl _
    · exact Nat.le_of_eq (List.length_modify ..).symm

theorem length_run (c : Configuration) (calls : List Call) : c.views.length ≤ (c.run calls).views.length := by
  induction calls generalizing c with
  | nil => exact Nat.le_refl _
  | cons a calls ih => exact Nat.le_trans (c.length_call a) (ih _)

/-- A call that neither opens a view from the view nor lays pairs over it leaves it as it is. -/
theorem Call.onView_of_ne (hopen : ∀ key, a ≠ .openView i key) (h : ¬a.LaysOver i) (count : Nat) (v : View) :
    a.onView i count v = v := by
  cases a with
  | ask j key q => rfl
  | openView j key =>
    refine if_neg fun hj => hopen key ?_
    rw [hj.1]
  | append j pairs =>
    refine if_neg fun hj => h ⟨pairs, hj.2, ?_⟩
    rw [hj.1]

theorem Call.onView_openView (i count : Nat) (v : View) (key : String) :
    (Call.openView i key).onView i count v =
      if key ∈ Assoc.keys v.kept then v else { v with kept := Assoc.insert key count v.kept } := by
  show (if _ then _ else _) = _
  by_cases hkey : key ∈ Assoc.keys v.kept
  · rw [if_neg fun h => h.2 hkey, if_pos hkey]
  · rw [if_pos ⟨rfl, hkey⟩, if_neg hkey]

theorem Call.LaysOver.kept_onView (h : a.LaysOver i) (count : Nat) (v : View) : (a.onView i count v).kept = [] := by
  obtain ⟨pairs, hpairs, rfl⟩ := h
  rw [onView, if_pos ⟨rfl, hpairs⟩]
  rfl

theorem Call.LaysOver.ne_openView (h : a.LaysOver i) (key : String) : a ≠ .openView i key := by
  obtain ⟨pairs, -, rfl⟩ := h
  exact nofun

/-- What a view keeps after a call: nothing, one view more, or what it kept before. -/
theorem Call.onView_cases (a : Call) (i count : Nat) (v : View) :
    (a.LaysOver i ∧ (a.onView i count v).kept = []) ∨
      (∃ key, a = .openView i key ∧ key ∉ Assoc.keys v.kept ∧
        a.onView i count v = { v with kept := Assoc.insert key count v.kept }) ∨
      a.onView i count v = v := by
  by_cases hlays : a.LaysOver i
  · exact .inl ⟨hlays, hlays.kept_onView count v⟩
  by_cases hopen : ∃ key, a = .openView i key
  · obtain ⟨key, rfl⟩ := hopen
    rw [onView_openView]
    split
    · exact .inr (.inr rfl)
    · next hkey => exact .inr (.inl ⟨key, rfl, hkey, rfl⟩)
  · exact .inr (.inr (onView_of_ne (not_exists.mp hopen) hlays count v))

theorem Call.onView_bare (h : ¬a.LaysOver i) (count : Nat) (v : View) : (a.onView i count v).bare = v.bare := by
  rcases a.onView_cases i count v with ⟨hlays, -⟩ | ⟨key, -, -, heq⟩ | heq
  · exact absurd hlays h
  · rw [heq]
    rfl
  · rw [heq]

/-! ### Numbers of views -/

/-- The views that a view keeps have been opened since there were `m` views. -/
structure Since (m : Nat) (c : Configuration) (i : Nat) : Prop where
  le : m ≤ c.views.length
  kept : ∃ v, c.views[i]? = some v ∧ ∀ p ∈ v.kept, m ≤ p.2 ∧ p.2 < c.views.length

theorem Since.of_nil (hv : c.views[i]? = some v) (hkept : v.kept = []) (h : m ≤ c.views.length) : Since m c i where
  le := h
  kept := ⟨v, hv, fun _ hp => nomatch hkept ▸ hp⟩

theorem Since.number (h : Since m c i) (key : String) :
    m ≤ (c.openView i key).1 ∧ (c.openView i key).1 < (c.openView i key).2.2.views.length := by
  obtain ⟨v, hv, hkept⟩ := h.kept
  cases hk : Assoc.get? key (c.view i).kept with
  | some n =>
    rw [openView_of_kept hk]
    rw [view_eq hv] at hk
    exact hkept _ (Assoc.mem_of_get? hk)
  | none =>
    rw [openView_of_not_kept hk, length_opened]
    exact ⟨h.le, Nat.lt_succ_self _⟩

theorem Since.call (h : Since m c i) (a : Call) : Since m (c.call a) i := by
  obtain ⟨v, hv, hkept⟩ := h.kept
  have hlength := c.length_call a
  refine ⟨Nat.le_trans h.le hlength, _, getElem?_call hv a, fun p hp => ?_⟩
  have hold : p ∈ v.kept → m ≤ p.2 ∧ p.2 < (c.call a).views.length := fun hp =>
    ⟨(hkept p hp).1, Nat.lt_of_lt_of_le (hkept p hp).2 hlength⟩
  rcases a.onView_cases i c.views.length v with ⟨-, heq⟩ | ⟨key, rfl, hkey, heq⟩ | heq <;> rw [heq] at hp
  · cases hp
  · rcases Assoc.mem_insert hp with rfl | hp
    · have hnumber : m ≤ (c.openView i key).1 ∧ (c.openView i key).1 < (c.call (.openView i key)).views.length :=
        h.number key
      have hnew : (c.openView i key).1 = c.views.length := by
        rw [openView_of_not_kept (by rwa [view_eq hv, Assoc.get?_eq_none_iff])]
      rw [hnew] at hnumber
      exact hnumber
    · exact hold hp
  · exact hold hp

theorem Since.run (h : Since m c i) (calls : List Call) : Since m (c.run calls) i := by
  induction calls generalizing c with
  | nil => exact h
  | cons a calls ih => exact ih (h.call a)

/-- Once pairs have been laid over a view, it keeps only views that are opened from then on. -/
theorem Since.refresh (h : Since m c i) (ha : a.LaysOver i) : Since c.views.length (c.call a) i := by
  obtain ⟨v, hv, -⟩ := h.kept
  exact .of_nil (getElem?_call hv a) (ha.kept_onView _ v) (c.length_call a)

/-! ### Opening a view again -/

/-- A view that is kept is kept until pairs are laid over the view above it. -/
theorem get?_kept_run (hv : c.views[i]? = some v) (hk : Assoc.get? key v.kept = some n)
    (h : ∀ a ∈ calls, ¬a.LaysOver i) :
    ∃ w, (c.run calls).views[i]? = some w ∧ Assoc.get? key w.kept = some n := by
  induction calls generalizing c v with
  | nil => exact ⟨v, hv, hk⟩
  | cons a calls ih =>
    obtain ⟨ha, hcalls⟩ := List.forall_mem_cons.mp h
    refine ih (getElem?_call hv a) ?_ hcalls
    rcases a.onView_cases i c.views.length v with ⟨hlays, -⟩ | ⟨other, -, hother, heq⟩ | heq
    · exact absurd hlays ha
    · have hne : key ≠ other := by
        rintro rfl
        exact hother (Assoc.mem_keys_of_get? hk)
      rw [heq]
      exact (Assoc.get?_insert_of_ne hne _ _).trans hk
    · rw [heq]
      exact hk

/-- The view that has just been opened is kept under its key. -/
theorem get?_kept_openView (hv : c.views[i]? = some v) (key : String) :
    ∃ w, (c.openView i key).2.2.views[i]? = some w ∧ Assoc.get? key w.kept = some (c.openView i key).1 := by
  refine ⟨_, getElem?_call hv (.openView i key), ?_⟩
  rw [Call.onView_openView]
  cases hk : Assoc.get? key v.kept with
  | some n =>
    rw [if_pos (Assoc.mem_keys_of_get? hk), openView_of_kept (by rwa [view_eq hv])]
    exact hk
  | none =>
    rw [if_neg (Assoc.get?_eq_none_iff.mp hk), openView_of_not_kept (by rwa [view_eq hv])]
    exact Assoc.get?_insert_self _ _ _

theorem Since.openView_again (h : Since m c i) (key : String) (calls : List Call) :
    (((c.openView i key).2.2.run calls).openView i key).1 = (c.openView i key).1 ↔ ∀ a ∈ calls, ¬a.LaysOver i := by
  obtain ⟨v, hv, -⟩ := h.kept
  constructor
  · intro hsame a ha hlays
    obtain ⟨first, rest, rfl⟩ := List.append_of_mem ha
    have hopened : Since m (c.openView i key).2.2 i := h.call (.openView i key)
    -- the second number is given behind the pairs, so it is at least the number of views there were then
    have hrest := ((hopened.run first).refresh hlays).run rest
    have hlater := (hrest.number key).1
    have hbefore := (c.openView i key).2.2.length_run first
    rw [run_append] at hsame
    have hnumber := (h.number key).2
    have hle : (c.openView i key).2.2.views.length ≤ (c.openView i key).1 := hsame ▸ Nat.le_trans hbefore hlater
    exact absurd hnumber (Nat.not_lt.mpr hle)
  · intro hcalls
    obtain ⟨w, hw, hk⟩ := get?_kept_openView hv key
    obtain ⟨w', hw', hk'⟩ := get?_kept_run hw hk hcalls
    rw [openView_of_kept (by rwa [view_eq hw'])]

/-! ### What listeners hear -/

theorem told_openView (hv : c.views[i]? = some v) (key : String) :
    c.told i (.openView i key) =
      if key ∈ Assoc.keys v.kept then [] else [.cached (v.below key).scope (v.below key).lines true] := by
  show (if _ then _ else _) = _
  rw [if_pos rfl]
  cases hk : Assoc.get? key v.kept with
  | some n => rw [if_pos (Assoc.mem_keys_of_get? hk), openView_of_kept (by rwa [view_eq hv])]
  | none =>
    rw [if_neg (Assoc.get?_eq_none_iff.mp hk), openView_of_not_kept (by rwa [view_eq hv]), view_eq hv]

theorem filter_told_of_ne (hopen : ∀ key, a ≠ .openView i key) (c : Configuration) :
    (c.told i a).filter Notice.isView = [] := by
  refine List.filter_eq_nil_iff.mpr fun n hn hview => ?_
  cases a with
  | ask j key q =>
    cases q with
    | bind s =>
      rw [told] at hn
      split at hn
      · simp [not_isView_of_bind c i s key n hn] at hview
      · cases hn
    | _ => cases hn
  | openView j key =>
    rw [told] at hn
    split at hn
    · next hj => exact hopen key (congrArg (Call.openView · key) hj)
    · cases hn
  | append j pairs =>
    rw [told] at hn
    split at hn
    · simp [not_isView_of_append c i pairs n hn] at hview
    · cases hn

theorem keysOpened_of_ne (hopen : ∀ key, a ≠ .openView i key) : keysOpened i [a] = [] := by
  cases a with
  | openView j key =>
    have hj : j ≠ i := fun hj => hopen key (hj ▸ rfl)
    simp [keysOpened, hj]
  | _ => rfl

theorem keysOpened_openView (i : Nat) (key : String) : keysOpened i [.openView i key] = [key] := by
  simp [keysOpened]

/-- Calls that lay no pairs over a view leave it keeping a view for each key, and each of these is told of once. -/
theorem heard_stretch (hv : c.views[i]? = some v) (hkept : v.kept = []) (h : ∀ a ∈ calls, ¬a.LaysOver i) :
    (∃ w, (c.run calls).views[i]? = some w ∧ w.bare = v.bare ∧
      Assoc.keys w.kept = (keysOpened i calls).eraseDups) ∧
    (c.heard i calls).filter Notice.isView =
      (keysOpened i calls).eraseDups.map fun key => .cached (v.below key).scope (v.below key).lines true := by
  induction calls using List.reverseRecOn with
  | nil => exact ⟨⟨v, hv, rfl, by rw [hkept]; rfl⟩, rfl⟩
  | append_singleton calls a ih =>
    obtain ⟨hcalls, ha⟩ := List.forall_mem_append.mp h
    have ha : ¬a.LaysOver i := ha a List.mem_cons_self
    obtain ⟨⟨w, hw, hbare, hkeys⟩, hheard⟩ := ih hcalls
    have hnext : (c.run (calls ++ [a])).views[i]? = some (a.onView i (c.run calls).views.length w) := by
      rw [run_append]
      exact getElem?_call hw a
    rw [hnext, heard_concat, List.filter_append, hheard, keysOpened_concat]
    refine ⟨⟨_, rfl, (Call.onView_bare ha _ w).trans hbare, ?_⟩, ?_⟩
    all_goals by_cases hopen : ∃ key, a = .openView i key
    · obtain ⟨key, rfl⟩ := hopen
      rw [keysOpened_openView, Call.onView_openView]
      split
      · next hkey =>
        rw [hkeys, List.mem_eraseDups] at hkey
        rw [hkeys, Assoc.eraseDups_concat, if_pos hkey]
      · exact Assoc.keys_insert_eraseDups hkeys _ _
    · rw [keysOpened_of_ne (not_exists.mp hopen), Call.onView_of_ne (not_exists.mp hopen) ha, hkeys, List.append_nil]
    · obtain ⟨key, rfl⟩ := hopen
      have hbelow : w.below key = v.below key := congrArg (fun v => v.below key) hbare
      rw [keysOpened_openView, told_openView hw, hkeys, hbelow, Assoc.eraseDups_concat]
      simp only [List.mem_eraseDups]
      split
      · exact List.append_nil _
      · rw [List.map_append]
        rfl
    · rw [keysOpened_of_ne (not_exists.mp hopen), filter_told_of_ne (not_exists.mp hopen), List.append_nil,
        List.append_nil]

/-- A view keeps nothing when pairs have just been laid over it. -/
theorem kept_run_of_last (hv : c.views[i]? = some v) (hkept : v.kept = []) {before : List Call}
    (h : ∀ a ∈ before.getLast?, a.LaysOver i) : ∃ u, (c.run before).views[i]? = some u ∧ u.kept = [] := by
  cases before using List.reverseRecOn with
  | nil => exact ⟨v, hv, hkept⟩
  | append_singleton before a =>
    have ha : a.LaysOver i := h a (by simp)
    obtain ⟨w, hw, -⟩ := ((Since.of_nil hv hkept (Nat.zero_le _)).run before).kept
    refine ⟨_, ?_, ha.kept_onView (c.run before).views.length w⟩
    rw [run_append]
    exact getElem?_call hw a

theorem bare_view_openView (hv : c.views[i]? = some v) (key : String) :
    ((c.openView i key).2.2.view i).bare = (c.view i).bare := by
  have hlays : ¬(Call.openView i key).LaysOver i := fun h => h.ne_openView key rfl
  have hview := view_eq (getElem?_call hv (.openView i key))
  rw [view_eq hv]
  exact (congrArg View.bare hview).trans (Call.onView_bare hlays _ v)

theorem unread_openView (c : Configuration) (i : Nat) (key : String) : (c.openView i key).2.2.unread = c.unread := by
  cases hk : Assoc.get? key (c.view i).kept with
  | some n => rw [openView_of_kept hk]
  | none => rw [openView_of_not_kept hk, opened]

theorem remains_congr {d : Configuration} (h : (d.view i).bare = (c.view i).bare) (hunread : d.unread = c.unread) :
    d.remains i = c.remains i := by
  have hstore : (d.view i).own.store = (c.view i).own.store := congrArg (fun v => v.own.store) h
  have hkey (key : String) : (d.view i).fullKey key = (c.view i).fullKey key := congrArg (fun v => v.fullKey key) h
  simp only [remains, hstore, hkey, hunread]

/-- A view that keeps nothing at first, with any calls on it and on other views. A key leads to the same view again just
    as long as no pairs are laid over it. From the beginning, or from such pairs on, and up to the next ones,
    a listener is told of each key for which a view is opened once, when that is done first. What the view shows and
    what remains of it is not changed by opening views. -/
theorem views_kept (hv : c.views[i]? = some v) (hkept : v.kept = []) (before : List Call) :
    let d := c.run before
    (∀ key between, (((d.openView i key).2.2.run between).openView i key).1 = (d.openView i key).1 ↔
      ∀ a ∈ between, ¬a.LaysOver i) ∧
    (∀ stretch, (∀ a ∈ before.getLast?, a.LaysOver i) → (∀ a ∈ stretch, ¬a.LaysOver i) →
      let event key := Notice.cached ((d.view i).below key).scope ((d.view i).below key).lines true
      (d.heard i stretch).filter Notice.isView = (keysOpened i stretch).eraseDups.map event ∧
        ∀ key, ((d.run stretch).openView i key).2.1 = if key ∈ keysOpened i stretch then [] else [event key]) ∧
    ∀ key, ((d.openView i key).2.2.view i).own.store = (d.view i).own.store ∧
      (d.openView i key).2.2.remains i = d.remains i := by
  intro d
  have hsince : Since 0 d i := (Since.of_nil hv hkept (Nat.zero_le _)).run before
  refine ⟨hsince.openView_again, fun stretch hstart hstretch => ?_, fun key => ?_⟩
  · obtain ⟨u, hu, hempty⟩ := kept_run_of_last hv hkept hstart
    obtain ⟨⟨w, hw, hbare, hkeys⟩, hheard⟩ := heard_stretch hu hempty hstretch
    have hview : d.view i = u := view_eq hu
    rw [hview]
    refine ⟨hheard, fun key => ?_⟩
    have hbelow : w.below key = u.below key := congrArg (fun v => v.below key) hbare
    have htold := told_openView hw key
    rw [hkeys, hbelow] at htold
    simp only [List.mem_eraseDups] at htold
    exact (if_pos rfl).symm.trans htold
  · obtain ⟨u, hu, -⟩ := hsince.kept
    have hbare := bare_view_openView hu key
    exact ⟨congrArg (fun v => v.own.store) hbare, remains_congr hbare (d.unread_openView i key)⟩

/-- A document with a key below another one. -/
def nested : Store where
  pairs := [("a.b", "1"), ("a.c.d", "2")]
  nodup := by decide

theorem views_kept_nested :
    let c := ofStore nested
    let between := [Call.openView 0 "a.c", .append 0 [], .ask 0 "a.b" .string, .append 1 [("b", "3")]]
    c.views[0]? = some (.ofStore nested) ∧ (∀ a ∈ between, ¬a.LaysOver 0) ∧
      (((c.openView 0 "a").2.2.run between).openView 0 "a").1 = (c.openView 0 "a").1 ∧
      (((c.openView 0 "a").2.2.run [.append 0 [("x", "y")]]).openView 0 "a").1 ≠ (c.openView 0 "a").1 := by
  intro c between
  have hbetween : ∀ a ∈ between, ¬a.LaysOver 0 := by
    rintro a ha ⟨pairs, hpairs, rfl⟩
    simp [between, hpairs] at ha
  have hkept := (views_kept (c := ofStore nested) (i := 0) rfl rfl []).1
  refine ⟨rfl, hbetween, (hkept "a" between).mpr hbetween, fun hsame => ?_⟩
  have hlays : (Call.append 0 [("x", "y")]).LaysOver 0 := ⟨_, List.cons_ne_nil _ _, rfl⟩
  exact (hkept "a" _).mp hsame _ List.mem_cons_self hlays

end Configuration

end Settings
