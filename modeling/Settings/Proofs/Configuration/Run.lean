import Settings.Proofs.Configuration.Query
import Settings.Proofs.Store.Overlay

/-! # Runs of a configuration

A run reads settings through any of the views, opens views, and lays pairs over the whole document. Throughout it, the
first view is the document with all pairs laid over it so far, and each view that is kept shows what it would show
if it were opened now. So a configuration answers as one that was made from the whole document at once, and a
view that is open goes on as it was. -/

namespace Settings.Configuration

/-- What is done with a configuration. Pairs are laid over the whole document only. -/
inductive Act where
  | ask (i : Nat) (key : String) (q : Query)
  | openView (i : Nat) (key : String)
  | append (pairs : List (String × String))

/-- The pairs that an act lays over the document. -/
def Act.pairs : Act → List (String × String)
  | ask .. | openView .. => []
  | append pairs => pairs

def act (c : Configuration) : Act → Configuration
  | .ask i key q => (c.ask i key q).2
  | .openView i key => (c.openView i key).2.2
  | .append pairs => c.append 0 pairs

/-- The configuration after acts. -/
def after (c : Configuration) (acts : List Act) : Configuration := acts.foldl act c

/-- All pairs that acts lay over the document, in order. -/
def appended (acts : List Act) : List (String × String) := acts.flatMap Act.pairs

/-- Opens views one below the other, the first from a view: the number of the last one. -/
def openAll (c : Configuration) (i : Nat) : List String → Nat × Configuration
  | [] => (i, c)
  | key :: keys => (c.openView i key).2.2.openAll (c.openView i key).1 keys

/-- The settings of the view that is opened by keys, one below the other; without keys those of the document. -/
def storeBelow (c : Configuration) (keys : List String) : Store :=
  let (i, c) := c.openAll 0 keys
  (c.view i).own.store

/-- The answer through the view that is opened by keys, one below the other. -/
def askBelow (c : Configuration) (keys : List String) (key : String) (q : Query) : q.Answer :=
  let (i, c) := c.openAll 0 keys
  (c.ask i key q).1

/-! ### What a run keeps -/

/-- The first view is the document, and each view that is kept shows what it would show if it were opened now. -/
structure Sound (document : Store) (c : Configuration) : Prop where
  top : ∃ v, c.views[0]? = some v ∧ v.bare = View.ofStore document
  kept : ∀ (i : Nat) (v : View), c.views[i]? = some v → ∀ p ∈ v.kept,
    p.2 ≠ 0 ∧ ∃ w, c.views[p.2]? = some w ∧ w.bare = v.below p.1

/-- Each view but the first shows later what it shows now. -/
def Keeps (c d : Configuration) : Prop :=
  ∀ i v, i ≠ 0 → c.views[i]? = some v → ∃ w, d.views[i]? = some w ∧ w.bare = v.bare

variable {c d e : Configuration} {document : Store} {i j n : Nat} {key : String} {v w : View}

theorem Keeps.refl (c : Configuration) : c.Keeps c := fun _ v _ hv => ⟨v, hv, rfl⟩

theorem Keeps.trans (h₁ : c.Keeps d) (h₂ : d.Keeps e) : c.Keeps e := fun i v hi hv => by
  obtain ⟨w, hw, hbare⟩ := h₁ i v hi hv
  obtain ⟨x, hx, hbare'⟩ := h₂ i w hi hw
  exact ⟨x, hx, hbare'.trans hbare⟩

theorem view_eq (h : c.views[i]? = some v) : c.view i = v := by
  rw [view, h, Option.getD_some]

theorem Sound.view_bare (h : Sound document c) : (c.view 0).bare = View.ofStore document := by
  obtain ⟨v, hv, hbare⟩ := h.top
  rw [view_eq hv, hbare]

theorem Sound.of_views (h : Sound document c) (hv : d.views = c.views) : Sound document d where
  top := hv ▸ h.top
  kept := hv ▸ h.kept

/-! ### Opening a view -/

/-- The configuration in which a view is opened that the view above it does not keep yet. -/
def opened (c : Configuration) (i : Nat) (key : String) : Configuration :=
  { c with
    views := c.views.modify i (fun v => { v with kept := Assoc.insert key c.views.length v.kept }) ++
      [(c.view i).below key] }

theorem openView_eq (c : Configuration) (i : Nat) (key : String) :
    ((c.openView i key).1, (c.openView i key).2.2) =
      match Assoc.get? key (c.view i).kept with
      | some n => (n, c)
      | none => (c.views.length, c.opened i key) := by
  cases h : Assoc.get? key (c.view i).kept with
  | some n => simp only [openView, h]
  | none =>
    simp only [openView, h]
    rfl

theorem getElem?_opened_length (c : Configuration) (i : Nat) (key : String) :
    (c.opened i key).views[c.views.length]? = some ((c.view i).below key) := by
  simp [opened]

/-- A view that was there before keeps at most the new view more than before. -/
theorem getElem?_opened (c : Configuration) (i : Nat) (key : String) (h : c.views[j]? = some v) :
    ∃ w, (c.opened i key).views[j]? = some w ∧ w.bare = v.bare ∧
      ∀ p ∈ w.kept, p ∈ v.kept ∨ j = i ∧ p = (key, c.views.length) := by
  have hlt : j < c.views.length := (List.getElem?_eq_some_iff.mp h).1
  by_cases hij : i = j
  · refine ⟨{ v with kept := Assoc.insert key c.views.length v.kept }, ?_, rfl, ?_⟩
    · rw [opened, List.getElem?_append_left (by rwa [List.length_modify]), List.getElem?_modify, h, hij]
      simp
    · intro p hp
      exact (Assoc.mem_insert hp).symm.imp id fun hp => ⟨hij.symm, hp⟩
  · refine ⟨v, ?_, rfl, fun p hp => .inl hp⟩
    rw [opened, List.getElem?_append_left (by rwa [List.length_modify]), List.getElem?_modify, h]
    simp [hij]

theorem Keeps.opened (c : Configuration) (i : Nat) (key : String) : c.Keeps (c.opened i key) := fun j v _ hv => by
  obtain ⟨w, hw, hbare, -⟩ := getElem?_opened c i key hv
  exact ⟨w, hw, hbare⟩

theorem Sound.opened (h : Sound document c) (i : Nat) (key : String) : Sound document (c.opened i key) where
  top := by
    obtain ⟨v, hv, hbare⟩ := h.top
    obtain ⟨w, hw, hbare', -⟩ := getElem?_opened c i key hv
    exact ⟨w, hw, hbare'.trans hbare⟩
  kept := by
    intro j w hw p hp
    have hlen : (c.opened i key).views.length = c.views.length + 1 := by simp [Configuration.opened]
    have hlt : j < (c.opened i key).views.length := (List.getElem?_eq_some_iff.mp hw).1
    by_cases hj : j = c.views.length
    · rw [hj, getElem?_opened_length] at hw
      cases hw
      cases hp
    · obtain ⟨v, hv⟩ : ∃ v, c.views[j]? = some v := ⟨_, List.getElem?_eq_getElem (by omega)⟩
      obtain ⟨w', hw', hbare, hkept⟩ := getElem?_opened c i key hv
      obtain rfl : w = w' := Option.some.inj (hw.symm.trans hw')
      have hbelow : w.below p.1 = v.below p.1 := congrArg (fun v => v.below p.1) hbare
      rw [hbelow]
      rcases hkept p hp with hold | ⟨rfl, rfl⟩
      · obtain ⟨hne, x, hx, hshows⟩ := h.kept j v hv p hold
        obtain ⟨y, hy, hbare', -⟩ := getElem?_opened c i key hx
        exact ⟨hne, y, hy, hbare'.trans hshows⟩
      · refine ⟨fun h0 => ?_, _, getElem?_opened_length c j key, ?_⟩
        · obtain ⟨u, hu, -⟩ := h.top
          simp only at h0
          simp [List.length_eq_zero_iff.mp h0] at hu
        · rw [view_eq hv]
          rfl

/-- What opening a view does: the view shows what is below the one above it, whether or not it was kept. -/
theorem Sound.openView (h : Sound document c) (i : Nat) (key : String) :
    Sound document (c.openView i key).2.2 ∧ c.Keeps (c.openView i key).2.2 ∧
      ((c.openView i key).2.2.view (c.openView i key).1).bare = (c.view i).below key := by
  have heq := c.openView_eq i key
  cases hk : Assoc.get? key (c.view i).kept with
  | some n =>
    rw [hk, Prod.mk.injEq] at heq
    rw [heq.1, heq.2]
    refine ⟨h, .refl c, ?_⟩
    cases hv : c.views[i]? with
    | none =>
      rw [view, hv] at hk
      cases hk
    | some v =>
      rw [view_eq hv] at hk ⊢
      obtain ⟨-, w, hw, hbare⟩ := h.kept i v hv (key, n) (Assoc.mem_of_get? hk)
      rw [view_eq hw, hbare]
  | none =>
    rw [hk, Prod.mk.injEq] at heq
    rw [heq.1, heq.2]
    refine ⟨h.opened i key, .opened c i key, ?_⟩
    rw [view_eq (getElem?_opened_length c i key)]
    rfl

/-- A chain of views shows what is below the first one, key by key. -/
theorem Sound.openAll (h : Sound document c) (i : Nat) (keys : List String) :
    Sound document (c.openAll i keys).2 ∧
      ((c.openAll i keys).2.view (c.openAll i keys).1).bare = keys.foldl View.below (c.view i).bare := by
  induction keys generalizing c i with
  | nil => exact ⟨h, rfl⟩
  | cons key keys ih =>
    obtain ⟨hsound, -, hbare⟩ := h.openView i key
    obtain ⟨hsound', hbare'⟩ := ih hsound (c.openView i key).1
    exact ⟨hsound', hbare'.trans (by rw [hbare]; rfl)⟩

/-! ### Laying pairs over the document -/

theorem getElem?_append (c : Configuration) {pairs : List (String × String)} (hne : pairs ≠ []) (j : Nat) :
    (c.append 0 pairs).views[j]? = if j = 0 then c.views[0]?.map (View.append · pairs) else c.views[j]? := by
  have hempty : pairs.isEmpty = false := by simpa using hne
  by_cases hj : j = 0
  · simp [append, hempty, hj]
  · simp [append, hempty, hj, Ne.symm hj]

theorem append_nil (c : Configuration) (i : Nat) : c.append i [] = c := rfl

theorem Keeps.append (c : Configuration) (pairs : List (String × String)) : c.Keeps (c.append 0 pairs) := by
  by_cases hne : pairs = []
  · rw [hne, append_nil]
    exact .refl c
  · intro j v hj hv
    exact ⟨v, by rw [getElem?_append c hne, if_neg hj, hv], rfl⟩

theorem Sound.append (h : Sound document c) (pairs : List (String × String)) :
    Sound (document.setAll pairs) (c.append 0 pairs) := by
  by_cases hne : pairs = []
  · rw [hne, append_nil]
    exact h
  obtain ⟨v, hv, hbare⟩ := h.top
  have hv' : (c.append 0 pairs).views[0]? = some (v.append pairs) := by
    rw [getElem?_append c hne, if_pos rfl, hv, Option.map_some]
  constructor
  · refine ⟨_, hv', ?_⟩
    have happend : (v.append pairs).bare = v.bare.append pairs := rfl
    rw [happend, hbare]
    rfl
  · intro j w hw p hp
    by_cases hj : j = 0
    · rw [hj, hv'] at hw
      cases hw
      cases hp
    · rw [getElem?_append c hne, if_neg hj] at hw
      obtain ⟨hne', x, hx, hshows⟩ := h.kept j w hw p hp
      exact ⟨hne', x, by rw [getElem?_append c hne, if_neg hne', hx], hshows⟩

/-! ### Runs -/

theorem sound_ofStore (store : Store) : Sound store (ofStore store) where
  top := ⟨_, rfl, rfl⟩
  kept := by
    intro i v hv p hp
    obtain ⟨rfl, rfl⟩ : i = 0 ∧ View.ofStore store = v := by
      cases i with
      | zero => exact ⟨rfl, Option.some.inj hv⟩
      | succ i => cases hv
    cases hp

theorem Sound.act (h : Sound document c) (a : Act) : Sound (document.setAll a.pairs) (c.act a) ∧ c.Keeps (c.act a) := by
  cases a with
  | ask i key q =>
    have hviews : (c.act (.ask i key q)).views = c.views := c.ask_views i key q
    refine ⟨h.of_views hviews, fun j v _ hv => ⟨v, ?_, rfl⟩⟩
    rw [hviews, hv]
  | openView i key => exact ⟨(h.openView i key).1, (h.openView i key).2.1⟩
  | append pairs => exact ⟨h.append pairs, .append c pairs⟩

theorem Sound.after (h : Sound document c) (acts : List Act) :
    Sound (document.setAll (appended acts)) (c.after acts) ∧ c.Keeps (c.after acts) := by
  induction acts generalizing c document with
  | nil => exact ⟨h, .refl c⟩
  | cons a acts ih =>
    obtain ⟨hsound, hkeeps⟩ := h.act a
    obtain ⟨hsound', hkeeps'⟩ := ih hsound
    have happended : document.setAll (appended (a :: acts)) = (document.setAll a.pairs).setAll (appended acts) :=
      Store.ext' (Assoc.insertAll_append document.pairs a.pairs (appended acts))
    exact ⟨happended ▸ hsound', hkeeps.trans hkeeps'⟩

theorem Sound.askBelow (h : Sound document c) (h' : Sound document d) (keys : List String) :
    c.storeBelow keys = d.storeBelow keys ∧ ∀ key q, c.askBelow keys key q = d.askBelow keys key q := by
  have hbare : ((c.openAll 0 keys).2.view (c.openAll 0 keys).1).bare =
      ((d.openAll 0 keys).2.view (d.openAll 0 keys).1).bare := by
    rw [(h.openAll 0 keys).2, (h'.openAll 0 keys).2, h.view_bare, h'.view_bare]
  exact ⟨congrArg (fun v => v.own.store) hbare, ask_fst_congr hbare⟩

/-- After any run, the document has all pairs laid over it in order, and it and each chain of views that is opened from
    it show and answer what they do for a configuration made from that document. A view that is open shows
    and answers the same for ever. -/
theorem after_as_fresh (store : Store) (acts : List Act) :
    ((ofStore store).after acts).storeBelow [] = store.setAll (appended acts) ∧
    (∀ keys, ((ofStore store).after acts).storeBelow keys = (ofStore (store.setAll (appended acts))).storeBelow keys ∧
      ∀ key q, ((ofStore store).after acts).askBelow keys key q =
        (ofStore (store.setAll (appended acts))).askBelow keys key q) ∧
    (∀ i, i ≠ 0 → i < ((ofStore store).after acts).views.length → ∀ more,
      ((((ofStore store).after acts).after more).view i).own.store = (((ofStore store).after acts).view i).own.store ∧
      ∀ key q,
        ((((ofStore store).after acts).after more).ask i key q).1 = (((ofStore store).after acts).ask i key q).1) := by
  have hsound := (sound_ofStore store).after acts |>.1
  refine ⟨congrArg (fun v => v.own.store) hsound.view_bare, fun keys => ?_, fun i hi hlt more => ?_⟩
  · exact hsound.askBelow (sound_ofStore _) keys
  · obtain ⟨w, hw, hbare⟩ := (hsound.after more).2 i _ hi (List.getElem?_eq_getElem hlt)
    have hview :
        ((((ofStore store).after acts).after more).view i).bare = (((ofStore store).after acts).view i).bare := by
      rw [view_eq hw, hbare, view_eq (List.getElem?_eq_getElem hlt)]
    exact ⟨congrArg (fun v => v.own.store) hview, ask_fst_congr hview⟩

end Settings.Configuration
