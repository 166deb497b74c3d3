import Settings.Configuration.Basic

/-! # Asking a configuration

All ways to read a setting through a view, as one kind of question. The answer depends on the settings of the view,
its document and its scope alone: neither the views that are open nor what has been read before make a
difference. -/

namespace Settings

/-- A way to read a setting. -/
inductive Query where
  /-- The text as it is written. -/
  | raw
  | contains
  /-- The text with its references resolved. -/
  | string
  | get (s : Shape)
  | get? (s : Shape)
  | getD (s : Shape) (default : Datum)
  | bind (s : Shape)

/-- What a question is answered with. -/
def Query.Answer : Query → Type
  | raw => Option String
  | contains => Bool
  | string => Except Fault String
  | get _ | getD _ _ => Except Fault Datum
  | get? _ => Except Fault (Option Datum)
  | bind _ => Watched Datum

/-- Asks for a key through a view: the answer, and the configuration behind it. -/
def Configuration.ask (c : Configuration) (i : Nat) (key : String) : (q : Query) → q.Answer × Configuration
  | .raw => ((c.view i).own.store.get? key, c)
  | .contains => ((c.view i).own.store.contains key, c)
  | .string => c.reading i (View.string · key)
  | .get s => c.reading i (View.get · s key)
  | .get? s => c.reading i (View.get? · s key)
  | .getD s default => c.reading i (View.getD · s key default)
  | .bind s => c.bind i s key

/-- A view without the views that it keeps. -/
def View.bare (v : View) : View := { v with kept := [] }

/-! ### Answers do not depend on what has been read -/

namespace Reads

variable {α β : Type} {x : Reads α} {f : α → Reads β}

/-- The result is the same whatever has been read before. -/
def Steady (x : Reads α) : Prop := ∀ unread unread', (x.run.run unread).1 = (x.run.run unread').1

theorem Steady.of (result : Except Fault α) : (Reads.of result).Steady := fun _ _ => rfl

theorem Steady.pure (a : α) : (Pure.pure a : Reads α).Steady := fun _ _ => rfl

theorem Steady.crossOff (key : String) : (Reads.crossOff key).Steady := fun _ _ => rfl

theorem run_bind (x : Reads α) (f : α → Reads β) (unread : List String) :
    (x >>= f).run.run unread =
      match x.run.run unread with
      | (.ok a, unread) => (f a).run.run unread
      | (.error e, unread) => (.error e, unread) := by
  show (ExceptT.bindCont f (x.run.run unread).1 : StateM (List String) (Except Fault β)).run (x.run.run unread).2 = _
  rcases x.run.run unread with ⟨_ | a, unread⟩
  · rfl
  · rfl

theorem Steady.bind (hx : x.Steady) (hf : ∀ a, (f a).Steady) : (x >>= f).Steady := by
  intro unread unread'
  have hresult := hx unread unread'
  rw [run_bind, run_bind]
  rcases hrun : x.run.run unread with ⟨result, left⟩
  rcases hrun' : x.run.run unread' with ⟨result', left'⟩
  rw [hrun, hrun'] at hresult
  obtain rfl : result = result' := hresult
  cases result with
  | error e => rfl
  | ok a => exact hf a left left'

theorem Steady.map (hx : x.Steady) (f : α → β) : (f <$> x).Steady := by
  rw [map_eq_pure_bind]
  exact hx.bind fun a => .pure (f a)

end Reads

namespace View

open Reads (Steady)

variable (v : View) (s : Shape) (key : String)

theorem steady_value? : (v.value? key).Steady := by
  unfold value?
  split
  · exact (Steady.of _).bind fun value => (Steady.crossOff _).bind fun _ => .pure value
  · exact .pure none

theorem steady_string : (v.string key).Steady := by
  refine (v.steady_value? key).bind fun value => ?_
  cases value with
  | some text => exact .pure text
  | none => exact .of _

theorem steady_get : (v.get s key).Steady := (v.steady_string key).bind fun _ => .of _

theorem steady_get? : (v.get? s key).Steady := by
  refine (v.steady_value? key).bind fun value => ?_
  cases value with
  | some text => exact (Steady.of _).map some
  | none => exact .pure none

theorem steady_getD (default : Datum) : (v.getD s key default).Steady :=
  (v.steady_get? s key).bind fun _ => .pure _

theorem steady_valuesBelow (names : List String) : (v.valuesBelow key names).Steady := by
  induction names with
  | nil => exact .pure []
  | cons name names ih => exact (v.steady_value? _).bind fun _ => ih.bind fun _ => .pure _

theorem tree_eq (v : View) (key : String) :
    v.tree key =
      if (v.namesBelow key).isEmpty then Tree.text <$> v.string key
      else Tree.unflatten <$> v.valuesBelow key (v.namesBelow key) := rfl

theorem valuesBelow_bare (names : List String) : v.valuesBelow key names = v.bare.valuesBelow key names := by
  induction names with
  | nil => rfl
  | cons name names ih => rw [valuesBelow, valuesBelow, ih]; rfl

theorem tree_bare : v.tree key = v.bare.tree key := by
  rw [tree_eq, tree_eq, valuesBelow_bare]
  rfl

theorem steady_tree : (v.tree key).Steady := by
  rw [tree_eq]
  split
  · exact (v.steady_string key).map _
  · exact (v.steady_valuesBelow key _).map _

end View

namespace Configuration

variable {c d : Configuration} {i j : Nat}

theorem reading_fst_congr {α : Type} {work : View → Reads α} (hsteady : ∀ v, (work v).Steady)
    (hbare : ∀ v, work v = work v.bare) (h : (c.view i).bare = (d.view j).bare) :
    (c.reading i work).1 = (d.reading j work).1 := by
  show ((work (c.view i)).run.run c.unread).1 = ((work (d.view j)).run.run d.unread).1
  rw [hbare (c.view i), hbare (d.view j), h]
  exact hsteady _ _ _

theorem bind_eq (c : Configuration) (i : Nat) (s : Shape) (key : String) :
    c.bind i s key =
      (do
        let d ← s.bind (← .of (c.reading i (View.tree · key)).1)
        .note (.created ((c.view i).fullKey key) s.typeName)
        return d,
      (c.reading i (View.tree · key)).2) := rfl

/-- Views of the same settings, document and scope answer all questions alike. -/
theorem ask_fst_congr (h : (c.view i).bare = (d.view j).bare) (key : String) (q : Query) :
    (c.ask i key q).1 = (d.ask j key q).1 := by
  cases q with
  | raw => exact congrArg (fun v => v.own.store.get? key) h
  | contains => exact congrArg (fun v => v.own.store.contains key) h
  | string => exact reading_fst_congr (fun v => v.steady_string key) (fun _ => rfl) h
  | get s => exact reading_fst_congr (fun v => v.steady_get s key) (fun _ => rfl) h
  | get? s => exact reading_fst_congr (fun v => v.steady_get? s key) (fun _ => rfl) h
  | getD s default => exact reading_fst_congr (fun v => v.steady_getD s key default) (fun _ => rfl) h
  | bind s =>
    have htree : (c.reading i (View.tree · key)).1 = (d.reading j (View.tree · key)).1 :=
      reading_fst_congr (fun v => v.steady_tree key) (fun v => v.tree_bare key) h
    have hkey : (c.view i).fullKey key = (d.view j).fullKey key := congrArg (fun v => v.fullKey key) h
    show (c.bind i s key).1 = (d.bind j s key).1
    rw [bind_eq, bind_eq, htree, hkey]

theorem ask_views (c : Configuration) (i : Nat) (key : String) (q : Query) : (c.ask i key q).2.views = c.views := by
  cases q with
  | _ => rfl

end Configuration

end Settings
