import Settings.Fault

/-!
# Work that takes notes

`Noted` pairs an outcome with the notices of the work that led to it, also when the work failed. What a
notice is, is up to the work: what listeners hear of a document, what the source of references is asked.
The `result` follows the plain monad of faults, which the lemmas say.
-/
namespace Settings

/-- An outcome together with the notices of the work that led to it. -/
structure Noted (ν α : Type) where
  notices : List ν
  result : Except Fault α

namespace Noted

variable {ν : Type}

def pure {α : Type} (a : α) : Noted ν α := ⟨[], .ok a⟩

/-- The second piece of work starts from the first one's result and comes behind its notices. -/
def bind {α β : Type} (x : Noted ν α) (f : α → Noted ν β) : Noted ν β :=
  match x.result with
  | .ok a => ⟨x.notices ++ (f a).notices, (f a).result⟩
  | .error e => ⟨x.notices, .error e⟩

instance : Monad (Noted ν) where
  pure := Noted.pure
  bind := Noted.bind

/-- A plain outcome, without notices. -/
def of {α : Type} (result : Except Fault α) : Noted ν α := ⟨[], result⟩

/-- Work that fails at once. -/
def fault {α : Type} (e : Fault) : Noted ν α := ⟨[], .error e⟩

/-- Writes one notice. -/
def note (n : ν) : Noted ν Unit := ⟨[n], .ok ()⟩

/-- Changes the fault that a piece of work ends with. -/
def mapFault {α : Type} (f : Fault → Fault) (x : Noted ν α) : Noted ν α :=
  ⟨x.notices, match x.result with
    | .ok a => .ok a
    | .error e => .error (f e)⟩

@[simp] theorem result_pure {α : Type} (a : α) : (Pure.pure a : Noted ν α).result = .ok a := rfl

@[simp] theorem notices_pure {α : Type} (a : α) : (Pure.pure a : Noted ν α).notices = [] := rfl

@[simp] theorem result_bind {α β : Type} (x : Noted ν α) (f : α → Noted ν β) :
    (x >>= f).result = x.result >>= fun a => (f a).result := by
  show (Noted.bind x f).result = _
  unfold Noted.bind
  cases x.result <;> rfl

theorem result_bind_eq_ok {α β : Type} {x : Noted ν α} {f : α → Noted ν β} {b : β} :
    (x >>= f).result = .ok b ↔ ∃ a, x.result = .ok a ∧ (f a).result = .ok b := by
  rw [result_bind]
  cases x.result with
  | error e => simp [Bind.bind, Except.bind]
  | ok a => simp [Bind.bind, Except.bind]

theorem bind_congr {α β : Type} {x : Noted ν α} {f g : α → Noted ν β} (h : ∀ a, x.result = .ok a → f a = g a) :
    x >>= f = x >>= g := by
  show Noted.bind x f = Noted.bind x g
  unfold Noted.bind
  cases hx : x.result with
  | error e => rfl
  | ok a =>
    show Noted.mk (x.notices ++ (f a).notices) (f a).result = _
    rw [h a hx]

/-- What is left when it does not count how a computation failed. -/
theorem toOption_bind_congr {α β : Type} {x y : Noted ν α} {f g : α → Noted ν β}
    (hx : x.result.toOption = y.result.toOption) (h : ∀ a, (f a).result.toOption = (g a).result.toOption) :
    (x >>= f).result.toOption = (y >>= g).result.toOption := by
  rw [result_bind, result_bind, toOption_bind, toOption_bind, hx, funext h]

/-- What has been written down stays, whatever follows. -/
theorem notices_prefix_bind {α β : Type} (x : Noted ν α) (f : α → Noted ν β) : x.notices <+: (x >>= f).notices := by
  show x.notices <+: (Noted.bind x f).notices
  unfold Noted.bind
  cases x.result with
  | error e => exact List.prefix_refl _
  | ok a => exact List.prefix_append _ _

theorem notices_bind_of_ok {α β : Type} {x : Noted ν α} {a : α} (h : x.result = .ok a) (f : α → Noted ν β) :
    (x >>= f).notices = x.notices ++ (f a).notices := by
  show (Noted.bind x f).notices = _
  unfold Noted.bind
  rw [h]

theorem notices_bind_of_error {α β : Type} {x : Noted ν α} {e : Fault} (h : x.result = .error e)
    (f : α → Noted ν β) : (x >>= f).notices = x.notices := by
  show (Noted.bind x f).notices = _
  unfold Noted.bind
  rw [h]

theorem bind_pure_eq {α β : Type} (x : Noted ν α) (f : α → β) :
    (x >>= fun a => Pure.pure (f a)) = ⟨x.notices, x.result.map f⟩ := by
  show Noted.bind x _ = _
  unfold Noted.bind
  cases x.result with
  | error e => rfl
  | ok a => exact congrArg (Noted.mk · _) (List.append_nil _)

theorem mem_notices_bind {α β : Type} {x : Noted ν α} {f : α → Noted ν β} {n : ν} (h : n ∈ (x >>= f).notices) :
    n ∈ x.notices ∨ ∃ a, x.result = .ok a ∧ n ∈ (f a).notices := by
  cases hx : x.result with
  | error e => exact .inl (notices_bind_of_error hx f ▸ h)
  | ok a =>
    rw [notices_bind_of_ok hx, List.mem_append] at h
    exact h.imp id fun h => ⟨a, rfl, h⟩

@[simp] theorem result_of {α : Type} (r : Except Fault α) : (of r : Noted ν α).result = r := rfl

@[simp] theorem result_fault {α : Type} (e : Fault) : (fault e : Noted ν α).result = .error e := rfl

@[simp] theorem result_note (n : ν) : (note n).result = .ok () := rfl

theorem ext' {α : Type} {x y : Noted ν α} (hn : x.notices = y.notices) (hr : x.result = y.result) : x = y := by
  cases x; cases y; simp_all

theorem id_map {α : Type} (x : Noted ν α) : id <$> x = x := by
  show Noted.bind x (fun a => ⟨[], .ok (id a)⟩) = x
  unfold Noted.bind
  rcases x with ⟨n, _ | _⟩ <;> simp

theorem bind_assoc {α β γ : Type} (x : Noted ν α) (f : α → Noted ν β) (g : β → Noted ν γ) :
    x >>= f >>= g = x >>= fun a => f a >>= g := by
  show Noted.bind (Noted.bind x f) g = Noted.bind x fun a => Noted.bind (f a) g
  rcases x with ⟨n, e | a⟩
  · simp [Noted.bind]
  · simp only [Noted.bind]
    rcases f a with ⟨m, e | b⟩ <;> simp

instance : LawfulMonad (Noted ν) :=
  LawfulMonad.mk' (Noted ν) id_map (fun a f => by show Noted.bind ⟨[], .ok a⟩ f = f a; simp [Noted.bind]) bind_assoc

end Noted

end Settings
