import Mathlib.Tactic

/-!
# Code behind a mutex

What one thread runs on data of type `σ` that a default, non-recursive mutex
protects. Every access to the data checks that the mutex is held, taking it
checks that it is free, and releasing it checks that it is held; a check that
fails is a `Fault`. The thread runs alone, so the data are as it left them.
-/

namespace Mutex

/-- How a thread goes wrong. -/
inductive Fault where
  /-- It takes the mutex while it holds it. -/
  | deadlock
  /-- It releases the mutex while it does not hold it. -/
  | notHeld
  /-- It touches the data while it does not hold the mutex. -/
  | unprotected
  /-- It reads or writes through a null pointer. -/
  | nullPointer
deriving DecidableEq

/-- The mutex and the data. -/
structure State (σ : Type) where
  held : Bool
  data : σ
deriving DecidableEq

/-- A piece of code that gives a value. -/
def Code (σ α : Type) : Type :=
  State σ → Except Fault (α × State σ)

variable {σ α β : Type}

instance : Monad (Code σ) where
  pure a := fun s => .ok (a, s)
  bind x next := fun s =>
    match x s with
    | .ok (a, s') => next a s'
    | .error fault => .error fault

/-- `pthread_mutex_lock(&mutex)` -/
def lock : Code σ Unit := fun s =>
  if s.held then .error .deadlock else .ok ((), { s with held := true })

/-- `pthread_mutex_unlock(&mutex)` -/
def unlock : Code σ Unit := fun s =>
  if s.held then .ok ((), { s with held := false }) else .error .notHeld

/-- Read the data. -/
def read (f : σ → α) : Code σ α := fun s =>
  if s.held then .ok (f s.data, s) else .error .unprotected

/-- Write the data. -/
def modify (f : σ → σ) : Code σ Unit := fun s =>
  if s.held then .ok ((), { s with data := f s.data }) else .error .unprotected

/-- An access to the data that needs no value of its own: to what has been read
before, to what is about to be freed, or to a new part. -/
def touch : Code σ Unit :=
  read fun _ => ()

/-- An access through a null pointer. -/
def null : Code σ α := fun _ => .error .nullPointer

/-- Release the mutex and return. -/
def unlockReturn (a : α) : Code σ α := do
  unlock
  return a

/-! ## One step after another -/

section Bind

variable (next : α → Code σ β) (d : σ)

theorem bind_apply (x : Code σ α) (s : State σ) :
    (x >>= next) s =
      match x s with
      | .ok (a, s') => next a s'
      | .error fault => .error fault := rfl

theorem bind_of_ok {x : Code σ α} {s s' : State σ} {a : α} (h : x s = .ok (a, s')) :
    (x >>= next) s = next a s' := by
  rw [bind_apply, h]

@[simp] theorem pure_bind_apply (a : α) (s : State σ) : (pure a >>= next) s = next a s := rfl

@[simp] theorem bind_bind_apply {γ : Type} (x : Code σ γ) (f : γ → Code σ α) (s : State σ) :
    ((x >>= f) >>= next) s = (x >>= fun c => f c >>= next) s := by
  rw [bind_apply, bind_apply, bind_apply]
  cases x s <;> rfl

theorem map_apply (f : α → β) (x : Code σ α) (s : State σ) :
    (f <$> x) s =
      match x s with
      | .ok (a, s') => .ok (f a, s')
      | .error fault => .error fault := rfl

theorem map_of_ok (f : α → β) {x : Code σ α} {s s' : State σ} {a : α} (h : x s = .ok (a, s')) :
    (f <$> x) s = .ok (f a, s') := by
  rw [map_apply, h]

@[simp] theorem read_bind_apply (f : σ → α) :
    (read f >>= next) ⟨true, d⟩ = next (f d) ⟨true, d⟩ := rfl

end Bind

section Effects

variable (next : Unit → Code σ α) (d : σ)

@[simp] theorem lock_bind_apply : (lock >>= next) ⟨false, d⟩ = next () ⟨true, d⟩ := rfl

@[simp] theorem unlock_bind_apply : (unlock >>= next) ⟨true, d⟩ = next () ⟨false, d⟩ := rfl

@[simp] theorem modify_bind_apply (f : σ → σ) :
    (modify f >>= next) ⟨true, d⟩ = next () ⟨true, f d⟩ := rfl

@[simp] theorem touch_bind_apply : (touch >>= next) ⟨true, d⟩ = next () ⟨true, d⟩ := rfl

@[simp] theorem unlockReturn_apply (a : α) :
    (unlockReturn a : Code σ α) ⟨true, d⟩ = .ok (a, ⟨false, d⟩) := rfl

theorem lock_bind_held : (lock >>= next) ⟨true, d⟩ = .error .deadlock := rfl

end Effects

/-! ## The discipline -/

/-- Started with the mutex free, the code takes and releases it in turn, touches
the data only in between, and leaves it free. An access through a null pointer
is none of the mutex's business. -/
def Disciplined (x : Code σ α) (d : σ) : Prop :=
  (∀ fault, x ⟨false, d⟩ = .error fault → fault = .nullPointer) ∧
    ∀ a s, x ⟨false, d⟩ = .ok (a, s) → s.held = false

theorem disciplined_of_ok {x : Code σ α} {d d' : σ} {a : α}
    (h : x ⟨false, d⟩ = .ok (a, ⟨false, d'⟩)) : Disciplined x d := by
  constructor
  · intro fault hfault
    rw [h] at hfault
    cases hfault
  · intro b s hok
    rw [h] at hok
    cases hok
    rfl

theorem disciplined_of_null {x : Code σ α} {d : σ} (h : x ⟨false, d⟩ = .error .nullPointer) :
    Disciplined x d := by
  constructor
  · intro fault hfault
    rw [h] at hfault
    cases hfault
    rfl
  · intro b s hok
    rw [h] at hok
    cases hok

theorem not_disciplined_of_deadlock {x : Code σ α} {d : σ}
    (h : x ⟨false, d⟩ = .error .deadlock) : ¬ Disciplined x d := by
  intro hx
  cases hx.1 _ h

end Mutex
