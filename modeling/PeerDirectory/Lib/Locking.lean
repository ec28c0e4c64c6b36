import Mathlib.Data.List.Basic
import Mathlib.Tactic

/-!
# Code that takes a mutex

Code is a tree of steps: the mutex is taken, it is released, or the data are
accessed, which is one step and goes on with what has been read. A section is what
lies between taking and releasing the mutex; run without a stop it is a function of
the data.

`Prog.Meets` is the logic for the code of one call. It has an invariant of the data
and of the calls carried out so far, which holds while the mutex is free. What the
code knows of the data while it does not hold the mutex has to survive the sections
of others, as `Rely` says. A call is carried out in the last of its sections.
`LockedThreads` has the rule that this is for.
-/

namespace Locking

/-! ## Code -/

/-- What is left of a piece of code on data of type `σ` that gives a value. -/
inductive Prog (σ α : Type) where
  | ret (a : α)
  /-- It has touched something that is not there. -/
  | fault
  | lock (next : Prog σ α)
  | unlock (next : Prog σ α)
  | access (write : σ → σ) (next : σ → Prog σ α)

variable {σ α β : Type}

namespace Prog

def bind : Prog σ α → (α → Prog σ β) → Prog σ β
  | ret a, k => k a
  | fault, _ => fault
  | lock next, k => lock (next.bind k)
  | unlock next, k => unlock (next.bind k)
  | access write next, k => access write fun d => (next d).bind k

instance : Monad (Prog σ) where
  pure := ret
  bind := bind

theorem bind_ret (p : Prog σ α) : p.bind ret = p := by
  induction p with
  | ret a => rfl
  | fault => rfl
  | lock next ih => rw [bind, ih]
  | unlock next ih => rw [bind, ih]
  | access write next ih => rw [bind, funext ih]

theorem bind_bind {γ : Type} (p : Prog σ α) (k : α → Prog σ β) (k' : β → Prog σ γ) :
    (p.bind k).bind k' = p.bind fun a => (k a).bind k' := by
  induction p with
  | ret a => rfl
  | fault => rfl
  | lock next ih => simp only [bind, ih]
  | unlock next ih => simp only [bind, ih]
  | access write next ih => simp only [bind, ih]

instance : LawfulMonad (Prog σ) :=
  LawfulMonad.mk' (Prog σ) bind_ret (fun _ _ => rfl) bind_bind

end Prog

/-- Take the mutex. -/
def lock : Prog σ Unit := .lock (.ret ())

/-- Release the mutex. -/
def unlock : Prog σ Unit := .unlock (.ret ())

/-- One access to the data; `none` where it is to something that is not there. -/
def act (f : σ → Option (α × σ)) : Prog σ α :=
  .access (fun d => ((f d).map Prod.snd).getD d) fun d =>
    match f d with
    | some r => .ret r.1
    | none => .fault

/-- Read the data. -/
def load (f : σ → Option α) : Prog σ α :=
  act fun d => (f d).map fun a => (a, d)

/-- Write the data. -/
def store (f : σ → Option σ) : Prog σ Unit :=
  act fun d => (f d).map fun d' => ((), d')

/-- Release the mutex and return. -/
def unlockReturn (a : α) : Prog σ α := do
  unlock
  return a

/-! ## A section -/

namespace Prog

/-- What the code does with the mutex in its hand, up to where it releases it: the
data it leaves and the code that is left. -/
def critical : Prog σ α → σ → Option (σ × Prog σ α)
  | unlock next, d => some (d, next)
  | access write next, d => (next d).critical (write d)
  | _, _ => none

end Prog

section Critical

variable (k : α → Prog σ β) (d : σ)

@[simp] theorem critical_act_bind (f : σ → Option (α × σ)) :
    (act f >>= k).critical d = (f d).bind fun r => (k r.1).critical r.2 := by
  change ((match f d with
    | some r => Prog.ret r.1
    | none => .fault).bind k).critical (((f d).map Prod.snd).getD d) = _
  cases f d <;> rfl

@[simp] theorem critical_load_bind (f : σ → Option α) :
    (load f >>= k).critical d = (f d).bind fun a => (k a).critical d := by
  rw [load, critical_act_bind, Option.bind_map]
  rfl

@[simp] theorem critical_store_bind (f : σ → Option σ) (k : Unit → Prog σ β) :
    (store f >>= k).critical d = (f d).bind fun d' => (k ()).critical d' := by
  rw [store, critical_act_bind, Option.bind_map]
  rfl

@[simp] theorem critical_unlock_bind (k : Unit → Prog σ β) :
    (unlock >>= k).critical d = some (d, k ()) := rfl

@[simp] theorem critical_unlockReturn (a : α) :
    (unlockReturn a).critical d = some (d, .ret a) := rfl

@[simp] theorem critical_fault : (Prog.fault : Prog σ α).critical d = none := rfl

@[simp] theorem fault_bind : (Prog.fault : Prog σ α) >>= k = .fault := rfl

theorem critical_map (f : α → β) (p : Prog σ α) :
    (f <$> p).critical d = (p.critical d).map fun r => (r.1, f <$> r.2) := by
  induction p generalizing d with
  | access write next ih => exact ih d (write d)
  | _ => rfl

end Critical

/-! ## The steps of a call -/

namespace Prog

/-- The code takes at most so many steps. -/
def Within : Prog σ α → ℕ → Prop
  | ret _, _ => True
  | fault, _ => True
  | lock next, n + 1 => next.Within n
  | unlock next, n + 1 => next.Within n
  | access _ next, n + 1 => ∀ d, (next d).Within n
  | _, 0 => False

theorem Within.mono {p : Prog σ α} {m n : ℕ} (h : p.Within m) (hle : m ≤ n) : p.Within n := by
  induction p generalizing m n with
  | ret a => trivial
  | fault => trivial
  | lock next ih =>
      cases m with
      | zero => cases h
      | succ m =>
          obtain ⟨n, rfl⟩ := Nat.exists_eq_add_one.mpr (Nat.zero_lt_of_lt hle)
          exact ih h (Nat.le_of_succ_le_succ hle)
  | unlock next ih =>
      cases m with
      | zero => cases h
      | succ m =>
          obtain ⟨n, rfl⟩ := Nat.exists_eq_add_one.mpr (Nat.zero_lt_of_lt hle)
          exact ih h (Nat.le_of_succ_le_succ hle)
  | access write next ih =>
      cases m with
      | zero => cases h
      | succ m =>
          obtain ⟨n, rfl⟩ := Nat.exists_eq_add_one.mpr (Nat.zero_lt_of_lt hle)
          exact fun d => ih d (h d) (Nat.le_of_succ_le_succ hle)

theorem Within.bind {p : Prog σ α} {k : α → Prog σ β} {m n : ℕ} (h : p.Within m)
    (hk : ∀ a, (k a).Within n) : (p >>= k).Within (m + n) := by
  induction p generalizing m with
  | ret a => exact (hk a).mono (Nat.le_add_left n m)
  | fault => trivial
  | lock next ih =>
      cases m with
      | zero => cases h
      | succ m =>
          rw [Nat.succ_add]
          exact ih h
  | unlock next ih =>
      cases m with
      | zero => cases h
      | succ m =>
          rw [Nat.succ_add]
          exact ih h
  | access write next ih =>
      cases m with
      | zero => cases h
      | succ m =>
          rw [Nat.succ_add]
          exact fun d => ih d (h d)

theorem Within.map {p : Prog σ α} {n : ℕ} (h : p.Within n) (f : α → β) : (f <$> p).Within n :=
  h.bind (n := 0) fun _ => trivial

end Prog

theorem within_act (f : σ → Option (α × σ)) : (act f).Within 1 := by
  intro d
  dsimp only
  split <;> trivial

/-- An access is one step. -/
theorem within_act_bind {f : σ → Option (α × σ)} {k : α → Prog σ β} {n : ℕ}
    (hk : ∀ a, (k a).Within n) : (act f >>= k).Within (n + 1) := by
  rw [Nat.add_comm]
  exact (within_act f).bind hk

theorem within_lock_bind {k : Unit → Prog σ β} {n : ℕ} (hk : (k ()).Within n) :
    (lock >>= k).Within (n + 1) := hk

theorem within_unlock_bind {k : Unit → Prog σ β} {n : ℕ} (hk : (k ()).Within n) :
    (unlock >>= k).Within (n + 1) := hk

theorem within_unlockReturn (a : α) (n : ℕ) : (unlockReturn a : Prog σ α).Within (n + 1) :=
  trivial

/-! ## The logic -/

/-- What holds of the data while the mutex is free, when these calls have been carried
out with these results, and how the data may change in a section. -/
structure Discipline (σ Op R : Type) where
  Inv : List (Op × R) → σ → Prop
  Rely : σ → σ → Prop
  refl : ∀ d, Rely d d
  trans : ∀ {d d' d''}, Rely d d' → Rely d' d'' → Rely d d''

/-- Where the code of a call is. -/
inductive Phase (σ Op R : Type) where
  /-- Between two sections; the data were `known` at some time since it began. -/
  | outside (known : σ)
  /-- In a section, which has found some data and has left them as they are now. -/
  | inside (log : List (Op × R)) (found now : σ)

section Logic

variable {Op R : Type} (D : Discipline σ Op R) (limit : ℕ)

/-- The code keeps the discipline and carries the call out in its last section, as long
as no more than `limit` calls are carried out. -/
def Prog.Meets (op : Op) : Prog σ R → Phase σ Op R → Prop
  | lock next, .outside known =>
      ∀ log d, log.length < limit → D.Inv log d → D.Rely known d →
        next.Meets op (.inside log d d)
  | unlock next, .inside log found now =>
      D.Rely found now ∧
        (D.Inv log now ∧ next.Meets op (.outside now) ∨
          ∃ r, next = ret r ∧ D.Inv (log ++ [(op, r)]) now)
  | access write next, .inside log found now =>
      (next now).Meets op (.inside log found (write now))
  | _, _ => False

variable {D limit} {op : Op} {p next : Prog σ R} {log : List (Op × R)} {found now d : σ}

/-- A section is as good as what it leaves. -/
theorem Prog.meets_of_critical (h : p.critical now = some (d, next)) (hrely : D.Rely found d)
    (hnext : D.Inv log d ∧ next.Meets D limit op (.outside d) ∨
      ∃ r, next = ret r ∧ D.Inv (log ++ [(op, r)]) d) :
    p.Meets D limit op (.inside log found now) := by
  induction p generalizing now with
  | ret a => cases h
  | fault => cases h
  | lock next ih => cases h
  | unlock next ih =>
      cases h
      exact ⟨hrely, hnext⟩
  | access write next ih => exact ih now h

end Logic

end Locking
