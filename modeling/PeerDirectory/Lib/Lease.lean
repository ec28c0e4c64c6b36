import Mathlib.Logic.Function.Basic

/-!
# Leases

A registry keeps an entry for every key that is taken, and each party believes to
hold at most one key, at a place of its own. The two sides agree when the entries
are exactly the keys that are held, each by one party and with its place. Taking a
free key, giving up the own one, and moving without one keep them in agreement.
-/

variable {ι κ α : Type*}

/-- What the parties hold, where they are, and what the registry has. -/
structure Lease (ι κ α : Type*) where
  holder : ι → Option κ
  place : ι → α
  entry : κ → Option α

namespace Lease

/-- The entries of the registry are the keys that are held. -/
structure Agrees (l : Lease ι κ α) : Prop where
  held : ∀ i k, l.holder i = some k → l.entry k = some (l.place i)
  owned : ∀ k, (l.entry k).isSome → ∃ i, l.holder i = some k
  single : ∀ i j k, l.holder i = some k → l.holder j = some k → i = j

variable {l : Lease ι κ α}

theorem Agrees.entry_eq_some_iff (h : l.Agrees) {k : κ} {a : α} :
    l.entry k = some a ↔ ∃ i, l.holder i = some k ∧ l.place i = a := by
  constructor
  · intro hk
    obtain ⟨i, hi⟩ := h.owned k (Option.isSome_of_eq_some hk)
    exact ⟨i, hi, Option.some.inj ((h.held i k hi).symm.trans hk)⟩
  · rintro ⟨i, hi, rfl⟩
    exact h.held i k hi

theorem Agrees.entry_eq_none (h : l.Agrees) {k : κ} (hfree : ∀ i, l.holder i ≠ some k) :
    l.entry k = none := by
  rw [← Option.not_isSome_iff_eq_none]
  intro hk
  obtain ⟨i, hi⟩ := h.owned k hk
  exact hfree i hi

variable [DecidableEq ι] [DecidableEq κ]

/-- A party takes a key, from a new place. -/
def take (l : Lease ι κ α) (i : ι) (k : κ) (a : α) : Lease ι κ α where
  holder := Function.update l.holder i (some k)
  place := Function.update l.place i a
  entry := Function.update l.entry k (some a)

/-- A key is given up, and a party holds none any more. -/
def leave (l : Lease ι κ α) (i : ι) (k : κ) : Lease ι κ α where
  holder := Function.update l.holder i none
  place := l.place
  entry := Function.update l.entry k none

/-- A party moves. -/
def move (l : Lease ι κ α) (i : ι) (a : α) : Lease ι κ α where
  holder := l.holder
  place := Function.update l.place i a
  entry := l.entry

/-- A free key may be taken by a party that holds none. -/
theorem Agrees.take (h : l.Agrees) {i : ι} {k : κ} (hi : l.holder i = none)
    (hk : l.entry k = none) (a : α) : (l.take i k a).Agrees := by
  have hfree : ∀ j, l.holder j ≠ some k := fun j hj => by
    rw [h.held j k hj] at hk
    cases hk
  constructor
  · intro j k' hj
    simp only [Lease.take, Function.update_apply] at hj ⊢
    by_cases hji : j = i
    · rw [if_pos hji, Option.some.injEq] at hj
      simp [hji, hj]
    · rw [if_neg hji] at hj
      have hne : k' ≠ k := fun heq => hfree j (heq ▸ hj)
      rw [if_neg hji, if_neg hne, h.held j k' hj]
  · intro k' hk'
    simp only [Lease.take, Function.update_apply] at hk' ⊢
    by_cases heq : k' = k
    · exact ⟨i, by simp [heq]⟩
    · rw [if_neg heq] at hk'
      obtain ⟨j, hj⟩ := h.owned k' hk'
      have hji : j ≠ i := fun heq => by rw [heq, hi] at hj; cases hj
      exact ⟨j, by rw [if_neg hji, hj]⟩
  · intro j j' k' hj hj'
    simp only [Lease.take, Function.update_apply] at hj hj'
    by_cases hji : j = i <;> by_cases hji' : j' = i
    · exact hji.trans hji'.symm
    · rw [if_pos hji] at hj
      rw [if_neg hji', ← hj] at hj'
      exact absurd hj' (hfree j')
    · rw [if_pos hji'] at hj'
      rw [if_neg hji, ← hj'] at hj
      exact absurd hj (hfree j)
    · rw [if_neg hji] at hj
      rw [if_neg hji'] at hj'
      exact h.single j j' k' hj hj'

/-- A party may give up its key. -/
theorem Agrees.leave (h : l.Agrees) {i : ι} {k : κ} (hi : ∀ k', l.holder i = some k' → k' = k)
    (hk : ∀ j, l.holder j = some k → j = i) : (l.leave i k).Agrees := by
  constructor
  · intro j k' hj
    simp only [Lease.leave, Function.update_apply] at hj ⊢
    by_cases hji : j = i
    · simp [hji] at hj
    · rw [if_neg hji] at hj
      have hne : k' ≠ k := fun heq => hji (hk j (heq ▸ hj))
      rw [if_neg hne, h.held j k' hj]
  · intro k' hk'
    simp only [Lease.leave, Function.update_apply] at hk' ⊢
    by_cases heq : k' = k
    · simp [heq] at hk'
    · rw [if_neg heq] at hk'
      obtain ⟨j, hj⟩ := h.owned k' hk'
      have hji : j ≠ i := fun hji => heq (hi k' (hji ▸ hj))
      exact ⟨j, by rw [if_neg hji, hj]⟩
  · intro j j' k' hj hj'
    simp only [Lease.leave, Function.update_apply] at hj hj'
    by_cases hji : j = i
    · simp [hji] at hj
    · by_cases hji' : j' = i
      · simp [hji'] at hj'
      · rw [if_neg hji] at hj
        rw [if_neg hji'] at hj'
        exact h.single j j' k' hj hj'

omit [DecidableEq κ] in
/-- A party that holds no key may move. -/
theorem Agrees.move (h : l.Agrees) {i : ι} (hi : l.holder i = none) (a : α) :
    (l.move i a).Agrees where
  held := by
    intro j k hj
    have hji : j ≠ i := fun hji => by
      have : l.holder i = some k := hji ▸ hj
      rw [hi] at this
      cases this
    simp only [Lease.move, Function.update_apply, if_neg hji]
    exact h.held j k hj
  owned := h.owned
  single := h.single

end Lease
