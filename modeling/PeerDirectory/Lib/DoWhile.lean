import Mathlib.Tactic

/-!
# Loops that test at the end

`do { turn } while (again);` from a state `s`. The loop is cut off after a
number of turns, and gives `none` when it is still running then. A loop ends
when a measure goes down with every turn that is followed by another one, and
the state its last turn started from then satisfies whatever the turns keep. It
does not end when every turn keeps a condition under which the loop goes on.
-/

namespace DoWhile

variable {σ : Type*} (turn : σ → σ) (again : σ → Bool)

/-- The loop, cut off after `turns` turns. -/
def run : ℕ → σ → Option σ
  | 0, _ => none
  | turns + 1, s => if again (turn s) then run turns (turn s) else some (turn s)

variable {turn again}

@[simp] theorem run_zero (s : σ) : run turn again 0 s = none := rfl

theorem run_succ (turns : ℕ) (s : σ) :
    run turn again (turns + 1) s =
      if again (turn s) then run turn again turns (turn s) else some (turn s) := rfl

/-- The rule for loops that end: an invariant of the states in front of a turn,
and a measure of them that goes down. -/
theorem run_of_measure (turn : σ → σ) (again : σ → Bool) {Inv : σ → Prop} (measure : σ → ℕ)
    (hturn : ∀ s, Inv s → again (turn s) = true →
      Inv (turn s) ∧ measure (turn s) < measure s)
    {s : σ} (hs : Inv s) :
    ∃ last, Inv last ∧ again (turn last) = false ∧
      ∀ turns, measure s < turns → run turn again turns s = some (turn last) := by
  induction hm : measure s using Nat.strong_induction_on generalizing s with
  | _ m ih =>
      cases hagain : again (turn s) with
      | false =>
          refine ⟨s, hs, hagain, fun turns hturns => ?_⟩
          obtain ⟨turns, rfl⟩ := Nat.exists_eq_add_of_le' (Nat.one_le_of_lt hturns)
          rw [run_succ, hagain, if_neg Bool.false_ne_true]
      | true =>
          obtain ⟨hinv, hless⟩ := hturn s hs hagain
          obtain ⟨last, hlast, hend, hrun⟩ := ih _ (hm ▸ hless) hinv rfl
          refine ⟨last, hlast, hend, fun turns hturns => ?_⟩
          obtain ⟨turns, rfl⟩ := Nat.exists_eq_add_of_le' (Nat.one_le_of_lt hturns)
          rw [run_succ, if_pos hagain]
          exact hrun turns (by omega)

/-- The rule for loops that do not end. -/
theorem run_eq_none {Inv : σ → Prop}
    (hturn : ∀ s, Inv s → again (turn s) = true ∧ Inv (turn s))
    (turns : ℕ) {s : σ} (hs : Inv s) : run turn again turns s = none := by
  induction turns generalizing s with
  | zero => rfl
  | succ turns ih =>
      obtain ⟨hagain, hinv⟩ := hturn s hs
      rw [run_succ, if_pos hagain]
      exact ih hinv

end DoWhile
