import Mathlib.Algebra.BigOperators.Group.Finset.Basic
import Mathlib.Data.List.Basic
import Mathlib.Tactic

/-!
# Runs of a labelled transition function

`step s a` is the state after the action `a`, and `none` where `a` cannot be
taken. `run step s as` takes the actions of the list `as` in order. An action
may be subject to a condition on the state it is taken in: `Guarded` says that
every action of a run meets it. An invariant is shown once for one step and
then holds in every state a run reaches.
-/

namespace Run

variable {σ α : Type*} (step : σ → α → Option σ)

/-- The state after a list of actions. -/
def run (s : σ) (as : List α) : Option σ :=
  as.foldlM step s

/-- Every action of the run meets `guard` in the state it is taken in. -/
def Guarded (guard : σ → α → Prop) : σ → List α → Prop
  | _, [] => True
  | s, a :: as => guard s a ∧ ∀ s', step s a = some s' → Guarded guard s' as

variable {step}

@[simp] theorem run_nil (s : σ) : run step s [] = some s := rfl

theorem run_cons (s : σ) (a : α) (as : List α) :
    run step s (a :: as) = (step s a).bind fun s' => run step s' as := rfl

theorem run_cons_eq_some {s t : σ} {a : α} {as : List α} :
    run step s (a :: as) = some t ↔
      ∃ s', step s a = some s' ∧ run step s' as = some t := by
  rw [run_cons, Option.bind_eq_some_iff]

/-- What holds at the start and is preserved by every guarded step holds after
a guarded run. -/
theorem invariant_of_guarded {guard : σ → α → Prop} {Inv : σ → Prop}
    (hstep : ∀ s a s', Inv s → guard s a → step s a = some s' → Inv s')
    {s t : σ} {as : List α} (hs : Inv s) (hg : Guarded step guard s as)
    (hrun : run step s as = some t) : Inv t := by
  induction as generalizing s with
  | nil =>
      rw [run_nil, Option.some.injEq] at hrun
      exact hrun ▸ hs
  | cons a as ih =>
      obtain ⟨s', hs', hrun⟩ := run_cons_eq_some.mp hrun
      exact ih (hstep s a s' hs hg.1 hs') (hg.2 s' hs') hrun

/-- A condition may be replaced by a weaker one. -/
theorem Guarded.mono {guard guard' : σ → α → Prop} (h : ∀ s a, guard s a → guard' s a)
    {s : σ} {as : List α} (hg : Guarded step guard s as) : Guarded step guard' s as := by
  induction as generalizing s with
  | nil => trivial
  | cons a as ih => exact ⟨h s a hg.1, fun s' hs' => ih (hg.2 s' hs')⟩

/-- A condition met in every state. -/
theorem guarded_of_forall {guard : σ → α → Prop} {s : σ} {as : List α}
    (h : ∀ s, ∀ a ∈ as, guard s a) : Guarded step guard s as := by
  induction as generalizing s with
  | nil => trivial
  | cons a as ih =>
      exact ⟨h s a List.mem_cons_self,
        fun _ _ => ih fun s b hb => h s b (List.mem_cons_of_mem a hb)⟩

/-- The unguarded case: an inductive invariant holds after every run. -/
theorem invariant {Inv : σ → Prop}
    (hstep : ∀ s a s', Inv s → step s a = some s' → Inv s')
    {s t : σ} {as : List α} (hs : Inv s) (hrun : run step s as = some t) :
    Inv t := by
  have hg : Guarded step (fun _ _ => True) s as := guarded_of_forall fun _ _ _ => trivial
  exact invariant_of_guarded (fun s a s' h _ => hstep s a s' h) hs hg hrun

/-- Where the steps of one actor take from what it has left, and those of the others
add nothing, it takes no more steps than it has left. -/
theorem count_add_le [DecidableEq α] {left : σ → ℕ} {a : α}
    (hown : ∀ s s', step s a = some s' → left s' < left s)
    (hothers : ∀ s b s', b ≠ a → step s b = some s' → left s' ≤ left s)
    {s t : σ} {as : List α} (hrun : run step s as = some t) :
    as.count a + left t ≤ left s := by
  induction as generalizing s with
  | nil =>
      cases hrun
      simp
  | cons b as ih =>
      obtain ⟨s', hstep, hrest⟩ := run_cons_eq_some.mp hrun
      have hle := ih hrest
      by_cases hb : b = a
      · subst hb
        have hlt := hown s s' hstep
        rw [List.count_cons_self]
        omega
      · have hkept := hothers s b s' hb hstep
        rw [List.count_cons_of_ne hb]
        omega

/-- A list of actions is as long as the actors' shares of it together. -/
theorem length_le_sum [Fintype α] [DecidableEq α] {as : List α} {bound : α → ℕ}
    (hcount : ∀ a, as.count a ≤ bound a) : as.length ≤ ∑ a, bound a := by
  have hsum : ∑ a : α, (as : Multiset α).count a = (as : Multiset α).card :=
    Multiset.sum_count_eq_card fun a _ => Finset.mem_univ a
  calc as.length = ∑ a : α, (as : Multiset α).count a := hsum.symm
    _ ≤ ∑ a, bound a := Finset.sum_le_sum fun a _ => by simpa using hcount a

/-- A condition met along a run is met along its beginning. -/
theorem Guarded.left {guard : σ → α → Prop} {s : σ} {as bs : List α}
    (hg : Guarded step guard s (as ++ bs)) : Guarded step guard s as := by
  induction as generalizing s with
  | nil => trivial
  | cons a as ih => exact ⟨hg.1, fun s' hs' => ih (hg.2 s' hs')⟩

/-- Two conditions may be met together. -/
theorem Guarded.and {guard guard' : σ → α → Prop} {s : σ} {as : List α}
    (hg : Guarded step guard s as) (hg' : Guarded step guard' s as) :
    Guarded step (fun s a => guard s a ∧ guard' s a) s as := by
  induction as generalizing s with
  | nil => trivial
  | cons a as ih => exact ⟨⟨hg.1, hg'.1⟩, fun s' hs' => ih (hg.2 s' hs') (hg'.2 s' hs')⟩

/-- When a step from a good state leads to a good one exactly if it meets a
condition, and is taken where it does not, then all states of a run are good
exactly if all its steps meet the condition. -/
theorem forall_prefix_iff_guarded {guard : σ → α → Prop} {Inv P : σ → Prop} {Ok : α → Prop}
    (hinv : ∀ s a s', Inv s → step s a = some s' → Inv s')
    (hstep : ∀ s a s', Inv s → P s → Ok a → step s a = some s' → (P s' ↔ guard s a))
    (htaken : ∀ s a, Inv s → Ok a → ¬ guard s a → (step s a).isSome)
    {s : σ} {as : List α} (hs : Inv s) (hP : P s) (hok : ∀ a ∈ as, Ok a) :
    (∀ pre, pre <+: as → ∀ t, run step s pre = some t → P t) ↔ Guarded step guard s as := by
  induction as generalizing s with
  | nil =>
      refine iff_of_true (fun pre hpre t hrun => ?_) trivial
      obtain rfl := List.prefix_nil.mp hpre
      exact Option.some.inj hrun ▸ hP
  | cons a as ih =>
      have hoka : Ok a := hok a (by simp)
      have hokas : ∀ b ∈ as, Ok b := fun b hb => hok b (by simp [hb])
      constructor
      · intro hall
        have hnext : ∀ s', step s a = some s' → P s' := fun s' hs' =>
          hall [a] ⟨as, rfl⟩ s' (run_cons_eq_some.mpr ⟨s', hs', rfl⟩)
        constructor
        · by_contra hguard
          obtain ⟨s', hs'⟩ := Option.isSome_iff_exists.mp (htaken s a hs hoka hguard)
          exact hguard ((hstep s a s' hs hP hoka hs').mp (hnext s' hs'))
        · intro s' hs'
          refine (ih (hinv s a s' hs hs') (hnext s' hs') hokas).mp ?_
          rintro pre ⟨rest, rfl⟩ t hrun
          exact hall (a :: pre) ⟨rest, rfl⟩ t (run_cons_eq_some.mpr ⟨s', hs', hrun⟩)
      · rintro ⟨hguard, hrest⟩ pre hpre t hrun
        cases pre with
        | nil => exact Option.some.inj hrun ▸ hP
        | cons b pre =>
            obtain ⟨rfl, hpre'⟩ := List.cons_prefix_cons.mp hpre
            obtain ⟨s', hs', hrun⟩ := run_cons_eq_some.mp hrun
            have hP' := (hstep s b s' hs hP hoka hs').mpr hguard
            exact (ih (hinv s b s' hs hs') hP' hokas).mpr (hrest s' hs') pre hpre' t hrun

/-- What the actions of a run emit in the states they are taken in, in order. -/
def emitted {ω : Type*} (step : σ → α → Option σ) (emit : σ → α → List ω) : σ → List α → List ω
  | _, [] => []
  | s, a :: as => emit s a ++ ((step s a).map fun s' => emitted step emit s' as).getD []

/-- An invariant of the state and of what has been emitted so far. -/
theorem invariant_emitted {ω : Type*} {emit : σ → α → List ω} {Inv : σ → List ω → Prop}
    (hstep : ∀ s log a s', Inv s log → step s a = some s' → Inv s' (log ++ emit s a))
    {s t : σ} {log : List ω} {as : List α} (hs : Inv s log) (hrun : run step s as = some t) :
    Inv t (log ++ emitted step emit s as) := by
  induction as generalizing s log with
  | nil =>
      rw [run_nil, Option.some.injEq] at hrun
      rw [← hrun, emitted, List.append_nil]
      exact hs
  | cons a as ih =>
      obtain ⟨s', hs', hrun⟩ := run_cons_eq_some.mp hrun
      rw [emitted, hs', Option.map_some, Option.getD_some, ← List.append_assoc]
      exact ih (hstep s log a s' hs hs') hrun

theorem emitted_append {ω : Type*} {emit : σ → α → List ω} {s t : σ} {as : List α}
    (hrun : run step s as = some t) (bs : List α) :
    emitted step emit s (as ++ bs) = emitted step emit s as ++ emitted step emit t bs := by
  induction as generalizing s with
  | nil =>
      cases hrun
      rfl
  | cons a as ih =>
      obtain ⟨s', hs', hrun⟩ := run_cons_eq_some.mp hrun
      rw [List.cons_append, emitted, emitted, hs', Option.map_some, Option.map_some,
        Option.getD_some, Option.getD_some, ih hrun, List.append_assoc]

/-- A decidable condition can be checked along a run. -/
instance decidableGuarded {guard : σ → α → Prop} [∀ s a, Decidable (guard s a)] :
    ∀ (s : σ) (as : List α), Decidable (Guarded step guard s as)
  | _, [] => isTrue trivial
  | s, a :: as =>
      match hs : step s a with
      | none => decidable_of_iff (guard s a) (by simp [Guarded, hs])
      | some s' =>
          have : Decidable (Guarded step guard s' as) := decidableGuarded s' as
          decidable_of_iff (guard s a ∧ Guarded step guard s' as) (by simp [Guarded, hs])

end Run

/-!
# Runs with answers

Here every action also gives an answer, and `answers step s as` collects the
answers of a run in order. A relation between two such functions that survives
one step, with related answers, relates whole runs.
-/

namespace Run

variable {σ τ α ω ψ : Type*}

/-- The state after a list of actions, with the answers in order. -/
def answers (step : σ → α → Option (σ × ω)) : σ → List α → Option (σ × List ω)
  | s, [] => some (s, [])
  | s, a :: as =>
      (step s a).bind fun r => (answers step r.1 as).map fun q => (q.1, r.2 :: q.2)

variable {step : σ → α → Option (σ × ω)} {step' : τ → α → Option (τ × ψ)}

@[simp] theorem answers_nil (s : σ) : answers step s [] = some (s, []) := rfl

theorem answers_cons {s s' : σ} {a : α} {as : List α} {o : ω}
    (h : step s a = some (s', o)) :
    answers step s (a :: as) = (answers step s' as).map fun q => (q.1, o :: q.2) := by
  rw [answers, h, Option.bind_some]

/-- There is one answer for each action. -/
theorem length_answers {s t : σ} {as : List α} {os : List ω}
    (hrun : answers step s as = some (t, os)) : os.length = as.length := by
  induction as generalizing s os with
  | nil =>
      cases hrun
      rfl
  | cons a as ih =>
      rw [answers, Option.bind_eq_some_iff] at hrun
      obtain ⟨⟨s', o⟩, -, hrun⟩ := hrun
      obtain ⟨⟨t', os⟩, has, hos⟩ := Option.map_eq_some_iff.mp hrun
      cases hos
      rw [List.length_cons, List.length_cons, ih has]

theorem answers_append_singleton {s s' s'' : σ} {a : α} {as : List α} {o : ω}
    {os : List ω} (hrun : answers step s as = some (s', os))
    (h : step s' a = some (s'', o)) :
    answers step s (as ++ [a]) = some (s'', os ++ [o]) := by
  induction as generalizing s os with
  | nil =>
      simp only [answers_nil, Option.some.injEq, Prod.mk.injEq] at hrun
      obtain ⟨rfl, rfl⟩ := hrun
      rw [List.nil_append, answers_cons h]
      rfl
  | cons b as ih =>
      rw [answers, Option.bind_eq_some_iff] at hrun
      obtain ⟨r, hr, hrun⟩ := hrun
      obtain ⟨q, hq, hqs⟩ := Option.map_eq_some_iff.mp hrun
      obtain ⟨rfl, rfl⟩ := Prod.mk.inj hqs
      rw [List.cons_append, answers_cons hr, ih hq]
      rfl

/-- The part of a run up to one of its answers, the action that gave it, and the
rest. -/
theorem answers_eq_append_cons {s t : σ} {as : List α} {os os' : List ω} {o : ω}
    (hrun : answers step s as = some (t, os ++ o :: os')) :
    ∃ as₁ a as₂ s₁ s₂, as = as₁ ++ a :: as₂ ∧ answers step s as₁ = some (s₁, os) ∧
      step s₁ a = some (s₂, o) ∧ answers step s₂ as₂ = some (t, os') := by
  induction as generalizing s os with
  | nil => simp at hrun
  | cons b as ih =>
      rw [answers, Option.bind_eq_some_iff] at hrun
      obtain ⟨⟨s', p⟩, hb, hrun⟩ := hrun
      obtain ⟨⟨t', ps⟩, has, heq⟩ := Option.map_eq_some_iff.mp hrun
      obtain ⟨rfl, hps⟩ := Prod.mk.inj heq
      cases os with
      | nil =>
          obtain ⟨rfl, rfl⟩ := List.cons.inj hps
          exact ⟨[], b, as, s, s', rfl, rfl, hb, has⟩
      | cons q os =>
          obtain ⟨rfl, rfl⟩ := List.cons.inj hps
          obtain ⟨as₁, a, as₂, s₁, s₂, rfl, has₁, ha, has₂⟩ := ih has
          refine ⟨b :: as₁, a, as₂, s₁, s₂, rfl, ?_, ha, has₂⟩
          rw [answers_cons hb, has₁]
          rfl

/-- Steps with answers that are made from those of other steps. -/
theorem answers_zipWith {step' : σ → α → Option (σ × ψ)} {f : α → ω → ψ} {s t : σ} {as : List α}
    {os : List ω} (h : ∀ s, ∀ a ∈ as, ∀ s' o, step s a = some (s', o) →
      step' s a = some (s', f a o)) (hrun : answers step s as = some (t, os)) :
    answers step' s as = some (t, as.zipWith f os) := by
  induction as generalizing s os with
  | nil =>
      cases hrun
      rfl
  | cons a as ih =>
      rw [answers, Option.bind_eq_some_iff] at hrun
      obtain ⟨⟨s', o⟩, ha, hrun⟩ := hrun
      obtain ⟨⟨t', os⟩, has, hos⟩ := Option.map_eq_some_iff.mp hrun
      obtain ⟨rfl, rfl⟩ := Prod.mk.inj hos
      have hrest := ih (fun s b hb => h s b (List.mem_cons_of_mem a hb)) has
      rw [answers_cons (h s a List.mem_cons_self s' o ha), hrest]
      rfl

/-- What holds at the start and is preserved by every step with an allowed action
holds after a run. -/
theorem answers_invariant {Inv : σ → Prop} {Ok : α → Prop}
    (hstep : ∀ s a s' o, Inv s → Ok a → step s a = some (s', o) → Inv s')
    {s t : σ} {as : List α} {os : List ω} (hs : Inv s) (hok : ∀ a ∈ as, Ok a)
    (hrun : answers step s as = some (t, os)) : Inv t := by
  induction as generalizing s os with
  | nil =>
      cases hrun
      exact hs
  | cons a as ih =>
      rw [answers, Option.bind_eq_some_iff] at hrun
      obtain ⟨⟨s', o⟩, ha, hrun⟩ := hrun
      obtain ⟨⟨t', os⟩, has, hos⟩ := Option.map_eq_some_iff.mp hrun
      obtain ⟨rfl, -⟩ := Prod.mk.inj hos
      exact ih (hstep s a s' o hs (hok a (by simp)) ha) (fun b hb => hok b (by simp [hb])) has

/-- An invariant of the state and of the answers so far. -/
theorem answers_invariant_log {Inv : σ → List ω → Prop} {Ok : α → Prop}
    (hstep : ∀ s log a s' o, Inv s log → Ok a → step s a = some (s', o) → Inv s' (log ++ [o]))
    {s t : σ} {log os : List ω} {as : List α} (hs : Inv s log) (hok : ∀ a ∈ as, Ok a)
    (hrun : answers step s as = some (t, os)) : Inv t (log ++ os) := by
  induction as generalizing s log os with
  | nil =>
      cases hrun
      rw [List.append_nil]
      exact hs
  | cons a as ih =>
      rw [answers, Option.bind_eq_some_iff] at hrun
      obtain ⟨⟨s', o⟩, ha, hrun⟩ := hrun
      obtain ⟨⟨t', os⟩, has, hos⟩ := Option.map_eq_some_iff.mp hrun
      obtain ⟨rfl, rfl⟩ := Prod.mk.inj hos
      have hnext := ih (hstep s log a s' o hs (hok a (by simp)) ha)
        (fun b hb => hok b (by simp [hb])) has
      rw [List.append_assoc] at hnext
      exact hnext

/-- A simulation of single steps is a simulation of runs. -/
theorem answers_simulates {R : σ → τ → Prop} {Match : ω → ψ → Prop} {Ok : α → Prop}
    (hstep : ∀ s t a, R s t → Ok a →
      ∃ s' o t' p, step s a = some (s', o) ∧ step' t a = some (t', p) ∧
        R s' t' ∧ Match o p)
    {s : σ} {t : τ} {as : List α} (hR : R s t) (hok : ∀ a ∈ as, Ok a) :
    ∃ s' os t' ps, answers step s as = some (s', os) ∧
      answers step' t as = some (t', ps) ∧ R s' t' ∧ List.Forall₂ Match os ps := by
  induction as generalizing s t with
  | nil => exact ⟨s, [], t, [], rfl, rfl, hR, List.Forall₂.nil⟩
  | cons a as ih =>
      obtain ⟨s', o, t', p, hs, ht, hR', hop⟩ := hstep s t a hR (hok a (by simp))
      obtain ⟨s'', os, t'', ps, hs', ht', hR'', hops⟩ :=
        ih hR' fun b hb => hok b (by simp [hb])
      refine ⟨s'', o :: os, t'', p :: ps, ?_, ?_, hR'', hops.cons hop⟩
      · rw [answers_cons hs, hs']
        rfl
      · rw [answers_cons ht, ht']
        rfl

/-- A value that changes with the events of a run, and only with them, is that of
the latest event. -/
theorem answers_latest {β : Type*} (value : σ → β) (event : ω → Option β) {Inv : σ → Prop}
    {Ok : α → Prop}
    (hstep : ∀ s a s' o, Inv s → Ok a → step s a = some (s', o) →
      Inv s' ∧ value s' = (event o).getD (value s))
    {s t : σ} {as : List α} {os : List ω} (hs : Inv s) (hok : ∀ a ∈ as, Ok a)
    (hrun : answers step s as = some (t, os)) :
    Inv t ∧ value t = ((os.filterMap event).getLast?).getD (value s) := by
  induction as generalizing s os with
  | nil =>
      cases hrun
      exact ⟨hs, rfl⟩
  | cons a as ih =>
      rw [answers, Option.bind_eq_some_iff] at hrun
      obtain ⟨⟨s', o⟩, ha, hrun⟩ := hrun
      obtain ⟨⟨t', os⟩, has, hos⟩ := Option.map_eq_some_iff.mp hrun
      obtain ⟨rfl, rfl⟩ := Prod.mk.inj hos
      obtain ⟨hs', hvalue⟩ := hstep s a s' o hs (hok a (by simp)) ha
      obtain ⟨ht, hrest⟩ := ih hs' (fun b hb => hok b (by simp [hb])) has
      refine ⟨ht, ?_⟩
      rw [hrest, hvalue, List.filterMap_cons]
      cases hevent : event o with
      | none => rfl
      | some v =>
          rw [List.getLast?_cons]
          cases (os.filterMap event).getLast? <;> rfl

end Run
