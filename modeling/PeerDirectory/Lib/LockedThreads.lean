import PeerDirectory.Lib.Locking
import PeerDirectory.Lib.Run

/-!
# Threads that share data behind a mutex

Any number of threads take the steps of their calls in any order. Nothing keeps a
thread from an access without the mutex, and a thread waits at a mutex that is taken.
Where the code of every call meets a discipline, the invariant holds in every run, no
thread goes wrong, one thread at most accesses the data, the calls are carried out in
the order of their last sections, and as long as a thread has not returned from all of
its calls some thread can go on.
-/

namespace Locking

variable {σ : Type}

/-! ## Threads -/

/-- A thread with the calls it has not returned from, the first of which may be under
way, and the results of the others. -/
structure Caller (σ Op R : Type) where
  todo : List Op
  code : Option (Prog σ R)
  results : List R

/-- The mutex, the data and the threads. -/
structure System (ι σ Op R : Type) where
  holder : Option ι
  data : σ
  callers : ι → Caller σ Op R

section System

variable {ι Op R : Type} [DecidableEq ι]

/-- No thread has called anything. -/
def System.init (data : σ) (programs : ι → List Op) : System ι σ Op R where
  holder := none
  data := data
  callers := fun i => ⟨programs i, none, []⟩

/-- Thread `i` goes on like this. -/
def System.put (s : System ι σ Op R) (i : ι) (c : Caller σ Op R) : System ι σ Op R :=
  { s with callers := Function.update s.callers i c }

section Put

variable (s : System ι σ Op R) (i : ι) (c : Caller σ Op R)

@[simp] theorem System.holder_put : (s.put i c).holder = s.holder := rfl

@[simp] theorem System.data_put : (s.put i c).data = s.data := rfl

@[simp] theorem System.callers_put_self : (s.put i c).callers i = c := Function.update_self ..

theorem System.callers_put_of_ne {j : ι} (h : j ≠ i) :
    (s.put i c).callers j = s.callers j := Function.update_of_ne h ..

end Put

variable (code : Op → Prog σ R)

/-- The next step of a thread. -/
def System.step (s : System ι σ Op R) (i : ι) : Option (System ι σ Op R) :=
  let c := s.callers i
  match c.code with
  | none =>
      match c.todo with
      | [] => none
      | op :: _ => some (s.put i { c with code := some (code op) })
  | some (.ret r) => some (s.put i ⟨c.todo.tail, none, c.results ++ [r]⟩)
  | some .fault => none
  | some (.lock next) =>
      match s.holder with
      | none => some ({ s with holder := some i }.put i { c with code := some next })
      | some _ => none
  | some (.unlock next) => some ({ s with holder := none }.put i { c with code := some next })
  | some (.access write next) =>
      some ({ s with data := write s.data }.put i { c with code := some (next s.data) })

/-- The call a step carries out: it releases the mutex before it returns. -/
def System.carriesOut (s : System ι σ Op R) (i : ι) : List (ι × Op × R) :=
  match (s.callers i).code, (s.callers i).todo with
  | some (.unlock (.ret r)), op :: _ => [(i, op, r)]
  | _, _ => []

/-- The calls that are carried out in a run, in their order. -/
def System.carriedOut (s : System ι σ Op R) (order : List ι) : List (ι × Op × R) :=
  Run.emitted (System.step code) System.carriesOut s order

/-- The calls of one thread. -/
def callsOf (i : ι) (log : List (ι × Op × R)) : List (Op × R) :=
  (log.filter fun e => e.1 = i).map Prod.snd

/-- The results a thread has been given. -/
def Caller.given (c : Caller σ Op R) : List R :=
  match c.code with
  | some (.ret r) => c.results ++ [r]
  | _ => c.results

/-- The calls of a thread that are still to be carried out. -/
def Caller.ahead (c : Caller σ Op R) : List Op :=
  match c.code with
  | some (.ret _) => c.todo.tail
  | _ => c.todo

/-- The code goes on with an access to the data, or by releasing the mutex. -/
def Prog.touches : Prog σ α → Bool
  | access _ _ => true
  | unlock _ => true
  | _ => false

/-- The calls of a thread that have been carried out are those of its program, in their
order, and it has been given their results. -/
def Caller.Accounts (program : List Op) (calls : List (Op × R)) (c : Caller σ Op R) : Prop :=
  calls.map Prod.snd = c.given ∧ calls.map Prod.fst ++ c.ahead = program

/-! ## What holds in every run -/

section Kept

variable (D : Discipline σ Op R) (limit : ℕ) (programs : ι → List Op)

/-- What a thread is up to: it is between two calls, in a call that is still to be
carried out, or on its way back from one. -/
inductive Caller.Stands (c : Caller σ Op R) : Option (Phase σ Op R) → Prop where
  | idle (h : c.code = none) : Stands c none
  | calling {op : Op} {todo : List Op} {p : Prog σ R} {phase : Phase σ Op R}
      (htodo : c.todo = op :: todo) (hcode : c.code = some p)
      (hp : p.Meets D limit op phase) : Stands c (some phase)
  | returning {op : Op} {todo : List Op} {r : R} (htodo : c.todo = op :: todo)
      (hcode : c.code = some (.ret r)) : Stands c none

/-- The mutex was free with the data `free` last, and nobody but its holder has changed
them since. -/
structure System.Kept (s : System ι σ Op R) (log : List (ι × Op × R)) (free : σ) : Prop where
  inv : D.Inv (log.map Prod.snd) free
  data : s.holder = none → s.data = free
  holder : ∀ i, s.holder = some i →
    (s.callers i).Stands D limit (some (.inside (log.map Prod.snd) free s.data))
  others : ∀ i, s.holder ≠ some i → (s.callers i).Stands D limit none ∨
    ∃ known, D.Rely known free ∧ (s.callers i).Stands D limit (some (.outside known))
  accounts : ∀ i, (s.callers i).Accounts (programs i) (callsOf i log)

variable {D limit programs code} {s s' : System ι σ Op R} {c : Caller σ Op R}
  {log : List (ι × Op × R)} {free : σ} {i : ι}

theorem callsOf_append (i : ι) (log log' : List (ι × Op × R)) :
    callsOf i (log ++ log') = callsOf i log ++ callsOf i log' := by
  rw [callsOf, List.filter_append, List.map_append]
  rfl

theorem callsOf_singleton_self (op : Op) (r : R) : callsOf i [(i, op, r)] = [(op, r)] := by
  simp [callsOf]

theorem callsOf_singleton_of_ne {j : ι} (h : j ≠ i) (op : Op) (r : R) :
    callsOf j [(i, op, r)] = [] := by
  simp [callsOf, h.symm]

theorem sum_length_callsOf [Fintype ι] (log : List (ι × Op × R)) :
    ∑ i, (callsOf i log).length = log.length := by
  induction log with
  | nil => simp [callsOf]
  | cons e log ih =>
      have hcons : ∀ i, (callsOf i (e :: log)).length =
          (if e.1 = i then 1 else 0) + (callsOf i log).length := by
        intro i
        by_cases h : e.1 = i
        · simp [callsOf, h, Nat.add_comm]
        · simp [callsOf, h]
      simp [hcons, Finset.sum_add_distrib, ih, Nat.add_comm]

theorem System.kept_init {data : σ} (hinv : D.Inv [] data) :
    (System.init data programs).Kept D limit programs [] data where
  inv := hinv
  data _ := rfl
  holder _ h := nomatch h
  others _ _ := Or.inl (.idle rfl)
  accounts _ := ⟨rfl, rfl⟩

/-- A call that is still to be carried out is one of those that may be. -/
theorem System.Kept.length_lt [Fintype ι] (h : s.Kept D limit programs log free)
    (hlimit : ∑ i, (programs i).length ≤ limit) (hi : (s.callers i).ahead ≠ []) :
    log.length < limit := by
  have hle : ∀ j, (callsOf j log).length + ((s.callers j).ahead).length =
      (programs j).length := by
    intro j
    rw [← (h.accounts j).2, List.length_append, List.length_map]
  have hlt : ∑ j, (callsOf j log).length < ∑ j, (programs j).length := by
    refine Finset.sum_lt_sum (fun j _ => ?_) ⟨i, Finset.mem_univ i, ?_⟩
    · rw [← hle j]
      exact Nat.le_add_right _ _
    · rw [← hle i]
      exact Nat.lt_add_of_pos_right (List.length_pos_of_ne_nil hi)
  rw [sum_length_callsOf] at hlt
  exact hlt.trans_le hlimit

/-- A step of a thread that does not hold the mutex, and does not take it. -/
theorem System.Kept.put (h : s.Kept D limit programs log free)
    (hi : s.holder ≠ some i)
    (hstands : c.Stands D limit none ∨
      ∃ known, D.Rely known free ∧ c.Stands D limit (some (.outside known)))
    (haccounts : c.Accounts (programs i) (callsOf i log)) :
    (s.put i c).Kept D limit programs log free where
  inv := h.inv
  data := h.data
  holder := by
    intro j hj
    have hij : j ≠ i := fun hij => hi (hij ▸ hj)
    rw [callers_put_of_ne s i c hij]
    exact h.holder j hj
  others := by
    intro j hj
    by_cases hij : j = i
    · rw [hij, callers_put_self]
      exact hstands
    · rw [callers_put_of_ne s i c hij]
      exact h.others j hj
  accounts := by
    intro j
    by_cases hij : j = i
    · rw [hij, callers_put_self]
      exact haccounts
    · rw [callers_put_of_ne s i c hij]
      exact h.accounts j

/-- A step of the thread that holds the mutex, or takes it. -/
theorem System.Kept.move (h : s.Kept D limit programs log free) {holder : Option ι} {data : σ}
    {log' : List (ι × Op × R)} {free' : σ}
    (hfree : D.Rely free free') (hinv : D.Inv (log'.map Prod.snd) free')
    (hdata : holder = none → data = free')
    (hothers : ∀ j ≠ i, s.holder ≠ some j ∧ holder ≠ some j ∧ callsOf j log' = callsOf j log)
    (hholder : holder = some i →
      c.Stands D limit (some (.inside (log'.map Prod.snd) free' data)))
    (hstands : holder ≠ some i → c.Stands D limit none ∨
      ∃ known, D.Rely known free' ∧ c.Stands D limit (some (.outside known)))
    (haccounts : c.Accounts (programs i) (callsOf i log')) :
    (System.put ⟨holder, data, s.callers⟩ i c).Kept D limit programs log' free' where
  inv := hinv
  data := hdata
  holder := by
    intro j hj
    by_cases hij : j = i
    · rw [hij, callers_put_self]
      exact hholder (hij ▸ hj)
    · exact absurd hj (hothers j hij).2.1
  others := by
    intro j hj
    by_cases hij : j = i
    · rw [hij, callers_put_self]
      exact hstands (hij ▸ hj)
    · rw [callers_put_of_ne _ i c hij]
      refine (h.others j (hothers j hij).1).imp_right ?_
      rintro ⟨known, hknown, hphase⟩
      exact ⟨known, D.trans hknown hfree, hphase⟩
  accounts := by
    intro j
    by_cases hij : j = i
    · rw [hij, callers_put_self]
      exact haccounts
    · rw [callers_put_of_ne _ i c hij, (hothers j hij).2.2]
      exact h.accounts j

theorem Prog.Meets.ne_ret {op : Op} {p : Prog σ R} {phase : Phase σ Op R}
    (hp : p.Meets D limit op phase) (r : R) : p ≠ .ret r := by
  rintro rfl
  cases phase <;> exact hp

/-- A thread that goes on in its call has the same calls ahead of it. -/
theorem Caller.Accounts.next {program : List Op} {calls : List (Op × R)} {p : Prog σ R}
    (h : c.Accounts program calls) (hcode : ∀ r, c.code ≠ some (.ret r))
    (hp : ∀ r, p ≠ .ret r) :
    Caller.Accounts program calls { c with code := some p } := by
  have hsame : ∀ c : Caller σ Op R, (∀ r, c.code ≠ some (.ret r)) →
      c.given = c.results ∧ c.ahead = c.todo := by
    intro c hc
    rw [Caller.given, Caller.ahead]
    cases hcode : c.code with
    | none => exact ⟨rfl, rfl⟩
    | some p =>
        cases p with
        | ret r => exact absurd hcode (hc r)
        | _ => exact ⟨rfl, rfl⟩
  have hnext := hsame { c with code := some p } fun r h => hp r (Option.some.inj h)
  obtain ⟨hgiven, hahead⟩ := hsame c hcode
  rw [Accounts, hgiven, hahead] at h
  rw [Accounts, hnext.1, hnext.2]
  exact h

/-- A call that is carried out is no longer ahead. -/
theorem Caller.Accounts.carryOut {program : List Op} {calls : List (Op × R)} {op : Op}
    {todo : List Op} {r : R} (h : c.Accounts program calls) (htodo : c.todo = op :: todo)
    (hcode : c.code = some (.unlock (.ret r))) :
    ({ c with code := some (.ret r) } : Caller σ Op R).Accounts program
      (calls ++ [(op, r)]) := by
  obtain ⟨hgiven, hahead⟩ := h
  simp only [given, ahead, hcode] at hgiven hahead
  rw [htodo] at hahead
  constructor
  · simp [given, hgiven]
  · simpa [ahead, htodo] using hahead

/-- The step of a thread that holds the mutex. -/
theorem System.Kept.inside (h : s.Kept D limit programs log free) (hi : s.holder = some i)
    (hstep : s.step code i = some s') :
    ∃ free', s'.Kept D limit programs (log ++ s.carriesOut i) free' := by
  have haccounts := h.accounts i
  have hother : ∀ j ≠ i, s.holder ≠ some j := fun j hj h =>
    hj (Option.some.inj (h.symm.trans hi))
  cases h.holder i hi with
  | @calling op todo p _ htodo hcode hp =>
      simp only [System.step, hcode] at hstep
      cases p with
      | ret r => exact hp.elim
      | fault => exact hp.elim
      | lock next => exact hp.elim
      | unlock next =>
          cases hstep
          obtain ⟨hrely, ⟨hinv, hnext⟩ | ⟨r, rfl, hinv⟩⟩ := hp
          · have hlog : log ++ s.carriesOut i = log := by
              cases next with
              | ret r => exact hnext.elim
              | _ => simp [System.carriesOut, hcode]
            rw [hlog]
            exact ⟨s.data, h.move hrely hinv (fun _ => rfl)
              (fun j hj => ⟨hother j hj, by simp, rfl⟩) (fun h => nomatch h)
              (fun _ => Or.inr ⟨s.data, D.refl _, .calling htodo rfl hnext⟩)
              (haccounts.next (by simp [hcode]) hnext.ne_ret)⟩
          · have hcarries : s.carriesOut i = [(i, op, r)] := by
              simp [System.carriesOut, hcode, htodo]
            rw [hcarries]
            refine ⟨s.data, h.move hrely ?_ (fun _ => rfl)
              (fun j hj => ⟨hother j hj, by simp, ?_⟩) (fun h => nomatch h)
              (fun _ => Or.inl (.returning htodo rfl)) ?_⟩
            · simpa using hinv
            · rw [callsOf_append, callsOf_singleton_of_ne hj, List.append_nil]
            · rw [callsOf_append, callsOf_singleton_self]
              exact haccounts.carryOut htodo hcode
      | access write next =>
          cases hstep
          have hlog : log ++ s.carriesOut i = log := by simp [System.carriesOut, hcode]
          have hnext : (next s.data).Meets D limit op
              (.inside (log.map Prod.snd) free (write s.data)) := hp
          rw [hlog]
          refine ⟨free, h.move (D.refl free) h.inv (fun h => ?_)
            (fun j hj => ⟨hother j hj, hother j hj, rfl⟩)
            (fun _ => .calling htodo rfl hnext) (fun h => absurd hi h)
            (haccounts.next (by simp [hcode]) hnext.ne_ret)⟩
          rw [hi] at h
          cases h

/-- The step of a thread that does not hold the mutex. -/
theorem System.Kept.outside [Fintype ι] (hlimit : ∑ i, (programs i).length ≤ limit)
    (hmeets : ∀ i, ∀ op ∈ programs i, ∀ known, (code op).Meets D limit op (.outside known))
    (h : s.Kept D limit programs log free) (hi : s.holder ≠ some i)
    (hstep : s.step code i = some s') :
    ∃ free', s'.Kept D limit programs (log ++ s.carriesOut i) free' := by
  have haccounts := h.accounts i
  have hlog : (∀ r, (s.callers i).code ≠ some (.unlock (.ret r))) →
      log ++ s.carriesOut i = log := by
    intro hcode
    rw [System.carriesOut]
    split
    · next h _ => exact absurd h (hcode _)
    · exact List.append_nil log
  rcases h.others i hi with hnone | ⟨known, hknown, hphase⟩
  · cases hnone with
    | idle hcode =>
        rw [hlog (by simp [hcode])]
        cases htodo : (s.callers i).todo with
        | nil => simp [System.step, hcode, htodo] at hstep
        | cons op todo =>
            have hcall : s.step code i =
                some (s.put i { s.callers i with code := some (code op) }) := by
              simp [System.step, hcode, htodo]
            have hmem : op ∈ programs i := by
              rw [← haccounts.2, Caller.ahead, hcode, htodo]
              simp
            have hop := hmeets i op hmem free
            obtain rfl := Option.some.inj (hcall.symm.trans hstep)
            exact ⟨free, h.put hi (Or.inr ⟨free, D.refl free, .calling htodo rfl hop⟩)
              (haccounts.next (by simp [hcode]) hop.ne_ret)⟩
    | @returning op todo r htodo hcode =>
        rw [hlog (by simp [hcode])]
        simp only [System.step, hcode, Option.some.injEq] at hstep
        rw [← hstep]
        refine ⟨free, h.put hi (Or.inl (.idle rfl)) ?_⟩
        simpa only [Caller.Accounts, Caller.given, Caller.ahead, hcode] using haccounts
  · cases hphase with
    | @calling op todo p _ htodo hcode hp =>
        cases p with
        | ret r => exact hp.elim
        | fault => exact hp.elim
        | unlock next => exact hp.elim
        | access write next => exact hp.elim
        | lock next =>
            rw [hlog (by simp [hcode])]
            simp only [System.step, hcode] at hstep
            cases hfree : s.holder with
            | some j => simp [hfree] at hstep
            | none =>
                simp only [hfree, Option.some.injEq] at hstep
                have hahead : (s.callers i).ahead ≠ [] := by
                  rw [Caller.ahead, hcode, htodo]
                  exact List.cons_ne_nil op todo
                have hnext := hp (log.map Prod.snd) free
                  (by simpa using h.length_lt hlimit hahead) h.inv hknown
                rw [← hstep, h.data hfree]
                refine ⟨free, h.move (D.refl free) h.inv (fun h => nomatch h)
                  (fun j hj => ⟨by simp [hfree], by simpa using hj.symm, rfl⟩)
                  (fun _ => .calling htodo rfl hnext) (fun h => absurd rfl h)
                  (haccounts.next (by simp [hcode]) hnext.ne_ret)⟩

/-- One step of one thread. -/
theorem System.Kept.step [Fintype ι] (hlimit : ∑ i, (programs i).length ≤ limit)
    (hmeets : ∀ i, ∀ op ∈ programs i, ∀ known, (code op).Meets D limit op (.outside known))
    (h : s.Kept D limit programs log free) (hstep : s.step code i = some s') :
    ∃ free', s'.Kept D limit programs (log ++ s.carriesOut i) free' := by
  by_cases hi : s.holder = some i
  · exact h.inside hi hstep
  · exact h.outside hlimit hmeets hi hstep

/-- What the discipline says holds of every run of the threads. -/
theorem System.kept_of_run [Fintype ι] (hlimit : ∑ i, (programs i).length ≤ limit)
    (hmeets : ∀ i, ∀ op ∈ programs i, ∀ known, (code op).Meets D limit op (.outside known))
    {data : σ} (hinv : D.Inv [] data) {order : List ι}
    (hrun : Run.run (System.step code) (.init data programs) order = some s) :
    ∃ free, s.Kept D limit programs
      ((System.init data programs).carriedOut code order) free := by
  have hstep : ∀ (s : System ι σ Op R) log (i : ι) (s' : System ι σ Op R),
      (∃ free, s.Kept D limit programs log free) → s.step code i = some s' →
        ∃ free, s'.Kept D limit programs (log ++ s.carriesOut i) free := by
    rintro s log i s' ⟨free, h⟩ hstep
    exact h.step hlimit hmeets hstep
  exact Run.invariant_emitted hstep ⟨data, System.kept_init hinv⟩ hrun

/-- No thread goes wrong. -/
theorem System.Kept.ne_fault (h : s.Kept D limit programs log free) (i : ι) :
    (s.callers i).code ≠ some .fault := by
  have hstands : ∀ phase, (s.callers i).Stands D limit phase →
      (s.callers i).code ≠ some .fault := by
    intro phase hphase hcode
    cases hphase with
    | idle h => simp [h] at hcode
    | @calling op todo p phase htodo hp hmeets =>
        obtain rfl := Option.some.inj (hp.symm.trans hcode)
        cases phase <;> exact hmeets
    | returning htodo h => simp [h] at hcode
  by_cases hi : s.holder = some i
  · exact hstands _ (h.holder i hi)
  · rcases h.others i hi with hnone | ⟨known, -, hphase⟩
    · exact hstands _ hnone
    · exact hstands _ hphase

/-- A thread that accesses the data or releases the mutex holds it. -/
theorem System.Kept.holder_of_touches (h : s.Kept D limit programs log free) {p : Prog σ R}
    (hcode : (s.callers i).code = some p) (hp : p.touches = true) : s.holder = some i := by
  by_contra hi
  rcases h.others i hi with hnone | ⟨known, -, hphase⟩
  · cases hnone with
    | idle h => simp [h] at hcode
    | returning htodo h =>
        obtain rfl := Option.some.inj (h.symm.trans hcode)
        cases hp
  · cases hphase with
    | @calling op todo p' _ htodo h hmeets =>
        obtain rfl := Option.some.inj (h.symm.trans hcode)
        cases p' with
        | unlock next => exact hmeets
        | access write next => exact hmeets
        | _ => cases hp

/-- Where no thread can go on, all of them have returned from all calls. -/
theorem System.Kept.returned (h : s.Kept D limit programs log free)
    (hstuck : ∀ i, s.step code i = none) (i : ι) :
    (s.callers i).code = none ∧ (s.callers i).todo = [] := by
  -- who holds the mutex can go on
  have hholder : s.holder = none := by
    rw [Option.eq_none_iff_forall_ne_some]
    intro j hj
    have hnone := hstuck j
    cases h.holder j hj with
    | @calling op todo p _ htodo hcode hp =>
        simp only [System.step, hcode] at hnone
        cases p with
        | unlock next => cases hnone
        | access write next => cases hnone
        | _ => exact hp
  have hnone := hstuck i
  rcases h.others i (by simp [hholder]) with hidle | ⟨known, -, hphase⟩
  · cases hidle with
    | idle hcode =>
        refine ⟨hcode, ?_⟩
        cases htodo : (s.callers i).todo with
        | nil => rfl
        | cons op todo => simp [System.step, hcode, htodo] at hnone
    | returning htodo hcode => simp [System.step, hcode] at hnone
  · cases hphase with
    | @calling op todo p _ htodo hcode hp =>
        simp only [System.step, hcode, hholder] at hnone
        cases p with
        | lock next => cases hnone
        | _ => exact hp.elim

end Kept

/-! ## The number of steps -/

section Cost

variable (cost : Op → ℕ)

/-- The thread takes at most so many steps until it has returned from its calls. -/
def Caller.Within (c : Caller σ Op R) (n : ℕ) : Prop :=
  match c.code with
  | none => (c.todo.map fun op => cost op + 2).sum ≤ n
  | some p => ∃ k, p.Within k ∧ k + 1 + (c.todo.tail.map fun op => cost op + 2).sum ≤ n

variable {cost code} {s s' : System ι σ Op R}

/-- A step changes one thread only. -/
theorem System.callers_of_step {i j : ι} (hstep : s.step code i = some s') (hj : j ≠ i) :
    s'.callers j = s.callers j := by
  simp only [System.step] at hstep
  repeat' split at hstep
  all_goals
    cases hstep <;> exact callers_put_of_ne _ i _ hj

/-- A step of a thread is one of those it may take. -/
theorem Caller.Within.step (hcost : ∀ op, (code op).Within (cost op)) {i : ι} {n : ℕ}
    (h : (s.callers i).Within cost n) (hstep : s.step code i = some s') :
    ∃ m < n, (s'.callers i).Within cost m := by
  -- the thread goes on in its call
  have hnext : ∀ {p : Prog σ R} {k : ℕ}, p.Within k →
      k + 2 + ((s.callers i).todo.tail.map fun op => cost op + 2).sum ≤ n →
        ∃ m < n, Caller.Within cost { s.callers i with code := some p } m := by
    intro p k hp hle
    exact ⟨k + 1 + ((s.callers i).todo.tail.map fun op => cost op + 2).sum, by omega, k, hp, le_rfl⟩
  cases hcode : (s.callers i).code with
  | none =>
      rw [Caller.Within, hcode] at h
      cases htodo : (s.callers i).todo with
      | nil => simp [System.step, hcode, htodo] at hstep
      | cons op todo =>
          have hcall : s.step code i =
              some (s.put i { s.callers i with code := some (code op) }) := by
            simp [System.step, hcode, htodo]
          obtain rfl := Option.some.inj (hcall.symm.trans hstep)
          rw [System.callers_put_self]
          refine hnext (hcost op) ?_
          simp only [htodo, List.map_cons, List.sum_cons] at h
          rwa [htodo]
  | some p =>
      rw [Caller.Within, hcode] at h
      obtain ⟨k, hp, hle⟩ := h
      simp only [System.step, hcode] at hstep
      cases p with
      | ret r =>
          cases hstep
          rw [System.callers_put_self]
          exact ⟨((s.callers i).todo.tail.map fun op => cost op + 2).sum, by omega, le_rfl⟩
      | fault => cases hstep
      | lock next =>
          cases k with
          | zero => cases hp
          | succ k =>
              cases hfree : s.holder with
              | some j => simp [hfree] at hstep
              | none =>
                  simp only [hfree, Option.some.injEq] at hstep
                  rw [← hstep, System.callers_put_self]
                  exact hnext hp hle
      | unlock next =>
          cases k with
          | zero => cases hp
          | succ k =>
              cases hstep
              rw [System.callers_put_self]
              exact hnext hp hle
      | access write next =>
          cases k with
          | zero => cases hp
          | succ k =>
              cases hstep
              rw [System.callers_put_self]
              exact hnext (hp s.data) hle

/-- No thread takes more steps in a run than it may. -/
theorem System.count_le_of_run (hcost : ∀ op, (code op).Within (cost op)) {order : List ι}
    {left : ι → ℕ} (hleft : ∀ i, (s.callers i).Within cost (left i))
    (hrun : Run.run (System.step code) s order = some s') (i : ι) : order.count i ≤ left i := by
  induction order generalizing s left with
  | nil => exact Nat.zero_le _
  | cons j order ih =>
      obtain ⟨s₁, hs₁, hrun⟩ := Run.run_cons_eq_some.mp hrun
      obtain ⟨m, hm, hj⟩ := (hleft j).step hcost hs₁
      have hleft' : ∀ k, (s₁.callers k).Within cost (Function.update left j m k) := by
        intro k
        by_cases hkj : k = j
        · subst hkj
          rwa [Function.update_self]
        · rw [Function.update_of_ne hkj, System.callers_of_step hs₁ hkj]
          exact hleft k
      have hnext := ih hleft' hrun
      by_cases hij : i = j
      · subst hij
        rw [Function.update_self] at hnext
        rw [List.count_cons_self]
        omega
      · rw [Function.update_of_ne hij] at hnext
        rwa [List.count_cons_of_ne (Ne.symm hij)]

/-- A run is over after as many steps as the calls may take. -/
theorem System.length_le_of_run [Fintype ι] (hcost : ∀ op, (code op).Within (cost op))
    {data : σ} {programs : ι → List Op} {order : List ι}
    (hrun : Run.run (System.step code) (.init data programs) order = some s) :
    order.length ≤ ∑ i, ((programs i).map fun op => cost op + 2).sum :=
  Run.length_le_sum (System.count_le_of_run hcost (fun _ => le_rfl) hrun)

end Cost

end System

end Locking
