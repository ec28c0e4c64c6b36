import PeerDirectory.Directory.Refinement

/-!
# The lazy initialisation under concurrent calls

Each thread runs its own list of calls. A call takes `mutex` once, or, when it
finds `inited_list` at 0, three times: for the test, in `init_list`, and for its
body. What happens between taking `mutex` and releasing it is one step here. The
bodies, in the order in which they ran, are the sequential run the threads are
compared with; no step of `init_list` changes the list.
-/

namespace PeerDirectory

/-- Where a thread stands in its current call. -/
inductive ThreadPc where
  | idle
  /-- It has found `inited_list` at 0 and released `mutex`. -/
  | needInit
  /-- It has returned from `init_list`. -/
  | ready
deriving DecidableEq

/-- A thread with the calls it still has to return from. -/
structure CallThread where
  pc : ThreadPc
  program : List (Outcomes × Call)

/-- A body that was run: by which thread, for which call, and what it gave. -/
structure Performed (ι : Type) where
  thread : ι
  action : Outcomes × Call
  result : Result

/-- The static data of `list.c`, the threads, and the bodies run so far. -/
structure CallSystem (ι : Type) where
  store : ListState
  threads : ι → CallThread
  log : List (Performed ι)

variable {ι : Type} [DecidableEq ι]

/-- Nothing has been called yet. -/
def CallSystem.init (programs : ι → List (Outcomes × Call)) : CallSystem ι where
  store := .empty
  threads := fun i => ⟨.idle, programs i⟩
  log := []

/-- The critical section that runs the body of the call. -/
def CallSystem.runBody (s : CallSystem ι) (i : ι) (a : Outcomes × Call)
    (program : List (Outcomes × Call)) : Option (CallSystem ι) :=
  (a.2.body a.1 s.store.messages).map fun r =>
    { store := { s.store with messages := r.1 }
      threads := Function.update s.threads i ⟨.idle, program⟩
      log := s.log ++ [⟨i, a, r.2⟩] }

/-- The next critical section of a thread. -/
def CallSystem.step (s : CallSystem ι) (i : ι) : Option (CallSystem ι) :=
  match (s.threads i).program with
  | [] => none
  | a :: program =>
      match (s.threads i).pc with
      | .idle =>
          if a.2.initialises && !s.store.initedList then
            some { s with threads := Function.update s.threads i ⟨.needInit, a :: program⟩ }
          else
            s.runBody i a program
      | .needInit =>
          some { s with
            store := initList s.store
            threads := Function.update s.threads i ⟨.ready, a :: program⟩ }
      | .ready => s.runBody i a program

/-! ## One step -/

/-- The sequential execution of one call. -/
def performStep (st : ListState) (a : Outcomes × Call) : Option (ListState × Result) :=
  a.2.perform a.1 st

/-- On two stores with the same list, where `inited_list` is right in the second,
a body run in the first is a call performed in the second. -/
theorem performStep_of_body {st : ListState} (h : st.Lazy) {a : Outcomes × Call}
    {messages : List Node} {r : Result}
    (hbody : a.2.body a.1 st.messages = some (messages, r)) :
    ∃ st', performStep st a = some (st', r) ∧ st'.messages = messages ∧ st'.Lazy := by
  have hmessages : (if a.2.initialises && !st.initedList then initList st else st).messages =
      st.messages := by
    split
    · exact h.messages_initList
    · rfl
  have hperform : performStep st a =
      some ({ (if a.2.initialises && !st.initedList then initList st else st) with
        messages := messages }, r) := by
    simp only [performStep, Call.perform, hmessages, hbody, Option.map_some]
  exact ⟨_, hperform, rfl, (Call.perform_eq_some h hperform).2⟩

/-- The bodies run so far are a sequential run from the empty store that gave
the same results and left the same list. -/
def CallSystem.Sequential (s : CallSystem ι) : Prop :=
  ∃ st, Run.answers performStep .empty (s.log.map Performed.action) =
      some (st, s.log.map Performed.result) ∧
    st.messages = s.store.messages ∧ st.Lazy

/-- Each thread has run its calls in their order. -/
def CallSystem.InOrder (programs : ι → List (Outcomes × Call)) (s : CallSystem ι) : Prop :=
  ∀ i, (s.log.filter fun p => p.thread = i).map Performed.action ++ (s.threads i).program =
    programs i

/-- What holds after every step. -/
structure CallSystem.Inv (programs : ι → List (Outcomes × Call)) (s : CallSystem ι) : Prop where
  lazy : s.store.Lazy
  ready : ∀ i, (s.threads i).pc = .ready → s.store.initedList = true
  sequential : s.Sequential
  inOrder : s.InOrder programs

section Step

variable {programs : ι → List (Outcomes × Call)} {s s' : CallSystem ι} {i : ι}

theorem CallSystem.inv_init (programs : ι → List (Outcomes × Call)) :
    (CallSystem.init programs).Inv programs where
  lazy := ListState.lazy_empty
  ready := by
    intro i h
    cases h
  sequential := ⟨.empty, rfl, rfl, ListState.lazy_empty⟩
  inOrder := by
    intro i
    rfl

/-- A thread that does not become ready makes no thread ready. -/
theorem ready_of_update {threads : ι → CallThread} {t : CallThread}
    (ht : t.pc ≠ .ready) {j : ι} (hj : (Function.update threads i t j).pc = .ready) :
    (threads j).pc = .ready := by
  by_cases hji : j = i
  · subst hji
    rw [Function.update_self] at hj
    exact absurd hj ht
  · rwa [Function.update_of_ne hji] at hj

/-- A thread that only moves on inside its call keeps the order. -/
theorem CallSystem.InOrder.move (h : s.InOrder programs) {pc : ThreadPc}
    {program : List (Outcomes × Call)} (hp : (s.threads i).program = program)
    (store : ListState) :
    ({ s with store := store, threads := Function.update s.threads i ⟨pc, program⟩ } :
      CallSystem ι).InOrder programs := by
  intro j
  have hj := h j
  by_cases hji : j = i
  · subst hji
    simpa [hp] using hj
  · simpa [Function.update_of_ne hji] using hj

/-- The step that runs a body. -/
theorem CallSystem.Inv.runBody (h : s.Inv programs) {a : Outcomes × Call}
    {program : List (Outcomes × Call)} (hp : (s.threads i).program = a :: program)
    (hinit : a.2.initialises = true → s.store.initedList = true)
    (hrun : s.runBody i a program = some s') : s'.Inv programs := by
  obtain ⟨⟨messages, r⟩, hbody, rfl⟩ := Option.map_eq_some_iff.mp hrun
  refine ⟨?_, ?_, ?_, ?_⟩
  · -- only a body that initialises changes the list
    intro hinited
    have hnot : a.2.initialises = false := by
      by_contra hi
      simp [hinit (by simpa using hi)] at hinited
    rw [Call.body_of_not_initialises hnot hbody]
    exact h.lazy hinited
  · intro j hj
    exact h.ready j (ready_of_update (by simp) hj)
  · obtain ⟨st, hanswers, hmessages, hlazy⟩ := h.sequential
    rw [← hmessages] at hbody
    obtain ⟨st', hstep, hst', hlazy'⟩ := performStep_of_body hlazy hbody
    refine ⟨st', ?_, hst', hlazy'⟩
    rw [List.map_append, List.map_append]
    exact Run.answers_append_singleton hanswers hstep
  · intro j
    have hj := h.inOrder j
    by_cases hji : j = i
    · subst hji
      simpa [List.filter_append, hp] using hj
    · have hij : i ≠ j := fun h => hji h.symm
      simpa [List.filter_append, hij, Function.update_of_ne hji] using hj

theorem CallSystem.Inv.step (h : s.Inv programs) (hstep : s.step i = some s') :
    s'.Inv programs := by
  unfold CallSystem.step at hstep
  cases hp : (s.threads i).program with
  | nil => simp [hp] at hstep
  | cons a program =>
      cases hpc : (s.threads i).pc with
      | idle =>
          simp only [hp, hpc] at hstep
          split at hstep
          · next hinit =>
              cases hstep
              refine ⟨h.lazy, ?_, h.sequential, h.inOrder.move hp s.store⟩
              intro j hj
              exact h.ready j (ready_of_update (by simp) hj)
          · next hinit =>
              refine h.runBody hp (fun hi => ?_) hstep
              simpa [hi] using hinit
      | needInit =>
          simp only [hp, hpc] at hstep
          cases hstep
          refine ⟨fun hfalse => ?_, fun _ _ => initedList_initList s.store, ?_,
            h.inOrder.move hp _⟩
          · simp at hfalse
          · obtain ⟨st, hanswers, hmessages, hlazy⟩ := h.sequential
            exact ⟨st, hanswers, hmessages.trans h.lazy.messages_initList.symm, hlazy⟩
      | ready =>
          simp only [hp, hpc] at hstep
          exact h.runBody hp (fun _ => h.ready i hpc) hstep

end Step

/-! ## Progress -/

/-- The critical sections a thread has left at most. -/
def CallThread.left (t : CallThread) : ℕ :=
  match t.pc with
  | .idle => 3 * t.program.length
  | .needInit => 3 * t.program.length - 1
  | .ready => 3 * t.program.length - 2

section Progress

variable {s s' : CallSystem ι} {i : ι}

theorem CallSystem.runBody_left {a : Outcomes × Call} {program : List (Outcomes × Call)}
    (hrun : s.runBody i a program = some s') : (s'.threads i).left = 3 * program.length := by
  obtain ⟨r, -, rfl⟩ := Option.map_eq_some_iff.mp hrun
  simp [CallThread.left]

/-- Every critical section takes from what its thread has left. -/
theorem CallSystem.left_of_step (hstep : s.step i = some s') :
    (s'.threads i).left < (s.threads i).left := by
  unfold CallSystem.step at hstep
  cases hp : (s.threads i).program with
  | nil => simp [hp] at hstep
  | cons a program =>
      cases hpc : (s.threads i).pc with
      | idle =>
          simp only [hp, hpc] at hstep
          split at hstep
          · cases hstep
            simp [CallThread.left, hp, hpc]
          · rw [runBody_left hstep]
            simp [CallThread.left, hp, hpc]
      | needInit =>
          simp only [hp, hpc] at hstep
          cases hstep
          simp only [Function.update_self, CallThread.left, hp, hpc, List.length_cons]
          omega
      | ready =>
          simp only [hp, hpc] at hstep
          rw [runBody_left hstep]
          simp only [CallThread.left, hp, hpc, List.length_cons]
          omega

theorem CallSystem.threads_of_step {j : ι} (hj : j ≠ i) (hstep : s.step j = some s') :
    s'.threads i = s.threads i := by
  have hbody : ∀ a program, s.runBody j a program = some s' → s'.threads i = s.threads i := by
    intro a program hrun
    obtain ⟨r, -, rfl⟩ := Option.map_eq_some_iff.mp hrun
    exact Function.update_of_ne hj.symm _ _
  unfold CallSystem.step at hstep
  split at hstep
  · cases hstep
  · split at hstep
    · split at hstep
      · cases hstep
        exact Function.update_of_ne hj.symm _ _
      · exact hbody _ _ hstep
    · cases hstep
      exact Function.update_of_ne hj.symm _ _
    · exact hbody _ _ hstep

/-- A thread with a call can go on, unless the body writes through a null pointer. -/
theorem CallSystem.step_isSome {a : Outcomes × Call} {program : List (Outcomes × Call)}
    (hp : (s.threads i).program = a :: program) (ho : a.1.Allocated) : (s.step i).isSome := by
  have hbody : (s.runBody i a program).isSome := by
    rw [CallSystem.runBody, Option.isSome_map]
    exact Call.body_isSome ho s.store.messages a.2
  unfold CallSystem.step
  simp only [hp]
  cases (s.threads i).pc with
  | idle =>
      dsimp only
      split
      · rfl
      · exact hbody
  | needInit => rfl
  | ready => exact hbody

/-- A thread that takes three critical sections returns from a call. -/
theorem CallSystem.returns_of_run {more : List ι} (hrun : Run.run CallSystem.step s more = some s')
    (hcount : 3 ≤ more.count i) :
    (s'.threads i).program.length < (s.threads i).program.length := by
  let left : CallSystem ι → ℕ := fun s => (s.threads i).left
  have hle : more.count i + left s' ≤ left s := Run.count_add_le
    (fun _ _ hstep => left_of_step hstep)
    (fun s j s' hj hstep => by simp only [threads_of_step hj hstep, le_refl]) hrun
  have hfrom : left s ≤ 3 * (s.threads i).program.length := by
    simp only [left, CallThread.left]
    split <;> omega
  have hto : 3 * (s'.threads i).program.length ≤ left s' + 2 := by
    simp only [left, CallThread.left]
    split <;> omega
  omega

end Progress

/-! ## Runs -/

/-- Any number of threads call the operations, and their critical sections run in
any order. Then the bodies, in the order in which they ran, are a sequential run
from the empty store with the same results, which ends with the same list; the
order is the program order of each thread; and no `init_list` that a thread may
still run discards a user. A thread that has a call left whose response nodes are
granted can go on, whatever the others do, and with every three critical sections
of its own it returns from a call. -/
theorem threads_linearizable (programs : ι → List (Outcomes × Call)) {schedule : List ι}
    {s : CallSystem ι} (hrun : Run.run CallSystem.step (.init programs) schedule = some s) :
    (∃ st, Run.answers performStep .empty (s.log.map Performed.action) =
        some (st, s.log.map Performed.result) ∧ st.messages = s.store.messages) ∧
      (∀ i, (s.log.filter fun p => p.thread = i).map Performed.action ++
        (s.threads i).program = programs i) ∧
      (initList s.store).messages = s.store.messages ∧
      (∀ i a program, (s.threads i).program = a :: program → a.1.Allocated →
        (s.step i).isSome) ∧
      ∀ i more s', Run.run CallSystem.step s more = some s' → 3 ≤ more.count i →
        (s'.threads i).program.length < (s.threads i).program.length := by
  have h : s.Inv programs := Run.invariant
    (fun _ _ _ h hstep => CallSystem.Inv.step h hstep) (CallSystem.inv_init programs) hrun
  obtain ⟨st, hanswers, hmessages, -⟩ := h.sequential
  exact ⟨⟨st, hanswers, hmessages⟩, h.inOrder, h.lazy.messages_initList,
    fun i a program hp ho => CallSystem.step_isSome hp ho,
    fun i more s' hmore hcount => CallSystem.returns_of_run hmore hcount⟩

/-- Two threads find `inited_list` at 0, and the second one runs `init_list` after
the first one has registered its user. Both users are there in the end. -/
theorem threads_linearizable_two_inits :
    let programs : Bool → List (Outcomes × Call) := fun i =>
      [(.success ⟨10, 0, 0, 1⟩, .registerUser [if i then 97 else 98])]
    ∃ s, Run.run CallSystem.step (.init programs) [true, false, true, true, false, false] =
        some s ∧
      s.log.map (fun p => (p.thread, p.result)) = [(true, .code 0), (false, .code 0)] ∧
      s.store.messages.map Node.name = [[98], [97]] ∧
      (∃ st, Run.answers performStep .empty (s.log.map Performed.action) =
        some (st, s.log.map Performed.result) ∧ st.messages = s.store.messages) ∧
      (∀ i, (s.log.filter fun p => p.thread = i).map Performed.action ++
        (s.threads i).program = programs i) ∧
      (initList s.store).messages = s.store.messages ∧
      (∀ i a program, (s.threads i).program = a :: program → a.1.Allocated →
        (s.step i).isSome) ∧
      ∀ i more s', Run.run CallSystem.step s more = some s' → 3 ≤ more.count i →
        (s'.threads i).program.length < (s.threads i).program.length := by
  intro programs
  have hend : (Run.run CallSystem.step (.init programs)
      [true, false, true, true, false, false]).map (fun s =>
        (s.log.map (fun p => (p.thread, p.result)), s.store.messages.map Node.name)) =
      some ([(true, .code 0), (false, .code 0)], [[98], [97]]) := by
    decide +kernel
  obtain ⟨s, hs, heq⟩ := Option.map_eq_some_iff.mp hend
  obtain ⟨hlog, hnames⟩ := Prod.mk.inj heq
  exact ⟨s, hs, hlog, hnames, threads_linearizable programs hs⟩

end PeerDirectory
