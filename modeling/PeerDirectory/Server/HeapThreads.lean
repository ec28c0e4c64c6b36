import PeerDirectory.Lib.LockedThreads
import PeerDirectory.Server.HeapSections

/-!
# Threads on the heap

Any number of threads call the functions of `list.c`, and are stopped between any two
accesses to the static data and to the blocks. While `mutex` is free, the store is the
one that the calls carried out so far leave one after another: the two differ in
`inited_list` at most, where an `init_list` has run and its call has not. Once it is
set, `inited_list` stays set, and that is all that a call knows when it takes `mutex`
again.
-/

namespace PeerDirectory

open Locking HeapStore

namespace HeapCode

/-! ## The discipline -/

/-- The store behind the calls carried out so far, and the store there is. -/
structure Ahead (s₁ s : HeapStore) : Prop where
  messages : s₁.messages = s.messages
  heap : s₁.heap = s.heap
  inited : s₁.initedList = true → s.initedList = true
  lazy : s₁.initedList = false → s₁.messages = none

/-- The calls of a log, as operations that run in one piece. -/
def actions (log : List ((CodeOutcomes × Call) × Result)) : List (HeapOutcomes × Call) :=
  log.map fun e => (e.1.1.outcomes, e.1.2)

/-- The calls, one after another, come to these results and leave this store. -/
def Sequential (turns : ℕ) (log : List ((CodeOutcomes × Call) × Result)) (s : HeapStore) : Prop :=
  ∃ s₁, Run.answers (perform turns) .empty (actions log) = some (s₁, log.map Prod.snd) ∧
    Ahead s₁ s

/-- The discipline of `mutex`. -/
def discipline (turns : ℕ) : Discipline HeapStore (CodeOutcomes × Call) Result where
  Inv log s := Sequential turns log s ∧ ∃ st, s.Represents st ∧ blockCount st.messages ≤ log.length
  Rely s s' := s.initedList = true → s'.initedList = true
  refl _ h := h
  trans h h' hinited := h' (h hinited)

theorem inv_empty (turns : ℕ) : (discipline turns).Inv [] .empty := by
  have hsequential : Sequential turns [] .empty :=
    ⟨.empty, rfl, rfl, rfl, id, fun _ => rfl⟩
  exact ⟨hsequential, .empty, represents_empty, blockCount_empty.le⟩

/-! ## A section of an operation -/

section Body

variable {turns : ℕ} {o : HeapOutcomes} {c : Call} {s s₁ s' : HeapStore} {st : ListState}
  {r : Result}

/-- A listing does not look at `inited_list`, and leaves the store as it is. -/
theorem body_of_not_initialises (hc : c.initialises = false) (hmessages : s₁.messages = s.messages)
    (hheap : s₁.heap = s.heap) (h : HeapStore.body turns o s c = some (s', r)) :
    s' = s ∧ HeapStore.body turns o s₁ c = some (s₁, r) := by
  obtain ⟨initedList, messages, heap⟩ := s
  obtain ⟨initedList₁, messages₁, heap₁⟩ := s₁
  obtain rfl : messages₁ = messages := hmessages
  obtain rfl : heap₁ = heap := hheap
  cases c with
  | listUsers username =>
      obtain ⟨r', hr, heq⟩ := Option.map_eq_some_iff.mp h
      cases heq
      exact ⟨rfl, Option.map_eq_some_iff.mpr ⟨r, hr, rfl⟩⟩
  | listContent username username2 =>
      obtain ⟨r', hr, heq⟩ := Option.map_eq_some_iff.mp h
      cases heq
      exact ⟨rfl, Option.map_eq_some_iff.mpr ⟨r, hr, rfl⟩⟩
  | _ => cases hc

/-- The section of an operation is the operation on the store behind the calls. -/
theorem Ahead.perform (h : Ahead s₁ s) (hinit : c.initialises = true → s.initedList = true)
    (hbody : HeapStore.body turns o s c = some (s', r))
    (hkept : s.initedList = true → s'.initedList = true) :
    ∃ s₁', HeapStore.perform turns s₁ (o, c) = some (s₁', r) ∧ Ahead s₁' s' := by
  cases hc : c.initialises with
  | false =>
      obtain ⟨rfl, hbody₁⟩ := body_of_not_initialises hc h.messages h.heap hbody
      refine ⟨s₁, ?_, h⟩
      simpa [HeapStore.perform, hc] using hbody₁
  | true =>
      have hinited : s.initedList = true := hinit hc
      have hsame : (if !s₁.initedList then HeapStore.initList s₁ else s₁) = s := by
        obtain ⟨initedList, messages, heap⟩ := s
        obtain ⟨initedList₁, messages₁, heap₁⟩ := s₁
        obtain rfl : messages₁ = messages := h.messages
        obtain rfl : heap₁ = heap := h.heap
        obtain rfl : initedList = true := hinited
        cases initedList₁ with
        | true => rfl
        | false =>
            obtain rfl : messages₁ = none := h.lazy rfl
            rfl
      refine ⟨s', ?_, rfl, rfl, id, fun hfalse => ?_⟩
      · simp only [HeapStore.perform, hc, Bool.true_and, hsame]
        exact hbody
      · rw [hkept hinited] at hfalse
        cases hfalse

/-- An operation does not take `inited_list` back. -/
theorem initedList_of_performStep {a : Outcomes × Call} {st' : ListState}
    (h : performStep st a = some (st', r)) (hinited : st.initedList = true) :
    st'.initedList = true := by
  obtain ⟨q, -, heq⟩ := Option.map_eq_some_iff.mp h
  cases heq
  simp [hinited]

end Body

/-! ## The code of a call -/

section Code

variable {turns : ℕ} {a : CodeOutcomes × Call} {log : List ((CodeOutcomes × Call) × Result)}
  {s : HeapStore} {p : HeapCode Result}

/-- Code that goes on with the operation carries the call out. -/
theorem meets_of_body (hgranted : a.2.initialises = true ∨ a.1.outcomes.Allocated)
    (hinit : a.2.initialises = true → s.initedList = true) (hlog : log.length < turns)
    (hinv : (discipline turns).Inv log s) (hp : p.critical s = (body turns a.1 a.2).critical s) :
    p.Meets (discipline turns) turns a (.inside log s s) := by
  obtain ⟨⟨s₁, hanswers, hahead⟩, st, hst, hcount⟩ := hinv
  have hlt : blockCount st.messages < turns := hcount.trans_lt hlog
  have hsome := hst.perform_isSome hlt (a := (a.1.outcomes, a.2)) hgranted
  rcases hst.perform hlt (a.1.outcomes, a.2) with ⟨hnone, -⟩ | ⟨s', st', r, hperform, hstep, hst'⟩
  · rw [hnone] at hsome
    cases hsome
  · have hnoInit : (a.2.initialises && !s.initedList) = false := by
      cases hc : a.2.initialises with
      | false => rfl
      | true => rw [hinit hc]; rfl
    have hbody : HeapStore.body turns a.1.outcomes s a.2 = some (s', r) := by
      simpa only [HeapStore.perform, hnoInit, Bool.false_eq_true, if_false] using hperform
    have hkept : s.initedList = true → s'.initedList = true := by
      obtain ⟨-, -, -, hinited, -⟩ := hst
      obtain ⟨-, -, -, hinited', -⟩ := id hst'
      rw [hinited, hinited']
      exact initedList_of_performStep hstep
    obtain ⟨s₁', hperform₁, hahead'⟩ := hahead.perform hinit hbody hkept
    have hcritical : p.critical s = some (s', .ret r) := by
      rw [hp, critical_body, hbody]
      rfl
    refine Prog.meets_of_critical hcritical hkept (Or.inr ⟨r, rfl, ?_, ?_⟩)
    · refine ⟨s₁', ?_, hahead'⟩
      rw [actions, List.map_append, List.map_append]
      exact Run.answers_append_singleton hanswers hperform₁
    · refine ⟨st', hst', ?_⟩
      have hle := blockCount_body (Call.perform_eq_some hst.lazy hstep).1
      rw [List.length_append, List.length_singleton]
      omega

/-- Behind `init_list`, the code takes `mutex` again. -/
theorem meets_lock_body (hgranted : a.2.initialises = true ∨ a.1.outcomes.Allocated)
    (hinited : s.initedList = true) :
    (lock >>= fun _ => body turns a.1 a.2).Meets (discipline turns) turns a (.outside s) := by
  intro log d hlog hinv hrely
  exact meets_of_body hgranted (fun _ => hrely hinited) hlog hinv rfl

/-- `init_list`, where it was not done before. -/
theorem inv_initList (hinv : (discipline turns).Inv log s) :
    (discipline turns).Inv log (HeapStore.initList s) := by
  obtain ⟨⟨s₁, hanswers, hahead⟩, st, hst, hcount⟩ := hinv
  cases hinited : s.initedList with
  | true =>
      have hsame : HeapStore.initList s = s := by
        rw [HeapStore.initList, if_pos hinited]
      rw [hsame]
      exact ⟨⟨s₁, hanswers, hahead⟩, st, hst, hcount⟩
  | false =>
      have hfalse : s₁.initedList = false := by
        by_contra htrue
        rw [hahead.inited (by simpa using htrue)] at hinited
        cases hinited
      have hnone : (HeapStore.initList s).messages = none := by
        rw [HeapStore.initList, hinited]
        rfl
      have hinit := hst.initialise true
      simp only [Bool.true_and, hinited, Bool.not_false, if_true] at hinit
      refine ⟨⟨s₁, hanswers, (hahead.lazy hfalse).trans hnone.symm,
        hahead.heap.trans (heap_initList s).symm, fun _ => HeapStore.initedList_initList s,
        hahead.lazy⟩, _, hinit, ?_⟩
      split
      · rwa [hst.lazy.messages_initList]
      · exact hcount

/-- `init_list`, and then the operation. -/
theorem meets_initList (hgranted : a.2.initialises = true ∨ a.1.outcomes.Allocated) :
    (initList >>= fun _ => lock >>= fun _ => body turns a.1 a.2).Meets (discipline turns) turns a
      (.outside s) := by
  intro log d hlog hinv _
  have hcritical : ((loadInitedList >>= fun initedList =>
      if initedList then unlockReturn (0 : Int)
      else storeMessages none >>= fun _ => storeInitedList true >>= fun _ => unlockReturn 0) >>=
        fun _ => lock >>= fun _ => body turns a.1 a.2).critical d =
      some (HeapStore.initList d, lock >>= fun _ => body turns a.1 a.2) := by
    simp only [bind_assoc, critical_loadInitedList_bind]
    cases hinited : d.initedList with
    | true => simp [HeapStore.initList, hinited, unlockReturn]
    | false => simp [HeapStore.initList, hinited, unlockReturn]
  refine Prog.meets_of_critical hcritical (fun _ => HeapStore.initedList_initList d)
    (Or.inl ⟨inv_initList hinv, ?_⟩)
  exact meets_lock_body hgranted (HeapStore.initedList_initList d)

/-- The code of a call meets the discipline, whatever it has seen of the store. -/
theorem meets_call (hgranted : a.2.initialises = true ∨ a.1.outcomes.Allocated)
    (known : HeapStore) :
    (call turns a).Meets (discipline turns) turns a (.outside known) := by
  cases hc : a.2.initialises with
  | false =>
      rw [call_of_not_initialises turns hc]
      intro log d hlog hinv _
      refine meets_of_body hgranted (fun h => ?_) hlog hinv rfl
      rw [hc] at h
      cases h
  | true =>
      rw [call_of_initialises turns hc]
      intro log d hlog hinv _
      have hcritical : (loadInitedList >>= (fun initedList =>
          if initedList then return () else unlock >>= fun _ => initList >>= fun _ => lock) >>=
            fun _ => body turns a.1 a.2).critical d =
          if d.initedList then (body turns a.1 a.2).critical d
          else some (d, initList >>= fun _ => lock >>= fun _ => body turns a.1 a.2) := by
        rw [bind_assoc, critical_loadInitedList_bind]
        cases d.initedList with
        | true => rfl
        | false => simp
      -- the slow path leaves the section without having changed anything
      cases hinited : d.initedList with
      | true =>
          rw [hinited, if_pos rfl] at hcritical
          exact meets_of_body hgranted (fun _ => hinited) hlog hinv hcritical
      | false =>
          rw [hinited, if_neg Bool.false_ne_true] at hcritical
          exact Prog.meets_of_critical hcritical id (Or.inl ⟨hinv, meets_initList hgranted⟩)

end Code

/-! ## Any number of threads -/

section Threads

variable {ι : Type} [Fintype ι] [DecidableEq ι] {turns : ℕ}
  {programs : ι → List (CodeOutcomes × Call)} {order : List ι}
  {s : System ι HeapStore (CodeOutcomes × Call) Result}

/-- The discipline holds in every run. -/
theorem kept_of_run
    (hgranted : ∀ i, ∀ a ∈ programs i, a.2.initialises = true ∨ a.1.outcomes.Allocated)
    (hturns : ∑ i, (programs i).length ≤ turns)
    (hrun : Run.run (System.step (call turns)) (.init .empty programs) order = some s) :
    ∃ free, s.Kept (discipline turns) turns programs
      ((System.init .empty programs).carriedOut (call turns) order) free := by
  have hmeets : ∀ i, ∀ a ∈ programs i, ∀ known,
      (call turns a).Meets (discipline turns) turns a (.outside known) := fun i a ha known =>
    meets_call (hgranted i a ha) known
  exact System.kept_of_run hturns hmeets (inv_empty turns) hrun

/-- Threads that are stopped between any two statements of `list.c` touch no block that
is not live, access the store with `mutex` in their hands only, and come to the results
and to the store of the same calls run one after another, each thread in the order of
its program. -/
theorem heap_threads_linearizable
    (hgranted : ∀ i, ∀ a ∈ programs i, a.2.initialises = true ∨ a.1.outcomes.Allocated)
    (hturns : ∑ i, (programs i).length ≤ turns)
    (hrun : Run.run (System.step (call turns)) (.init .empty programs) order = some s) :
    let log := (System.init .empty programs).carriedOut (call turns) order
    (∃ s₁, Run.answers (perform turns) .empty (actions (log.map Prod.snd)) =
        some (s₁, log.map fun e => e.2.2) ∧
      (s.holder = none → s₁.messages = s.data.messages ∧ s₁.heap = s.data.heap)) ∧
    ∀ i, (s.callers i).Accounts (programs i) (callsOf i log) ∧
      (s.callers i).code ≠ some .fault ∧
      ∀ p, (s.callers i).code = some p → p.touches = true → s.holder = some i := by
  intro log
  obtain ⟨free, hkept⟩ := kept_of_run hgranted hturns hrun
  obtain ⟨⟨s₁, hanswers, hahead⟩, -⟩ := hkept.inv
  constructor
  · refine ⟨s₁, ?_, fun hfree => ?_⟩
    · rw [List.map_map] at hanswers
      exact hanswers
    · rw [hkept.data hfree]
      exact ⟨hahead.messages, hahead.heap⟩
  · intro i
    exact ⟨hkept.accounts i, hkept.ne_fault i, fun p => hkept.holder_of_touches⟩

/-- What the system answers below: it grants everything. -/
def grantCode : CodeOutcomes where
  getpeername := some ⟨127, 0, 0, 1⟩
  malloc := Heap.Malloc.above
  userBlock := ⟨CharArray.memset _, CharArray.memset _, CharArray.memset _, none, none⟩
  fileBlock := ⟨CharArray.memset _, CharArray.memset _, none⟩
  respuesta := true
  mallocRespuesta := fun _ => true

/-- One thread registers `a`, and the other one `b`. -/
def registerBoth (i : Bool) : List (CodeOutcomes × Call) :=
  [(grantCode, .registerUser [if i then 97 else 98])]

/-- Both threads have seen that `inited_list` is not set before one of them sets it. -/
def bothInit : List Bool :=
  [true, true, false, true, true] ++ List.replicate 3 false ++ List.replicate 5 true ++
    List.replicate 3 false ++ List.replicate 12 true ++ List.replicate 14 false

theorem registerBoth_granted (i : Bool) :
    ∀ a ∈ registerBoth i, a.2.initialises = true ∨ a.1.outcomes.Allocated := by
  intro a ha
  obtain rfl := List.mem_singleton.mp ha
  exact Or.inl rfl

theorem heap_threads_linearizable_bothInit :
    let log := (System.init .empty registerBoth).carriedOut (call 2) bothInit
    ∃ s, Run.run (System.step (call 2)) (.init .empty registerBoth) bothInit = some s ∧
      log.map (fun e => (e.1, e.2.2)) = [(true, .code 0), (false, .code 0)] ∧
      (∃ s₁, Run.answers (perform 2) .empty (actions (log.map Prod.snd)) =
          some (s₁, log.map fun e => e.2.2) ∧
        s₁.messages = s.data.messages ∧ s₁.heap = s.data.heap) ∧
      ∀ i, (s.callers i).Accounts (registerBoth i) (callsOf i log) ∧
        (s.callers i).code ≠ some .fault ∧
        ∀ p, (s.callers i).code = some p → p.touches = true → s.holder = some i := by
  intro log
  have hend : (Run.run (System.step (call 2)) (.init .empty registerBoth) bothInit).map
      System.holder = some none := by
    decide +kernel
  have hlog : log.map (fun e => (e.1, e.2.2)) = [(true, .code 0), (false, .code 0)] := by
    decide +kernel
  obtain ⟨s, hrun, hfree⟩ := Option.map_eq_some_iff.mp hend
  obtain ⟨⟨s₁, hanswers, hsame⟩, hthreads⟩ :=
    heap_threads_linearizable registerBoth_granted (by decide) hrun
  exact ⟨s, hrun, hlog, ⟨s₁, hanswers, hsame hfree⟩, hthreads⟩

/-- Whatever the order, the threads come to a stop, and they do so when all of them have
returned from all of their calls only. -/
theorem heap_threads_return
    (hgranted : ∀ i, ∀ a ∈ programs i, a.2.initialises = true ∨ a.1.outcomes.Allocated)
    (hturns : ∑ i, (programs i).length ≤ turns)
    (hrun : Run.run (System.step (call turns)) (.init .empty programs) order = some s) :
    order.length ≤ (∑ i, (programs i).length) * (8 * turns + 21) ∧
      ((∀ i, s.step (call turns) i = none) →
        ∀ i, (s.callers i).code = none ∧ (s.callers i).todo = []) := by
  obtain ⟨free, hkept⟩ := kept_of_run hgranted hturns hrun
  constructor
  · have hlength := System.length_le_of_run (within_call turns) hrun
    have hcost : ∀ i, ((programs i).map fun _ => 9 + (8 * turns + 10) + 2).sum =
        (programs i).length * (8 * turns + 21) := by
      intro i
      rw [List.map_const', List.sum_replicate, smul_eq_mul]
      congr 1
      omega
    simp only [hcost, ← Finset.sum_mul] at hlength
    exact hlength
  · exact fun hstuck => hkept.returned hstuck

/-- Both threads return. -/
theorem heap_threads_return_bothInit :
    ∃ s, Run.run (System.step (call 2)) (.init .empty registerBoth) bothInit = some s ∧
      bothInit.length = 42 ∧ bothInit.length ≤ (∑ i, (registerBoth i).length) * (8 * 2 + 21) ∧
      ∀ i, (s.callers i).code = none ∧ (s.callers i).todo = [] ∧
        (s.callers i).results = [.code 0] := by
  have hend : (Run.run (System.step (call 2)) (.init .empty registerBoth) bothInit).map
      (fun s => [true, false].map fun i =>
        ((s.step (call 2) i).isNone, (s.callers i).results)) =
      some [(true, [.code 0]), (true, [.code 0])] := by
    decide +kernel
  obtain ⟨s, hrun, hs⟩ := Option.map_eq_some_iff.mp hend
  obtain ⟨hlength, hreturned⟩ := heap_threads_return registerBoth_granted (by decide) hrun
  have hi : ∀ i, s.step (call 2) i = none ∧ (s.callers i).results = [.code 0] := by
    intro i
    cases i <;> simp_all
  refine ⟨s, hrun, rfl, hlength, fun i => ?_⟩
  obtain ⟨hcode, htodo⟩ := hreturned (fun j => (hi j).1) i
  exact ⟨hcode, htodo, (hi i).2⟩

end Threads

end HeapCode

end PeerDirectory
