import PeerDirectory.Lib.Run
import Mathlib.Logic.Function.Basic

/-!
# The handle of the remote procedure calls

Every handler thread runs `rpc_llamada`: it stores the handle `clnt_create`
returns in the global variable `clnt`, calls `print_1` through `clnt` and
destroys `clnt`. The threads take turns in any order. A call that fails and the
`clnt_perror` after it are one step.
-/

namespace PeerDirectory

/-- The statement of `rpc_llamada` a thread is at. -/
inductive RpcPc where
  /-- `clnt = clnt_create(...)` -/
  | create
  /-- `print_1(..., clnt)` -/
  | call
  /-- `clnt_destroy(clnt)` -/
  | destroy
  | done
deriving DecidableEq

/-- What a thread does through `clnt`. -/
inductive RpcUse where
  | call
  | destroy
deriving DecidableEq

/-- A use of a handle by a thread. -/
structure HandleUse (ι : Type) where
  thread : ι
  use : RpcUse
  handle : ℕ

/-- The threads and the variable `clnt`. No statement looks at `own`, the handle
a thread has created, at `created`, all these handles, at `uses`, what was done
with them, and at `creator`, the thread that was the last to create one. -/
structure RpcSystem (ι : Type) where
  clnt : Option ℕ
  pc : ι → RpcPc
  own : ι → Option ℕ
  created : List ℕ
  uses : List (HandleUse ι)
  creator : Option ι

/-- One step of a thread; `clnt_create` comes with the handle it returns. -/
inductive RpcEvent (ι : Type) where
  | create (i : ι) (handle : ℕ)
  | call (i : ι)
  | destroy (i : ι)

namespace RpcSystem

variable {ι : Type} [DecidableEq ι]

/-- No thread has called `rpc_llamada`. -/
def init : RpcSystem ι where
  clnt := none
  pc := fun _ => .create
  own := fun _ => none
  created := []
  uses := []
  creator := none

/-- The thread `i` uses the handle in `clnt` and goes on to `next`. -/
def useClnt (s : RpcSystem ι) (i : ι) (use : RpcUse) (next : RpcPc) : Option (RpcSystem ι) :=
  s.clnt.map fun handle => { s with
    pc := Function.update s.pc i next
    uses := s.uses ++ [⟨i, use, handle⟩] }

/-- One step; `none` where it cannot be taken. `clnt_create` returns a handle
that was not there before. -/
def step (s : RpcSystem ι) : RpcEvent ι → Option (RpcSystem ι)
  | .create i handle =>
      if s.pc i = .create ∧ handle ∉ s.created then
        some { s with
          clnt := some handle
          pc := Function.update s.pc i .call
          own := Function.update s.own i (some handle)
          created := handle :: s.created
          creator := some i }
      else none
  | .call i => if s.pc i = .call then s.useClnt i .call .destroy else none
  | .destroy i => if s.pc i = .destroy then s.useClnt i .destroy .done else none

/-- How often a handle was destroyed. -/
def destroyed (s : RpcSystem ι) (handle : ℕ) : ℕ :=
  s.uses.countP fun u => u.use = .destroy ∧ u.handle = handle

/-- The life of every handle. -/
structure Lifecycle (s : RpcSystem ι) : Prop where
  /-- A thread uses the handle it has created. -/
  own : ∀ u ∈ s.uses, s.own u.thread = some u.handle
  /-- A handle is not used any more when it is destroyed. -/
  live : s.uses.Pairwise fun u v => u.use = .destroy → v.handle ≠ u.handle
  /-- A handle is destroyed once, as the last thing its thread does. -/
  destroyedOnce : ∀ i handle, s.own i = some handle →
    s.destroyed handle = if s.pc i = .done then 1 else 0

/-- A thread that calls through `clnt` or destroys it was the last one to create a
handle. -/
def LastCreator (s : RpcSystem ι) : RpcEvent ι → Prop
  | .create _ _ => True
  | .call i => s.pc i = .call → s.creator = some i
  | .destroy i => s.pc i = .destroy → s.creator = some i

/-! ## The invariant -/

/-- What holds in every state. -/
structure Inv (s : RpcSystem ι) : Prop where
  create : ∀ i, s.own i = none ↔ s.pc i = .create
  created : ∀ i handle, s.own i = some handle → handle ∈ s.created
  inj : ∀ i j handle, s.own i = some handle → s.own j = some handle → i = j
  clnt : s.clnt = s.creator.bind s.own
  creator : ∀ i, s.own i ≠ none → ∃ j, s.creator = some j ∧ s.own j ≠ none

omit [DecidableEq ι] in
theorem inv_init : (init : RpcSystem ι).Inv where
  create := fun _ => iff_of_true rfl rfl
  created := by
    intro i handle h
    cases h
  inj := by
    intro i j handle h
    cases h
  clnt := rfl
  creator := by
    intro i h
    exact absurd rfl h

section Step

variable {s s' : RpcSystem ι} {i : ι}

omit [DecidableEq ι] in
/-- What a thread past `clnt_create` finds in `clnt`: the handle of the thread
that was the last to create one. -/
theorem Inv.clnt_of_pc (h : s.Inv) (hpc : s.pc i ≠ .create) :
    ∃ j handle, s.creator = some j ∧ s.own j = some handle ∧ s.clnt = some handle := by
  obtain ⟨j, hj, hown⟩ := h.creator i fun hnone => hpc ((h.create i).mp hnone)
  obtain ⟨handle, hhandle⟩ := Option.ne_none_iff_exists'.mp hown
  exact ⟨j, handle, hj, hhandle, by rw [h.clnt, hj, Option.bind_some, hhandle]⟩

/-- A step that only moves a thread on past `clnt_create`. -/
theorem inv_useClnt (h : s.Inv) {use : RpcUse} {next : RpcPc} (hpc : s.pc i ≠ .create)
    (hnext : next ≠ .create) (hs : s.useClnt i use next = some s') : s'.Inv := by
  obtain ⟨handle, -, rfl⟩ := Option.map_eq_some_iff.mp hs
  refine ⟨fun j => ?_, h.created, h.inj, h.clnt, h.creator⟩
  by_cases hj : j = i
  · subst hj
    simp only [Function.update_self]
    exact iff_of_false (fun hnone => hpc ((h.create j).mp hnone)) hnext
  · simp only [Function.update_of_ne hj]
    exact h.create j

theorem inv_create (h : s.Inv) {handle : ℕ} (hs : s.step (.create i handle) = some s') :
    s'.Inv := by
  simp only [step, Option.ite_none_right_eq_some, Option.some.injEq] at hs
  obtain ⟨⟨hpc, hfresh⟩, rfl⟩ := hs
  constructor
  · intro j
    by_cases hj : j = i
    · subst hj
      simp
    · simp only [Function.update_of_ne hj]
      exact h.create j
  · intro j handle' hown
    by_cases hj : j = i
    · subst hj
      simp only [Function.update_self, Option.some.injEq] at hown
      simp [hown]
    · simp only [Function.update_of_ne hj] at hown
      exact List.mem_cons_of_mem _ (h.created j handle' hown)
  · intro j k handle' hj hk
    have hne : ∀ l, l ≠ i → s.own l = some handle → False := fun l _ hl =>
      hfresh (h.created l handle hl)
    by_cases hji : j = i <;> by_cases hki : k = i
    · rw [hji, hki]
    · simp only [hji, Function.update_self, Function.update_of_ne hki] at hj hk
      exact (hne k hki (hj ▸ hk)).elim
    · simp only [hki, Function.update_self, Function.update_of_ne hji] at hj hk
      exact (hne j hji (hk ▸ hj)).elim
    · simp only [Function.update_of_ne hji, Function.update_of_ne hki] at hj hk
      exact h.inj j k handle' hj hk
  · simp
  · intro j _
    exact ⟨i, rfl, by simp⟩

theorem inv_step (event : RpcEvent ι) (h : s.Inv) (hs : s.step event = some s') : s'.Inv := by
  cases event with
  | create i handle => exact inv_create h hs
  | call i =>
      obtain ⟨hpc, hs⟩ := Option.ite_none_right_eq_some.mp hs
      exact inv_useClnt h (by simp [hpc]) (by simp) hs
  | destroy i =>
      obtain ⟨hpc, hs⟩ := Option.ite_none_right_eq_some.mp hs
      exact inv_useClnt h (by simp [hpc]) (by simp) hs

/-! ## One step in the life of the handles -/

omit [DecidableEq ι] in
/-- A handle nobody has created is not used. -/
theorem Lifecycle.destroyed_eq_zero (hlife : s.Lifecycle) {handle : ℕ}
    (hfresh : ∀ j, s.own j ≠ some handle) : s.destroyed handle = 0 := by
  rw [destroyed, List.countP_eq_zero]
  intro u hu huse
  simp only [decide_eq_true_eq] at huse
  exact hfresh u.thread (huse.2 ▸ hlife.own u hu)

theorem Lifecycle.create (h : s.Inv) (hlife : s.Lifecycle) {handle : ℕ}
    (hs : s.step (.create i handle) = some s') : s'.Lifecycle := by
  simp only [step, Option.ite_none_right_eq_some, Option.some.injEq] at hs
  obtain ⟨⟨hpc, hfresh⟩, rfl⟩ := hs
  have hunused : ∀ j, s.own j ≠ some handle := fun j hj => hfresh (h.created j handle hj)
  constructor
  · intro u hu
    have hown := hlife.own u hu
    have hthread : u.thread ≠ i := by
      intro hi
      rw [hi, (h.create i).mpr hpc] at hown
      cases hown
    simp only [Function.update_of_ne hthread]
    exact hown
  · exact hlife.live
  · intro j handle' hown
    by_cases hj : j = i
    · subst hj
      simp only [Function.update_self, Option.some.injEq] at hown ⊢
      rw [← hown]
      exact hlife.destroyed_eq_zero hunused
    · simp only [Function.update_of_ne hj] at hown ⊢
      exact hlife.destroyedOnce j handle' hown

/-- The thread uses its own handle. -/
theorem Lifecycle.useOwn (h : s.Inv) (hlife : s.Lifecycle) {use : RpcUse} {next : RpcPc}
    {handle : ℕ} (hpc : s.pc i ≠ .done) (hnext : next = .done ↔ use = .destroy)
    (hown : s.own i = some handle) :
    Lifecycle { s with
      pc := Function.update s.pc i next
      uses := s.uses ++ [⟨i, use, handle⟩] } := by
  have hlive : s.destroyed handle = 0 := by
    rw [hlife.destroyedOnce i handle hown, if_neg hpc]
  constructor
  · intro u hu
    rcases List.mem_append.mp hu with hu | hu
    · exact hlife.own u hu
    · obtain rfl := List.mem_singleton.mp hu
      exact hown
  · refine List.pairwise_append.mpr ⟨hlife.live, List.pairwise_singleton _ _, ?_⟩
    intro u hu v hv huse heq
    obtain rfl := List.mem_singleton.mp hv
    refine List.countP_eq_zero.mp hlive u hu ?_
    simp [huse, ← heq]
  · intro j handle' hj
    have hcount : destroyed { s with
        pc := Function.update s.pc i next
        uses := s.uses ++ [⟨i, use, handle⟩] } handle' =
        s.destroyed handle' + if use = .destroy ∧ handle = handle' then 1 else 0 := by
      simp [destroyed, List.countP_append, List.countP_singleton]
    rw [hcount]
    by_cases hji : j = i
    · subst hji
      obtain rfl : handle = handle' := Option.some.inj (hown.symm.trans hj)
      simp only [hlive, Function.update_self, hnext, and_true, Nat.zero_add]
    · have hne : handle ≠ handle' := by
        rintro rfl
        exact hji (h.inj j i handle hj hown)
      simp only [Function.update_of_ne hji, hne, and_false, if_false, Nat.add_zero]
      exact hlife.destroyedOnce j handle' hj

/-- A use of `clnt` keeps the handles in order exactly when the thread was the last
one to create one. -/
theorem lifecycle_useClnt_iff (h : s.Inv) (hlife : s.Lifecycle) {use : RpcUse} {next : RpcPc}
    (hcreate : s.pc i ≠ .create) (hdone : s.pc i ≠ .done)
    (hnext : next = .done ↔ use = .destroy) (hs : s.useClnt i use next = some s') :
    s'.Lifecycle ↔ s.creator = some i := by
  obtain ⟨handle, hclnt, rfl⟩ := Option.map_eq_some_iff.mp hs
  constructor
  · intro hlife'
    obtain ⟨j, handle', hj, hown, hclnt'⟩ := h.clnt_of_pc hcreate
    obtain rfl : handle = handle' := Option.some.inj (hclnt.symm.trans hclnt')
    have huse : s.own i = some handle := hlife'.own ⟨i, use, handle⟩ (by simp)
    rw [hj, h.inj j i handle hown huse]
  · intro hcreator
    have hown : s.own i = some handle := by
      rw [← hclnt, h.clnt, hcreator, Option.bind_some]
    exact hlife.useOwn h hdone hnext hown

theorem lifecycle_step_iff (event : RpcEvent ι) (h : s.Inv) (hlife : s.Lifecycle)
    (hs : s.step event = some s') : s'.Lifecycle ↔ s.LastCreator event := by
  cases event with
  | create i handle => exact iff_of_true (hlife.create h hs) trivial
  | call i =>
      obtain ⟨hpc, hs⟩ := Option.ite_none_right_eq_some.mp hs
      rw [lifecycle_useClnt_iff h hlife (by simp [hpc]) (by simp [hpc]) (by simp) hs]
      simp only [LastCreator, hpc, true_imp_iff]
  | destroy i =>
      obtain ⟨hpc, hs⟩ := Option.ite_none_right_eq_some.mp hs
      rw [lifecycle_useClnt_iff h hlife (by simp [hpc]) (by simp [hpc]) (by simp) hs]
      simp only [LastCreator, hpc, true_imp_iff]

/-- A thread that is not the last creator can take its step all the same. -/
theorem step_isSome_of_not_lastCreator {event : RpcEvent ι} (h : s.Inv)
    (hnot : ¬ s.LastCreator event) : (s.step event).isSome := by
  cases event with
  | create i handle => exact absurd trivial hnot
  | call i =>
      obtain ⟨hpc, -⟩ := Classical.not_imp.mp hnot
      obtain ⟨-, handle, -, -, hclnt⟩ := h.clnt_of_pc (i := i) (by simp [hpc])
      simp [step, hpc, useClnt, hclnt]
  | destroy i =>
      obtain ⟨hpc, -⟩ := Classical.not_imp.mp hnot
      obtain ⟨-, handle, -, -, hclnt⟩ := h.clnt_of_pc (i := i) (by simp [hpc])
      simp [step, hpc, useClnt, hclnt]

end Step

/-! ## Every run -/

omit [DecidableEq ι] in
theorem lifecycle_init : (init : RpcSystem ι).Lifecycle where
  own := by
    intro u hu
    cases hu
  live := List.Pairwise.nil
  destroyedOnce := by
    intro i handle h
    cases h

/-- The handles are in order in every state of a run exactly as long as every
thread finishes with its handle before another thread creates one. -/
theorem lifecycle_iff_lastCreator (events : List (RpcEvent ι)) :
    (∀ taken, taken <+: events → ∀ s, Run.run step init taken = some s → s.Lifecycle) ↔
      Run.Guarded step LastCreator init events := by
  have hok : ∀ event ∈ events, (fun _ : RpcEvent ι => True) event := fun _ _ => trivial
  exact Run.forall_prefix_iff_guarded (fun _ event _ h hs => inv_step event h hs)
    (fun _ event _ h hlife _ hs => lifecycle_step_iff event h hlife hs)
    (fun _ _ h _ hnot => step_isSome_of_not_lastCreator h hnot) inv_init lifecycle_init hok

/-- Two threads create their handles before they use them: the second handle is
destroyed twice and the first one never. -/
theorem two_creates_before_the_calls :
    let events : List (RpcEvent Bool) :=
      [.create false 0, .create true 1, .call false, .call true, .destroy false, .destroy true]
    ∃ s, Run.run step init events = some s ∧ (∀ i, s.pc i = .done) ∧
      s.own = (fun i => some i.toNat) ∧ s.destroyed 0 = 0 ∧ s.destroyed 1 = 2 ∧
        ¬ s.Lifecycle := by
  intro events
  refine ⟨_, rfl, by decide, by funext i; cases i <;> rfl, rfl, rfl, fun hlife => ?_⟩
  have htwice : (2 : ℕ) = 1 := hlife.destroyedOnce true 1 rfl
  exact absurd htwice (by decide)

end RpcSystem

end PeerDirectory
