import PeerDirectory.Lib.Run

/-!
# The accept loop and the handler threads

The main thread keeps the descriptor of the accepted connection in its variable
`sc` and gives every handler thread the address of `sc`. `not_finished` tells it
whether the handler has read the variable. What happens between taking
`mutex_mensaje` and releasing it is one step here; `pthread_cond_wait` releases
the mutex, and after a wake-up the flag is tested again.
-/

namespace PeerDirectory

/-- A descriptor `accept` returned. No statement looks at `connection`, the
number of the connection it was returned for. -/
structure Descriptor where
  fd : ℤ
  connection : ℕ
deriving DecidableEq

/-- The statement the accept loop is at. -/
inductive AcceptPc where
  /-- `sc = accept(...)` -/
  | accept
  /-- `pthread_create(...)` -/
  | create
  /-- Before `mutex_mensaje` is taken, for the first time or after a wake-up. -/
  | lock
  /-- Waiting in `pthread_cond_wait`. -/
  | sleeping
  | returned
deriving DecidableEq

/-- A handler thread: the connection it was created for, and its variable `sc`
once it is set. -/
structure HandlerThread where
  connection : ℕ
  sc : Option Descriptor
deriving DecidableEq

/-- The main thread, the variables it shares with the handlers, the handlers in
the order in which they were created, and the descriptors accepted so far. -/
structure AcceptLoop where
  main : AcceptPc
  sc : Descriptor
  notFinished : Bool
  handlers : List HandlerThread
  accepted : List ℤ

/-- One step of the main thread or of a handler. `accept` and `pthreadCreate`
come with what the call returns. -/
inductive AcceptEvent where
  | accept (result : ℤ)
  | pthreadCreate (result : ℤ)
  /-- Main takes `mutex_mensaje` and tests `not_finished`. -/
  | testFlag
  | spuriousWakeup
  /-- The critical section at the entry of `treat_request`. -/
  | treatRequest (i : ℕ)
deriving DecidableEq

/-- `pthread_cond_signal`: only the main thread waits on `cond_mensaje`. -/
def AcceptPc.signal : AcceptPc → AcceptPc
  | .sleeping => .lock
  | pc => pc

namespace AcceptLoop

/-- Before the first `accept`, with anything in `sc`. -/
def init (sc : Descriptor) : AcceptLoop where
  main := .accept
  sc := sc
  notFinished := true
  handlers := []
  accepted := []

/-- A handler reads `*sc_request` and wakes the main thread. -/
def readDescriptor (s : AcceptLoop) (i : ℕ) (t : HandlerThread) : AcceptLoop :=
  { s with
    handlers := s.handlers.set i { t with sc := some s.sc }
    notFinished := false
    main := s.main.signal }

/-- One step; `none` where it cannot be taken. -/
def step (s : AcceptLoop) : AcceptEvent → Option AcceptLoop
  | .accept result =>
      if s.main = .accept then
        if result = -1 then
          some { s with main := .returned, sc := ⟨result, s.accepted.length⟩ }
        else
          some { s with
            main := .create
            sc := ⟨result, s.accepted.length⟩
            accepted := s.accepted ++ [result] }
      else none
  | .pthreadCreate result =>
      if s.main = .create then
        if result = 0 then
          some { s with
            main := .lock
            handlers := s.handlers ++ [⟨s.accepted.length - 1, none⟩] }
        else
          some { s with main := .accept }
      else none
  | .testFlag =>
      if s.main = .lock then
        if s.notFinished then
          some { s with main := .sleeping }
        else
          some { s with main := .accept, notFinished := true }
      else none
  | .spuriousWakeup =>
      if s.main = .sleeping then some { s with main := .lock } else none
  | .treatRequest i =>
      if s.main = .returned then none
      else
        match s.handlers[i]? with
        | some t => if t.sc = none then some (s.readDescriptor i t) else none
        | none => none

/-! ## The invariant -/

/-- All these handlers have read their descriptor. -/
def AllRead (handlers : List HandlerThread) : Prop :=
  ∀ t ∈ handlers, t.sc ≠ none

/-- `sc` holds the descriptor of the last accepted connection. -/
def Current (s : AcceptLoop) : Prop :=
  ∃ earlier, s.accepted = earlier ++ [s.sc.fd] ∧ s.sc.connection = earlier.length

/-- The last handler was created for the connection in `sc`, and all the others
have read their descriptor. -/
def Handing (s : AcceptLoop) (sc : Option Descriptor) : Prop :=
  s.Current ∧ ∃ rest, s.handlers = rest ++ [⟨s.sc.connection, sc⟩] ∧ AllRead rest

/-- What holds at each statement of the accept loop. -/
def AtPc (s : AcceptLoop) : Prop :=
  match s.main with
  | .accept => s.notFinished = true ∧ AllRead s.handlers
  | .create => s.notFinished = true ∧ AllRead s.handlers ∧ s.Current ∧
      ∀ t ∈ s.handlers, t.connection < s.sc.connection
  | .lock => s.notFinished = true ∧ s.Handing none ∨
      s.notFinished = false ∧ s.Handing (some s.sc)
  | .sleeping => s.notFinished = true ∧ s.Handing none
  | .returned => AllRead s.handlers

/-- What holds in every state. -/
structure Inv (s : AcceptLoop) : Prop where
  own : ∀ t ∈ s.handlers, ∀ d, t.sc = some d →
    d.connection = t.connection ∧ s.accepted[d.connection]? = some d.fd
  ordered : s.handlers.Pairwise fun t u => t.connection < u.connection
  created : ∀ t ∈ s.handlers, t.connection < s.accepted.length
  atPc : s.AtPc

theorem inv_init (sc : Descriptor) : (init sc).Inv where
  own := by
    intro t ht
    cases ht
  ordered := List.Pairwise.nil
  created := by
    intro t ht
    cases ht
  atPc := ⟨rfl, fun t ht => by cases ht⟩

theorem Current.getElem? {s : AcceptLoop} (h : s.Current) :
    s.accepted[s.sc.connection]? = some s.sc.fd := by
  obtain ⟨earlier, haccepted, hnumber⟩ := h
  rw [haccepted, hnumber, List.getElem?_concat_length]

theorem Current.length {s : AcceptLoop} (h : s.Current) :
    s.accepted.length = s.sc.connection + 1 := by
  obtain ⟨earlier, haccepted, hnumber⟩ := h
  rw [haccepted, hnumber, List.length_append, List.length_singleton]

theorem Inv.atAccept {s : AcceptLoop} (h : s.Inv) (hmain : s.main = .accept) :
    s.notFinished = true ∧ AllRead s.handlers := by
  simpa only [AtPc, hmain] using h.atPc

theorem Inv.atCreate {s : AcceptLoop} (h : s.Inv) (hmain : s.main = .create) :
    s.notFinished = true ∧ AllRead s.handlers ∧ s.Current ∧
      ∀ t ∈ s.handlers, t.connection < s.sc.connection := by
  simpa only [AtPc, hmain] using h.atPc

theorem Inv.atLock {s : AcceptLoop} (h : s.Inv) (hmain : s.main = .lock) :
    s.notFinished = true ∧ s.Handing none ∨ s.notFinished = false ∧ s.Handing (some s.sc) := by
  simpa only [AtPc, hmain] using h.atPc

theorem Inv.atSleeping {s : AcceptLoop} (h : s.Inv) (hmain : s.main = .sleeping) :
    s.notFinished = true ∧ s.Handing none := by
  simpa only [AtPc, hmain] using h.atPc

/-- The only handler that can read is the last one. -/
theorem eq_of_getElem?_append {rest : List HandlerThread} {t u : HandlerThread} {i : ℕ}
    (hrest : AllRead rest) (hi : (rest ++ [u])[i]? = some t) (ht : t.sc = none) :
    i = rest.length ∧ t = u := by
  rcases lt_or_ge i rest.length with h | h
  · rw [List.getElem?_append_left h] at hi
    exact absurd ht (hrest t (List.mem_of_getElem? hi))
  · rw [List.getElem?_append_right h, List.getElem?_singleton] at hi
    split at hi
    · exact ⟨by omega, (Option.some.inj hi).symm⟩
    · cases hi

/-! ## One step -/

section Step

variable {s s' : AcceptLoop}

/-- A step of the main thread that leaves handlers, `sc` and the accepted
descriptors as they are. -/
theorem Inv.of_main (h : s.Inv) (hhandlers : s'.handlers = s.handlers)
    (haccepted : s'.accepted = s.accepted) (hpc : s'.AtPc) : s'.Inv where
  own := by
    rw [hhandlers, haccepted]
    exact h.own
  ordered := by
    rw [hhandlers]
    exact h.ordered
  created := by
    rw [hhandlers, haccepted]
    exact h.created
  atPc := hpc

theorem inv_accept (h : s.Inv) {result : ℤ} (hs : s.step (.accept result) = some s') :
    s'.Inv := by
  simp only [step] at hs
  split at hs
  · rename_i hmain
    have hpc := h.atAccept hmain
    split at hs
    · cases hs
      exact h.of_main rfl rfl hpc.2
    · cases hs
      constructor
      · intro t ht d hd
        obtain ⟨hnumber, hfd⟩ := h.own t ht d hd
        refine ⟨hnumber, ?_⟩
        rw [List.getElem?_append_left (hnumber ▸ h.created t ht)]
        exact hfd
      · exact h.ordered
      · intro t ht
        rw [List.length_append]
        exact Nat.lt_add_right 1 (h.created t ht)
      · exact ⟨hpc.1, hpc.2, ⟨s.accepted, rfl, rfl⟩, h.created⟩
  · cases hs

theorem inv_pthreadCreate (h : s.Inv) {result : ℤ}
    (hs : s.step (.pthreadCreate result) = some s') : s'.Inv := by
  simp only [step] at hs
  split at hs
  · rename_i hmain
    obtain ⟨hflag, hread, hcurrent, holder⟩ := h.atCreate hmain
    split at hs
    · cases hs
      have hlast : s.accepted.length - 1 = s.sc.connection := by
        rw [hcurrent.length, Nat.add_sub_cancel]
      rw [hlast]
      constructor
      · intro t ht d hd
        rcases List.mem_append.mp ht with ht | ht
        · exact h.own t ht d hd
        · obtain rfl := List.mem_singleton.mp ht
          cases hd
      · refine List.pairwise_append.mpr ⟨h.ordered, List.pairwise_singleton _ _, ?_⟩
        intro t ht u hu
        obtain rfl := List.mem_singleton.mp hu
        exact holder t ht
      · intro t ht
        rcases List.mem_append.mp ht with ht | ht
        · exact h.created t ht
        · obtain rfl := List.mem_singleton.mp ht
          exact hcurrent.length ▸ Nat.lt_succ_self _
      · exact Or.inl ⟨hflag, hcurrent, s.handlers, rfl, hread⟩
    · cases hs
      exact h.of_main rfl rfl ⟨hflag, hread⟩
  · cases hs

theorem inv_testFlag (h : s.Inv) (hs : s.step .testFlag = some s') : s'.Inv := by
  simp only [step] at hs
  split at hs
  · rename_i hmain
    have hpc := h.atLock hmain
    split at hs
    · rename_i hflag
      cases hs
      rcases hpc with hpc | ⟨hset, -⟩
      · exact h.of_main rfl rfl hpc
      · rw [hset] at hflag
        cases hflag
    · rename_i hflag
      cases hs
      rcases hpc with ⟨hset, -⟩ | ⟨-, -, rest, hhandlers, hrest⟩
      · exact absurd hset hflag
      · refine h.of_main rfl rfl ⟨rfl, ?_⟩
        intro t ht
        rw [hhandlers] at ht
        rcases List.mem_append.mp ht with ht | ht
        · exact hrest t ht
        · obtain rfl := List.mem_singleton.mp ht
          exact Option.some_ne_none _
  · cases hs

theorem inv_spuriousWakeup (h : s.Inv) (hs : s.step .spuriousWakeup = some s') : s'.Inv := by
  simp only [step] at hs
  split at hs
  · rename_i hmain
    cases hs
    exact h.of_main rfl rfl (Or.inl (h.atSleeping hmain))
  · cases hs

/-- A handler that can read is the last one, and the main thread is between
`pthread_create` and the reset of the flag. -/
theorem Inv.handing (h : s.Inv) (hmain : s.main ≠ .returned) {i : ℕ} {t : HandlerThread}
    (hi : s.handlers[i]? = some t) (ht : t.sc = none) :
    s.main.signal = .lock ∧ s.Handing none := by
  have hunread : ¬ AllRead s.handlers := fun hread => hread t (List.mem_of_getElem? hi) ht
  have hpc := h.atPc
  unfold AtPc at hpc
  split at hpc
  case h_1 => exact absurd hpc.2 hunread
  case h_2 => exact absurd hpc.2.1 hunread
  case h_3 hlock =>
      rcases hpc with ⟨-, hpc⟩ | ⟨-, -, rest, hhandlers, hrest⟩
      · exact ⟨congrArg AcceptPc.signal hlock, hpc⟩
      · rw [hhandlers] at hi
        obtain ⟨-, rfl⟩ := eq_of_getElem?_append hrest hi ht
        cases ht
  case h_4 hsleeping => exact ⟨congrArg AcceptPc.signal hsleeping, hpc.2⟩
  case h_5 hreturned => exact absurd hreturned hmain

theorem inv_treatRequest (h : s.Inv) {i : ℕ} (hs : s.step (.treatRequest i) = some s') :
    s'.Inv := by
  simp only [step] at hs
  split at hs
  · cases hs
  · rename_i hmain
    split at hs
    · rename_i t hi
      split at hs
      · rename_i ht
        cases hs
        obtain ⟨hlock, hcurrent, rest, hhandlers, hrest⟩ := h.handing hmain hi ht
        rw [hhandlers] at hi
        obtain ⟨rfl, rfl⟩ := eq_of_getElem?_append hrest hi ht
        have hset : (s.readDescriptor rest.length ⟨s.sc.connection, none⟩).handlers =
            rest ++ [⟨s.sc.connection, some s.sc⟩] := by
          simp [readDescriptor, hhandlers]
        have hmem : ∀ t ∈ rest, t ∈ s.handlers := fun t ht => by
          rw [hhandlers]
          exact List.mem_append_left _ ht
        constructor
        · intro t ht d hd
          rw [hset] at ht
          rcases List.mem_append.mp ht with ht | ht
          · exact h.own t (hmem t ht) d hd
          · obtain rfl := List.mem_singleton.mp ht
            obtain rfl := Option.some.inj hd
            exact ⟨rfl, hcurrent.getElem?⟩
        · rw [hset]
          have hordered := h.ordered
          rw [hhandlers] at hordered
          obtain ⟨hordered, -, hlast⟩ := List.pairwise_append.mp hordered
          refine List.pairwise_append.mpr ⟨hordered, List.pairwise_singleton _ _, ?_⟩
          intro t ht u hu
          obtain rfl := List.mem_singleton.mp hu
          have hlt : t.connection < s.sc.connection := hlast t ht _ (List.mem_singleton_self _)
          exact hlt
        · intro t ht
          rw [hset] at ht
          rcases List.mem_append.mp ht with ht | ht
          · exact h.created t (hmem t ht)
          · obtain rfl := List.mem_singleton.mp ht
            exact hcurrent.length ▸ Nat.lt_succ_self _
        · have hmain' : (s.readDescriptor rest.length ⟨s.sc.connection, none⟩).main = .lock :=
            hlock
          simp only [AtPc, hmain']
          exact Or.inr ⟨rfl, hcurrent, rest, hset, hrest⟩
      · cases hs
    · cases hs

theorem inv_step (event : AcceptEvent) (h : s.Inv) (hs : s.step event = some s') : s'.Inv := by
  cases event with
  | accept result => exact inv_accept h hs
  | pthreadCreate result => exact inv_pthreadCreate h hs
  | testFlag => exact inv_testFlag h hs
  | spuriousWakeup => exact inv_spuriousWakeup h hs
  | treatRequest i => exact inv_treatRequest h hs

end Step

/-! ## Every run -/

/-- The descriptors are handed over as they should be. -/
structure HandsOff (s : AcceptLoop) : Prop where
  /-- A handler has the descriptor of the connection it was created for. -/
  own : ∀ t ∈ s.handlers, ∀ d, t.sc = some d →
    d.connection = t.connection ∧ s.accepted[t.connection]? = some d.fd
  /-- No two handlers have the same connection. -/
  once : (s.handlers.filterMap fun t => t.sc.map Descriptor.connection).Nodup
  /-- No handler has still to read when the next connection is accepted. -/
  accepting : s.main = .accept → ∀ t ∈ s.handlers, t.sc ≠ none
  /-- At most one handler has still to read. -/
  single : s.handlers.countP (fun t => t.sc = none) ≤ 1
  /-- The main thread does not sleep once its handler has read. -/
  awake : ¬ (s.main = .sleeping ∧ s.notFinished = false)
  /-- The handler a sleeping main thread waits for can read and wakes it. -/
  wakes : s.main = .sleeping →
    ∃ i s', s.step (.treatRequest i) = some s' ∧ s'.main = .lock

theorem AllRead.countP {handlers : List HandlerThread} (h : AllRead handlers) :
    handlers.countP (fun t => t.sc = none) = 0 := by
  rw [List.countP_eq_zero]
  intro t ht
  simpa using h t ht

theorem Handing.countP_le {s : AcceptLoop} {sc : Option Descriptor} (h : s.Handing sc) :
    s.handlers.countP (fun t => t.sc = none) ≤ 1 := by
  obtain ⟨-, rest, hhandlers, hrest⟩ := h
  rw [hhandlers, List.countP_append, hrest.countP, Nat.zero_add]
  exact List.countP_le_length

theorem Inv.nodup {s : AcceptLoop} (h : s.Inv) :
    (s.handlers.filterMap fun t => t.sc.map Descriptor.connection).Nodup := by
  rw [List.Nodup, List.pairwise_filterMap]
  refine h.ordered.imp_of_mem ?_
  intro t u ht hu htu a ha b hb
  obtain ⟨d, hd, rfl⟩ := Option.map_eq_some_iff.mp ha
  obtain ⟨e, he, rfl⟩ := Option.map_eq_some_iff.mp hb
  rw [(h.own t ht d hd).1, (h.own u hu e he).1]
  exact Nat.ne_of_lt htu

theorem Inv.countP_le {s : AcceptLoop} (h : s.Inv) :
    s.handlers.countP (fun t => t.sc = none) ≤ 1 := by
  have hpc := h.atPc
  unfold AtPc at hpc
  split at hpc
  case h_1 => exact hpc.2.countP.le.trans (Nat.zero_le 1)
  case h_2 => exact hpc.2.1.countP.le.trans (Nat.zero_le 1)
  case h_3 => exact hpc.elim (fun h => h.2.countP_le) fun h => h.2.countP_le
  case h_4 => exact hpc.2.countP_le
  case h_5 => exact hpc.countP.le.trans (Nat.zero_le 1)

theorem Handing.wakes {s : AcceptLoop} (h : s.Handing none) (hmain : s.main = .sleeping) :
    ∃ i s', s.step (.treatRequest i) = some s' ∧ s'.main = .lock := by
  obtain ⟨-, rest, hhandlers, -⟩ := h
  have hlast : s.handlers[rest.length]? = some ⟨s.sc.connection, none⟩ := by
    rw [hhandlers, List.getElem?_concat_length]
  refine ⟨rest.length, s.readDescriptor rest.length ⟨s.sc.connection, none⟩, ?_, ?_⟩
  · simp [step, hmain, hlast]
  · simp [readDescriptor, hmain, AcceptPc.signal]

theorem Inv.handsOff {s : AcceptLoop} (h : s.Inv) : s.HandsOff where
  own := by
    intro t ht d hd
    obtain ⟨hnumber, hfd⟩ := h.own t ht d hd
    exact ⟨hnumber, hnumber ▸ hfd⟩
  once := h.nodup
  accepting := by
    intro hmain
    exact (h.atAccept hmain).2
  single := h.countP_le
  awake := by
    rintro ⟨hmain, hflag⟩
    rw [(h.atSleeping hmain).1] at hflag
    cases hflag
  wakes := by
    intro hmain
    exact (h.atSleeping hmain).2.wakes hmain

/-- In every state of every run of the accept loop and its handlers the
descriptors are handed over one by one, each to the handler created for it. -/
theorem descriptors_handed_off (sc : Descriptor) (events : List AcceptEvent) (s : AcceptLoop)
    (hrun : Run.run step (init sc) events = some s) : s.HandsOff :=
  (Run.invariant (fun _ event _ h hs => inv_step event h hs) (inv_init sc) hrun).handsOff

/-- The run used below: a handler that reads while the main thread sleeps, a
connection for which no thread is created, and one whose handler reads before
the flag is tested. -/
def threeConnections : List AcceptEvent :=
  [.accept 4, .pthreadCreate 0, .testFlag, .spuriousWakeup, .testFlag, .treatRequest 0, .testFlag,
    .accept 5, .pthreadCreate 11, .accept 6, .pthreadCreate 0, .treatRequest 1, .testFlag]

theorem descriptors_handed_off_threeConnections :
    ∃ s, Run.run step (init ⟨0, 0⟩) threeConnections = some s ∧
      s.handlers = [⟨0, some ⟨4, 0⟩⟩, ⟨2, some ⟨6, 2⟩⟩] ∧ s.HandsOff :=
  ⟨_, rfl, rfl, descriptors_handed_off ⟨0, 0⟩ threeConnections _ rfl⟩

end AcceptLoop

end PeerDirectory
