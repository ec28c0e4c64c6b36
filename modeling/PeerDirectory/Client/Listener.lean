import PeerDirectory.Client.Threads

/-!
# A connected client is served by its own listener

The invariant of the client process: a listener thread that no `disconnect` has
left listens on the current socket, which is open, with the stop flag down; and
the socket of one that was dismissed is shut down for good. It needs that a
listener thread uses no other socket than its own, which the program does not
ensure: the attribute is read again at each use.
-/

namespace PeerDirectory

namespace Client

namespace Process

/-! ## The invariant -/

/-- A listener thread that no `disconnect` has left: its socket is the current
one and open, it listens on it from the first statement on, and the stop flag is
down from the second one on. -/
structure Serving (s : Process) (k : ℕ) (l : Listener) (sock : Socket) : Prop where
  current : s.serverSocket = some k
  connected : s.connected = true ∨ s.main = .setConnected
  running : l.pc.Running
  opened : sock.closed = false
  listening : l.pc ≠ .listen → sock.state = .listening
  flag : l.pc ≠ .listen → l.pc ≠ .clear → s.stopFlag = false

/-- What holds of a listener thread and the socket it was started for. -/
structure ListenerInv (s : Process) (k : ℕ) (l : Listener) (sock : Socket) : Prop where
  accepts : ∀ i ∈ l.accepts, i = k
  accepting : ∀ i, l.pc = .accepting i → i = k
  bound : l.pc = .listen → sock.state = .bound
  dismissed : l.dismissed = true → l.pc.Running → l.pc ≠ .listen ∧ sock.state = .shutDown
  serving : l.left = false → s.Serving k l sock

/-- Every listener thread there is was left by a `disconnect`. -/
def AllLeft (s : Process) : Prop :=
  ∀ k l, s.listeners k = some l → l.left = true

/-- The current socket has come so far, and has no listener thread. -/
def Fresh (s : Process) (state : SocketState) : Prop :=
  ∃ i < s.created, s.serverSocket = some i ∧
    s.sockets i = some { state := state, closed := false } ∧ s.listeners i = none

/-- What holds at each statement of the main thread. -/
def MainInv (s : Process) : Prop :=
  match s.main with
  | .idle => True
  | .testConnected => True
  | .createSocket => s.AllLeft
  | .bind => s.AllLeft ∧ s.Fresh .created
  | .getsockname => s.AllLeft ∧ s.Fresh .bound
  | .requestConnect => s.AllLeft ∧ s.Fresh .bound
  | .startThread => s.AllLeft ∧ s.Fresh .bound
  | .setConnected => ∃ i l, s.serverSocket = some i ∧ s.listeners i = some l ∧ l.left = false
  | .closeSocket => s.AllLeft
  | .requestDisconnect => s.AllLeft
  | .clearConnected _ => s.AllLeft
  | .setStopFlag _ => s.AllLeft
  | .setStopFlagAgain => s.AllLeft
  | .shutdown => s.AllLeft

structure Inv (s : Process) : Prop where
  fresh : ∀ k, s.created ≤ k → s.listeners k = none
  listener : ∀ k l, s.listeners k = some l →
    ∃ sock, s.sockets k = some sock ∧ s.ListenerInv k l sock
  main : s.MainInv
  connectedSocket : ∀ i, s.connectedSocket = some i →
    ∃ l, s.listeners i = some l ∧ l.left = false

theorem inv_init : init.Inv where
  fresh := fun _ _ => rfl
  listener := by
    intro k l h
    cases h
  main := trivial
  connectedSocket := by
    intro i h
    cases h

variable {s s' : Process}

theorem Inv.served (h : s.Inv) : s.Served := by
  constructor
  · intro i hi
    obtain ⟨l, hl, hleft⟩ := h.connectedSocket i hi
    obtain ⟨sock, hsock, hinv⟩ := h.listener i l hl
    refine ⟨⟨sock, hsock, (hinv.serving hleft).opened⟩, ?_⟩
    intro j k lj lk hj hk hij hik
    obtain ⟨_, -, hinvj⟩ := h.listener j lj hj
    obtain ⟨_, -, hinvk⟩ := h.listener k lk hk
    rw [← hinvj.accepts i hij, ← hinvk.accepts i hik]
  · rintro k l hl hdismissed ⟨i, hpc, sock', hsock', hstate⟩
    obtain ⟨sock, hsock, hinv⟩ := h.listener k l hl
    obtain rfl := hinv.accepting i hpc
    obtain rfl : sock = sock' := Option.some.inj (hsock.symm.trans hsock')
    have hrunning : l.pc.Running := by rw [hpc]; exact ⟨nofun, nofun⟩
    obtain ⟨-, hshut⟩ := hinv.dismissed hdismissed hrunning
    rw [hshut] at hstate
    cases hstate

/-! ## Steps of the main thread -/

theorem onServerSocket_eq_some {f : Socket → Option Socket} :
    s.onServerSocket f = some s' ↔ ∃ i sock sock', s.serverSocket = some i ∧
      s.sockets i = some sock ∧ f sock = some sock' ∧
        s' = { s with sockets := Function.update s.sockets i (some sock') } := by
  constructor
  · intro h
    obtain ⟨i, hi, h⟩ := Option.bind_eq_some_iff.mp h
    obtain ⟨sock', hsock', rfl⟩ := Option.map_eq_some_iff.mp h
    obtain ⟨sock, hsock, hf⟩ := Option.bind_eq_some_iff.mp hsock'
    exact ⟨i, sock, sock', hi, hsock, hf, rfl⟩
  · rintro ⟨i, sock, sock', hi, hsock, hf, rfl⟩
    simp [onServerSocket, hi, hsock, hf]

theorem onServerSocket_close {i : ℕ} {sock : Socket} (hi : s.serverSocket = some i)
    (hsock : s.sockets i = some sock) :
    s.onServerSocket Socket.close = some { s with
      sockets := Function.update s.sockets i (some { sock with closed := true }) } :=
  onServerSocket_eq_some.mpr ⟨i, sock, _, hi, hsock, rfl, rfl⟩

/-- A listener thread that was left keeps what it needs. -/
theorem ListenerInv.of_left {k : ℕ} {l : Listener} {sock sock' : Socket}
    (h : s.ListenerInv k l sock) (hleft : l.left = true) (hstate : sock'.state = sock.state) :
    s'.ListenerInv k l sock' where
  accepts := h.accepts
  accepting := h.accepting
  bound := by
    rw [hstate]
    exact h.bound
  dismissed := by
    rw [hstate]
    exact h.dismissed
  serving := by
    intro hl
    rw [hleft] at hl
    cases hl

/-- The sockets of the listener threads have come no further. -/
def KeepsStates (s s' : Process) : Prop :=
  ∀ k l sock, s.listeners k = some l → s.sockets k = some sock →
    ∃ sock', s'.sockets k = some sock' ∧ sock'.state = sock.state

theorem KeepsStates.of_sockets (h : s'.sockets = s.sockets) : s.KeepsStates s' := by
  intro k l sock _ hsock
  rw [h]
  exact ⟨sock, hsock, rfl⟩

theorem KeepsStates.of_update {i : ℕ} {o : Option Socket} (hi : s.listeners i = none)
    (h : s'.sockets = Function.update s.sockets i o) : s.KeepsStates s' := by
  intro k l sock hl hsock
  have hne : k ≠ i := by
    rintro rfl
    rw [hi] at hl
    cases hl
  rw [h, Function.update_of_ne hne]
  exact ⟨sock, hsock, rfl⟩

theorem close_spec (s : Process) :
    ∃ sockets, (s.onServerSocket Socket.close).getD s = { s with sockets := sockets } ∧
      s.KeepsStates { s with sockets := sockets } := by
  cases hs : s.onServerSocket Socket.close with
  | none => exact ⟨s.sockets, rfl, .of_sockets rfl⟩
  | some s' =>
      obtain ⟨i, sock₀, sock', -, hsock₀, hclose, rfl⟩ := onServerSocket_eq_some.mp hs
      obtain rfl := Option.some.inj hclose
      refine ⟨_, rfl, fun k l sock hl hsock => ?_⟩
      by_cases hk : k = i
      · subst hk
        obtain rfl : sock = sock₀ := Option.some.inj (hsock.symm.trans hsock₀)
        exact ⟨_, Function.update_self .., rfl⟩
      · exact ⟨sock, (Function.update_of_ne hk ..).trans hsock, rfl⟩

/-- The main thread gets on with a socket no listener thread uses. -/
theorem Fresh.onServerSocket {state state' : SocketState} {f : Socket → Option Socket}
    (h : s.Fresh state)
    (hf : f { state := state, closed := false } = some { state := state', closed := false }) :
    ∃ i, s.listeners i = none ∧
      s.onServerSocket f = some { s with
        sockets := Function.update s.sockets i (some { state := state', closed := false }) } ∧
      ({ s with
          sockets := Function.update s.sockets i (some { state := state', closed := false }) } :
        Process).Fresh state' := by
  obtain ⟨i, hlt, hi, hsock, hnone⟩ := h
  refine ⟨i, hnone, onServerSocket_eq_some.mpr ⟨i, _, _, hi, hsock, hf, rfl⟩, ?_⟩
  exact ⟨i, hlt, hi, Function.update_self .., hnone⟩

theorem Inv.connectedSocket_of_allLeft (h : s.Inv) (hleft : s.AllLeft) :
    s.connectedSocket = none := by
  cases hi : s.connectedSocket with
  | none => rfl
  | some i =>
      obtain ⟨l, hl, hfalse⟩ := h.connectedSocket i hi
      rw [hleft i l hl] at hfalse
      cases hfalse

/-- A statement of the main thread at which every listener thread was left. -/
theorem Inv.of_allLeft (h : s.Inv) (hleft : s.AllLeft) (hcreated : s.created ≤ s'.created)
    (hlisteners : s'.listeners = s.listeners)
    (hconnected : s'.connectedSocket = s.connectedSocket) (hsockets : s.KeepsStates s')
    (hmain : s'.MainInv) : s'.Inv where
  fresh := by
    intro k hk
    rw [hlisteners]
    exact h.fresh k (hcreated.trans hk)
  listener := by
    intro k l hl
    rw [hlisteners] at hl
    obtain ⟨sock, hsock, hinv⟩ := h.listener k l hl
    obtain ⟨sock', hsock', hstate⟩ := hsockets k l sock hl hsock
    exact ⟨sock', hsock', hinv.of_left (hleft k l hl) hstate⟩
  main := hmain
  connectedSocket := by
    intro i hi
    rw [hconnected, h.connectedSocket_of_allLeft hleft] at hi
    cases hi

/-- The thread of a successful `connect` finds its socket bound and has it for
itself. -/
theorem Inv.of_startThread (h : s.Inv) (hleft : s.AllLeft) {i : ℕ}
    (hi : s.serverSocket = some i)
    (hsock : s.sockets i = some { state := .bound, closed := false })
    (hnone : s.listeners i = none) (hlt : i < s.created) :
    ({ s with
        listeners := Function.update s.listeners i
          (some { pc := .listen, accepts := [], left := false, dismissed := false })
        main := .setConnected } : Process).Inv where
  fresh := by
    intro k hk
    have hne : k ≠ i := by
      rintro rfl
      exact absurd hlt (Nat.not_lt.mpr hk)
    exact (Function.update_of_ne hne ..).trans (h.fresh k hk)
  listener := by
    intro k l hl
    dsimp only at hl
    by_cases hk : k = i
    · subst hk
      rw [Function.update_self, Option.some.injEq] at hl
      subst hl
      exact ⟨_, hsock, nofun, nofun, fun _ => rfl, nofun,
        fun _ => ⟨hi, Or.inr rfl, ⟨nofun, nofun⟩, rfl, fun h => absurd rfl h,
          fun h => absurd rfl h⟩⟩
    · rw [Function.update_of_ne hk] at hl
      obtain ⟨sock, hsock, hinv⟩ := h.listener k l hl
      exact ⟨sock, hsock, hinv.of_left (hleft k l hl) rfl⟩
  main := ⟨i, _, hi, Function.update_self .., rfl⟩
  connectedSocket := by
    intro j hj
    dsimp only at hj
    rw [h.connectedSocket_of_allLeft hleft] at hj
    cases hj

/-- Statements at which nothing a listener thread needs changes. -/
theorem Inv.of_main (h : s.Inv) {connected : Bool} {main : MainPc} {socket : Option ℕ}
    (hserving : s.connected = true ∨ s.main = .setConnected →
      connected = true ∨ main = .setConnected)
    (hsocket : ∀ i, socket = some i → ∃ l, s.listeners i = some l ∧ l.left = false)
    (hmain : ({ s with connected := connected, main := main, connectedSocket := socket } :
      Process).MainInv) :
    ({ s with connected := connected, main := main, connectedSocket := socket } :
      Process).Inv where
  fresh := h.fresh
  listener := by
    intro k l hl
    obtain ⟨sock, hsock, hinv⟩ := h.listener k l hl
    refine ⟨sock, hsock, hinv.accepts, hinv.accepting, hinv.bound, hinv.dismissed, ?_⟩
    intro hleft
    obtain ⟨hcurrent, hconnected, hrunning, hopened, hlistening, hflag⟩ := hinv.serving hleft
    exact ⟨hcurrent, hserving hconnected, hrunning, hopened, hlistening, hflag⟩
  main := hmain
  connectedSocket := hsocket

/-- A client that is not connected has left its listener threads. -/
theorem Inv.allLeft (h : s.Inv) (hc : s.connected = false) (hm : s.main ≠ .setConnected) :
    s.AllLeft := by
  intro k l hl
  obtain ⟨sock, -, hinv⟩ := h.listener k l hl
  by_contra hleft
  rcases (hinv.serving (by simpa using hleft)).connected with hc' | hm'
  · rw [hc] at hc'
    cases hc'
  · exact hm hm'

/-- The call of `disconnect`. -/
theorem Inv.of_disconnect (h : s.Inv) :
    ({ s with
        main := .requestDisconnect
        listeners := fun k => (s.listeners k).map fun l => { l with left := true }
        connectedSocket := none } : Process).Inv where
  fresh := by
    intro k hk
    dsimp only
    rw [h.fresh k hk]
    rfl
  listener := by
    intro k l hl
    obtain ⟨l', hl', rfl⟩ := Option.map_eq_some_iff.mp hl
    obtain ⟨sock, hsock, hinv⟩ := h.listener k l' hl'
    exact ⟨sock, hsock, hinv.accepts, hinv.accepting, hinv.bound, hinv.dismissed, nofun⟩
  main := by
    intro k l hl
    obtain ⟨l', -, rfl⟩ := Option.map_eq_some_iff.mp hl
    rfl
  connectedSocket := nofun

/-- The current socket is shut down if it listens; everything else is kept. -/
theorem shutdown_spec (s : Process) :
    ∃ sockets, (s.onServerSocket Socket.shutdown).getD s = { s with sockets := sockets } ∧
      ∀ k sock, s.sockets k = some sock →
        sockets k = some sock ∧
            ¬ (s.serverSocket = some k ∧ sock = { state := .listening, closed := false }) ∨
          sockets k = some { state := .shutDown, closed := false } ∧ sock.state = .listening := by
  cases hs : s.onServerSocket Socket.shutdown with
  | none =>
      refine ⟨s.sockets, rfl, fun k sock hsock => Or.inl ⟨hsock, ?_⟩⟩
      rintro ⟨hk, rfl⟩
      simp [onServerSocket, hk, hsock, Socket.shutdown] at hs
  | some s' =>
      obtain ⟨i, sock₀, sock', hi, hsock₀, hshutdown, rfl⟩ := onServerSocket_eq_some.mp hs
      obtain ⟨⟨hopened, hstate⟩, rfl⟩ : (sock₀.closed = false ∧ sock₀.state = .listening) ∧
          { sock₀ with state := .shutDown } = sock' := by
        simpa [Socket.shutdown] using hshutdown
      refine ⟨_, rfl, fun k sock hsock => ?_⟩
      by_cases hk : k = i
      · subst hk
        obtain rfl : sock₀ = sock := Option.some.inj (hsock₀.symm.trans hsock)
        refine Or.inr ⟨?_, hstate⟩
        rw [Function.update_self, hopened]
      · refine Or.inl ⟨(Function.update_of_ne hk ..).trans hsock, ?_⟩
        rintro ⟨hcurrent, -⟩
        exact hk (Option.some.inj (hcurrent.symm.trans hi))

/-- The end of a `disconnect` that was answered `0`. -/
theorem Inv.of_shutdown (h : s.Inv) (hleft : s.AllLeft)
    (hlistens : ∀ k l, s.listeners k = some l → l.pc.Running → l.dismissed = false →
      s.serverSocket = some k ∧ s.sockets k = some { state := .listening, closed := false }) :
    ({ (s.onServerSocket Socket.shutdown).getD s with
        main := .idle
        listeners := fun k => (s.listeners k).map fun l => { l with dismissed := true } } :
      Process).Inv := by
  obtain ⟨sockets, hform, hsockets⟩ := s.shutdown_spec
  rw [hform]
  constructor
  case fresh =>
    intro k hk
    dsimp only
    rw [h.fresh k hk]
    rfl
  case listener =>
    intro k l hl
    obtain ⟨l', hl', rfl⟩ := Option.map_eq_some_iff.mp hl
    obtain ⟨sock, hsock, hinv⟩ := h.listener k l' hl'
    have hserving : l'.left = false → False := fun hfalse => by
      rw [hleft k l' hl'] at hfalse
      cases hfalse
    rcases hsockets k sock hsock with ⟨hsame, hnot⟩ | ⟨hshut, hstate⟩
    · refine ⟨sock, hsame, hinv.accepts, hinv.accepting, hinv.bound, ?_,
        fun hfalse => (hserving hfalse).elim⟩
      intro _ hrunning
      cases hdismissed : l'.dismissed with
      | true => exact hinv.dismissed hdismissed hrunning
      | false =>
          obtain ⟨hcurrent, hlisten⟩ := hlistens k l' hl' hrunning hdismissed
          exact absurd ⟨hcurrent, Option.some.inj (hsock.symm.trans hlisten)⟩ hnot
    · have hpc : l'.pc ≠ .listen := by
        intro hpc
        rw [hinv.bound hpc] at hstate
        cases hstate
      exact ⟨_, hshut, hinv.accepts, hinv.accepting, fun hl => absurd hl hpc,
        fun _ _ => ⟨hpc, rfl⟩, fun hfalse => (hserving hfalse).elim⟩
  case main => trivial
  case connectedSocket =>
    intro i hi
    dsimp only at hi
    rw [h.connectedSocket_of_allLeft hleft] at hi
    cases hi

/-- A statement of the main thread keeps the invariant. -/
theorem Inv.stepMain {result : Option Str} (h : s.Inv) (hguard : s.Guard (.main result))
    (hstep : s.stepMain result = some s') : s'.Inv := by
  have hmain := h.main
  unfold MainInv at hmain
  unfold Process.stepMain at hstep
  cases hm : s.main with
  | idle => simp [hm] at hstep
  | testConnected =>
      simp only [hm, Option.some.injEq] at hstep
      subst hstep
      refine h.of_main (fun hc => hc.imp_right fun hm' => ?_) h.connectedSocket ?_
      · rw [hm] at hm'
        cases hm'
      · cases hc : s.connected with
        | true => trivial
        | false =>
            have hleft : s.AllLeft := h.allLeft hc (by rw [hm]; nofun)
            cases result with
            | none => trivial
            | some response => exact hleft
  | createSocket =>
      simp only [hm] at hstep hmain
      cases result with
      | none =>
          obtain rfl := Option.some.inj hstep
          exact h.of_allLeft hmain le_rfl rfl rfl (.of_sockets rfl) hmain
      | some response =>
          obtain rfl := Option.some.inj hstep
          have hnone : s.listeners s.created = none := h.fresh _ le_rfl
          refine h.of_allLeft hmain (Nat.le_succ _) rfl rfl (.of_update hnone rfl) ⟨hmain, ?_⟩
          exact ⟨s.created, Nat.lt_succ_self _, rfl, Function.update_self .., hnone⟩
  | bind =>
      simp only [hm] at hstep hmain
      obtain ⟨hleft, hfresh⟩ := hmain
      obtain ⟨i, hnone, hon, hfresh'⟩ := hfresh.onServerSocket Socket.bind_created
      rw [hon] at hstep
      cases result with
      | none =>
          obtain rfl := Option.some.inj hstep
          exact h.of_allLeft hleft le_rfl rfl rfl (.of_sockets rfl) hleft
      | some response =>
          obtain rfl := Option.some.inj hstep
          exact h.of_allLeft hleft le_rfl rfl rfl (.of_update hnone rfl) ⟨hleft, hfresh'⟩
  | getsockname =>
      simp only [hm] at hstep hmain
      obtain ⟨hleft, hfresh⟩ := hmain
      obtain ⟨i, hnone, hon, hfresh'⟩ := hfresh.onServerSocket Socket.getsockname_opened
      rw [hon] at hstep
      cases result with
      | none =>
          obtain rfl := Option.some.inj hstep
          exact h.of_allLeft hleft le_rfl rfl rfl (.of_sockets rfl) hleft
      | some response =>
          obtain rfl := Option.some.inj hstep
          exact h.of_allLeft hleft le_rfl rfl rfl (.of_update hnone rfl) ⟨hleft, hfresh'⟩
  | requestConnect =>
      simp only [hm, Option.some.injEq] at hstep hmain
      subst hstep
      refine h.of_allLeft hmain.1 le_rfl rfl rfl (.of_sockets rfl) ?_
      by_cases hr : result = some ['0']
      · rw [if_pos hr]
        exact hmain
      · rw [if_neg hr]
        exact hmain.1
  | startThread =>
      simp only [hm] at hstep hmain
      obtain ⟨hleft, i, hlt, hi, hsock, hnone⟩ := hmain
      cases result with
      | none =>
          obtain rfl := Option.some.inj hstep
          exact h.of_allLeft hleft le_rfl rfl rfl (.of_sockets rfl) hleft
      | some response =>
          have hr : ((some response).bind fun _ => s.serverSocket) = some i := hi
          rw [hr] at hstep
          obtain rfl := Option.some.inj hstep
          exact h.of_startThread hleft hi hsock hnone hlt
  | setConnected =>
      simp only [hm, Option.some.injEq] at hstep hmain
      subst hstep
      obtain ⟨i, l, hi, hl, hleft⟩ := hmain
      refine h.of_main (fun _ => Or.inl rfl) (fun j hj => ?_) trivial
      obtain rfl := Option.some.inj (hi.symm.trans hj)
      exact ⟨l, hl, hleft⟩
  | closeSocket =>
      simp only [hm, Option.some.injEq] at hstep hmain
      subst hstep
      obtain ⟨sockets, hform, hkeeps⟩ := s.close_spec
      rw [hform]
      exact h.of_allLeft hmain le_rfl rfl rfl hkeeps trivial
  | requestDisconnect =>
      simp only [hm] at hstep hmain
      cases result with
      | none =>
          obtain rfl := Option.some.inj hstep
          exact h.of_allLeft hmain le_rfl rfl rfl (.of_sockets rfl) trivial
      | some response =>
          obtain rfl := Option.some.inj hstep
          exact h.of_allLeft hmain le_rfl rfl rfl (.of_sockets rfl) hmain
  | clearConnected response =>
      simp only [hm, Option.some.injEq] at hstep hmain
      subst hstep
      exact h.of_allLeft hmain le_rfl rfl rfl (.of_sockets rfl) hmain
  | setStopFlag response =>
      simp only [hm, Option.some.injEq] at hstep hmain
      subst hstep
      refine h.of_allLeft hmain le_rfl rfl rfl (.of_sockets rfl) ?_
      by_cases hr : response = ['0']
      · rw [if_pos hr]
        exact hmain
      · rw [if_neg hr]
        trivial
  | setStopFlagAgain =>
      simp only [hm, Option.some.injEq] at hstep hmain
      subst hstep
      exact h.of_allLeft hmain le_rfl rfl rfl (.of_sockets rfl) hmain
  | shutdown =>
      simp only [hm, Option.some.injEq] at hstep hmain
      subst hstep
      refine h.of_shutdown hmain fun k l hl => hguard.2.1 hm k ?_ l hl
      by_contra hk
      rw [h.fresh k (Nat.not_lt.mp hk)] at hl
      cases hl

/-! ## Steps of a listener thread -/

section Listener

variable {k : ℕ} {l l' : Listener} {sock sock' : Socket} {sockets : ℕ → Option Socket}
  {flag : Bool}

/-- A listener thread touches no socket but its own, and lets the stop flag
down only. -/
theorem Inv.of_listener (h : s.Inv) (hl : s.listeners k = some l) (hleft : l'.left = l.left)
    (hflag : s.stopFlag = false → flag = false) (hsock : sockets k = some sock')
    (hne : ∀ j, j ≠ k → sockets j = s.sockets j) :
    let s' : Process := { s with
      sockets := sockets
      stopFlag := flag
      listeners := Function.update s.listeners k (some l') }
    s'.ListenerInv k l' sock' → s'.Inv := by
  intro s' hinv'
  have hother : ∀ j, j ≠ k → s'.listeners j = s.listeners j :=
    fun j hj => Function.update_of_ne hj ..
  have hself : s'.listeners k = some l' := Function.update_self ..
  constructor
  case fresh =>
    intro j hj
    have hjk : j ≠ k := by
      rintro rfl
      rw [h.fresh j hj] at hl
      cases hl
    rw [hother j hjk]
    exact h.fresh j hj
  case listener =>
    intro j lj hlj
    by_cases hjk : j = k
    · subst hjk
      obtain rfl := Option.some.inj (hself.symm.trans hlj)
      exact ⟨sock', hsock, hinv'⟩
    · rw [hother j hjk] at hlj
      obtain ⟨sockj, hsockj, hinv⟩ := h.listener j lj hlj
      refine ⟨sockj, (hne j hjk).trans hsockj, hinv.accepts, hinv.accepting, hinv.bound,
        hinv.dismissed, fun hl => ?_⟩
      obtain ⟨hcurrent, hconnected, hrunning, hopened, hlistening, hdown⟩ := hinv.serving hl
      exact ⟨hcurrent, hconnected, hrunning, hopened, hlistening,
        fun h₁ h₂ => hflag (hdown h₁ h₂)⟩
  case main =>
    have hallLeft : s.AllLeft → s'.AllLeft := by
      intro hall j lj hlj
      by_cases hjk : j = k
      · subst hjk
        obtain rfl := Option.some.inj (hself.symm.trans hlj)
        rw [hleft]
        exact hall j l hl
      · exact hall j lj ((hother j hjk).symm.trans hlj)
    have hfresh : ∀ state, s.Fresh state → s'.Fresh state := by
      rintro state ⟨i, hlt, hi, hsocki, hnone⟩
      have hik : i ≠ k := by
        rintro rfl
        rw [hnone] at hl
        cases hl
      exact ⟨i, hlt, hi, (hne i hik).trans hsocki, (hother i hik).trans hnone⟩
    have hmain := h.main
    unfold MainInv at hmain ⊢
    cases hm : s.main with
    | idle | testConnected => trivial
    | bind | getsockname | requestConnect | startThread =>
        rw [hm] at hmain
        exact ⟨hallLeft hmain.1, hfresh _ hmain.2⟩
    | setConnected =>
        rw [hm] at hmain
        obtain ⟨i, li, hi, hli, hfalse⟩ := hmain
        by_cases hik : i = k
        · subst hik
          obtain rfl := Option.some.inj (hl.symm.trans hli)
          exact ⟨i, l', hi, hself, hleft.trans hfalse⟩
        · exact ⟨i, li, hi, (hother i hik).trans hli, hfalse⟩
    | _ =>
        rw [hm] at hmain
        exact hallLeft hmain
  case connectedSocket =>
    intro i hi
    obtain ⟨li, hli, hfalse⟩ := h.connectedSocket i hi
    by_cases hik : i = k
    · subst hik
      obtain rfl := Option.some.inj (hl.symm.trans hli)
      exact ⟨l', hself, hleft.trans hfalse⟩
    · exact ⟨li, (hother i hik).trans hli, hfalse⟩

/-- A thread that was left may come to its end. -/
theorem ListenerInv.stop (h : s.ListenerInv k l sock) (hleft : l.left = true) {pc : ListenerPc}
    (hpc : ¬ pc.Running) : s'.ListenerInv k { l with pc := pc } sock' where
  accepts := h.accepts
  accepting := by
    rintro i rfl
    exact absurd ⟨nofun, nofun⟩ hpc
  bound := by
    rintro rfl
    exact absurd ⟨nofun, nofun⟩ hpc
  dismissed := fun _ hrunning => absurd hrunning hpc
  serving := by
    intro hfalse
    rw [hleft] at hfalse
    cases hfalse

/-- The first statement: the socket listens. -/
theorem ListenerInv.listen (h : s.ListenerInv k l sock) (hpc : l.pc = .listen)
    (hcurrent : s'.serverSocket = s.serverSocket)
    (hconnected : s'.connected = s.connected) (hmain : s'.main = s.main) :
    s'.ListenerInv k { l with pc := .clear } { state := .listening, closed := false } where
  accepts := h.accepts
  accepting := nofun
  bound := nofun
  dismissed := by
    intro hdismissed _
    have hrunning : l.pc.Running := by rw [hpc]; exact ⟨nofun, nofun⟩
    exact absurd hpc (h.dismissed hdismissed hrunning).1
  serving := by
    intro hleft
    have hserving := h.serving hleft
    refine ⟨hcurrent.trans hserving.current, ?_, ⟨nofun, nofun⟩, rfl, fun _ => rfl,
      fun _ hclear => absurd rfl hclear⟩
    rw [hconnected, hmain]
    exact hserving.connected

/-- The later statements of the loop. -/
theorem ListenerInv.move (h : s.ListenerInv k l sock) (hrunning : l.pc.Running)
    (hlisten : l.pc ≠ .listen) {pc : ListenerPc} {accepts : List ℕ} (hpc : pc.Running)
    (hnew : pc ≠ .listen) (haccepts : ∀ i ∈ accepts, i = k)
    (haccepting : ∀ i, pc = .accepting i → i = k)
    (hcurrent : s'.serverSocket = s.serverSocket) (hconnected : s'.connected = s.connected)
    (hmain : s'.main = s.main) (hflag : l.left = false → s'.stopFlag = false) :
    s'.ListenerInv k { l with pc := pc, accepts := accepts } sock where
  accepts := haccepts
  accepting := haccepting
  bound := fun hl => absurd hl hnew
  dismissed := fun hdismissed _ => ⟨hnew, (h.dismissed hdismissed hrunning).2⟩
  serving := by
    intro hleft
    have hserving := h.serving hleft
    refine ⟨hcurrent.trans hserving.current, ?_, hpc, hserving.opened,
      fun _ => hserving.listening hlisten, fun _ _ => hflag hleft⟩
    rw [hconnected, hmain]
    exact hserving.connected

/-- The thread goes to its `finally`, or ends. -/
theorem Inv.goto_stop (h : s.Inv) (hl : s.listeners k = some l) (hleft : l.left = true)
    {pc : ListenerPc} (hpc : ¬ pc.Running) : (s.goto k l pc).Inv := by
  obtain ⟨sock, hsock, hinv⟩ := h.listener k l hl
  exact h.of_listener hl rfl id hsock (fun _ _ => rfl) (hinv.stop hleft hpc)

/-- The thread goes on in its loop. -/
theorem Inv.goto_loop (h : s.Inv) (hl : s.listeners k = some l) (hloop : l.pc.InLoop)
    (pc : ListenerPc) (hpc : pc.InLoop) (haccepting : ∀ i, pc = .accepting i → i = k)
    {accepts : List ℕ} (haccepts : ∀ i ∈ accepts, i = k) :
    (s.goto k { l with accepts := accepts } pc).Inv := by
  obtain ⟨sock, hsock, hinv⟩ := h.listener k l hl
  obtain ⟨hrunning, hlisten, hclear⟩ := hloop
  exact h.of_listener hl rfl id hsock (fun _ _ => rfl)
    (hinv.move hrunning hlisten hpc.1 hpc.2.1 haccepts haccepting rfl rfl rfl
      fun hleft => (hinv.serving hleft).flag hlisten hclear)

/-- `listen` does not raise for a thread that was not left. -/
theorem Inv.listen_isSome (h : s.Inv) (hl : s.listeners k = some l) (hleft : l.left = false) :
    ∃ t, s.onServerSocket Socket.listen = some t := by
  obtain ⟨sock, hsock, hinv⟩ := h.listener k l hl
  have hserving := hinv.serving hleft
  simp [onServerSocket, hserving.current, hsock, Socket.listen, hserving.opened]

/-- A thread that was not left waits on its socket, and connections can arrive
there. -/
theorem Inv.accepts_of_serving (h : s.Inv) (hl : s.listeners k = some l) (hleft : l.left = false)
    (hlisten : l.pc ≠ .listen) : s.acceptSocket = some k ∧ s.Accepts k := by
  obtain ⟨sock, hsock, hinv⟩ := h.listener k l hl
  have hserving := hinv.serving hleft
  obtain ⟨state, closed⟩ := sock
  obtain rfl : state = .listening := hserving.listening hlisten
  obtain rfl : closed = false := hserving.opened
  refine ⟨?_, _, hsock, rfl⟩
  simp [acceptSocket, hserving.current, hsock]

/-- A statement of a listener thread keeps the invariant. -/
theorem Inv.stepListener {ok : Bool} (h : s.Inv) (hl : s.listeners k = some l)
    (hguard : s.Guard (.listener k ok)) (hstep : s.stepListener k l ok = some s') : s'.Inv := by
  have hown : l.pc.UsesServerSocket → s.serverSocket = some k := hguard.1 l hl
  have hraises : ok = false → l.left = true := fun hok => hguard.2.2 hok l hl
  have hfinally : ¬ ListenerPc.finallyClose.Running := fun hrunning => hrunning.1 rfl
  obtain ⟨sock, hsock, hinv⟩ := h.listener k l hl
  unfold Process.stepListener at hstep
  cases hpc : l.pc with
  | listen =>
      simp only [hpc] at hstep
      cases hr : if ok then s.onServerSocket Socket.listen else none with
      | none =>
          rw [hr] at hstep
          obtain rfl := Option.some.inj hstep
          refine h.goto_stop hl ?_ hfinally
          cases ok with
          | false => exact hraises rfl
          | true =>
              by_contra hleft
              obtain ⟨t, ht⟩ := h.listen_isSome hl (by simpa using hleft)
              rw [if_pos rfl, ht] at hr
              cases hr
      | some t =>
          rw [hr] at hstep
          obtain rfl := Option.some.inj hstep
          have hon : s.onServerSocket Socket.listen = some t := by
            cases ok with
            | false => cases hr
            | true => exact hr
          obtain ⟨i, sock', sock'', hi, hsock', hlisten, rfl⟩ := onServerSocket_eq_some.mp hon
          obtain rfl : i = k :=
            Option.some.inj (hi.symm.trans (hown (by rw [hpc]; exact Or.inl rfl)))
          obtain ⟨-, rfl⟩ : sock'.closed = false ∧
              ({ state := .listening, closed := false } : Socket) = sock'' := by
            simp only [Socket.listen] at hlisten
            split at hlisten
            · next hclosed => exact ⟨hclosed, by rw [← Option.some.inj hlisten, hclosed]⟩
            · cases hlisten
          exact h.of_listener hl rfl id (Function.update_self ..)
            (fun j hj => Function.update_of_ne hj ..) (hinv.listen hpc rfl rfl rfl)
  | clear =>
      simp only [hpc, Option.some.injEq] at hstep
      subst hstep
      have hrunning : l.pc.Running := by rw [hpc]; exact ⟨nofun, nofun⟩
      exact h.of_listener hl rfl (fun _ => rfl) hsock (fun _ _ => rfl)
        (hinv.move hrunning (by rw [hpc]; nofun) ⟨nofun, nofun⟩ nofun hinv.accepts nofun
          rfl rfl rfl fun _ => rfl)
  | test =>
      simp only [hpc, Option.some.injEq] at hstep
      subst hstep
      cases hflag : s.stopFlag with
      | true =>
          refine h.goto_stop hl ?_ hfinally
          by_contra hleft
          have hdown := (hinv.serving (by simpa using hleft)).flag (by rw [hpc]; nofun)
            (by rw [hpc]; nofun)
          rw [hflag] at hdown
          cases hdown
      | false =>
          have hloop : l.pc.InLoop := by rw [hpc]; exact ⟨⟨nofun, nofun⟩, nofun, nofun⟩
          exact h.goto_loop hl hloop .accept ⟨⟨nofun, nofun⟩, nofun, nofun⟩ nofun hinv.accepts
  | accept =>
      simp only [hpc] at hstep
      cases hr : if ok then s.acceptSocket else none with
      | none =>
          rw [hr] at hstep
          obtain rfl := Option.some.inj hstep
          refine h.goto_stop hl ?_ hfinally
          cases ok with
          | false => exact hraises rfl
          | true =>
              by_contra hleft
              obtain ⟨haccept, -⟩ :=
                h.accepts_of_serving hl (by simpa using hleft) (by rw [hpc]; nofun)
              rw [if_pos rfl, haccept] at hr
              cases hr
      | some i =>
          rw [hr] at hstep
          obtain rfl := Option.some.inj hstep
          obtain rfl : i = k := by
            have haccept : s.acceptSocket = some i := by
              cases ok with
              | false => cases hr
              | true => exact hr
            obtain ⟨j, hj, hif⟩ := Option.bind_eq_some_iff.mp haccept
            split at hif
            · obtain rfl := Option.some.inj hif
              exact Option.some.inj (hj.symm.trans (hown (by rw [hpc]; exact Or.inr (Or.inl rfl))))
            · cases hif
          have hloop : l.pc.InLoop := by rw [hpc]; exact ⟨⟨nofun, nofun⟩, nofun, nofun⟩
          exact h.goto_loop hl hloop (.accepting i) ⟨⟨nofun, nofun⟩, nofun, nofun⟩
            (fun j hj => (ListenerPc.accepting.inj hj).symm)
            fun j hj => (List.mem_cons.mp hj).elim id (hinv.accepts j)
  | accepting i =>
      simp only [hpc, Option.some.injEq] at hstep
      subst hstep
      obtain rfl := hinv.accepting i hpc
      by_cases hok : (ok && decide (s.Accepts i)) = true
      · rw [if_pos hok]
        have hloop : l.pc.InLoop := by rw [hpc]; exact ⟨⟨nofun, nofun⟩, nofun, nofun⟩
        exact h.goto_loop hl hloop .serve ⟨⟨nofun, nofun⟩, nofun, nofun⟩ nofun hinv.accepts
      · rw [if_neg hok]
        refine h.goto_stop hl ?_ hfinally
        by_contra hleft
        have hleft : l.left = false := by simpa using hleft
        obtain ⟨-, haccepts⟩ := h.accepts_of_serving hl hleft (by rw [hpc]; nofun)
        cases ok with
        | false =>
            rw [hraises rfl] at hleft
            cases hleft
        | true => exact hok (by simpa using haccepts)
  | serve =>
      simp only [hpc, Option.some.injEq] at hstep
      subst hstep
      cases ok with
      | false => exact h.goto_stop hl (hraises rfl) hfinally
      | true =>
          have hloop : l.pc.InLoop := by rw [hpc]; exact ⟨⟨nofun, nofun⟩, nofun, nofun⟩
          exact h.goto_loop hl hloop .test ⟨⟨nofun, nofun⟩, nofun, nofun⟩ nofun hinv.accepts
  | finallyClose =>
      simp only [hpc, Option.some.injEq] at hstep
      subst hstep
      have hleft : l.left = true := by
        by_contra hleft
        exact (hinv.serving (by simpa using hleft)).running.1 hpc
      have hcurrent := hown (by rw [hpc]; exact Or.inr (Or.inr rfl))
      rw [onServerSocket_close hcurrent hsock]
      exact h.of_listener hl rfl id (Function.update_self ..)
        (fun j hj => Function.update_of_ne hj ..)
        (hinv.stop hleft fun hrunning => hrunning.2 rfl)
  | ended => simp [hpc] at hstep

end Listener

/-- Every event that meets the condition keeps the invariant. -/
theorem Inv.step {e : ProcessEvent} (h : s.Inv) (hguard : s.Guard e)
    (hstep : s.step e = some s') : s'.Inv := by
  cases e with
  | connect =>
      obtain ⟨hidle, hstep⟩ := Option.ite_none_right_eq_some.mp hstep
      obtain rfl := Option.some.inj hstep
      refine h.of_main (fun hc => hc.imp_right fun hm => ?_) h.connectedSocket trivial
      rw [hidle] at hm
      cases hm
  | disconnect =>
      obtain ⟨hidle, hstep⟩ := Option.ite_none_right_eq_some.mp hstep
      obtain rfl := Option.some.inj hstep
      exact h.of_disconnect
  | main result => exact h.stepMain hguard hstep
  | listener k ok =>
      obtain ⟨l, hl, hstep⟩ := Option.bind_eq_some_iff.mp hstep
      exact h.stepListener hl hguard hstep

/-- Any listener thread that comes to its `finally` while the client is connected
takes the socket away. -/
theorem not_served_of_close {i k : ℕ} {l : Listener} {ok : Bool}
    (hconnected : s.connectedSocket = some i) (hcurrent : s.serverSocket = some i)
    (hl : s.listeners k = some l) (hpc : l.pc = .finallyClose)
    (hstep : s.step (.listener k ok) = some s') : ¬ s'.Served := by
  simp only [Process.step, hl, Option.bind_some, Process.stepListener, hpc,
    Option.some.injEq] at hstep
  subst hstep
  cases hsock : s.sockets i with
  | none =>
      have hclose : s.onServerSocket Socket.close = none := by
        simp [onServerSocket, hcurrent, hsock]
      rw [hclose]
      rintro ⟨hserved, -⟩
      obtain ⟨⟨sock, hsome, -⟩, -⟩ := hserved i hconnected
      exact absurd (hsock.symm.trans hsome) nofun
  | some sock =>
      rw [onServerSocket_close hcurrent hsock]
      rintro ⟨hserved, -⟩
      obtain ⟨⟨sock', hsome, hopened⟩, -⟩ := hserved i hconnected
      have hclosed : Function.update s.sockets i (some { sock with closed := true }) i =
          some sock' := hsome
      rw [Function.update_self, Option.some.injEq] at hclosed
      subst hclosed
      cases hopened

end Process

/-- In every run in which a listener thread uses `client._server_socket` only
while it is its own socket, listens before a `disconnect` answered `0` shuts it
down, and raises only after a `disconnect`, a connected client is served by its
own listener thread. -/
theorem connected_client_served {events : List ProcessEvent} {s : Process}
    (hguard : Run.Guarded Process.step Process.Guard .init events)
    (hrun : Run.run Process.step .init events = some s) : s.Served := by
  have hinv : s.Inv := Run.invariant_of_guarded
    (fun _ _ _ h hguard hstep => Process.Inv.step h hguard hstep) Process.inv_init hguard hrun
  exact hinv.served

/-- A call of `connect` that is answered `0`, without interruption. -/
def connectEvents : List ProcessEvent :=
  .connect :: [some [], some [], some [], some [], some ['0'], some [], none].map .main

/-- A call of `disconnect` that is answered `0`, without interruption. -/
def disconnectEvents : List ProcessEvent :=
  .disconnect :: [some ['0'], none, none, none, none].map .main

/-- The first listener thread serves a connection and ends after `disconnect`;
then the client connects again. -/
theorem connected_client_served_reconnect :
    let events := connectEvents ++ List.replicate 7 (.listener 0 true) ++ disconnectEvents ++
      List.replicate 2 (.listener 0 true) ++ connectEvents ++ List.replicate 4 (.listener 1 true)
    ∃ s, Run.run Process.step .init events = some s ∧ s.connectedSocket = some 1 ∧
      s.Served := by
  intro events
  have hguard : Run.Guarded Process.step Process.Guard .init events := by decide +kernel
  have hend : (Run.run Process.step .init events).map Process.connectedSocket =
      some (some 1) := by decide +kernel
  obtain ⟨s, hs, hsocket⟩ := Option.map_eq_some_iff.mp hend
  exact ⟨s, hs, hsocket, connected_client_served hguard hs⟩

/-- The first listener thread is woken by `disconnect` and comes to its `finally`
only after the client has connected again: it closes the new socket. -/
theorem closed_by_earlier_listener :
    let events := connectEvents ++ List.replicate 4 (.listener 0 true) ++ disconnectEvents ++
      connectEvents ++ List.replicate 2 (.listener 0 true)
    ∃ s, Run.run Process.step .init events = some s ∧ s.connectedSocket = some 1 ∧
      (s.sockets 1).map Socket.closed = some true ∧ ¬ s.Served := by
  intro events
  have hend : (Run.run Process.step .init events).map
      (fun s => (s.connectedSocket, (s.sockets 1).map Socket.closed)) =
      some (some 1, some true) := by decide +kernel
  obtain ⟨s, hs, hend⟩ := Option.map_eq_some_iff.mp hend
  obtain ⟨hsocket, hclosed⟩ := Prod.mk.inj hend
  refine ⟨s, hs, hsocket, hclosed, fun hserved => ?_⟩
  obtain ⟨⟨sock, hsock, hopened⟩, -⟩ := hserved.1 1 hsocket
  rw [hsock, Option.map_some, Option.some.injEq, hopened] at hclosed
  cases hclosed

/-- A listener thread that starts only after the whole `disconnect` takes down
the stop flag and accepts connections. -/
example :
    let events := connectEvents ++ disconnectEvents ++ List.replicate 4 (.listener 0 true)
    (Run.run Process.step .init events).map
        (fun s => (s.listeners 0, decide (s.Accepts 0))) =
      some (some { pc := .accepting 0, accepts := [0], left := true, dismissed := true },
        true) := by
  decide +kernel

end Client

end PeerDirectory
