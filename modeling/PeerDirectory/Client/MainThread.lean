import PeerDirectory.Client.Threads

/-!
# The methods as statements of the main thread

`connect` and `disconnect` are modelled twice: as functions on the attributes,
and statement by statement beside the listener threads. Where no listener thread
takes a step, the statements compute the functions.
-/

namespace PeerDirectory

namespace Client

/-- What a method sees of a socket. -/
def ServerSocket.Sees : ServerSocket → Socket → Prop
  | .bound, sock => sock = { state := .bound, closed := false }
  | .listening, sock => sock = { state := .listening, closed := false }
  | .shutDown, sock => sock = { state := .shutDown, closed := false }
  | .closed, sock => sock.closed = true

namespace Process

/-- The current socket is as the attribute says. -/
def SocketIs (s : Process) : Option ServerSocket → Prop
  | none => s.serverSocket = none
  | some socket => ∃ i sock, s.serverSocket = some i ∧ s.sockets i = some sock ∧ socket.Sees sock

theorem SocketIs.congr {s s' : Process} {socket : Option ServerSocket} (h : s.SocketIs socket)
    (hcurrent : s'.serverSocket = s.serverSocket) (hsockets : s'.sockets = s.sockets) :
    s'.SocketIs socket := by
  cases socket with
  | none => exact hcurrent.trans h
  | some socket =>
      obtain ⟨i, sock, hi, hsock, hsees⟩ := h
      exact ⟨i, sock, hcurrent.trans hi, by rw [hsockets, hsock], hsees⟩

/-- The process between two calls, with these attributes. -/
structure Between (s : Process) (st : ClientState) : Prop where
  idle : s.main = .idle
  connected : s.connected = st.connected
  stopFlag : s.stopFlag = st.stopFlag
  socket : s.SocketIs st.serverSocket

variable {s : Process} {st : ClientState}

/-- The statements of a call, one after another. -/
def runMain (s : Process) (call : ProcessEvent) (results : List (Option Str)) : Option Process :=
  Run.run step s (call :: results.map .main)

/-- The process at the request of `connect`, with a new socket that is bound. -/
def atRequest (s : Process) : Process :=
  { s with
    sockets := Function.update s.sockets s.created (some { state := .bound, closed := false })
    created := s.created + 1
    serverSocket := some s.created
    main := .requestConnect }

/-- The statements up to the request. -/
theorem runMain_connect (hidle : s.main = .idle) (hconnected : s.connected = false)
    (results : List (Option Str)) :
    s.runMain .connect (List.replicate 4 (some []) ++ results) =
      Run.run step s.atRequest (results.map .main) := by
  simp [runMain, Run.run_cons, step, stepMain, hidle, hconnected, onServerSocket, Socket.new,
    Socket.bind, Socket.getsockname, atRequest, List.replicate]

/-- The statements behind an answer that is not `0`, or none, and behind the answer
`0` where the thread cannot be started. -/
theorem run_atRequest_closes {results : List (Option Str)}
    (h : results = [some ['0'], none, none] ∨
      ∃ result, result ≠ some ['0'] ∧ results = [result, none]) :
    ∃ s', Run.run step s.atRequest (results.map .main) = some s' ∧
      s'.main = .idle ∧ s'.connected = s.connected ∧ s'.stopFlag = s.stopFlag ∧
        s'.SocketIs (some .closed) := by
  refine ⟨{ s.atRequest with
    sockets := Function.update s.sockets s.created (some { state := .bound, closed := true })
    main := .idle }, ?_, rfl, rfl, rfl, s.created, _, rfl, Function.update_self .., rfl⟩
  rcases h with rfl | ⟨result, hresult, rfl⟩
  · simp [Run.run_cons, step, stepMain, onServerSocket, Socket.close, atRequest]
  · simp [Run.run_cons, step, stepMain, hresult, onServerSocket, Socket.close, atRequest]

/-- The statements of a `connect` that starts its listener thread. -/
theorem runMain_connect_starts (hidle : s.main = .idle) (hconnected : s.connected = false) :
    ∃ s', s.runMain .connect (List.replicate 4 (some []) ++ [some ['0'], some [], none]) =
        some s' ∧
      s'.main = .idle ∧ s'.connected = true ∧ s'.stopFlag = s.stopFlag ∧
        s'.SocketIs (some .bound) := by
  refine ⟨{ s.atRequest with
    listeners := Function.update s.listeners s.created
      (some { pc := .listen, accepts := [], left := false, dismissed := false })
    connected := true
    main := .idle
    connectedSocket := some s.created }, ?_, rfl, rfl, rfl, s.created, _, rfl,
    Function.update_self .., rfl⟩
  rw [runMain_connect hidle hconnected]
  simp [Run.run_cons, step, stepMain, atRequest]

/-- The statements of a `connect` that gets no socket to listen on: the old one is
closed, if there is one. -/
theorem runMain_connect_of_no_socket (hidle : s.main = .idle) (hconnected : s.connected = false)
    {socket : Option ServerSocket} (h : s.SocketIs socket) :
    ∃ s', s.runMain .connect [some [], none, none] = some s' ∧
      s'.main = .idle ∧ s'.connected = s.connected ∧ s'.stopFlag = s.stopFlag ∧
        s'.SocketIs (socket.map fun _ => .closed) := by
  have hrun : s.runMain .connect [some [], none, none] =
      Run.run step { s with main := .closeSocket } [.main none] := by
    simp [runMain, Run.run_cons, step, stepMain, hidle, hconnected]
  set t : Process := { s with main := .closeSocket }
  have ht : t.SocketIs socket := h.congr rfl rfl
  have hclose : s.runMain .connect [some [], none, none] =
      some { (t.onServerSocket Socket.close).getD t with main := .idle } := by
    rw [hrun, Run.run_cons, step, stepMain]
    rfl
  refine ⟨_, hclose, rfl, ?_⟩
  cases socket with
  | none =>
      have hnone : t.serverSocket = none := ht
      have hon : t.onServerSocket Socket.close = none := by
        rw [onServerSocket, hnone, Option.bind_none]
      rw [hon]
      exact ⟨rfl, rfl, ht⟩
  | some socket =>
      obtain ⟨i, sock, hi, hsock, -⟩ := ht
      have hon : t.onServerSocket Socket.close = some { t with
          sockets := Function.update t.sockets i (some { sock with closed := true }) } := by
        simp only [onServerSocket, hi, hsock, Option.bind_some]
        rfl
      rw [hon]
      exact ⟨rfl, rfl, i, _, hi, Function.update_self .., rfl⟩

/-- A `disconnect` that is not answered `0`. -/
theorem runMain_disconnect_of_ne (hidle : s.main = .idle) {response : Str}
    (h : response ≠ ['0']) :
    s.runMain .disconnect [some response, none, none] = some { s with
      main := .idle
      connected := false
      stopFlag := true
      listeners := fun k => (s.listeners k).map fun l => { l with left := true }
      connectedSocket := none } := by
  simp [runMain, Run.run_cons, step, stepMain, hidle, h]

/-- `shutdown` works on a listening socket only. -/
theorem SocketIs.shutdown {socket : Option ServerSocket} (h : s.SocketIs socket) :
    ∃ sockets, (s.onServerSocket Socket.shutdown).getD s = { s with sockets := sockets } ∧
      ({ s with sockets := sockets } : Process).SocketIs
        ((socket.bind ServerSocket.shutdown).or socket) := by
  cases socket with
  | none =>
      have hnone : s.serverSocket = none := h
      have hon : s.onServerSocket Socket.shutdown = none := by
        rw [onServerSocket, hnone, Option.bind_none]
      exact ⟨s.sockets, by rw [hon]; rfl, h⟩
  | some socket =>
      obtain ⟨i, sock, hi, hsock, hsees⟩ := h
      have hon : s.onServerSocket Socket.shutdown = sock.shutdown.map fun sock' =>
          { s with sockets := Function.update s.sockets i (some sock') } := by
        simp only [onServerSocket, hi, hsock, Option.bind_some]
      rw [hon]
      cases socket with
      | listening =>
          obtain rfl := hsees
          exact ⟨_, rfl, i, _, hi, Function.update_self .., rfl⟩
      | bound | shutDown =>
          obtain rfl := hsees
          exact ⟨s.sockets, rfl, i, _, hi, hsock, rfl⟩
      | closed =>
          have hnone : sock.shutdown = none := if_neg fun h => by
            rw [show sock.closed = true from hsees] at h
            cases h.1
          exact ⟨s.sockets, by rw [hnone]; rfl, i, sock, hi, hsock, hsees⟩

/-- A `disconnect` that is answered `0`. -/
theorem runMain_disconnect (hidle : s.main = .idle) {socket : Option ServerSocket}
    (h : s.SocketIs socket) :
    ∃ s', s.runMain .disconnect [some ['0'], none, none, none, none] = some s' ∧
      s'.Between
        { connected := false
          user := none
          stopFlag := true
          serverSocket := (socket.bind ServerSocket.shutdown).or socket } := by
  have hrun : s.runMain .disconnect [some ['0'], none, none, none, none] = Run.run step
      { s with
        main := .shutdown
        connected := false
        stopFlag := true
        listeners := fun k => (s.listeners k).map fun l => { l with left := true }
        connectedSocket := none } [.main none] := by
    simp [runMain, Run.run_cons, step, stepMain, hidle]
  set t : Process := { s with
    main := .shutdown
    connected := false
    stopFlag := true
    listeners := fun k => (s.listeners k).map fun l => { l with left := true }
    connectedSocket := none }
  have ht : t.SocketIs socket := h.congr rfl rfl
  obtain ⟨sockets, hform, hsocket⟩ := ht.shutdown
  refine ⟨{ t with
    sockets := sockets
    main := .idle
    listeners := fun k => (t.listeners k).map fun l => { l with dismissed := true } },
    ?_, rfl, rfl, rfl, ?_⟩
  · rw [hrun, Run.run_cons, step, stepMain]
    simp only [t, hform]
    rfl
  · exact hsocket.congr rfl rfl

section

variable {σ : Type} (env : Environment σ) (user : Str) (peer : σ)

/-- A `connect` that ends is a run of the statements of the main thread. -/
theorem connect_eq_statements (h : s.Between st) (hends : (connect env user st peer).1 ≠ .hangs) :
    ∃ results s', s.runMain .connect results = some s' ∧
      s'.Between (connect env user st peer).2.1 := by
  obtain ⟨hidle, hconnected, hflag, hsocket⟩ := h
  obtain ⟨connected, connectedUser, stopFlag, serverSocket⟩ := st
  dsimp only at hconnected hflag hsocket
  cases connected with
  | true =>
      refine ⟨[none], { s with main := .idle }, ?_, ⟨rfl, hconnected, hflag, hsocket⟩⟩
      simp [runMain, Run.run_cons, step, stepMain, hidle]
  | false =>
      have hbehind : ∀ results, results = [some ['0'], none, none] ∨
            (∃ result, result ≠ some ['0'] ∧ results = [result, none]) →
          ∃ results s', s.runMain .connect results = some s' ∧
            s'.Between ⟨false, connectedUser, stopFlag, some .closed⟩ := by
        intro results hresults
        obtain ⟨s', hrun, hidle', hconnected', hflag', hsocket'⟩ :=
          run_atRequest_closes (s := s) hresults
        refine ⟨List.replicate 4 (some []) ++ results, s', ?_, hidle',
          hconnected'.trans hconnected, hflag'.trans hflag, hsocket'⟩
        rw [runMain_connect hidle hconnected, hrun]
      have hclosed : ∀ result, result ≠ some ['0'] → ∃ results s',
          s.runMain .connect results = some s' ∧
            s'.Between ⟨false, connectedUser, stopFlag, some .closed⟩ :=
        fun result hresult => hbehind _ (Or.inr ⟨result, hresult, rfl⟩)
      simp only [connect, Bool.false_eq_true, if_false] at hends ⊢
      cases hsocket' : env.connectSocket with
      | false =>
          refine ⟨[none], { s with main := .idle }, ?_, ⟨rfl, hconnected, hflag, hsocket⟩⟩
          simp [runMain, Run.run_cons, step, stepMain, hidle]
      | true =>
          simp only [hsocket', if_true] at hends ⊢
          cases hgiven : env.socket with
          | false =>
              obtain ⟨s', hrun, hidle', hconnected', hflag', hclosed'⟩ :=
                runMain_connect_of_no_socket hidle hconnected hsocket
              refine ⟨_, s', hrun, ?_⟩
              cases serverSocket with
              | none => exact ⟨hidle', hconnected'.trans hconnected, hflag'.trans hflag, hclosed'⟩
              | some socket =>
                  exact ⟨hidle', hconnected'.trans hconnected, hflag'.trans hflag, hclosed'⟩
          | true =>
              simp only [hgiven, if_true] at hends ⊢
              cases hbind : env.bind with
              | none =>
                  refine ⟨[some [], some [], none, none], { s with
                    sockets := Function.update s.sockets s.created
                      (some { state := .created, closed := true })
                    created := s.created + 1
                    serverSocket := some s.created
                    main := .idle }, ?_, rfl, hconnected, hflag, s.created, _, rfl,
                    Function.update_self .., rfl⟩
                  simp [runMain, Run.run_cons, step, stepMain, hidle, hconnected, onServerSocket,
                    Socket.new, Socket.close]
              | some port =>
                  simp only [hbind] at hends ⊢
                  cases hr : (send env (fun t => some (connectMessage t user port)) peer).1 with
                  | hangs => simp [hr] at hends
                  | raises =>
                      simp only
                      exact hclosed none nofun
                  | returns answer =>
                      obtain ⟨response, rest⟩ := answer
                      simp only
                      by_cases h0 : response = ['0']
                      · subst h0
                        cases hstart : env.start with
                        | false =>
                            simp only [if_true, Bool.false_eq_true, if_false]
                            exact hbehind _ (Or.inl rfl)
                        | true =>
                            obtain ⟨s', hrun, hidle', hconnected', hflag', hsocket'⟩ :=
                              runMain_connect_starts hidle hconnected
                            exact ⟨_, s', hrun, hidle', hconnected', hflag'.trans hflag, hsocket'⟩
                      · rw [if_neg h0]
                        have hne : some response ≠ some ['0'] := fun h => h0 (Option.some.inj h)
                        split
                        · exact hclosed _ hne
                        · split
                          · exact hclosed _ hne
                          · exact hclosed _ hne

/-- A `disconnect` that ends is a run of the statements of the main thread. -/
theorem disconnect_eq_statements (h : s.Between st)
    (hends : (disconnect env user st peer).1 ≠ .hangs) :
    ∃ results s', s.runMain .disconnect results = some s' ∧
      s'.Between (disconnect env user st peer).2.1 := by
  obtain ⟨hidle, hconnected, hflag, hsocket⟩ := h
  have hunanswered : ∃ results s', s.runMain .disconnect results = some s' ∧ s'.Between st := by
    refine ⟨[none], { s with
      main := .idle
      listeners := fun k => (s.listeners k).map fun l => { l with left := true }
      connectedSocket := none }, ?_, rfl, hconnected, hflag, ?_⟩
    · simp [runMain, Run.run_cons, step, stepMain, hidle]
    · exact hsocket.congr rfl rfl
  simp only [disconnect] at hends ⊢
  cases hsocket' : env.connectSocket with
  | false => exact hunanswered
  | true =>
      simp only [hsocket', if_true] at hends ⊢
      cases hr : (send env (fun time => some (disconnectMessage time user)) peer).1 with
      | hangs => simp [hr] at hends
      | raises => exact hunanswered
      | returns answer =>
          obtain ⟨response, rest⟩ := answer
          simp only
          by_cases h0 : response = ['0']
          · obtain ⟨s', hrun, hbetween⟩ := runMain_disconnect hidle hsocket
            refine ⟨_, s', hrun, ?_⟩
            rw [if_pos h0]
            cases hshutdown : st.serverSocket.bind ServerSocket.shutdown with
            | none =>
                rw [hshutdown, Option.none_or] at hbetween
                exact hbetween
            | some socket =>
                rw [hshutdown] at hbetween
                exact hbetween
          · refine ⟨_, _, runMain_disconnect_of_ne hidle h0, ?_⟩
            have hbetween : ({ s with
                main := .idle
                connected := false
                stopFlag := true
                listeners := fun k => (s.listeners k).map fun l => { l with left := true }
                connectedSocket := none } : Process).Between
                { st with connected := false, user := none, stopFlag := true } :=
              ⟨rfl, rfl, rfl, hsocket.congr rfl rfl⟩
            rw [if_neg h0]
            split
            · exact hbetween
            · split
              · exact hbetween
              · exact hbetween

end

end Process

end Client

end PeerDirectory
