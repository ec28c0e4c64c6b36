import PeerDirectory.Network.Basic

/-!
# The server knows who is connected

Between the server and its clients the connected users are leases: the server has
the entries, and every client holds at most one of them. As long as the users are
considerate, the entries at the server are the users that the clients hold, each
held by one client and with the address of its listening socket.
-/

namespace PeerDirectory

open Client

namespace Network

variable {n : ℕ} {m : CaseMapping} {addrs : Fin n → InAddr} {net : Network n} {i : Fin n}

/-- The address under which the server knows a client. -/
def placeOf (addr : InAddr) (port : UInt16) : Bytes × Bytes :=
  (inetNtoa addr, decimal port.toNat)

/-- What the clients hold, and what the server has. -/
def lease (addrs : Fin n → InAddr) (net : Network n) : Lease (Fin n) Bytes (Bytes × Bytes) where
  holder := fun i => (net.peers i).client.holds
  place := fun i => placeOf (addrs i) (net.peers i).port
  entry := net.server.address

/-- A connected client has a user whose name is plain. -/
def HasUser (st : ClientState) : Prop :=
  st.connected = true → ∃ user, st.user = some user ∧ IsPlain user

/-- What holds after every event. -/
structure Inv (addrs : Fin n → InAddr) (net : Network n) : Prop where
  valid : net.server.Valid
  agrees : (net.lease addrs).Agrees
  hasUser : ∀ i, HasUser (net.peers i).client
  ended : ∀ i, (net.peers i).status = .ended → (net.peers i).client.connected = false
  leaves : ∀ i, (net.peers i).status ≠ .waits .leaving
  ports : ∀ i j, i ≠ j → addrs i = addrs j → (net.peers i).client.isOpen = true →
    (net.peers j).client.isOpen = true → (net.peers i).port ≠ (net.peers j).port

theorem holds_of_not_connected {st : ClientState} (h : st.connected = false) : st.holds = none := by
  simp [ClientState.holds, h]

theorem HasUser.holds {st : ClientState} (h : HasUser st) (hconnected : st.connected = true) :
    ∃ user, st.user = some user ∧ IsPlain user ∧ st.holds = some (entryName user) := by
  obtain ⟨user, huser, hplain⟩ := h hconnected
  exact ⟨user, huser, hplain, by simp [ClientState.holds, hconnected, huser]⟩

/-! ## A client and the server behind a call -/

/-- The leases after client `i` and the server have moved. -/
def moved (addrs : Fin n → InAddr) (net : Network n) (i : Fin n) (st : ClientState)
    (port : UInt16) (g : Shared) : Lease (Fin n) Bytes (Bytes × Bytes) where
  holder := Function.update (net.lease addrs).holder i st.holds
  place := Function.update (net.lease addrs).place i (placeOf (addrs i) port)
  entry := g.address

/-- Client `i` and the server may be in these states next. -/
structure Moves (addrs : Fin n → InAddr) (net : Network n) (i : Fin n) (st : ClientState)
    (port : UInt16) (g : Shared) : Prop where
  valid : g.Valid
  agrees : (net.moved addrs i st port g).Agrees
  hasUser : HasUser st

/-- Nothing has moved. -/
theorem Inv.moves_same (h : net.Inv addrs) (i : Fin n) {g : Shared} (hvalid : g.Valid)
    (haddress : g.address = net.server.address) {st : ClientState}
    (hclient : st = (net.peers i).client) :
    net.Moves addrs i st (net.peers i).port g := by
  subst hclient
  have hmoved : net.moved addrs i (net.peers i).client (net.peers i).port g = net.lease addrs := by
    have hholder : Function.update (net.lease addrs).holder i (net.peers i).client.holds =
        (net.lease addrs).holder := Function.update_eq_self _ _
    have hplace : Function.update (net.lease addrs).place i
        (placeOf (addrs i) (net.peers i).port) = (net.lease addrs).place :=
      Function.update_eq_self _ _
    rw [moved, hholder, hplace, haddress]
    rfl
  exact ⟨hvalid, hmoved ▸ h.agrees, h.hasUser i⟩

/-- A client that is not connected has bound another port. -/
theorem Inv.moves_port (h : net.Inv addrs) (hnot : (net.peers i).client.connected = false)
    {g : Shared} (hvalid : g.Valid) (haddress : g.address = net.server.address)
    {st : ClientState} (hst : st.connected = false) (port : UInt16) :
    net.Moves addrs i st port g := by
  have hholds : (net.lease addrs).holder i = none := holds_of_not_connected hnot
  refine ⟨hvalid, ?_, fun hc => by rw [hst] at hc; cases hc⟩
  have hmoved : net.moved addrs i st port g =
      (net.lease addrs).move i (placeOf (addrs i) port) := by
    rw [moved, holds_of_not_connected hst, ← hholds, Function.update_eq_self, haddress]
    rfl
  rw [hmoved]
  exact h.agrees.move hholds _

/-- A client that is not connected has taken a free user. -/
theorem Inv.moves_take (h : net.Inv addrs) (hnot : (net.peers i).client.connected = false)
    {g : Shared} (hvalid : g.Valid) {user : Str} (hplain : IsPlain user) {port : UInt16}
    (hfree : net.server.address (entryName user) = none)
    (haddress : g.address = Function.update net.server.address (entryName user)
      (some (placeOf (addrs i) port)))
    {st : ClientState} (hst : st.connected = true) (huser : st.user = some user) :
    net.Moves addrs i st port g := by
  have hholds : (net.lease addrs).holder i = none := holds_of_not_connected hnot
  refine ⟨hvalid, ?_, fun _ => ⟨user, huser, hplain⟩⟩
  have hmoved : net.moved addrs i st port g =
      (net.lease addrs).take i (entryName user) (placeOf (addrs i) port) := by
    rw [moved, haddress, ClientState.holds, hst, huser]
    rfl
  rw [hmoved]
  exact h.agrees.take hholds hfree _

/-- A client has let go of a user that no other client holds. -/
theorem Inv.moves_leave (h : net.Inv addrs) {g : Shared} (hvalid : g.Valid) {name : Bytes}
    (hown : ∀ name' ∈ (net.peers i).client.holds, name' = name)
    (hothers : ∀ j, (net.peers j).client.holds = some name → j = i)
    (haddress : g.address = Function.update net.server.address name none)
    {st : ClientState} (hst : st.connected = false) :
    net.Moves addrs i st (net.peers i).port g := by
  refine ⟨hvalid, ?_, fun hc => by rw [hst] at hc; cases hc⟩
  have hmoved : net.moved addrs i st (net.peers i).port g = (net.lease addrs).leave i name := by
    have hplace : Function.update (net.lease addrs).place i
        (placeOf (addrs i) (net.peers i).port) = (net.lease addrs).place :=
      Function.update_eq_self _ _
    rw [moved, holds_of_not_connected hst, hplace, haddress]
    rfl
  rw [hmoved]
  exact h.agrees.leave hown hothers

/-- The server has forgotten a user that nobody holds. -/
theorem Inv.moves_remove (h : net.Inv addrs) (i : Fin n) {g : Shared} (hvalid : g.Valid)
    {name : Bytes} (hfree : ∀ j, (net.peers j).client.holds ≠ some name)
    (haddress : g.address = Function.update net.server.address name none) :
    net.Moves addrs i (net.peers i).client (net.peers i).port g := by
  refine h.moves_same i hvalid ?_ rfl
  have hnone : net.server.address name = none := h.agrees.entry_eq_none hfree
  rw [haddress, ← hnone, Function.update_eq_self]

section Turn

variable {o : Outcomes} (socket : Bool)

/-- A call that neither connects nor disconnects anybody. -/
theorem Inv.moves_keeps (time : StructTime) (port : UInt16) (h : net.Inv addrs)
    (ho : o.Allocated) (c : Command) (hc : c.Keeps) :
    let r := c.run ((Environment.server time port o).granting socket true) (net.peers i).client
      net.server
    net.Moves addrs i r.2.1 (net.peers i).port r.2.2 := by
  intro r
  obtain ⟨answer, g', hrun, hvalid, hsame⟩ :=
    run_of_keeps time port hc (net.peers i).client h.valid ho
  have hnot : ∀ user, c ≠ .connect user := fun user heq => by
    rw [heq] at hc
    exact hc
  have hr : r = (answer, (net.peers i).client, g') := by
    rw [← hrun]
    exact Command.run_granting _ _ _ hnot _ _
  rw [hr]
  exact h.moves_same i hvalid hsame rfl

/-- `disconnect` of a user that no other client holds, and the client no other. -/
theorem Inv.moves_disconnect (time : StructTime) (port : UInt16) (h : net.Inv addrs)
    (ho : o.Allocated) {user : Str} (hallows : net.Allows i (.disconnect user)) :
    let r := (Command.disconnect user).run ((Environment.server time port o).granting socket true)
      (net.peers i).client net.server
    (∃ rc, r.1 = .returns rc) ∧ r.2.1.connected = false ∧
      net.Moves addrs i r.2.1 (net.peers i).port r.2.2 := by
  intro r
  obtain ⟨rc, st', g', hrun, hvalid, hst, hset⟩ :=
    run_disconnect time port user (net.peers i).client h.valid ho
  have hr : r = (.returns rc, st', g') := hrun
  rw [hr]
  exact ⟨⟨rc, rfl⟩, hst, h.moves_leave hvalid hallows.2 hallows.1 hset hst⟩

/-- A call that is allowed. -/
theorem Inv.moves_call (time : StructTime) (port : UInt16) (h : net.Inv addrs)
    (ho : o.Allocated) (hpeer : ∀ addr ∈ o.getpeername, addr = addrs i) {c : Command}
    (hallows : net.Allows i c) :
    let r := c.run ((Environment.server time port o).granting socket true) (net.peers i).client
      net.server
    net.Moves addrs i r.2.1 ((net.peers i).bound port c) r.2.2 := by
  intro r
  cases c with
  | connect user =>
      cases hc : (net.peers i).client.connected with
      | true =>
          have hr : r = (.returns .userError, (net.peers i).client, net.server) :=
            run_connect_of_connected _ user hc net.server
          rw [hr, Peer.bound, if_pos hc]
          exact h.moves_same i h.valid rfl rfl
      | false =>
          obtain ⟨answer, st', g', hrun, hvalid, heffect⟩ :=
            run_connect time port hallows h.valid ho hc
          have hr : r = (answer, st', g') := hrun
          rw [hr, Peer.bound, hc]
          rcases heffect with ⟨hst, huser, hfree, addr, haddr, hset⟩ | ⟨hst, hsame⟩
          · obtain rfl := hpeer addr haddr
            exact h.moves_take hc hvalid hallows hfree hset hst huser
          · exact h.moves_port hc hvalid hsame hst port
  | disconnect user => exact (Inv.moves_disconnect socket time port h ho hallows).2.2
  | unregister user =>
      obtain ⟨rc, g', hrun, hvalid, hset⟩ :=
        run_unregister time port user (net.peers i).client h.valid ho
      have hr : r = (.returns rc, (net.peers i).client, g') := hrun
      rw [hr]
      exact h.moves_remove i hvalid hallows hset
  | register user => exact Inv.moves_keeps socket time port h ho (.register user) trivial
  | publish fileName description =>
      exact Inv.moves_keeps socket time port h ho (.publish fileName description) trivial
  | delete fileName => exact Inv.moves_keeps socket time port h ho (.delete fileName) trivial
  | listusers => exact Inv.moves_keeps socket time port h ho .listusers trivial
  | listcontent user => exact Inv.moves_keeps socket time port h ho (.listcontent user) trivial

/-- The end of a session: the client lets go of its user. -/
theorem Inv.moves_leaveShell (time : StructTime) (port : UInt16) (h : net.Inv addrs)
    (ho : o.Allocated) (i : Fin n) :
    let r := Client.leave ((Environment.server time port o).granting socket true)
      (net.peers i).client net.server
    r.1 = .returns true ∧ r.2.1.connected = false ∧
      net.Moves addrs i r.2.1 (net.peers i).port r.2.2 := by
  cases hc : (net.peers i).client.connected with
  | false =>
      simp only [Client.leave, hc, Bool.false_eq_true, if_false]
      exact ⟨trivial, trivial, h.moves_same i h.valid rfl rfl⟩
  | true =>
      obtain ⟨user, huser, hplain, hholds⟩ := (h.hasUser i).holds hc
      have hallows : net.Allows i (.disconnect user) :=
        ⟨fun j hj => h.agrees.single j i _ hj hholds, fun name hname => by
          rw [hholds, Option.mem_some] at hname
          exact hname.symm⟩
      obtain ⟨⟨rc, hrc⟩, hst, hmoves⟩ :=
        Inv.moves_disconnect socket time port h ho hallows
      have hrc' : (Client.disconnect ((Environment.server time port o).granting socket true) user
        (net.peers i).client net.server).1 = .returns rc := hrc
      simp only [Client.leave, hc, huser, if_true, hrc', Outcome.bind_returns]
      exact ⟨trivial, hst, hmoves⟩

/-- `getfile` asks the server as `listusers` does. -/
theorem getfile_snd (env : FileEnvironment Shared) (user remoteFileName localFileName : Str)
    (st : ClientState) (g : Shared) :
    (Client.getfile env user remoteFileName localFileName st g).2 =
      (Command.listusers.run env.toEnvironment st g).2.2 := by
  unfold Client.getfile Command.run Client.listusers
  cases st.connected with
  | false => rfl
  | true =>
      cases hsocket : env.connectSocket with
      | false => rfl
      | true => rfl

theorem environment_granted {outside : Outside} (hstart : outside.start = true) :
    (net.environment addrs outside).toEnvironment =
      (Environment.server outside.time outside.port outside.o).granting outside.socket true := by
  rw [← hstart]
  rfl

/-- One turn of a shell, and whether it has left its loop. -/
theorem Inv.moves_turn (h : net.Inv addrs) {outside : Outside} (ho : outside.o.Allocated)
    (hpeer : ∀ addr ∈ outside.o.getpeername, addr = addrs i) (hstart : outside.start = true)
    {input : Input} (hallows : net.AllowsInput m i input) :
    let p := net.peers i
    let r := turn m (net.environment addrs outside) input p.toClientProcess net.server
    net.Moves addrs i r.2.1.client (p.boundBy m outside.port input) r.2.2 ∧
      (r.1 = .returns false ∨ (r.1 = .hangs ∧ ∃ command, input = .line command) ∨
        r.1 = .returns true ∧ r.2.1.client.connected = false) := by
  intro p r
  have henv : (net.environment addrs outside).toEnvironment = _ := environment_granted hstart
  cases input with
  | interrupt =>
      obtain ⟨hanswer, hst, hmoves⟩ :=
        Inv.moves_leaveShell outside.socket outside.time outside.port h ho i
      rw [← henv] at hanswer hst hmoves
      exact ⟨hmoves, Or.inr (Or.inr ⟨hanswer, hst⟩)⟩
  | line command =>
      cases hparse : parse m command with
      | error text =>
          have hr : r = (.returns false, p.toClientProcess, net.server) := turn_of_error hparse _ _
          simp only [hr, Peer.boundBy, hparse]
          exact ⟨h.moves_same i h.valid rfl rfl, Or.inl trivial⟩
      | ok c =>
          have hr : r = ((c.run (net.environment addrs outside) p.toClientProcess
              net.server).1.catching false, (c.run (net.environment addrs outside)
                p.toClientProcess net.server).2) := turn_of_ok hparse _ _
          cases c with
          | call c =>
              rw [Network.AllowsInput, hparse] at hallows
              have hmoves := Inv.moves_call outside.socket outside.time outside.port h
                ho hpeer hallows
              rw [← henv] at hmoves
              simp only [hr, Peer.boundBy, hparse, ShellCommand.run]
              refine ⟨hmoves, ?_⟩
              cases (c.run (net.environment addrs outside).toEnvironment p.client net.server).1 <;>
                simp
          | getfile user remoteFileName localFileName =>
              have hmoves := Inv.moves_keeps (i := i) outside.socket outside.time
                outside.port h ho .listusers trivial
              rw [← henv] at hmoves
              have hsnd := getfile_snd (net.environment addrs outside) user remoteFileName
                localFileName p.client net.server
              simp only [hr, Peer.boundBy, hparse, ShellCommand.run, hsnd]
              refine ⟨hmoves, ?_⟩
              cases (Client.getfile (net.environment addrs outside) user remoteFileName
                localFileName p.client net.server).1 <;> simp
          | quit =>
              obtain ⟨hanswer, hst, hmoves⟩ :=
                Inv.moves_leaveShell outside.socket outside.time outside.port h ho i
              rw [← henv] at hanswer hst hmoves
              simp only [hr, Peer.boundBy, hparse, ShellCommand.run, p, hanswer,
                Outcome.catching_returns]
              exact ⟨hmoves, Or.inr (Or.inr ⟨trivial, hst⟩)⟩

/-- A turn that comes back to the prompt, waits, or leaves the loop. -/
theorem Inv.moves_turnOrWait (h : net.Inv addrs) {outside : Outside} (ho : outside.o.Allocated)
    (hpeer : ∀ addr ∈ outside.o.getpeername, addr = addrs i) (hstart : outside.start = true)
    {input : Input} (hallows : net.AllowsInput m i input) :
    let p := net.peers i
    let r := turnOrWait m (net.environment addrs outside) input p.toClientProcess net.server
    net.Moves addrs i r.2.process.client (p.boundBy m outside.port input) r.2.peer ∧
      (r.1 = .returns false ∧ r.2.waiting ≠ .leaving ∨
        r.1 = .returns true ∧ r.2.process.client.connected = false) := by
  intro p r
  obtain ⟨hmoves, hfalse | ⟨hhangs, command, rfl⟩ | ⟨htrue, hst⟩⟩ :=
    h.moves_turn ho hpeer hstart hallows
  · simp only [r, turnOrWait, p, hfalse]
    exact ⟨hmoves, Or.inl ⟨trivial, by decide⟩⟩
  · simp only [r, turnOrWait, p, hhangs]
    exact ⟨hmoves, Or.inl ⟨trivial, waitsIn_line _ _ _ _⟩⟩
  · simp only [r, turnOrWait, p, htrue]
    exact ⟨hmoves, Or.inr ⟨trivial, hst⟩⟩

/-- What the shell makes of a line or Ctrl+C, wherever it waits. -/
theorem Inv.moves_shell (h : net.Inv addrs) {outside : Outside} (ho : outside.o.Allocated)
    (hpeer : ∀ addr ∈ outside.o.getpeername, addr = addrs i) (hstart : outside.start = true)
    {input : Input} (hallows : net.AllowsInput m i input) {place : Waiting}
    (hplace : (net.peers i).status = .waits place) (hreads : place.reads input = true) :
    let p := net.peers i
    let s : ShellState Shared := ⟨place, p.toClientProcess, net.server⟩
    let r := s.take m (input, net.environment addrs outside)
    net.Moves addrs i r.2.process.client (p.boundBy m outside.port input) r.2.peer ∧
      (r.1 = .returns false ∧ r.2.waiting ≠ .leaving ∨
        r.1 = .returns true ∧ r.2.process.client.connected = false) := by
  intro p s r
  cases place with
  | prompt => exact h.moves_turnOrWait ho hpeer hstart hallows
  | method =>
      cases input with
      | interrupt => exact h.moves_turnOrWait ho hpeer hstart hallows
      | line command => simp [Waiting.reads] at hreads
  | unassigned =>
      cases input with
      | interrupt => exact ⟨h.moves_same i h.valid rfl rfl, Or.inl ⟨rfl, Waiting.noConfusion⟩⟩
      | line command => simp [Waiting.reads] at hreads
  | leaving => exact absurd hplace (h.leaves i)

/-- The end of a session opens no socket. -/
theorem isOpen_leave {env : Environment Shared} {st : ClientState} {g : Shared}
    (h : (Client.leave env st g).2.1.isOpen = true) : st.isOpen = true := by
  unfold Client.leave at h
  split at h
  · split at h
    · exact isOpen_disconnect h
    · exact h
  · exact h

/-- A socket that is open behind a turn was open before with the same port, or has
the port of the turn. -/
theorem isOpen_turn {outside : Outside} {input : Input}
    (h : (turn m (net.environment addrs outside) input (net.peers i).toClientProcess
      net.server).2.1.client.isOpen = true) :
    (net.peers i).client.isOpen = true ∧
        (net.peers i).boundBy m outside.port input = (net.peers i).port ∨
      (net.peers i).boundBy m outside.port input = outside.port := by
  cases input with
  | interrupt => exact Or.inl ⟨isOpen_leave h, rfl⟩
  | line command =>
      simp only [Peer.boundBy]
      cases hparse : parse m command with
      | error text =>
          rw [turn_of_error hparse] at h
          exact Or.inl ⟨h, rfl⟩
      | ok c =>
          rw [turn_of_ok hparse] at h
          cases c with
          | call c =>
              rcases isOpen_run h with hopen | ⟨hnot, user, rfl⟩
              · cases c with
                | connect user =>
                    cases hc : (net.peers i).client.connected with
                    | false => exact Or.inr (by simp [Peer.bound, hc])
                    | true => exact Or.inl ⟨hopen, by simp [Peer.bound, hc]⟩
                | _ => exact Or.inl ⟨hopen, rfl⟩
              · exact Or.inr (by simp [Peer.bound, hnot])
          | getfile user remoteFileName localFileName => exact Or.inl ⟨h, rfl⟩
          | quit => exact Or.inl ⟨isOpen_leave h, rfl⟩

/-- The same behind a line or Ctrl+C, wherever the shell waits. -/
theorem isOpen_shell {outside : Outside} {input : Input} {place : Waiting}
    (hreads : place.reads input = true)
    (h : (ShellState.take m ⟨place, (net.peers i).toClientProcess, net.server⟩
      (input, net.environment addrs outside)).2.process.client.isOpen = true) :
    (net.peers i).client.isOpen = true ∧
        (net.peers i).boundBy m outside.port input = (net.peers i).port ∨
      (net.peers i).boundBy m outside.port input = outside.port := by
  have hturn := turnOrWait_snd (m := m) (net.environment addrs outside) input
    (net.peers i).toClientProcess net.server
  cases place with
  | prompt => exact isOpen_turn (hturn.1 ▸ h)
  | method =>
      cases input with
      | interrupt => exact isOpen_turn (hturn.1 ▸ h)
      | line command => simp [Waiting.reads] at hreads
  | unassigned =>
      cases input with
      | interrupt => exact Or.inl ⟨h, rfl⟩
      | line command => simp [Waiting.reads] at hreads
  | leaving =>
      cases input with
      | interrupt => exact Or.inl ⟨h, rfl⟩
      | line command => simp [Waiting.reads] at hreads

end Turn

/-! ## One event -/

theorem isOpen_exit (st : ClientState) : st.exit.isOpen = false := by
  unfold ClientState.exit ClientState.isOpen
  cases st.serverSocket <;> rfl

theorem connected_ofTurn (answer : Outcome Bool) (s : ShellState Shared) (port : UInt16) :
    (Peer.ofTurn answer s port).client.connected = s.process.client.connected ∧
      (Peer.ofTurn answer s port).client.user = s.process.client.user ∧
      (Peer.ofTurn answer s port).port = port := by
  unfold Peer.ofTurn
  split <;> exact ⟨rfl, rfl, rfl⟩

theorem isOpen_ofTurn {answer : Outcome Bool} {s : ShellState Shared} {port : UInt16}
    (h : (Peer.ofTurn answer s port).client.isOpen = true) :
    s.process.client.isOpen = true := by
  unfold Peer.ofTurn at h
  split at h
  · exact h
  · rw [isOpen_exit] at h
    cases h

/-- The invariant behind an event of client `i`. -/
theorem Inv.of_moves (h : net.Inv addrs) {p : Peer} {g : Shared}
    (hmoves : net.Moves addrs i p.client p.port g)
    (hended : p.status = .ended → p.client.connected = false)
    (hleaves : p.status ≠ .waits .leaving)
    (hport : p.client.isOpen = true → ∀ j, j ≠ i → addrs j = addrs i →
      (net.peers j).client.isOpen = true → (net.peers j).port ≠ p.port) :
    (Network.mk g (Function.update net.peers i p)).Inv addrs := by
  have hpeer : ∀ j, Function.update net.peers i p j = if j = i then p else net.peers j :=
    fun j => Function.update_apply net.peers i p j
  constructor
  · exact hmoves.valid
  · have hlease : (Network.mk g (Function.update net.peers i p)).lease addrs =
        net.moved addrs i p.client p.port g := by
      rw [lease, moved]
      congr 1
      · funext j
        dsimp only
        rw [hpeer, Function.update_apply]
        split <;> rfl
      · funext j
        dsimp only
        rw [hpeer, Function.update_apply]
        split
        · next hj => rw [hj]
        · rfl
    exact hlease ▸ hmoves.agrees
  · intro j
    dsimp only
    rw [hpeer]
    split
    · exact hmoves.hasUser
    · exact h.hasUser j
  · intro j
    dsimp only
    rw [hpeer]
    split
    · exact hended
    · exact h.ended j
  · intro j
    dsimp only
    rw [hpeer]
    split
    · exact hleaves
    · exact h.leaves j
  · intro j j' hne haddr hopen hopen'
    dsimp only at hopen hopen' ⊢
    rw [hpeer] at hopen hopen' ⊢
    rw [hpeer]
    by_cases hj : j = i
    · have hj' : j' ≠ i := fun heq => hne (hj.trans heq.symm)
      rw [if_pos hj] at hopen ⊢
      rw [if_neg hj'] at hopen' ⊢
      exact (hport hopen j' hj' (hj ▸ haddr.symm) hopen').symm
    · rw [if_neg hj] at hopen ⊢
      by_cases hj' : j' = i
      · rw [if_pos hj'] at hopen' ⊢
        exact hport hopen' j hj (hj' ▸ haddr) hopen
      · rw [if_neg hj'] at hopen' ⊢
        exact h.ports j j' hne haddr hopen hopen'

/-- A change of a client that the server does not see. -/
theorem Inv.setPeer (h : net.Inv addrs) {p : Peer}
    (hconnected : p.client.connected = (net.peers i).client.connected)
    (huser : p.client.user = (net.peers i).client.user)
    (hstatus : p.status = (net.peers i).status) (hport : p.port = (net.peers i).port)
    (hopen : p.client.isOpen = true → (net.peers i).client.isOpen = true) :
    (net.setPeer i p).Inv addrs := by
  have hholds : p.client.holds = (net.peers i).client.holds := by
    simp [ClientState.holds, hconnected, huser]
  have hmoves : net.Moves addrs i p.client p.port net.server := by
    have hsame := h.moves_same i h.valid rfl rfl
    refine ⟨h.valid, ?_, fun hc => ?_⟩
    · have hagrees := hsame.agrees
      rw [moved, ← hholds, ← hport] at hagrees
      exact hagrees
    · rw [huser]
      exact h.hasUser i (hconnected ▸ hc)
  refine h.of_moves hmoves (fun hended => ?_) (hstatus ▸ h.leaves i) fun ho j hj haddr hjo => ?_
  · rw [hconnected]
    exact h.ended i (hstatus ▸ hended)
  · rw [hport]
    exact h.ports j i hj haddr hjo (hopen ho)

/-- The invariant behind a turn of client `i`. -/
theorem Inv.of_turn (h : net.Inv addrs) {answer : Outcome Bool} {s : ShellState Shared}
    {port new : UInt16} (hmoves : net.Moves addrs i s.process.client port s.peer)
    (hanswer : answer = .returns false ∧ s.waiting ≠ .leaving ∨
      answer = .returns true ∧ s.process.client.connected = false)
    (hfree : ∀ j, addrs j = addrs i → (net.peers j).client.isOpen = true →
      (net.peers j).port ≠ new)
    (hopen : s.process.client.isOpen = true →
      (net.peers i).client.isOpen = true ∧ port = (net.peers i).port ∨ port = new) :
    (Network.mk s.peer (Function.update net.peers i (Peer.ofTurn answer s port))).Inv addrs := by
  obtain ⟨hconnected, huser, hport⟩ := connected_ofTurn answer s port
  have hholds : (Peer.ofTurn answer s port).client.holds = s.process.client.holds := by
    simp [ClientState.holds, hconnected, huser]
  refine h.of_moves ⟨hmoves.valid, ?_, fun hc => ?_⟩ (fun hended => ?_) ?_ ?_
  · have hagrees := hmoves.agrees
    rw [moved, ← hholds] at hagrees
    rw [hport]
    exact hagrees
  · rw [huser]
    exact hmoves.hasUser (hconnected ▸ hc)
  · rw [hconnected]
    rcases hanswer with ⟨rfl, -⟩ | ⟨-, hst⟩
    · cases hended
    · exact hst
  · rcases hanswer with ⟨rfl, hne⟩ | ⟨rfl, -⟩
    · exact fun heq => hne (ShellStatus.waits.inj heq)
    · exact ShellStatus.noConfusion
  · intro hofTurn j hj haddr hjo
    rw [hport]
    rcases hopen (isOpen_ofTurn hofTurn) with ⟨hold, hsame⟩ | hnew
    · rw [hsame]
      exact h.ports j i hj haddr hjo hold
    · rw [hnew]
      exact hfree j haddr hjo

/-- One event keeps the invariant. -/
theorem Inv.step {net' : Network n} {e : NetworkEvent n} (h : net.Inv addrs)
    (hgranted : e.Granted addrs) (hguard : net.Considerate m addrs e)
    (hstep : net.step m addrs e = some net') :
    net'.Inv addrs := by
  cases e with
  | turn i input outside =>
      obtain ⟨ho, hpeer, hstart⟩ := hgranted
      obtain ⟨hfree, hallows⟩ := hguard
      simp only [Network.step] at hstep
      split at hstep
      · cases hstep
      · next place hplace =>
          split at hstep
          · next hreads =>
              cases hstep
              obtain ⟨hmoves, hanswer⟩ := h.moves_shell ho hpeer hstart hallows hplace hreads
              exact h.of_turn hmoves hanswer (fun j haddr hopen => hfree j haddr hopen)
                (isOpen_shell hreads)
          · cases hstep
  | listens i =>
      simp only [Network.step] at hstep
      split at hstep
      · next hbound =>
          cases hstep
          refine h.setPeer rfl rfl rfl rfl fun _ => ?_
          simp [ClientState.isOpen, hbound]
      · cases hstep
  | closes i =>
      obtain ⟨socket, -, rfl⟩ := Option.map_eq_some_iff.mp hstep
      exact h.setPeer rfl rfl rfl rfl fun hopen => by cases hopen
  | changes i files =>
      cases hstep
      exact h.setPeer rfl rfl rfl rfl fun hopen => hopen

theorem inv_init (addrs : Fin n → InAddr) (files : Fin n → Files) : (init files).Inv addrs where
  valid := Shared.valid_init
  agrees :=
    { held := fun i k hk => by cases hk
      owned := fun k hk => by cases hk
      single := fun i j k hk => by cases hk }
  hasUser := fun i hc => by cases hc
  ended := fun _ _ => rfl
  leaves := fun _ hleaves => by cases hleaves
  ports := fun i j _ _ hopen => by cases hopen

/-- The invariant holds along every run of considerate users. -/
theorem inv_of_run {files : Fin n → Files} {events : List (NetworkEvent n)}
    (hgranted : ∀ e ∈ events, e.Granted addrs)
    (hguard : Run.Guarded (Network.step m addrs) (Network.Considerate m addrs) (init files) events)
    (hrun : Run.run (Network.step m addrs) (init files) events = some net) : net.Inv addrs :=
  Run.invariant_of_guarded (fun _ _ _ h hguard hstep => Inv.step h hguard.1 hguard.2 hstep)
    (inv_init addrs files) ((Run.guarded_of_forall fun _ e he => hgranted e he).and hguard) hrun

/-- Along every run of considerate users the server has an address for exactly the
users that the clients hold, namely that of the listening socket of the client; no
two clients hold one user; and when every shell has ended, nobody is connected. -/
theorem addresses_of_run {files : Fin n → Files} {events : List (NetworkEvent n)}
    (hgranted : ∀ e ∈ events, e.Granted addrs)
    (hguard : Run.Guarded (Network.step m addrs) (Network.Considerate m addrs) (init files) events)
    (hrun : Run.run (Network.step m addrs) (init files) events = some net) :
    (∀ name address, net.server.address name = some address ↔
      ∃ i, (net.peers i).client.holds = some name ∧
        placeOf (addrs i) (net.peers i).port = address) ∧
    (∀ i j name, (net.peers i).client.holds = some name →
      (net.peers j).client.holds = some name → i = j) ∧
    ((∀ i, (net.peers i).status = .ended) → ∀ name, net.server.address name = none) := by
  have h := inv_of_run hgranted hguard hrun
  refine ⟨fun name address => h.agrees.entry_eq_some_iff, h.agrees.single, fun hended name => ?_⟩
  refine h.agrees.entry_eq_none fun i hi => ?_
  have hnone : (net.peers i).client.holds = none := holds_of_not_connected (h.ended i (hended i))
  exact absurd (hnone.symm.trans hi) (by simp)

/-- Two clients on one machine; one session has ended, and the other user is
connected. -/
theorem addresses_of_run_two :
    let addrs : Fin 2 → InAddr := fun _ => ⟨10, 0, 0, 1⟩
    let files : Fin 2 → Files := fun _ _ => .notFound
    let outside : StructTime → UInt16 → Outside := fun time port =>
      ⟨time, port, .success ⟨10, 0, 0, 1⟩, true, true, fun _ _ => none, true, fun _ => true⟩
    let time : StructTime := ⟨2023, 12, 1, 10, 0, 0⟩
    let events : List (NetworkEvent 2) :=
      [.turn 0 (.line ['r', 'e', 'g', 'i', 's', 't', 'e', 'r', ' ', 'a']) (outside time 80),
        .turn 1 (.line ['R', 'E', 'G', 'I', 'S', 'T', 'E', 'R', ' ', 'b']) (outside time 80),
        .turn 0 (.line ['C', 'O', 'N', 'N', 'E', 'C', 'T', ' ', 'a']) (outside time 80),
        .listens 0,
        .turn 1 (.line ['C', 'O', 'N', 'N', 'E', 'C', 'T', ' ', 'b']) (outside time 81),
        .turn 0 .interrupt (outside time 82)]
    ∃ net, Run.run (Network.step .letters addrs) (init files) events = some net ∧
      (∀ name address, net.server.address name = some address ↔
        ∃ i, (net.peers i).client.holds = some name ∧
          placeOf (addrs i) (net.peers i).port = address) ∧
      (∀ i j name, (net.peers i).client.holds = some name →
        (net.peers j).client.holds = some name → i = j) ∧
      ((∀ i, (net.peers i).status = .ended) → ∀ name, net.server.address name = none) := by
  intro addrs files outside time events
  have hsome : (Run.run (Network.step .letters addrs) (init files) events).isSome := by
    decide +kernel
  obtain ⟨net, hrun⟩ := Option.isSome_iff_exists.mp hsome
  have hguard : Run.Guarded (Network.step .letters addrs) (Network.Considerate .letters addrs)
      (init files) events := by
    decide +kernel
  have hgranted : ∀ e ∈ events, e.Granted addrs := by
    intro e he
    simp only [events, List.mem_cons, List.not_mem_nil, or_false] at he
    have ho : (outside time 80).o.Allocated ∧ (∀ addr ∈ (outside time 80).o.getpeername,
        addr = ⟨10, 0, 0, 1⟩) ∧ (outside time 80).start = true :=
      ⟨Outcomes.allocated_success _, fun addr h => (Option.some.inj h).symm, rfl⟩
    rcases he with rfl | rfl | rfl | rfl | rfl | rfl
    exacts [ho, ho, ho, trivial, ho, ho]
  exact ⟨net, hrun, addresses_of_run hgranted hguard hrun⟩

end Network

end PeerDirectory
