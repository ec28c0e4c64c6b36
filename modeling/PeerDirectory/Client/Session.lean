import PeerDirectory.Client.Requests
import PeerDirectory.Server.Connections

/-!
# One client and the server

A session is a sequence of calls of one client, each delivered to the server and
answered, with connections of other processes in between. The client keeps in
`_connected` and `_user` whom it has connected, and the server keeps an address
for every connected user. The two agree as long as the client disconnects no
other user than its own and does not unregister it while it is connected, which the
client does not check, and as long as a listener thread can be started for every
user the server connects.
-/

namespace PeerDirectory

namespace Client

/-! ## What a message does to the directory -/

/-- A message of the client is answered, and the directory takes the step of the
call it asks for. -/
theorem exchange_refines (c : Command) (time : StructTime) (user : Str) (port : UInt16)
    {o : Outcomes} (ho : o.Allocated) {g : Shared} (hvalid : g.Valid) :
    let m := encodeMessage (c.message (strftime time) user port)
    let step := (abstract g.store.messages).step o (c.operation.requestCall m)
    ∃ g' reply response rest,
      (Environment.server time port o).exchange m g = some (reply, g') ∧
        g'.Valid ∧ abstract g'.store.messages = step.1 ∧
        readResponse reply = .returns (response, rest) ∧
        (response = ['0'] ↔ step.2.error = 0) := by
  intro m step
  have hsome : (c.operation.serve (.ofStream m o) m g.store).isSome :=
    c.operation.serve_isSome ho rfl m g.store
  obtain ⟨served, hserve⟩ := Option.isSome_iff_exists.mp hsome
  obtain ⟨g', hg', hexchange⟩ := exchange_server hserve
  obtain ⟨⟨g₁, handler⟩, hrun, heq⟩ := Option.map_eq_some_iff.mp hexchange
  obtain ⟨-, rfl⟩ := Prod.mk.inj heq
  obtain ⟨hdirectory, listing, hreply⟩ := Operation.refines_of_serve hvalid.store hserve
  obtain ⟨hlow, hhigh⟩ := Directory.error_step_bounds o (abstract g.store.messages)
    (c.operation.requestCall m)
  refine ⟨g₁, served.reply, _, listing, hexchange, hvalid.treatRequest hrun, ?_, ?_,
    codeText_eq_zero_iff hlow hhigh⟩
  · rw [hg']
    exact hdirectory
  · rw [hreply]
    exact readResponse_code hlow hhigh listing

/-- The other side changes only by answering a message. -/
theorem send_snd {σ : Type} (env : Environment σ) (request : Str → Option (List Str))
    (peer : σ) :
    (send env request peer).2 = peer ∨
      ∃ time message reply, env.getTime = some time ∧ request (strftime time) = some message ∧
        env.exchange (encodeMessage message) peer =
          some (reply, (send env request peer).2) := by
  unfold send
  cases hm : env.getTime.bind fun time => request (strftime time) with
  | none => exact Or.inl rfl
  | some message =>
      obtain ⟨time, htime, hrequest⟩ := Option.bind_eq_some_iff.mp hm
      dsimp only
      cases hx : env.exchange (encodeMessage message) peer with
      | none => exact Or.inl rfl
      | some r => exact Or.inr ⟨time, message, r.1, htime, hrequest, hx⟩

/-- A call leaves the server as it is or sends it the message of the call. -/
theorem Command.run_server (c : Command) (time : StructTime) (port : UInt16) (o : Outcomes)
    (st : ClientState) (g : Shared) :
    (c.run (.server time port o) st g).2.2 = g ∨
      ∃ reply, (Environment.server time port o).exchange
        (encodeMessage (c.message (strftime time) (st.user.getD []) port)) g =
          some (reply, (c.run (.server time port o) st g).2.2) := by
  rcases c.run_peer (.server time port o) st g with h | ⟨request, h, hrequest⟩
  · exact Or.inl h
  · rcases send_snd (.server time port o) request g with hs | ⟨time', message, reply, ht, hr, hx⟩
    · exact Or.inl (h.trans hs)
    · obtain rfl : time = time' := Option.some.inj ht
      have hmessage := hrequest _ _ hr
      rw [hmessage, ← h] at hx
      exact Or.inr ⟨reply, hx⟩

section Methods

variable {σ : Type} {env : Environment σ} {time : StructTime} {port : UInt16} {user response : Str}
  {st : ClientState} {peer peer' : σ} {reply rest : Bytes}

theorem send_of_exchange {message : Str → Option (List Str)} {m : List Str}
    (htime : env.getTime = some time) (hm : message (strftime time) = some m)
    (hx : env.exchange (encodeMessage m) peer = some (reply, peer')) :
    send env message peer = (readResponse reply, peer') := by
  simp only [send, htime, Option.bind_some, hm, hx]

/-- `connect` with an answer: it succeeds exactly on the code 0, if the listener
thread can be started. -/
theorem connect_of_exchange (env : Environment σ) (st : ClientState)
    (hsocket : env.connectSocket = true) (hgiven : env.socket = true)
    (htime : env.getTime = some time) (hport : env.bind = some port)
    (hst : st.connected = false)
    (hx : env.exchange (encodeMessage (connectMessage (strftime time) user port)) peer =
      some (reply, peer'))
    (hresponse : readResponse reply = .returns (response, rest)) :
    ∃ rc socket, connect env user st peer =
      (.returns rc,
        if response = ['0'] ∧ env.start = true then
          { st with connected := true, user := some user, serverSocket := socket }
        else { st with serverSocket := socket },
        peer') ∧ (rc = .ok ↔ response = ['0'] ∧ env.start = true) := by
  simp only [connect, hst, hsocket, hgiven, hport, send, htime, Option.bind_some, hx, hresponse,
    Bool.false_eq_true, if_false, if_true]
  by_cases h0 : response = ['0']
  · by_cases hstart : env.start = true
    · exact ⟨.ok, some .bound, by simp [h0, hstart], by simp [h0, hstart]⟩
    · exact ⟨.otherCases, some .closed, by simp [h0, hstart], by simp [hstart]⟩
  · simp only [if_neg h0]
    by_cases h1 : response = ['1']
    · exact ⟨.error, some .closed, by simp [h1], by simp [h1]⟩
    · by_cases h2 : response = ['2']
      · exact ⟨.userError, some .closed, by simp [h2], by simp [h2]⟩
      · exact ⟨.otherCases, some .closed, by simp [h1, h2, h0], by simp [h0]⟩

/-- `connect` without a socket to listen on asks nobody. -/
theorem connect_of_no_socket (env : Environment σ) (user : Str) (st : ClientState) (peer : σ)
    (hsocket : env.connectSocket = true) (hgiven : env.socket = false)
    (hst : st.connected = false) :
    connect env user st peer = (.raises, st, peer) ∨
      connect env user st peer =
        (.returns .otherCases, { st with serverSocket := some .closed }, peer) := by
  simp only [connect, hst, hsocket, hgiven, Bool.false_eq_true, if_false, if_true]
  cases st.serverSocket with
  | none => exact Or.inl rfl
  | some socket => exact Or.inr rfl

/-- `disconnect` with an answer: it resets the client on every code. -/
theorem disconnect_of_exchange (env : Environment σ) (st : ClientState)
    (hsocket : env.connectSocket = true)
    (htime : env.getTime = some time)
    (hx : env.exchange (encodeMessage (disconnectMessage (strftime time) user)) peer =
      some (reply, peer'))
    (hresponse : readResponse reply = .returns (response, rest)) :
    ∃ rc socket, disconnect env user st peer =
      (.returns rc,
        { connected := false, user := none, stopFlag := true, serverSocket := socket },
        peer') := by
  simp only [disconnect, hsocket, send, htime, Option.bind_some, hx, hresponse, if_true]
  by_cases h0 : response = ['0']
  · simp only [if_pos h0]
    cases hs : st.serverSocket.bind ServerSocket.shutdown with
    | none => exact ⟨.otherCases, st.serverSocket, rfl⟩
    | some socket => exact ⟨.ok, some socket, rfl⟩
  · simp only [if_neg h0]
    by_cases h1 : response = ['1']
    · exact ⟨.error, st.serverSocket, by simp [h1]⟩
    · by_cases h2 : response = ['2']
      · exact ⟨.userError, st.serverSocket, by simp [h2]⟩
      · exact ⟨.otherCases, st.serverSocket, by simp [h1, h2]⟩

end Methods

/-! ## Sessions -/

/-- The client, the server, whom the client last connected with success, and all
whom the server has connected for it. -/
structure Session where
  client : ClientState
  server : Shared
  last : Option Str
  ever : List Str

/-- A call of the client, a connection of another process, or a change of the
listening socket by the listener thread. For `connect` a socket to listen on and a
listener thread are there or not. -/
inductive SessionEvent where
  | call (c : Command) (time : StructTime) (port : UInt16) (o : Outcomes) (socket start : Bool)
  | others (conn : Connection)
  | listener (socket : ServerSocket)

namespace Session

/-- A client that has just started. -/
def init (g : Shared) : Session where
  client := .init
  server := g
  last := none
  ever := []

/-- The user of a `connect` that has returned `OK`. -/
def connectedBy : Command → Outcome RC → Option Str
  | .connect user, .returns .ok => some user
  | _, _ => none

/-- The user that the server has connected in a call. -/
def newlyConnected (g g' : Shared) : Command → Option Str
  | .connect user =>
      if ¬ (abstract g.store.messages).Connected (entryName user) ∧
          (abstract g'.store.messages).Connected (entryName user) then
        some user
      else
        none
  | _ => none

/-- One event. A call that does not come back ends the session; the caller of one
that raises goes on. -/
def step (s : Session) : SessionEvent → Option Session
  | .call c time port o socket start =>
      let r := c.run ((Environment.server time port o).granting socket start) s.client s.server
      if r.1 = .hangs then
        none
      else
        some
          { client := r.2.1
            server := r.2.2
            last := (connectedBy c r.1).or s.last
            ever := (newlyConnected s.server r.2.2 c).toList ++ s.ever }
  | .others conn => (treatRequest conn s.server).map fun r => { s with server := r.1 }
  | .listener socket =>
      some { s with
        client := { s.client with serverSocket := s.client.serverSocket.map fun _ => socket } }

/-- The server's entry for a name is connected. -/
def Connected (s : Session) (name : Bytes) : Prop :=
  (abstract s.server.store.messages).Connected name

/-- Client and server agree on who is connected. -/
def Agrees (s : Session) : Prop :=
  (∀ u, s.client.connected = true ∧ s.client.user = some u ↔
      s.last = some u ∧ s.Connected (entryName u)) ∧
    (s.client.connected = false → ∀ u ∈ s.ever, ¬ s.Connected (entryName u))

/-- The calls are answered, and the other processes neither connect nor
disconnect the users this client connects, whose entries are among `names`. -/
def OthersApart (names : List Bytes) (s : Session) : SessionEvent → Prop
  | .call (.connect user) _ _ o _ _ => o.Allocated ∧ entryName user ∈ names
  | .call _ _ _ o _ _ => o.Allocated
  | .others conn =>
      ∀ r ∈ treatRequest conn s.server, ∀ n ∈ names,
        ((abstract r.1.store.messages).Connected n ↔ s.Connected n)
  | .listener _ => True

/-- A connected client disconnects nobody but its own user and does not unregister
it, and where the server connects a user, the listener thread can be started. -/
def KeepsOwnUser (s : Session) : SessionEvent → Prop
  | .call (.connect user) _ _ o socket start =>
      s.client.connected = false → socket = true →
        (abstract s.server.store.messages).Free (entryName user) → o.getpeername.isSome →
          start = true
  | .call (.disconnect user) _ _ _ _ _ =>
      s.client.connected = true → ∀ u ∈ s.client.user, entryName user = entryName u
  | .call (.unregister user) _ _ _ _ _ =>
      s.client.connected = true → ∀ u ∈ s.client.user, entryName user ≠ entryName u
  | _ => True

/-- What holds after every event. -/
structure Inv (names : List Bytes) (s : Session) : Prop where
  valid : s.server.Valid
  own : s.client.connected = true → ∃ u, s.client.user = some u ∧ s.last = some u ∧
    s.Connected (entryName u)
  alone : ∀ v ∈ s.ever, s.Connected (entryName v) →
    s.client.connected = true ∧ ∃ u, s.client.user = some u ∧ entryName u = entryName v
  last : ∀ u, s.last = some u → u ∈ s.ever
  ever : ∀ u ∈ s.ever, entryName u ∈ names

variable {names : List Bytes} {s : Session}

theorem Inv.agrees (h : s.Inv names) : s.Agrees := by
  constructor
  · intro u
    constructor
    · rintro ⟨hc, hu⟩
      obtain ⟨v, hv, hlast, hconn⟩ := h.own hc
      rw [hu, Option.some.injEq] at hv
      subst hv
      exact ⟨hlast, hconn⟩
    · rintro ⟨hlast, hconn⟩
      obtain ⟨hc, -⟩ := h.alone u (h.last u hlast) hconn
      obtain ⟨v, hv, hlast', -⟩ := h.own hc
      rw [hlast, Option.some.injEq] at hlast'
      subst hlast'
      exact ⟨hc, hv⟩
  · intro hc u hu hconn
    obtain ⟨hc', -⟩ := h.alone u hu hconn
    rw [hc] at hc'
    cases hc'

theorem inv_init {g : Shared} (hvalid : g.Valid) : (init g).Inv names where
  valid := hvalid
  own := fun h => by cases h
  alone := by simp [init]
  last := by simp [init]
  ever := by simp [init]

/-- The server side may change as long as nobody is connected by it and the own
user is not disconnected. -/
theorem Inv.of_server (h : s.Inv names) {g : Shared} (hvalid : g.Valid)
    (hsub : ∀ v ∈ s.ever, (abstract g.store.messages).Connected (entryName v) →
      s.Connected (entryName v))
    (hown : ∀ u, s.client.connected = true → s.client.user = some u →
      s.Connected (entryName u) → (abstract g.store.messages).Connected (entryName u)) :
    ({ s with server := g } : Session).Inv names where
  valid := hvalid
  own := by
    intro hc
    obtain ⟨u, hu, hlast, hconn⟩ := h.own hc
    exact ⟨u, hu, hlast, hown u hc hu hconn⟩
  alone := fun v hv hconn => h.alone v hv (hsub v hv hconn)
  last := h.last
  ever := h.ever

/-- `disconnect` leaves the client without a user, so its old one must be gone
from the server as well. -/
theorem Inv.of_reset (h : s.Inv names) {client : ClientState} {g : Shared}
    (hclient : client.connected = false) (hvalid : g.Valid)
    (hgone : ∀ v ∈ s.ever, ¬ (abstract g.store.messages).Connected (entryName v)) :
    ({ s with client := client, server := g } : Session).Inv names where
  valid := hvalid
  own := by
    intro hc
    rw [hclient] at hc
    cases hc
  alone := fun v hv hconn => absurd hconn (hgone v hv)
  last := h.last
  ever := h.ever

/-- `connect` with success: the new user is the only one. -/
theorem Inv.of_connect (h : s.Inv names) (hc : s.client.connected = false)
    {client : ClientState} {g : Shared} {user : Str}
    (hclient : client.connected = true ∧ client.user = some user) (hvalid : g.Valid)
    (hname : entryName user ∈ names)
    (hconn : ∀ m, (abstract g.store.messages).Connected m ↔
      s.Connected m ∨ m = entryName user) :
    ({ client := client, server := g, last := some user, ever := user :: s.ever } :
      Session).Inv names where
  valid := hvalid
  own := fun _ => ⟨user, hclient.2, rfl, (hconn _).mpr (Or.inr rfl)⟩
  alone := by
    intro v hv hv'
    refine ⟨hclient.1, user, hclient.2, ?_⟩
    rcases List.mem_cons.mp hv with rfl | hv
    · rfl
    · rcases (hconn _).mp hv' with hold | hnew
      · obtain ⟨hc', -⟩ := h.alone v hv hold
        rw [hc] at hc'
        cases hc'
      · exact hnew.symm
  last := fun u hu => List.mem_cons.mpr (Or.inl (Option.some.inj hu).symm)
  ever := by
    intro v hv
    rcases List.mem_cons.mp hv with rfl | hv
    · exact hname
    · exact h.ever v hv

theorem step_call {s' : Session} {c : Command} {time : StructTime} {port : UInt16}
    {o : Outcomes} {socket start : Bool}
    (hstep : s.step (.call c time port o socket start) = some s') :
    let r := c.run ((Environment.server time port o).granting socket start) s.client s.server
    r.1 ≠ .hangs ∧
      s' =
        { client := r.2.1
          server := r.2.2
          last := (connectedBy c r.1).or s.last
          ever := (newlyConnected s.server r.2.2 c).toList ++ s.ever } := by
  rw [Session.step] at hstep
  split at hstep
  · cases hstep
  · next hends => exact ⟨hends, (Option.some.inj hstep).symm⟩

/-- Any other call than `connect`. -/
theorem step_call_of_ne {s' : Session} {c : Command} {time : StructTime} {port : UInt16}
    {o : Outcomes} {socket start : Bool} (hc : ∀ user, c ≠ .connect user)
    (hstep : s.step (.call c time port o socket start) = some s') :
    s' = { s with
      client := (c.run (.server time port o) s.client s.server).2.1
      server := (c.run (.server time port o) s.client s.server).2.2 } := by
  obtain ⟨-, rfl⟩ := step_call hstep
  rw [Command.run_granting _ _ _ hc]
  cases c with
  | connect user => exact absurd rfl (hc user)
  | _ => rfl

/-! ## The calls -/

section Calls

variable {time : StructTime} {port : UInt16} {o : Outcomes}

/-- A call of the client is one step of the directory, or none. -/
theorem server_run (time : StructTime) (port : UInt16) (h : s.Inv names) (ho : o.Allocated)
    (c : Command) :
    let g := (c.run (.server time port o) s.client s.server).2.2
    g.Valid ∧ (g = s.server ∨ ∃ m, received 2 m = entryName (c.userName
      (s.client.user.getD [])) ∧ abstract g.store.messages =
        ((abstract s.server.store.messages).step o (c.operation.requestCall m)).1) := by
  rcases c.run_server time port o s.client s.server with hg | ⟨reply, hx⟩
  · dsimp only
    rw [hg]
    exact ⟨h.valid, Or.inl rfl⟩
  · obtain ⟨g', reply', -, -, hx', hvalid', hdirectory, -, -⟩ :=
      exchange_refines c time (s.client.user.getD []) port ho h.valid
    rw [hx, Option.some.injEq, Prod.mk.injEq] at hx'
    obtain ⟨-, rfl⟩ := hx'
    exact ⟨hvalid', Or.inr ⟨_, c.received_userName _ _ _, hdirectory⟩⟩

/-- The calls that leave the set of connected users as it is. -/
theorem connected_run (h : s.Inv names) (ho : o.Allocated) {c : Command}
    (hc : ∀ m d n, Directory.ConnectedAfter o d n (c.operation.requestCall m) ↔ d.Connected n)
    (n : Bytes) :
    (abstract (c.run (.server time port o) s.client s.server).2.2.store.messages).Connected n ↔
      s.Connected n := by
  obtain ⟨-, hg | ⟨m, -, hg⟩⟩ := server_run time port h ho c
  · rw [hg]
    rfl
  · rw [hg, Directory.connected_step, hc]
    rfl

/-- A call that keeps the attributes of the client and all connected users. -/
theorem Inv.of_run (h : s.Inv names) (ho : o.Allocated) {c : Command}
    (hc : ∀ m d n, Directory.ConnectedAfter o d n (c.operation.requestCall m) ↔ d.Connected n) :
    ({ s with server := (c.run (.server time port o) s.client s.server).2.2 } :
      Session).Inv names :=
  h.of_server (server_run time port h ho c).1 (fun _ _ => (connected_run h ho hc _).mp)
    fun _ _ _ => (connected_run h ho hc _).mpr

/-- `unregister` takes its user out of the directory and keeps the client. -/
theorem connected_unregister (time : StructTime) (port : UInt16) (h : s.Inv names)
    (ho : o.Allocated) (user : Str) (n : Bytes) :
    (abstract ((Command.unregister user).run (.server time port o) s.client
        s.server).2.2.store.messages).Connected n ↔ s.Connected n ∧ n ≠ entryName user := by
  obtain ⟨g', reply, response, rest, hx, -, hdirectory, hresponse, -⟩ :=
    exchange_refines (.unregister user) time [] port ho h.valid
  have hname : received 2 (encodeMessage ((Command.unregister user).message (strftime time) []
      port)) = entryName user := Command.received_userName _ _ _ _
  have hg : ((Command.unregister user).run (.server time port o) s.client s.server).2.2 = g' := by
    have hsend : send (.server time port o) (fun t => some (unregisterMessage t user)) s.server =
        (readResponse reply, g') := send_of_exchange rfl rfl hx
    rw [Command.run, Client.unregister, hsend]
    rfl
  rw [hg, hdirectory, Directory.connected_step, ← hname]
  rfl

/-- `disconnect` takes the address of its user and resets the client. -/
theorem connected_disconnect (time : StructTime) (port : UInt16) (h : s.Inv names)
    (ho : o.Allocated) (user : Str) :
    let r := (Command.disconnect user).run (.server time port o) s.client s.server
    r.2.1.connected = false ∧ r.2.2.Valid ∧ ∀ n,
      (abstract r.2.2.store.messages).Connected n ↔ s.Connected n ∧ n ≠ entryName user := by
  intro r
  obtain ⟨g', reply, response, rest, hx, hvalid, hdirectory, hresponse, -⟩ :=
    exchange_refines (.disconnect user) time [] port ho h.valid
  obtain ⟨rc, socket, hrun⟩ := disconnect_of_exchange (.server time port o)
    s.client rfl rfl hx hresponse
  have hname : received 2 (encodeMessage ((Command.disconnect user).message (strftime time) []
      port)) = entryName user := Command.received_userName _ _ _ _
  have hr : r = (.returns rc,
      { connected := false, user := none, stopFlag := true, serverSocket := socket }, g') := hrun
  rw [hr]
  refine ⟨rfl, hvalid, fun n => ?_⟩
  rw [hdirectory, Directory.connected_step, ← hname]
  rfl

/-- `unregister` of another user than the own one. -/
theorem Inv.of_unregister (h : s.Inv names) (ho : o.Allocated) {user : Str}
    (hkeeps : s.client.connected = true → ∀ u ∈ s.client.user, entryName user ≠ entryName u) :
    ({ s with server :=
        ((Command.unregister user).run (.server time port o) s.client s.server).2.2 } :
      Session).Inv names := by
  have hconn := connected_unregister time port h ho user
  refine h.of_server (server_run time port h ho _).1 (fun v _ hv => ((hconn _).mp hv).1) ?_
  intro u hc hu hold
  exact (hconn _).mpr ⟨hold, (hkeeps hc u hu).symm⟩

/-- `disconnect` of the own user, or of a client that is not connected. -/
theorem Inv.of_disconnect (h : s.Inv names) (ho : o.Allocated) {user : Str}
    (hkeeps : s.client.connected = true → ∀ u ∈ s.client.user, entryName user = entryName u) :
    let r := (Command.disconnect user).run (.server time port o) s.client s.server
    ({ s with client := r.2.1, server := r.2.2 } : Session).Inv names := by
  obtain ⟨hclient, hvalid, hconn⟩ :=
    connected_disconnect time port h ho user
  refine h.of_reset hclient hvalid ?_
  intro v hv hv'
  obtain ⟨hold, hne⟩ := (hconn _).mp hv'
  obtain ⟨hc, u, hu, huv⟩ := h.alone v hv hold
  rw [hkeeps hc u hu] at hne
  exact hne huv.symm

/-- What `connect` of a client that is not connected does, if it has a socket: the
server has connected the user exactly if it was free, and the client knows of it if
its listener thread has been started. -/
theorem connect_run (time : StructTime) (port : UInt16) (h : s.Inv names) (ho : o.Allocated)
    (user : Str) (start : Bool) (hc : s.client.connected = false) :
    let r := (Command.connect user).run ((Environment.server time port o).granting true start)
      s.client s.server
    let admits := (abstract s.server.store.messages).Free (entryName user) ∧ o.getpeername.isSome
    (∃ rc, r.1 = .returns rc ∧ (rc = .ok ↔ admits ∧ start = true)) ∧ r.2.2.Valid ∧
      (∀ n, (abstract r.2.2.store.messages).Connected n ↔
        s.Connected n ∨ n = entryName user ∧ admits) ∧
      (admits ∧ start = true → r.2.1.connected = true ∧ r.2.1.user = some user) ∧
      (¬ (admits ∧ start = true) → r.2.1.connected = false) := by
  intro r admits
  obtain ⟨g', reply, response, rest, hx, hvalid, hdirectory, hresponse, hzero⟩ :=
    exchange_refines (.connect user) time [] port ho h.valid
  obtain ⟨rc, socket, hrun, hok⟩ := connect_of_exchange
    ((Environment.server time port o).granting true start) s.client rfl rfl rfl rfl hc hx hresponse
  have hr : r = _ := hrun
  have hm : received 2 (encodeMessage ((Command.connect user).message (strftime time) []
      port)) = entryName user := Command.received_userName _ _ _ _
  have hadmits : response = ['0'] ↔ admits := by
    have hcall : (Command.connect user).operation.requestCall (encodeMessage
        ((Command.connect user).message (strftime time) [] port)) =
        .connectUser _ (entryName user) := congrArg (Call.connectUser _) hm
    rw [hzero, hcall]
    exact Directory.error_connectUser_eq_zero_iff
  have hconn : ∀ n, (abstract g'.store.messages).Connected n ↔
      s.Connected n ∨ n = entryName user ∧ admits := by
    intro n
    rw [hdirectory, Directory.connected_step, ← hadmits, hzero, ← hm]
    rfl
  have hstart : ((Environment.server time port o).granting true start).start = start := rfl
  rw [hadmits, hstart] at hok
  simp only [hr, hadmits, hstart]
  refine ⟨⟨rc, rfl, hok⟩, hvalid, hconn, fun hyes => ?_, fun hno => ?_⟩
  · rw [if_pos hyes]
    exact ⟨rfl, rfl⟩
  · rw [if_neg hno]
    exact hc

theorem newlyConnected_of_same {g g' : Shared} (c : Command)
    (h : ∀ n, (abstract g'.store.messages).Connected n ↔ (abstract g.store.messages).Connected n) :
    newlyConnected g g' c = none := by
  cases c with
  | connect user =>
      refine if_neg ?_
      rw [h]
      exact fun hboth => hboth.1 hboth.2
  | _ => rfl

/-- `connect` whose listener thread is started if the server connects the user. -/
theorem Inv.of_connect_run (h : s.Inv names) (ho : o.Allocated) {user : Str}
    (hname : entryName user ∈ names) {socket start : Bool}
    (hkeeps : s.KeepsOwnUser (.call (.connect user) time port o socket start)) :
    let r := (Command.connect user).run ((Environment.server time port o).granting socket start)
      s.client s.server
    ({ client := r.2.1
       server := r.2.2
       last := (connectedBy (.connect user) r.1).or s.last
       ever := (newlyConnected s.server r.2.2 (.connect user)).toList ++ s.ever } :
      Session).Inv names := by
  intro r
  have hself : newlyConnected s.server s.server (.connect user) = none :=
    newlyConnected_of_same _ fun _ => Iff.rfl
  cases hc : s.client.connected with
  | true =>
      have hr : r = (.returns .userError, s.client, s.server) := if_pos hc
      rw [hr, hself]
      exact h
  | false =>
      cases socket with
      | false =>
          -- the server is not asked
          rcases connect_of_no_socket ((Environment.server time port o).granting false start) user
            s.client s.server rfl rfl hc with hr | hr
          · rw [show r = _ from hr, hself]
            exact h
          · rw [show r = _ from hr, hself]
            exact ⟨h.valid, fun hc' => (by rw [hc] at hc'; cases hc'), h.alone, h.last, h.ever⟩
      | true =>
          obtain ⟨⟨rc, hrc, hok⟩, hvalid, hconn, hyes, hno⟩ :=
            connect_run time port h ho user start hc
          change r.1 = _ at hrc
          by_cases hadmits : (abstract s.server.store.messages).Free (entryName user) ∧
              o.getpeername.isSome
          · have hstart := hkeeps hc rfl hadmits.1 hadmits.2
            obtain rfl := hok.mpr ⟨hadmits, hstart⟩
            have hnew : newlyConnected s.server r.2.2 (.connect user) = some user :=
              if_pos ⟨hadmits.1.not_connected, (hconn _).mpr (Or.inr ⟨rfl, hadmits⟩)⟩
            rw [hrc, hnew]
            refine h.of_connect hc (hyes ⟨hadmits, hstart⟩) hvalid hname fun n => ?_
            rw [hconn, and_iff_left hadmits]
          · have hsame : ∀ n, (abstract r.2.2.store.messages).Connected n ↔ s.Connected n := by
              intro n
              rw [hconn]
              exact or_iff_left fun hn => hadmits hn.2
            have hclient := hno fun hboth => hadmits hboth.1
            have hby : connectedBy (.connect user) (.returns rc) = none := by
              cases rc with
              | ok => exact absurd (hok.mp rfl).1 hadmits
              | _ => rfl
            rw [hrc, hby, newlyConnected_of_same _ hsame]
            exact
              { valid := hvalid
                own := fun hc' => by
                  rw [show r.2.1.connected = false from hclient] at hc'
                  cases hc'
                alone := fun v hv hv' => by
                  obtain ⟨hc', -⟩ := h.alone v hv ((hsame _).mp hv')
                  rw [hc] at hc'
                  cases hc'
                last := h.last
                ever := h.ever }

/-- A guarded event keeps the invariant. -/
theorem Inv.step {s' : Session} {e : SessionEvent} (h : s.Inv names)
    (hothers : s.OthersApart names e) (hkeeps : s.KeepsOwnUser e)
    (hstep : s.step e = some s') : s'.Inv names := by
  cases e with
  | call c time port o socket start =>
      cases c with
      | connect user =>
          obtain ⟨-, rfl⟩ := step_call hstep
          exact h.of_connect_run hothers.1 hothers.2 hkeeps
      | disconnect user =>
          obtain rfl := step_call_of_ne (by simp) hstep
          exact h.of_disconnect hothers hkeeps
      | unregister user =>
          obtain rfl := step_call_of_ne (by simp) hstep
          exact h.of_unregister hothers hkeeps
      | _ =>
          obtain rfl := step_call_of_ne (by simp) hstep
          exact h.of_run hothers fun _ _ _ => Iff.rfl
  | others conn =>
      obtain ⟨r, hr, rfl⟩ := Option.map_eq_some_iff.mp hstep
      refine h.of_server (h.valid.treatRequest hr) ?_ ?_
      · intro v hv hv'
        exact (hothers r hr _ (h.ever v hv)).mp hv'
      · intro u hc hu hold
        obtain ⟨u', hu', hlast, -⟩ := h.own hc
        rw [hu, Option.some.injEq] at hu'
        subst hu'
        exact (hothers r hr _ (h.ever u (h.last u hlast))).mpr hold
  | listener socket =>
      obtain rfl := Option.some.inj hstep
      exact ⟨h.valid, h.own, h.alone, h.last, h.ever⟩

/-- The condition is the right one: a call that breaks it leaves client and
server apart. -/
theorem Inv.not_agrees {s' : Session} {e : SessionEvent} (h : s.Inv names)
    (hothers : s.OthersApart names e) (hnot : ¬ s.KeepsOwnUser e) (hstep : s.step e = some s') :
    ¬ s'.Agrees := by
  cases e with
  | call c time port o socket start =>
      cases c with
      | connect user =>
          obtain ⟨-, rfl⟩ := step_call hstep
          simp only [KeepsOwnUser, not_forall] at hnot
          obtain ⟨hc, rfl, hfree, hpeer, hstart⟩ := hnot
          obtain ⟨-, -, hconn, -, hno⟩ := connect_run time port h hothers.1 user start hc
          rintro ⟨-, hagrees⟩
          have hnow := (hconn (entryName user)).mpr (Or.inr ⟨rfl, hfree, hpeer⟩)
          have hnew : newlyConnected s.server _ (.connect user) = some user :=
            if_pos ⟨hfree.not_connected, hnow⟩
          refine hagrees (hno fun hboth => hstart hboth.2) user ?_ hnow
          dsimp only
          rw [hnew]
          exact List.mem_cons_self
      | disconnect user =>
          obtain rfl := step_call_of_ne (by simp) hstep
          simp only [KeepsOwnUser, not_forall] at hnot
          obtain ⟨hc, u, hu, hne⟩ := hnot
          obtain ⟨u', hu', hlast, hold⟩ := h.own hc
          obtain rfl := Option.some.inj (hu.symm.trans hu')
          obtain ⟨hclient, -, hconn⟩ :=
            connected_disconnect time port h hothers user
          rintro ⟨-, hagrees⟩
          dsimp only [Session.Connected] at hagrees
          have hstill := (hconn (entryName u)).mpr ⟨hold, fun h => hne h.symm⟩
          exact hagrees hclient u (h.last u hlast) hstill
      | unregister user =>
          obtain rfl := step_call_of_ne (by simp) hstep
          simp only [KeepsOwnUser, not_forall, not_not] at hnot
          obtain ⟨hc, u, hu, heq⟩ := hnot
          rintro ⟨hagrees, -⟩
          dsimp only [Session.Connected] at hagrees
          have hconn := connected_unregister time port h hothers user (entryName u)
          have hgone := hconn.mp ((hagrees u).mp ⟨hc, hu⟩).2
          exact hgone.2 heq.symm
      | _ => exact absurd trivial hnot
  | others conn => exact absurd trivial hnot
  | listener socket => exact absurd trivial hnot

end Calls

instance (s : Session) (e : SessionEvent) : Decidable (s.KeepsOwnUser e) :=
  match e with
  | .call c _ _ o socket start =>
      match c with
      | .connect user => inferInstanceAs (Decidable (s.client.connected = false → socket = true →
          (abstract s.server.store.messages).Free (entryName user) → o.getpeername.isSome →
            start = true))
      | .disconnect user => inferInstanceAs (Decidable (s.client.connected = true →
          ∀ u ∈ s.client.user, entryName user = entryName u))
      | .unregister user => inferInstanceAs (Decidable (s.client.connected = true →
          ∀ u ∈ s.client.user, entryName user ≠ entryName u))
      | .register _ | .publish _ _ | .delete _ | .listusers | .listcontent _ => isTrue trivial
  | .others _ | .listener _ => isTrue trivial

end Session

/-- Along every run in which the other processes leave the users of the client
alone, a connected client keeps its own user, and the listener threads can be
started, client and server agree on who is connected. -/
theorem session_agrees {names : List Bytes} {g : Shared} (hvalid : g.Valid)
    {events : List SessionEvent} {s : Session}
    (hothers : Run.Guarded Session.step (Session.OthersApart names) (.init g) events)
    (hkeeps : Run.Guarded Session.step Session.KeepsOwnUser (.init g) events)
    (hrun : Run.run Session.step (.init g) events = some s) : s.Agrees := by
  have hinv : s.Inv names := Run.invariant_of_guarded
    (fun _ _ _ h hguard hstep => Session.Inv.step h hguard.1 hguard.2 hstep)
    (Session.inv_init hvalid) (hothers.and hkeeps) hrun
  exact hinv.agrees

/-- Two users, and the calls of a client that keeps to its own. -/
theorem session_agrees_reconnect :
    let time : StructTime := ⟨2023, 12, 1, 10, 0, 0⟩
    let o := Outcomes.success ⟨10, 0, 0, 1⟩
    let events : List SessionEvent :=
      [.call (.register ['a']) time 80 o true true, .call (.register ['b']) time 80 o true true,
        .call (.connect ['a']) time 80 o true true, .listener .listening,
        .call (.unregister ['b']) time 80 o true true,
        .call (.disconnect ['a']) time 80 o true true,
        .call (.connect ['a']) time 81 o true true]
    ∃ s, Run.run Session.step (.init .init) events = some s ∧ s.client.connected = true ∧
      s.Agrees := by
  intro time o events
  have hsome : (Run.run Session.step (.init .init) events).isSome := by decide +kernel
  obtain ⟨s, hs⟩ := Option.isSome_iff_exists.mp hsome
  have hconnected : (Run.run Session.step (.init .init) events).map
      (fun s => s.client.connected) = some true := by decide +kernel
  have hkeeps : Run.Guarded Session.step Session.KeepsOwnUser (.init .init) events := by
    decide +kernel
  have ho : o.Allocated := Outcomes.allocated_success _
  have ha : entryName ['a'] ∈ [entryName ['a']] := List.mem_singleton_self _
  have hothers : Run.Guarded Session.step (Session.OthersApart [entryName ['a']])
      (.init .init) events := by
    refine Run.guarded_of_forall fun s e he => ?_
    simp only [events, List.mem_cons, List.not_mem_nil, or_false] at he
    rcases he with rfl | rfl | rfl | rfl | rfl | rfl | rfl
    exacts [ho, ho, ⟨ho, ha⟩, trivial, ho, ho, ⟨ho, ha⟩]
  refine ⟨s, hs, ?_, session_agrees Shared.valid_init hothers hkeeps hs⟩
  rw [hs] at hconnected
  exact Option.some.inj hconnected

/-- The user `a` is connected and the client is asked to disconnect `b`: it
forgets that it is connected, and `a` stays connected at the server. -/
theorem disconnect_of_other_user :
    let time : StructTime := ⟨2023, 12, 1, 10, 0, 0⟩
    let o := Outcomes.success ⟨10, 0, 0, 1⟩
    let events : List SessionEvent :=
      [.call (.register ['a']) time 80 o true true, .call (.connect ['a']) time 80 o true true,
        .call (.disconnect ['b']) time 80 o true true]
    Run.Guarded Session.step (Session.OthersApart [entryName ['a']]) (.init .init) events ∧
      ∃ s, Run.run Session.step (.init .init) events = some s ∧ s.client.connected = false ∧
        ['a'] ∈ s.ever ∧ s.Connected (entryName ['a']) ∧ ¬ s.Agrees := by
  intro time o events
  have ho : o.Allocated := Outcomes.allocated_success _
  have ha : entryName ['a'] ∈ [entryName ['a']] := List.mem_singleton_self _
  have hsome : (Run.run Session.step (.init .init) events).isSome := by decide +kernel
  obtain ⟨s, hs⟩ := Option.isSome_iff_exists.mp hsome
  have hend : (Run.run Session.step (.init .init) events).map (fun s =>
      (s.client.connected, s.ever,
        ((abstract s.server.store.messages) (entryName ['a'])).map fun e => e.address.isSome)) =
      some (false, [['a']], some true) := by decide +kernel
  simp only [hs, Option.map_some, Option.some.injEq, Prod.mk.injEq] at hend
  obtain ⟨hclient, hever, hentry⟩ := hend
  have hmem : ['a'] ∈ s.ever := by simp [hever]
  have hconn : s.Connected (entryName ['a']) := Option.map_eq_some_iff.mp hentry
  constructor
  · refine Run.guarded_of_forall fun s e he => ?_
    simp only [events, List.mem_cons, List.not_mem_nil, or_false] at he
    rcases he with rfl | rfl | rfl
    exacts [ho, ⟨ho, ha⟩, ho]
  · exact ⟨s, hs, hclient, hmem, hconn, fun hagrees => hagrees.2 hclient _ hmem hconn⟩

end Client

end PeerDirectory
