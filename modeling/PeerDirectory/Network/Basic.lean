import PeerDirectory.Client.Shell
import PeerDirectory.Lib.Lease
import PeerDirectory.Network.Calls

/-!
# The network

Any number of clients, each with its shell, its listening socket and its working
directory, and the server they all use. One event is one turn of the shell of some
client, or a change by a listener thread or by the user of a client. A turn is one
step together with the handlers of its requests: no other turn falls between them,
and Ctrl+C comes at the prompt or while a turn waits, not while the server handles
its request. A connection to the address and the port of a listening socket reaches
its process, whose listener thread is not busy with a request that has not come in;
what is behind any other address is left open.
-/

namespace PeerDirectory

open Client

/-! ## Clients -/

namespace Client

/-- The entry at the server that a client takes for its own. -/
def ClientState.holds (st : ClientState) : Option Bytes :=
  if st.connected then st.user.map entryName else none

/-- The process has ended, and with it its sockets. -/
def ClientState.exit (st : ClientState) : ClientState :=
  { st with serverSocket := st.serverSocket.map fun _ => .closed }

/-- What reaches the main thread there: a line only at the prompt. -/
def Waiting.reads : Waiting → Input → Bool
  | place, .line _ => place = .prompt
  | _, .interrupt => true

end Client

/-- Where a shell waits, or that it has ended. -/
inductive ShellStatus where
  | waits (place : Waiting)
  | ended
deriving DecidableEq

/-- A client of the network, with the port its last listening socket was bound
to. -/
structure Peer extends ClientProcess where
  status : ShellStatus
  port : UInt16

/-- A client behind a turn of its shell. -/
def Peer.ofTurn (answer : Outcome Bool) (s : ShellState Shared) (port : UInt16) : Peer :=
  match answer with
  | .returns false => { s.process with status := .waits s.waiting, port := port }
  | _ => { s.process with client := s.process.client.exit, status := .ended, port := port }

/-- The port of the listening socket behind a call: `connect` binds a new one,
unless the client is connected. -/
def Peer.bound (p : Peer) (port : UInt16) : Command → UInt16
  | .connect _ => if p.client.connected then p.port else port
  | _ => p.port

/-- The port of the listening socket behind a turn. -/
def Peer.boundBy (p : Peer) (m : CaseMapping) (port : UInt16) : Input → UInt16
  | .interrupt => p.port
  | .line command =>
      match parse m command with
      | .ok (.call c) => p.bound port c
      | _ => p.port

/-! ## Events -/

/-- What the outside does during one turn: among it, whether `connect` gets a socket
and a thread. -/
structure Outside where
  time : StructTime
  port : UInt16
  o : Outcomes
  socket : Bool
  start : Bool
  elsewhere : Str → Int → Option Files
  reset : Bool
  writable : Str → Bool

/-- The server and `n` clients. -/
structure Network (n : ℕ) where
  server : Shared
  peers : Fin n → Peer

/-- A turn of a shell, a listener thread that calls `listen` or closes the socket,
or the user of a client at its files. -/
inductive NetworkEvent (n : ℕ) where
  | turn (i : Fin n) (input : Input) (outside : Outside)
  | listens (i : Fin n)
  | closes (i : Fin n)
  | changes (i : Fin n) (files : Files)

namespace Network

variable {n : ℕ} (m : CaseMapping) (addrs : Fin n → InAddr)

/-- What a connection to an address reaches. -/
def route (net : Network n) (elsewhere : Str → Int → Option Files) (server : Str) (port : Int) :
    Option Files :=
  match (List.finRange n).find? fun j =>
      decide ((net.peers j).client.serverSocket = some .listening ∧
        Text.ofAscii (inetNtoa (addrs j)) = server ∧ ((net.peers j).port.toNat : Int) = port) with
  | some j => some (net.peers j).files
  | none => elsewhere server port

/-- The outside of a client during one turn. -/
def environment (net : Network n) (outside : Outside) : FileEnvironment Shared :=
  { (Environment.server outside.time outside.port outside.o).granting outside.socket
      outside.start with
    connectPeer := net.route addrs outside.elsewhere
    reset := outside.reset
    writable := outside.writable }

/-- One client behind an event. -/
def setPeer (net : Network n) (i : Fin n) (p : Peer) : Network n :=
  { net with peers := Function.update net.peers i p }

/-- The listening socket of a client is replaced. -/
def setSocket (net : Network n) (i : Fin n) (socket : ServerSocket) : Network n :=
  let p := net.peers i
  net.setPeer i { p with client := { p.client with serverSocket := some socket } }

def step (net : Network n) : NetworkEvent n → Option (Network n)
  | .turn i input outside =>
      let p := net.peers i
      match p.status with
      | .ended => none
      | .waits place =>
          if place.reads input then
            let s : ShellState Shared := ⟨place, p.toClientProcess, net.server⟩
            let r := s.take m (input, net.environment addrs outside)
            let p' := Peer.ofTurn r.1 r.2 (p.boundBy m outside.port input)
            some { server := r.2.peer, peers := Function.update net.peers i p' }
          else
            none
  | .listens i =>
      match (net.peers i).client.serverSocket with
      | some .bound => some (net.setSocket i .listening)
      | _ => none
  | .closes i => (net.peers i).client.serverSocket.map fun _ => net.setSocket i .closed
  | .changes i files => some (net.setPeer i { net.peers i with files := files })

/-- The server and the clients when they start. -/
def init (files : Fin n → Files) : Network n where
  server := .init
  peers := fun i => { client := .init, files := files i, status := .waits .prompt, port := 0 }

/-! ## Considerate users -/

/-- The user of a client types a name that everyone can read, and disconnects or
unregisters nobody whom another client has connected, nor unregisters whom its own
client has connected. -/
def Allows (net : Network n) (i : Fin n) : Command → Prop
  | .connect user => IsPlain user
  | .disconnect user =>
      (∀ j, (net.peers j).client.holds = some (entryName user) → j = i) ∧
        ∀ name ∈ (net.peers i).client.holds, name = entryName user
  | .unregister user => ∀ j, (net.peers j).client.holds ≠ some (entryName user)
  | _ => True

instance (net : Network n) (i : Fin n) : DecidablePred (net.Allows i)
  | .connect user => inferInstanceAs (Decidable (IsPlain user))
  | .disconnect user => inferInstanceAs (Decidable
      ((∀ j, (net.peers j).client.holds = some (entryName user) → j = i) ∧
        ∀ name ∈ (net.peers i).client.holds, name = entryName user))
  | .unregister user => inferInstanceAs (Decidable
      (∀ j, (net.peers j).client.holds ≠ some (entryName user)))
  | .register _ | .publish _ _ | .delete _ | .listusers | .listcontent _ => isTrue trivial

/-- The call of a line, if it is one, is allowed. -/
def AllowsInput (net : Network n) (i : Fin n) : Input → Prop
  | .interrupt => True
  | .line command =>
      match parse m command with
      | .ok (.call c) => net.Allows i c
      | _ => True

instance (net : Network n) (i : Fin n) : DecidablePred (net.AllowsInput m i)
  | .interrupt => isTrue trivial
  | .line command =>
      show Decidable (match parse m command with | .ok (.call c) => net.Allows i c | _ => True) from
        match parse m command with
        | .ok (.call c) => inferInstanceAs (Decidable (net.Allows i c))
        | .ok (.getfile _ _ _) | .ok .quit | .error _ => isTrue trivial

/-- A port is not given twice on one machine, and the users are considerate. -/
def Considerate (net : Network n) : NetworkEvent n → Prop
  | .turn i input outside =>
      (∀ j, addrs j = addrs i → (net.peers j).client.isOpen = true →
        (net.peers j).port ≠ outside.port) ∧ net.AllowsInput m i input
  | _ => True

instance (net : Network n) : DecidablePred (net.Considerate m addrs)
  | .turn i input outside => inferInstanceAs (Decidable
      ((∀ j, addrs j = addrs i → (net.peers j).client.isOpen = true →
        (net.peers j).port ≠ outside.port) ∧ net.AllowsInput m i input))
  | .listens _ | .closes _ | .changes _ _ => isTrue trivial

end Network

/-- The memory for the listings is there, `getpeername` gives the address of the
client, and a listener thread starts. -/
def NetworkEvent.Granted {n : ℕ} (addrs : Fin n → InAddr) : NetworkEvent n → Prop
  | .turn i _ outside =>
      outside.o.Allocated ∧ (∀ addr ∈ outside.o.getpeername, addr = addrs i) ∧
        outside.start = true
  | _ => True

end PeerDirectory
