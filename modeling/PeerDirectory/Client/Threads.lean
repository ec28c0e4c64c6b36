import PeerDirectory.Client.Protocol
import PeerDirectory.Lib.Run
import Mathlib.Logic.Function.Basic

/-!
# The main thread and the listener threads

The main thread runs `connect` and `disconnect`; every successful `connect`
starts a listener thread that is never joined. All of them share the attributes
`_server_socket`, `_stop_flag` and `_connected`, and a thread reads the
attribute again each time it uses it. One event is one statement on a shared
attribute, together with the statements on local variables around it, and the
threads take turns in any order.
-/

namespace PeerDirectory

namespace Client

/-! ## Sockets -/

/-- How far a TCP socket has come. -/
inductive SocketState where
  | created
  | bound
  | listening
  | shutDown
deriving DecidableEq

/-- A socket of the process; a thread that waits on it still has it after
another thread has closed it. -/
structure Socket where
  state : SocketState
  closed : Bool
deriving DecidableEq

namespace Socket

/-- `socket.socket(...)` -/
def new : Socket where
  state := .created
  closed := false

/-- `bind(('', 0))` -/
def bind (sock : Socket) : Option Socket :=
  if sock.closed = false ∧ sock.state = .created then some { sock with state := .bound } else none

/-- `getsockname()` -/
def getsockname (sock : Socket) : Option Socket :=
  if sock.closed = false then some sock else none

/-- `listen(5)` -/
def listen (sock : Socket) : Option Socket :=
  if sock.closed = false then some { sock with state := .listening } else none

/-- `shutdown(SHUT_RDWR)` -/
def shutdown (sock : Socket) : Option Socket :=
  if sock.closed = false ∧ sock.state = .listening then some { sock with state := .shutDown }
  else none

/-- `close()` -/
def close (sock : Socket) : Option Socket :=
  some { sock with closed := true }

theorem bind_created :
    bind { state := .created, closed := false } = some { state := .bound, closed := false } := rfl

theorem getsockname_opened {state : SocketState} :
    getsockname { state := state, closed := false } = some { state := state, closed := false } :=
  rfl

end Socket

/-! ## Threads -/

/-- The statement a listener thread is at. -/
inductive ListenerPc where
  /-- `client._server_socket.listen(5)` -/
  | listen
  /-- `client._stop_flag.clear()` -/
  | clear
  /-- `while not client._stop_flag.is_set()` -/
  | test
  /-- `client._server_socket.accept()` -/
  | accept
  /-- Waiting in `accept` of a socket. -/
  | accepting (i : ℕ)
  /-- The rest of the loop body. -/
  | serve
  /-- `client._server_socket.close()` -/
  | finallyClose
  | ended
deriving DecidableEq

/-- A listener thread. The statements do not look at `accepts`, the sockets it
has waited on, at `left`, whether a `disconnect` has been called since it was
started, and at `dismissed`, whether one that was answered `0` has returned. -/
structure Listener where
  pc : ListenerPc
  accepts : List ℕ
  left : Bool
  dismissed : Bool
deriving DecidableEq

/-- The statement the main thread is at. -/
inductive MainPc where
  | idle
  /-- `if client._connected` -/
  | testConnected
  /-- `client._server_socket = socket.socket(...)` -/
  | createSocket
  /-- `client._server_socket.bind(server_address)` -/
  | bind
  /-- `client._server_socket.getsockname()` -/
  | getsockname
  /-- The request of `connect`. -/
  | requestConnect
  /-- `server_thread.start()` -/
  | startThread
  /-- `client._connected = True` -/
  | setConnected
  /-- `client._server_socket.close()` -/
  | closeSocket
  /-- The request of `disconnect`. -/
  | requestDisconnect
  /-- `client._connected = False` -/
  | clearConnected (response : Str)
  /-- `client._stop_flag.set()` -/
  | setStopFlag (response : Str)
  /-- `client._stop_flag.set()` in the branch of the answer `0`. -/
  | setStopFlagAgain
  /-- `client._server_socket.shutdown(socket.SHUT_RDWR)` -/
  | shutdown
deriving DecidableEq

/-- The client process. A listener thread has the number of the socket of the
`connect` call that starts it. The statements do not look at `connectedSocket`,
the socket of a `connect` that returned `OK` with no `disconnect` called
since. -/
structure Process where
  sockets : ℕ → Option Socket
  created : ℕ
  serverSocket : Option ℕ
  stopFlag : Bool
  connected : Bool
  main : MainPc
  listeners : ℕ → Option Listener
  connectedSocket : Option ℕ

/-- What happens next. `main` and `listener` are the next statement of a thread,
with what it gets from outside: the response to a request, and whether it
raises. -/
inductive ProcessEvent where
  | connect
  | disconnect
  | main (result : Option Str)
  | listener (k : ℕ) (ok : Bool)

namespace Process

/-- The process when the program starts. -/
def init : Process where
  sockets := fun _ => none
  created := 0
  serverSocket := none
  stopFlag := false
  connected := false
  main := .idle
  listeners := fun _ => none
  connectedSocket := none

/-- A method of `client._server_socket`; `none` where it raises. -/
def onServerSocket (s : Process) (f : Socket → Option Socket) : Option Process :=
  s.serverSocket.bind fun i =>
    ((s.sockets i).bind f).map fun sock =>
      { s with sockets := Function.update s.sockets i (some sock) }

/-- The next statement of the main thread. -/
def stepMain (s : Process) (result : Option Str) : Option Process :=
  match s.main with
  | .idle => none
  | .testConnected =>
      some { s with main := if s.connected || result.isNone then .idle else .createSocket }
  | .createSocket =>
      match result with
      | none => some { s with main := .closeSocket }
      | some _ =>
          some { s with
            sockets := Function.update s.sockets s.created (some .new)
            created := s.created + 1
            serverSocket := some s.created
            main := .bind }
  | .bind =>
      match result.bind fun _ => s.onServerSocket Socket.bind with
      | none => some { s with main := .closeSocket }
      | some s' => some { s' with main := .getsockname }
  | .getsockname =>
      match result.bind fun _ => s.onServerSocket Socket.getsockname with
      | none => some { s with main := .closeSocket }
      | some s' => some { s' with main := .requestConnect }
  | .requestConnect =>
      some { s with main := if result = some ['0'] then .startThread else .closeSocket }
  | .startThread =>
      match result.bind fun _ => s.serverSocket with
      | none => some { s with main := .closeSocket }
      | some i =>
          some { s with
            listeners := Function.update s.listeners i
              (some { pc := .listen, accepts := [], left := false, dismissed := false })
            main := .setConnected }
  | .setConnected =>
      some { s with connected := true, main := .idle, connectedSocket := s.serverSocket }
  | .closeSocket =>
      some { (s.onServerSocket Socket.close).getD s with main := .idle }
  | .requestDisconnect =>
      match result with
      | none => some { s with main := .idle }
      | some response => some { s with main := .clearConnected response }
  | .clearConnected response =>
      some { s with connected := false, main := .setStopFlag response }
  | .setStopFlag response =>
      some { s with
        stopFlag := true
        main := if response = ['0'] then .setStopFlagAgain else .idle }
  | .setStopFlagAgain =>
      some { s with stopFlag := true, main := .shutdown }
  | .shutdown =>
      some { (s.onServerSocket Socket.shutdown).getD s with
        main := .idle
        listeners := fun k => (s.listeners k).map fun l => { l with dismissed := true } }

/-- The listener thread goes on at another statement. -/
def goto (s : Process) (k : ℕ) (l : Listener) (pc : ListenerPc) : Process :=
  { s with listeners := Function.update s.listeners k (some { l with pc := pc }) }

/-- The socket `client._server_socket.accept()` waits on. -/
def acceptSocket (s : Process) : Option ℕ :=
  s.serverSocket.bind fun i =>
    if s.sockets i = some { state := .listening, closed := false } then some i else none

/-- A connection can arrive at a socket a thread waits on. -/
def Accepts (s : Process) (i : ℕ) : Prop :=
  ∃ sock ∈ s.sockets i, sock.state = .listening

instance (s : Process) (i : ℕ) : Decidable (s.Accepts i) :=
  inferInstanceAs (Decidable (∃ sock ∈ s.sockets i, sock.state = .listening))

/-- The next statement of a listener thread. -/
def stepListener (s : Process) (k : ℕ) (l : Listener) (ok : Bool) : Option Process :=
  match l.pc with
  | .listen =>
      match if ok then s.onServerSocket Socket.listen else none with
      | none => some (s.goto k l .finallyClose)
      | some s' => some (s'.goto k l .clear)
  | .clear => some ({ s with stopFlag := false }.goto k l .test)
  | .test => some (s.goto k l (if s.stopFlag then .finallyClose else .accept))
  | .accept =>
      match if ok then s.acceptSocket else none with
      | none => some (s.goto k l .finallyClose)
      | some i => some (s.goto k { l with accepts := i :: l.accepts } (.accepting i))
  | .accepting i => some (s.goto k l (if ok && s.Accepts i then .serve else .finallyClose))
  | .serve => some (s.goto k l (if ok then .test else .finallyClose))
  | .finallyClose => some (((s.onServerSocket Socket.close).getD s).goto k l .ended)
  | .ended => none

def step (s : Process) : ProcessEvent → Option Process
  | .connect => if s.main = .idle then some { s with main := .testConnected } else none
  | .disconnect =>
      if s.main = .idle then
        some { s with
          main := .requestDisconnect
          listeners := fun k => (s.listeners k).map fun l => { l with left := true }
          connectedSocket := none }
      else none
  | .main result => s.stepMain result
  | .listener k ok => (s.listeners k).bind fun l => s.stepListener k l ok

/-! ## What is to hold -/

/-- Every socket of a `connect` that returned `OK`, with no `disconnect` called
since, is open and one listener thread at most has waited on it; and a listener
thread that was there when a `disconnect` answered `0` returned does not go on
accepting. -/
def Served (s : Process) : Prop :=
  (∀ i, s.connectedSocket = some i →
    (∃ sock, s.sockets i = some sock ∧ sock.closed = false) ∧
      ∀ j k lj lk, s.listeners j = some lj → s.listeners k = some lk → i ∈ lj.accepts →
        i ∈ lk.accepts → j = k) ∧
    ∀ k l, s.listeners k = some l → l.dismissed = true →
      ¬ ∃ i, l.pc = .accepting i ∧ s.Accepts i

end Process

/-- The thread has not come to its `finally`. -/
def ListenerPc.Running (pc : ListenerPc) : Prop :=
  pc ≠ .finallyClose ∧ pc ≠ .ended

/-- The thread has taken down the stop flag and not come to its `finally`. -/
def ListenerPc.InLoop (pc : ListenerPc) : Prop :=
  pc.Running ∧ pc ≠ .listen ∧ pc ≠ .clear

/-- The statement reads `client._server_socket`. -/
def ListenerPc.UsesServerSocket (pc : ListenerPc) : Prop :=
  pc = .listen ∨ pc = .accept ∨ pc = .finallyClose

instance (pc : ListenerPc) : Decidable pc.Running :=
  inferInstanceAs (Decidable (_ ∧ _))

instance (pc : ListenerPc) : Decidable pc.UsesServerSocket :=
  inferInstanceAs (Decidable (_ ∨ _))

namespace Process

/-- A listener thread uses `client._server_socket` only while it is the socket
it was started for. -/
def OwnSocket (s : Process) : ProcessEvent → Prop
  | .listener k _ => ∀ l ∈ s.listeners k, l.pc.UsesServerSocket → s.serverSocket = some k
  | _ => True

/-- When a `disconnect` answered `0` shuts the socket down, every listener thread
that runs and was not there at an earlier one listens on that socket. -/
def ListensFirst (s : Process) : ProcessEvent → Prop
  | .main _ =>
      s.main = .shutdown → ∀ k < s.created, ∀ l ∈ s.listeners k, l.pc.Running →
        l.dismissed = false → s.serverSocket = some k ∧
          s.sockets k = some { state := .listening, closed := false }
  | _ => True

/-- A listener thread raises only after a `disconnect` has been called. -/
def RaisesLate (s : Process) : ProcessEvent → Prop
  | .listener k ok => ok = false → ∀ l ∈ s.listeners k, l.left = true
  | _ => True

def Guard (s : Process) (e : ProcessEvent) : Prop :=
  s.OwnSocket e ∧ s.ListensFirst e ∧ s.RaisesLate e

instance (s : Process) (e : ProcessEvent) : Decidable (s.Guard e) :=
  match e with
  | .connect | .disconnect => isTrue ⟨trivial, trivial, trivial⟩
  | .main _ =>
      have : Decidable (s.ListensFirst (.main none)) :=
        inferInstanceAs (Decidable (s.main = .shutdown → ∀ k < s.created, ∀ l ∈ s.listeners k,
          l.pc.Running → l.dismissed = false → s.serverSocket = some k ∧
            s.sockets k = some { state := .listening, closed := false }))
      decidable_of_iff (s.ListensFirst (.main none))
        ⟨fun h => ⟨trivial, h, trivial⟩, fun h => h.2.1⟩
  | .listener k ok =>
      decidable_of_iff
        ((∀ l ∈ s.listeners k, l.pc.UsesServerSocket → s.serverSocket = some k) ∧
          (ok = false → ∀ l ∈ s.listeners k, l.left = true))
        ⟨fun h => ⟨h.1, trivial, h.2⟩, fun h => ⟨h.1, h.2.2⟩⟩

end Process

end Client

end PeerDirectory
