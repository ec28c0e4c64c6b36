import PeerDirectory.Server.List
import PeerDirectory.Server.Lines

/-!
# The request handler of `servidor.c`

`treat_request` reads an operation name into the global `buffer`, compares it
with the eight names, and runs the branch of the one that matches. Each branch
is a straight list of statements, written down here as the source has them:
reading a line into `buffer`, copying `buffer` out with `sprintf`, clearing it,
the store call, the report through `rpc_llamada`, and the answer.
`Statement.exec` runs one statement on the shared state and the handler's own
data; a handler that runs alone runs them one after another (`treatRequest`).

Writes to the socket are taken to succeed, at once and whole, so that the branches
that leave after a failed `sendMessage` or `send_error` do not occur. `clnt_create`
is taken to succeed as well, and the calls of `rpc_llamada`, which share the handle
`clnt`, not to overlap. A result `none` is undefined behaviour: a write through a
null pointer or a read of a pointer nobody set.
-/

namespace PeerDirectory

/-- The strings `treat_request` allocates. -/
inductive Var where
  | print1Username
  | print1Operation
  | print1Date
  | print1File
  | description
  | port
  | username2
deriving DecidableEq

/-- The operations `treat_request` knows. -/
inductive Operation where
  | register
  | unregister
  | connect
  | publish
  | delete
  | disconnect
  | listUsers
  | listContent
deriving DecidableEq

/-- The name an operation is requested under. -/
def Operation.name : Operation → Bytes
  | .register => Text.encode ['R', 'E', 'G', 'I', 'S', 'T', 'E', 'R']
  | .unregister => Text.encode ['U', 'N', 'R', 'E', 'G', 'I', 'S', 'T', 'E', 'R']
  | .connect => Text.encode ['C', 'O', 'N', 'N', 'E', 'C', 'T']
  | .publish => Text.encode ['P', 'U', 'B', 'L', 'I', 'S', 'H']
  | .delete => Text.encode ['D', 'E', 'L', 'E', 'T', 'E']
  | .disconnect => Text.encode ['D', 'I', 'S', 'C', 'O', 'N', 'N', 'E', 'C', 'T']
  | .listUsers => Text.encode ['L', 'I', 'S', 'T', '_', 'U', 'S', 'E', 'R', 'S']
  | .listContent =>
      Text.encode ['L', 'I', 'S', 'T', '_', 'C', 'O', 'N', 'T', 'E', 'N', 'T']

/-- The order of the `strcmp` in `treat_request`. -/
def Operation.all : List Operation :=
  [.register, .unregister, .connect, .publish, .delete, .disconnect, .listUsers,
    .listContent]

/-- A statement of a branch. -/
inductive Statement where
  /-- `if (readLine(sc, buffer, MAX_VALUE_LENGTH) < 0) { close(sc); pthread_exit(0); }` -/
  | readLine
  /-- `sprintf(dst, "%s", buffer)` -/
  | sprintf (dst : Var)
  /-- `memset(buffer, 0, MAX_VALUE_LENGTH)` -/
  | memset
  /-- The store call of the branch. -/
  | call (op : Operation)
  /-- `rpc_llamada(...)`, with `print_1_file` or with the empty string. -/
  | rpcLlamada (file : Bool)
  /-- `send_error(sc, error)` -/
  | sendError
  /-- Leave if `error != 0`, and else send the users of the response. -/
  | sendUsers
  /-- Leave if `error != 0`, and else send the files of the response. -/
  | sendContent
deriving DecidableEq

def registerBranch : List Statement :=
  [.sprintf .print1Operation, .memset, .readLine, .sprintf .print1Date, .memset, .readLine,
    .sprintf .print1Username, .call .register, .memset, .rpcLlamada false, .sendError]

def unregisterBranch : List Statement :=
  [.sprintf .print1Operation, .memset, .readLine, .sprintf .print1Date, .memset, .readLine,
    .sprintf .print1Username, .call .unregister, .memset, .rpcLlamada false, .sendError]

def connectBranch : List Statement :=
  [.sprintf .print1Operation, .memset, .readLine, .sprintf .print1Date, .memset, .readLine,
    .sprintf .print1Username, .memset, .readLine, .sprintf .port, .call .connect, .memset,
    .rpcLlamada false, .sendError]

def publishBranch : List Statement :=
  [.sprintf .print1Operation, .memset, .readLine, .sprintf .print1Date, .memset, .readLine,
    .sprintf .print1Username, .memset, .readLine, .sprintf .print1File, .memset, .readLine,
    .sprintf .description, .call .publish, .memset, .rpcLlamada true, .sendError]

def deleteBranch : List Statement :=
  [.sprintf .print1Operation, .memset, .readLine, .sprintf .print1Date, .memset, .readLine,
    .sprintf .print1Username, .memset, .readLine, .sprintf .print1File, .call .delete,
    .memset, .rpcLlamada true, .sendError]

def disconnectBranch : List Statement :=
  [.sprintf .print1Operation, .memset, .readLine, .sprintf .print1Date, .memset, .readLine,
    .sprintf .print1Username, .call .disconnect, .memset, .rpcLlamada false, .sendError]

def listUsersBranch : List Statement :=
  [.sprintf .print1Operation, .memset, .readLine, .sprintf .print1Date, .memset, .readLine,
    .sprintf .print1Username, .call .listUsers, .memset, .rpcLlamada false, .sendError,
    .sendUsers]

/-- This branch does not clear `buffer` after its store call. -/
def listContentBranch : List Statement :=
  [.sprintf .print1Operation, .memset, .readLine, .sprintf .print1Date, .memset, .readLine,
    .sprintf .print1Username, .memset, .readLine, .sprintf .username2, .call .listContent,
    .rpcLlamada false, .sendError, .sendContent]

def Operation.branch : Operation → List Statement
  | .register => registerBranch
  | .unregister => unregisterBranch
  | .connect => connectBranch
  | .publish => publishBranch
  | .delete => deleteBranch
  | .disconnect => disconnectBranch
  | .listUsers => listUsersBranch
  | .listContent => listContentBranch

/-- The store call of a branch. REGISTER and UNREGISTER pass the global `buffer`
itself, the other branches pass the handler's own strings. -/
def Operation.storeCall (buffer : Bytes) (locals : Var → Bytes) : Operation → Call
  | .register => .registerUser buffer
  | .unregister => .unregisterUser buffer
  | .connect => .connectUser (locals .port) (locals .print1Username)
  | .publish =>
      .registerFileFromUser (locals .print1Username) (locals .print1File)
        (locals .description)
  | .delete => .unregisterFileFromUser (locals .print1Username) (locals .print1File)
  | .disconnect => .disconnectUser (locals .print1Username)
  | .listUsers => .listUsers (locals .print1Username)
  | .listContent => .listContent (locals .print1Username) (locals .username2)

/-! ## Answers -/

/-- The two bytes of `send_error`: the character `'0' + error` and a NUL. -/
def errorStr (error : Int) : Bytes :=
  [UInt8.ofInt (48 + error), 0]

/-- `sendMessage(sc, s, strlen(s) + 1)`. -/
def cstring (s : Bytes) : Bytes :=
  s ++ [0]

/-- The loop that sends the users: `n_user` turns, each followed by a step to
`send->next` unless that is `NULL`. -/
def sendUsersLoop : ℕ → Chain UserFields → Option Bytes
  | 0, _ => some []
  | turns + 1, .node (some fields) next =>
      let sent :=
        cstring fields.username.str ++ cstring fields.ip.str ++ cstring fields.port.str
      match next with
      | .unset => none
      | .null => (sendUsersLoop turns (.node (some fields) .null)).map fun s => sent ++ s
      | .node fields' next' =>
          (sendUsersLoop turns (.node fields' next')).map fun s => sent ++ s
  | _ + 1, _ => none

/-- The loop that counts the files: a node counts unless its name is empty. -/
def countContent : Chain ContentFields → Option ℕ
  | .null => some 0
  | .node (some fields) next =>
      (countContent next).map fun count =>
        if fields.filename.str ≠ [] then count + 1 else count
  | _ => none

/-- The loop that sends the files. -/
def sendContentLoop : Chain ContentFields → Option Bytes
  | .null => some []
  | .node (some fields) next =>
      (sendContentLoop next).map fun s =>
        cstring fields.filename.str ++ cstring fields.description.str ++ s
  | _ => none

/-- What LIST_USERS sends after the code 0: the number of users and the users. -/
def usersReply (respuesta : Chain UserFields) (nUser : ℕ) : Option Bytes :=
  (sendUsersLoop nUser respuesta).map fun s => cstring (decimal nUser) ++ s

/-- What LIST_CONTENT sends after the code 0: the number of files and the files. -/
def contentReply (respuesta : Chain ContentFields) : Option Bytes :=
  (countContent respuesta).bind fun fileCount =>
    (sendContentLoop respuesta).map fun s => cstring (decimal fileCount) ++ s

/-! ## Handlers -/

/-- An accepted connection: what can be read from it, and how the system answers
the handler that serves it. -/
structure Connection where
  input : List ReadEvent
  outcomes : Outcomes
  /-- The seven strings are allocated. -/
  mallocStrings : Bool
  /-- The string for the count of a listing is allocated. -/
  mallocCount : Bool

/-- A connection whose peer sends the bytes `s` and closes it; the handler gets
its memory. -/
def Connection.ofStream (s : Bytes) (o : Outcomes) : Connection where
  input := ofBytes s
  outcomes := o
  mallocStrings := true
  mallocCount := true

/-- What all handlers share. -/
structure Shared where
  buffer : CharArray maxValueLength
  store : ListState

/-- What a handler has for itself. The calls it made and what it passed to
`rpc_llamada` are kept as a record of its actions. -/
structure Handler where
  input : List ReadEvent
  locals : Var → Bytes
  result : Result
  calls : List Call
  printed : List (Bytes × Bytes × Bytes × Bytes)
  sent : Bytes

/-- A handler before its first read. -/
def Handler.start (input : List ReadEvent) : Handler where
  input := input
  locals := fun _ => []
  result := .code 0
  calls := []
  printed := []
  sent := []

/-- How a statement ends: the handler goes on, or it closes the connection. -/
inductive Flow where
  | next
  | exit
deriving DecidableEq

/-- One statement of a branch. -/
def Statement.exec (conn : Connection) (g : Shared) (h : Handler) :
    Statement → Option (Shared × Handler × Flow)
  | .readLine =>
      let r := PeerDirectory.readLine g.buffer h.input
      some ({ g with buffer := r.buffer }, { h with input := r.input },
        if r.ret < 0 then .exit else .next)
  | .sprintf dst =>
      some (g, { h with locals := Function.update h.locals dst g.buffer.str }, .next)
  | .memset => some ({ g with buffer := CharArray.memset maxValueLength }, h, .next)
  | .call op =>
      let c := op.storeCall g.buffer.str h.locals
      (c.perform conn.outcomes g.store).map fun r =>
        ({ g with store := r.1 }, { h with result := r.2, calls := h.calls ++ [c] }, .next)
  | .rpcLlamada file =>
      let print1File := if file then h.locals .print1File else []
      some (g,
        { h with
          printed := h.printed ++
            [(h.locals .print1Username, h.locals .print1Operation, h.locals .print1Date,
              print1File)] },
        .next)
  | .sendError =>
      some (g, { h with sent := h.sent ++ errorStr h.result.error }, .next)
  | .sendUsers =>
      match h.result with
      | .users respuesta nUser =>
          if conn.mallocCount then
            (usersReply respuesta nUser).map fun s => (g, { h with sent := h.sent ++ s }, .next)
          else none
      | _ => some (g, h, .exit)
  | .sendContent =>
      match h.result with
      | .content respuesta =>
          if conn.mallocCount then
            (contentReply respuesta).map fun s => (g, { h with sent := h.sent ++ s }, .next)
          else none
      | _ => some (g, h, .exit)

/-- The statements of a branch, one after another. -/
def runBranch (conn : Connection) : List Statement → Shared → Handler →
    Option (Shared × Handler)
  | [], g, h => some (g, h)
  | s :: statements, g, h =>
      (s.exec conn g h).bind fun r =>
        match r.2.2 with
        | .exit => some (r.1, r.2.1)
        | .next => runBranch conn statements r.1 r.2.1

/-- The chain of `strcmp` on `buffer`. -/
def dispatch (conn : Connection) : List Operation → Shared → Handler →
    Option (Shared × Handler)
  | [], g, h => some (g, h)
  | op :: ops, g, h =>
      if g.buffer.str = op.name then runBranch conn op.branch g h else dispatch conn ops g h

/-- `treat_request`, run alone. -/
def treatRequest (conn : Connection) (g : Shared) : Option (Shared × Handler) :=
  if conn.mallocStrings then
    let r := readLine g.buffer conn.input
    let g' := { g with buffer := r.buffer }
    let h := { Handler.start conn.input with input := r.input }
    if r.ret < 0 then some (g', h) else dispatch conn Operation.all g' h
  else
    some (g, Handler.start conn.input)

/-- The state the server starts in: the static `buffer` is zero. -/
def Shared.init : Shared where
  buffer := CharArray.memset maxValueLength
  store := .empty

/-- Connections handled strictly one after another. -/
def serve (g : Shared) (conns : List Connection) : Option Shared :=
  conns.foldlM (fun g conn => (treatRequest conn g).map Prod.fst) g

end PeerDirectory
