import PeerDirectory.Lib.CharArray
import PeerDirectory.Lib.KeyedList
import PeerDirectory.Lib.Text

/-!
# The directory of `list.c`

The server keeps one linked list of users, each with a linked list of published
files; the `next` pointers are the tails of the Lean lists. A C string argument
is the list of its bytes before the NUL. What the C library answers is an
argument: `malloc` gives a block with whatever content it has, or fails, and
`getpeername` gives the peer address, or fails.

The eight operations are written here as the code runs them while it holds
`mutex`. `Call` names an operation with its arguments, `Call.body` is that
critical section and `Call.perform` puts the test of `inited_list` before it.
-/

namespace PeerDirectory

/-- `MAX_VALUE_LENGTH`. -/
abbrev maxValueLength : ℕ := 256

abbrev Bytes := List UInt8

/-- `filelist_t`. -/
structure FileNode where
  filename : CharArray maxValueLength
  description : CharArray maxValueLength
deriving DecidableEq

/-- `node_t`. -/
structure Node where
  username : CharArray maxValueLength
  ip : CharArray maxValueLength
  port : CharArray maxValueLength
  listFiles : List FileNode
deriving DecidableEq

/-- What `strcmp` compares in the search for a user. -/
def Node.name (current : Node) : Bytes :=
  current.username.str

/-- What `strcmp` compares in the search for a file. -/
def FileNode.name (current : FileNode) : Bytes :=
  current.filename.str

/-- `strlen(current->ip) > 0`. -/
def Node.connected (current : Node) : Bool :=
  0 < current.ip.str.length

/-- `struct in_addr`, the four bytes of an IPv4 address in network order. -/
structure InAddr where
  a : UInt8
  b : UInt8
  c : UInt8
  d : UInt8
deriving DecidableEq

/-- `snprintf("%d", n)` for a number that is not negative. -/
def decimal (n : ℕ) : Bytes :=
  Text.encode (Nat.toDigits 10 n)

/-- `inet_ntoa`: the dotted decimal notation. -/
def inetNtoa (addr : InAddr) : Bytes :=
  decimal addr.a.toNat ++ 46 :: decimal addr.b.toNat ++ 46 :: decimal addr.c.toNat ++
    46 :: decimal addr.d.toNat

/-! ## Operations that change the list -/

def registerUser (malloc : Option Node) (username : Bytes) (messages : List Node) :
    List Node × Int :=
  match KeyedList.lookup Node.name username messages with
  | some _ => (messages, 1)
  | none =>
      match malloc with
      | none => (messages, -1)
      | some newNode =>
          ({ newNode with
              username := CharArray.strncpy maxValueLength username
              ip := newNode.ip.set 0 0
              port := newNode.port.set 0 0
              listFiles := [] } :: messages, 0)

def unregisterUser (username : Bytes) (messages : List Node) : List Node × Int :=
  KeyedList.visit Node.name username (fun _ => (none, 0)) 1 messages

/-- The body of the search loop of `connect_user`. -/
def connectNode (getpeername : Option InAddr) (port : Bytes) (current : Node) :
    Option Node × Int :=
  if current.connected then
    (some current, 2)
  else
    match getpeername with
    | some addr =>
        (some { current with
            ip := CharArray.strncpy maxValueLength (inetNtoa addr)
            port := CharArray.strncpy maxValueLength port }, 0)
    | none => (some current, 3)

def connectUser (getpeername : Option InAddr) (port username : Bytes)
    (messages : List Node) : List Node × Int :=
  KeyedList.visit Node.name username (connectNode getpeername port) 1 messages

/-- The body of the search loop of `disconnect_user`. -/
def disconnectNode (current : Node) : Option Node × Int :=
  if current.connected then
    (some { current with ip := current.ip.set 0 0, port := current.port.set 0 0 }, 0)
  else
    (some current, 2)

def disconnectUser (username : Bytes) (messages : List Node) : List Node × Int :=
  KeyedList.visit Node.name username disconnectNode 1 messages

/-- The body of the search loop of `register_file_from_user`. -/
def registerFileNode (malloc : Bool) (file description : Bytes) (current : Node) :
    Option Node × Int :=
  if current.connected then
    match KeyedList.lookup FileNode.name file current.listFiles with
    | some _ => (some current, 3)
    | none =>
        if malloc then
          (some { current with
              listFiles :=
                { filename := CharArray.strncpy maxValueLength file
                  description := CharArray.strncpy maxValueLength description } ::
                  current.listFiles }, 0)
        else
          (some current, 4)
  else
    (some current, 2)

def registerFileFromUser (malloc : Bool) (username file description : Bytes)
    (messages : List Node) : List Node × Int :=
  KeyedList.visit Node.name username (registerFileNode malloc file description) 1 messages

/-- The body of the search loop of `unregister_file_from_user`. -/
def unregisterFileNode (file : Bytes) (current : Node) : Option Node × Int :=
  if current.connected then
    let r := KeyedList.visit FileNode.name file (fun _ => (none, (0 : Int))) 3
      current.listFiles
    (some { current with listFiles := r.1 }, r.2)
  else
    (some current, 2)

def unregisterFileFromUser (username file : Bytes) (messages : List Node) :
    List Node × Int :=
  KeyedList.visit Node.name username (unregisterFileNode file) 1 messages

/-! ## Operations that list -/

/-- A chain of response nodes. `unset` is a pointer nobody has written, and a
node whose fields are `none` is one nobody has filled. -/
inductive Chain (α : Type) where
  | null
  | unset
  | node (fields : Option α) (next : Chain α)
deriving DecidableEq

/-- The fields of `t_response_user`. -/
structure UserFields where
  username : CharArray maxValueLength
  ip : CharArray maxValueLength
  port : CharArray maxValueLength
deriving DecidableEq

/-- The fields of `t_response_list`. -/
structure ContentFields where
  filename : CharArray maxValueLength
  description : CharArray maxValueLength
deriving DecidableEq

/-- The three `strncpy` of `list_users`. -/
def Node.userFields (user : Node) : UserFields where
  username := CharArray.strncpy maxValueLength user.username.str
  ip := CharArray.strncpy maxValueLength user.ip.str
  port := CharArray.strncpy maxValueLength user.port.str

/-- The two `strncpy` of `list_content`. -/
def FileNode.contentFields (file : FileNode) : ContentFields where
  filename := CharArray.strncpy maxValueLength file.filename.str
  description := CharArray.strncpy maxValueLength file.description.str

/-- The loop of `list_users` over `user_current`. `response` says that
`response_current` points to a node, and `malloc k` how the next allocation
ends. The result is what hangs from `response_current` afterwards and the number
of users written; `none` is a write through a null pointer. -/
def fillUsers (malloc : ℕ → Bool) : Bool → ℕ → List Node → Option (Chain UserFields × ℕ)
  | true, _, [] => some (.node none .unset, 0)
  | false, _, [] => some (.null, 0)
  | response, k, user :: next =>
      if user.connected then
        match response with
        | false => none
        | true =>
            match next with
            | [] => some (.node (some user.userFields) .null, 1)
            | _ :: _ =>
                (fillUsers malloc (malloc k) (k + 1) next).map fun r =>
                  (.node (some user.userFields) r.1, r.2 + 1)
      else
        fillUsers malloc response k next

/-- The loop of `list_content` over `file_current`, with the same arguments. -/
def fillContent (malloc : ℕ → Bool) : Bool → ℕ → List FileNode → Option (Chain ContentFields)
  | _, _, [] => some .null
  | false, _, _ :: _ => none
  | true, k, file :: next =>
      match next with
      | [] => some (.node (some file.contentFields) .null)
      | _ :: _ =>
          (fillContent malloc (malloc k) (k + 1) next).map fun r =>
            .node (some file.contentFields) r

/-- What an operation gives back: its return code, and with code 0 what
`list_users` and `list_content` leave in their result arguments. -/
inductive Result where
  | code (error : Int)
  | users (respuesta : Chain UserFields) (nUser : ℕ)
  | content (respuesta : Chain ContentFields)
deriving DecidableEq

/-- The return code. -/
def Result.error : Result → Int
  | .code error => error
  | .users _ _ => 0
  | .content _ => 0

/-- `respuesta` says that the caller passes a node and not `NULL`. -/
def listUsers (respuesta : Bool) (malloc : ℕ → Bool) (username : Bytes)
    (messages : List Node) : Option Result :=
  match KeyedList.lookup Node.name username messages with
  | none => some (.code 1)
  | some current =>
      if current.connected then
        (fillUsers malloc respuesta 0 messages).map fun r => .users r.1 r.2
      else
        some (.code 2)

def listContent (respuesta : Bool) (malloc : ℕ → Bool) (username username2 : Bytes)
    (messages : List Node) : Option Result :=
  match KeyedList.lookup Node.name username messages with
  | none => some (.code 1)
  | some current =>
      if current.connected then
        match KeyedList.lookup Node.name username2 messages with
        | none => some (.code 3)
        | some targetUser =>
            match targetUser.listFiles with
            | [] => some (.content .null)
            | file :: next =>
                (fillContent malloc respuesta 0 (file :: next)).map .content
      else
        some (.code 2)

/-! ## Calls -/

/-- A call of one of the eight operations, with its string arguments. -/
inductive Call where
  | registerUser (username : Bytes)
  | unregisterUser (username : Bytes)
  | connectUser (port username : Bytes)
  | disconnectUser (username : Bytes)
  | registerFileFromUser (username file description : Bytes)
  | unregisterFileFromUser (username file : Bytes)
  | listUsers (username : Bytes)
  | listContent (username username2 : Bytes)
deriving DecidableEq

/-- What the system answers to one call. -/
structure Outcomes where
  getpeername : Option InAddr
  mallocNode : Option Node
  mallocFile : Bool
  respuesta : Bool
  mallocRespuesta : ℕ → Bool

/-- The response nodes of the two listings are allocated. -/
def Outcomes.Allocated (o : Outcomes) : Prop :=
  o.respuesta = true ∧ ∀ k, o.mallocRespuesta k = true

/-- Everything the call asks for is granted; new blocks are zeroed. -/
def Outcomes.success (addr : InAddr) : Outcomes where
  getpeername := some addr
  mallocNode := some
    { username := CharArray.memset maxValueLength
      ip := CharArray.memset maxValueLength
      port := CharArray.memset maxValueLength
      listFiles := [] }
  mallocFile := true
  respuesta := true
  mallocRespuesta := fun _ => true

theorem Outcomes.allocated_success (addr : InAddr) : (Outcomes.success addr).Allocated :=
  ⟨rfl, fun _ => rfl⟩

/-- The critical section of the call that reads and changes `messages`; `none`
is a write through a null pointer. -/
def Call.body (o : Outcomes) (messages : List Node) : Call → Option (List Node × Result)
  | .registerUser username =>
      let r := PeerDirectory.registerUser o.mallocNode username messages
      some (r.1, .code r.2)
  | .unregisterUser username =>
      let r := PeerDirectory.unregisterUser username messages
      some (r.1, .code r.2)
  | .connectUser port username =>
      let r := PeerDirectory.connectUser o.getpeername port username messages
      some (r.1, .code r.2)
  | .disconnectUser username =>
      let r := PeerDirectory.disconnectUser username messages
      some (r.1, .code r.2)
  | .registerFileFromUser username file description =>
      let r := PeerDirectory.registerFileFromUser o.mallocFile username file description messages
      some (r.1, .code r.2)
  | .unregisterFileFromUser username file =>
      let r := PeerDirectory.unregisterFileFromUser username file messages
      some (r.1, .code r.2)
  | .listUsers username =>
      (PeerDirectory.listUsers o.respuesta o.mallocRespuesta username messages).map fun r =>
        (messages, r)
  | .listContent username username2 =>
      (PeerDirectory.listContent o.respuesta o.mallocRespuesta username username2 messages).map
        fun r => (messages, r)

/-- The static data of `list.c`. -/
structure ListState where
  initedList : Bool
  messages : List Node
deriving DecidableEq

/-- The state the program starts in. -/
def ListState.empty : ListState := ⟨false, []⟩

def initList (st : ListState) : ListState :=
  if st.initedList then st else { initedList := true, messages := [] }

/-- The operation tests `inited_list`; `list_users` and `list_content` do not. -/
def Call.initialises : Call → Bool
  | .listUsers _ => false
  | .listContent _ _ => false
  | _ => true

/-- One call run alone. -/
def Call.perform (o : Outcomes) (c : Call) (st : ListState) : Option (ListState × Result) :=
  let st' := if c.initialises && !st.initedList then initList st else st
  (c.body o st'.messages).map fun r => ({ st' with messages := r.1 }, r.2)

end PeerDirectory
