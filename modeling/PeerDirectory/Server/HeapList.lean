import PeerDirectory.Lib.Heap
import PeerDirectory.Server.List

/-!
# The directory of `list.c` in the heap

Here the nodes of the directory are cells of a heap and the `next` and
`list_files` pointers are addresses. Every loop has a bound `turns` on its
turns. An operation gives `none` where the code would read, write or free a
block that is not live, write through a null pointer, or reach the bound. The
response nodes of the two listings are no nodes of the store: they are built as
in `Chain`.
-/

namespace PeerDirectory

/-! ## Cells -/

/-- The fields of a `node_t` in the heap. -/
structure UserCell where
  username : CharArray maxValueLength
  ip : CharArray maxValueLength
  port : CharArray maxValueLength
  listFiles : Option ℕ
  next : Option ℕ
deriving DecidableEq

/-- The fields of a `filelist_t` in the heap. -/
structure FileCell where
  filename : CharArray maxValueLength
  description : CharArray maxValueLength
  next : Option ℕ
deriving DecidableEq

/-- A block of the store. -/
inductive Cell where
  | user (fields : UserCell)
  | file (fields : FileCell)
deriving DecidableEq

/-- The block as a `node_t`. -/
def Cell.asUser : Cell → Option UserCell
  | .user fields => some fields
  | .file _ => none

/-- The block as a `filelist_t`. -/
def Cell.asFile : Cell → Option FileCell
  | .user _ => none
  | .file fields => some fields

/-- `strlen(current->ip) > 0`. -/
def UserCell.connected (current : UserCell) : Bool :=
  0 < current.ip.str.length

/-- The store: the static data of `list.c` and the live blocks. -/
structure HeapStore where
  initedList : Bool
  messages : Option ℕ
  heap : Heap.Mem ℕ Cell

/-- The state the program starts in. -/
def HeapStore.empty : HeapStore := ⟨false, none, ∅⟩

/-- What the system answers to one call. `block` is what the new `node_t` holds
before it is filled in. -/
structure HeapOutcomes where
  getpeername : Option InAddr
  malloc : Heap.Malloc ℕ Cell
  block : Node
  respuesta : Bool
  mallocRespuesta : ℕ → Bool

/-- The response nodes of the two listings are allocated. -/
def HeapOutcomes.Allocated (o : HeapOutcomes) : Prop :=
  o.respuesta = true ∧ ∀ k, o.mallocRespuesta k = true

namespace HeapStore

/-- `*current` for a pointer to a user. -/
def readUser (heap : Heap.Mem ℕ Cell) (current : ℕ) : Option UserCell :=
  (heap.lookup current).bind Cell.asUser

/-- `*file_current` for a pointer to a file. -/
def readFile (heap : Heap.Mem ℕ Cell) (fileCurrent : ℕ) : Option FileCell :=
  (heap.lookup fileCurrent).bind Cell.asFile

/-- `strcmp(current->username, username) == 0` -/
def hasName (username : Bytes) (current : UserCell) : Bool :=
  current.username.str = username

/-- `strcmp(file_current->filename, file) == 0` -/
def hasFilename (file : Bytes) (fileCurrent : FileCell) : Bool :=
  fileCurrent.filename.str = file

/-- The search loop for a user. -/
def searchUser (turns : ℕ) (username : Bytes) (s : HeapStore) : Option (Option ℕ) :=
  Heap.search (readUser s.heap) UserCell.next (hasName username) turns s.messages

/-! ## Operations that change the store -/

/-- `current->next = next`, or `messages = next` where there is no user in
front. -/
def linkUser (previous next : Option ℕ) (s : HeapStore) : Option HeapStore :=
  match previous with
  | none => some { s with messages := next }
  | some current => do
      let user ← readUser s.heap current
      let heap ← Heap.store s.heap current (.user { user with next := next })
      return { s with heap := heap }

/-- `file_previous->next = next`, or `current->list_files = next` where there is
no file in front. -/
def linkFile (current : ℕ) (previous next : Option ℕ) (heap : Heap.Mem ℕ Cell) :
    Option (Heap.Mem ℕ Cell) :=
  match previous with
  | none => do
      let user ← readUser heap current
      Heap.store heap current (.user { user with listFiles := next })
  | some filePrevious => do
      let file ← readFile heap filePrevious
      Heap.store heap filePrevious (.file { file with next := next })

def registerUser (turns : ℕ) (o : HeapOutcomes) (username : Bytes) (s : HeapStore) :
    Option (HeapStore × Int) := do
  match ← searchUser turns username s with
  | some _ => return (s, 1)
  | none =>
      match o.malloc.alloc s.heap with
      | none => return (s, -1)
      | some newNode =>
          let fields : UserCell :=
            { username := CharArray.strncpy maxValueLength username
              ip := o.block.ip.set 0 0
              port := o.block.port.set 0 0
              listFiles := none
              next := s.messages }
          return ({ s with
            heap := s.heap.insert newNode (.user fields)
            messages := some newNode }, 0)

def unregisterUser (turns : ℕ) (username : Bytes) (s : HeapStore) :
    Option (HeapStore × Int) := do
  match ← Heap.searchPrevious (readUser s.heap) UserCell.next (hasName username) turns none
      s.messages with
  | none => return (s, 1)
  | some (previous, current) =>
      let user ← readUser s.heap current
      let s ← linkUser previous user.next s
      let user ← readUser s.heap current
      let heap ← Heap.freeChain FileCell.next Cell.asFile turns s.heap user.listFiles
      let heap ← Heap.free heap current
      return ({ s with heap := heap }, 0)

def connectUser (turns : ℕ) (getpeername : Option InAddr) (port username : Bytes)
    (s : HeapStore) : Option (HeapStore × Int) := do
  match ← searchUser turns username s with
  | none => return (s, 1)
  | some current =>
      let user ← readUser s.heap current
      if user.connected then
        return (s, 2)
      else
        match getpeername with
        | some addr =>
            let heap ← Heap.store s.heap current (.user { user with
              ip := CharArray.strncpy maxValueLength (inetNtoa addr)
              port := CharArray.strncpy maxValueLength port })
            return ({ s with heap := heap }, 0)
        | none => return (s, 3)

def disconnectUser (turns : ℕ) (username : Bytes) (s : HeapStore) :
    Option (HeapStore × Int) := do
  match ← searchUser turns username s with
  | none => return (s, 1)
  | some current =>
      let user ← readUser s.heap current
      if user.connected then
        let heap ← Heap.store s.heap current (.user { user with
          ip := user.ip.set 0 0
          port := user.port.set 0 0 })
        return ({ s with heap := heap }, 0)
      else
        return (s, 2)

def registerFileFromUser (turns : ℕ) (o : HeapOutcomes) (username file description : Bytes)
    (s : HeapStore) : Option (HeapStore × Int) := do
  match ← searchUser turns username s with
  | none => return (s, 1)
  | some current =>
      let user ← readUser s.heap current
      if user.connected then
        match ← Heap.search (readFile s.heap) FileCell.next (hasFilename file) turns
            user.listFiles with
        | some _ => return (s, 3)
        | none =>
            match o.malloc.alloc s.heap with
            | none => return (s, 4)
            | some newFile =>
                let fields : FileCell :=
                  { filename := CharArray.strncpy maxValueLength file
                    description := CharArray.strncpy maxValueLength description
                    next := user.listFiles }
                let heap ← linkFile current none (some newFile)
                  (s.heap.insert newFile (.file fields))
                return ({ s with heap := heap }, 0)
      else
        return (s, 2)

def unregisterFileFromUser (turns : ℕ) (username file : Bytes) (s : HeapStore) :
    Option (HeapStore × Int) := do
  match ← searchUser turns username s with
  | none => return (s, 1)
  | some current =>
      let user ← readUser s.heap current
      if user.connected then
        match ← Heap.searchPrevious (readFile s.heap) FileCell.next (hasFilename file) turns none
            user.listFiles with
        | none => return (s, 3)
        | some (filePrevious, fileCurrent) =>
            let fields ← readFile s.heap fileCurrent
            let heap ← linkFile current filePrevious fields.next s.heap
            let heap ← Heap.free heap fileCurrent
            return ({ s with heap := heap }, 0)
      else
        return (s, 2)

/-! ## Operations that list -/

/-- The three `strncpy` of `list_users`. -/
def userFields (user : UserCell) : UserFields where
  username := CharArray.strncpy maxValueLength user.username.str
  ip := CharArray.strncpy maxValueLength user.ip.str
  port := CharArray.strncpy maxValueLength user.port.str

/-- The two `strncpy` of `list_content`. -/
def contentFields (file : FileCell) : ContentFields where
  filename := CharArray.strncpy maxValueLength file.filename.str
  description := CharArray.strncpy maxValueLength file.description.str

/-- The loop of `list_users` over `user_current`. -/
def fillUsers (heap : Heap.Mem ℕ Cell) (malloc : ℕ → Bool) :
    ℕ → Bool → ℕ → Option ℕ → Option (Chain UserFields × ℕ)
  | 0, _, _, _ => none
  | _ + 1, true, _, none => some (.node none .unset, 0)
  | _ + 1, false, _, none => some (.null, 0)
  | turns + 1, response, k, some userCurrent => do
      let user ← readUser heap userCurrent
      if user.connected then
        match response, user.next with
        | false, _ => none
        | true, none => return (.node (some (userFields user)) .null, 1)
        | true, some next =>
            let r ← fillUsers heap malloc turns (malloc k) (k + 1) (some next)
            return (.node (some (userFields user)) r.1, r.2 + 1)
      else
        fillUsers heap malloc turns response k user.next

/-- The loop of `list_content` over `file_current`. -/
def fillContent (heap : Heap.Mem ℕ Cell) (malloc : ℕ → Bool) :
    ℕ → Bool → ℕ → Option ℕ → Option (Chain ContentFields)
  | 0, _, _, _ => none
  | _ + 1, _, _, none => some .null
  | turns + 1, response, k, some fileCurrent => do
      let file ← readFile heap fileCurrent
      match response, file.next with
      | false, _ => none
      | true, none => return .node (some (contentFields file)) .null
      | true, some next =>
          let r ← fillContent heap malloc turns (malloc k) (k + 1) (some next)
          return .node (some (contentFields file)) r

def listUsers (turns : ℕ) (respuesta : Bool) (malloc : ℕ → Bool) (username : Bytes)
    (s : HeapStore) : Option Result := do
  match ← searchUser turns username s with
  | none => return .code 1
  | some current =>
      let user ← readUser s.heap current
      if user.connected then
        let r ← fillUsers s.heap malloc turns respuesta 0 s.messages
        return .users r.1 r.2
      else
        return .code 2

def listContent (turns : ℕ) (respuesta : Bool) (malloc : ℕ → Bool)
    (username username2 : Bytes) (s : HeapStore) : Option Result := do
  match ← searchUser turns username s with
  | none => return .code 1
  | some current =>
      let user ← readUser s.heap current
      if user.connected then
        match ← searchUser turns username2 s with
        | none => return .code 3
        | some targetUser =>
            let target ← readUser s.heap targetUser
            match target.listFiles with
            | none => return .content .null
            | some fileCurrent =>
                let chain ← fillContent s.heap malloc turns respuesta 0 (some fileCurrent)
                return .content chain
      else
        return .code 2

/-! ## Calls -/

def initList (s : HeapStore) : HeapStore :=
  if s.initedList then s else { s with initedList := true, messages := none }

/-- The critical section of the call. -/
def body (turns : ℕ) (o : HeapOutcomes) (s : HeapStore) : Call → Option (HeapStore × Result)
  | .registerUser username =>
      (registerUser turns o username s).map fun r => (r.1, .code r.2)
  | .unregisterUser username =>
      (unregisterUser turns username s).map fun r => (r.1, .code r.2)
  | .connectUser port username =>
      (connectUser turns o.getpeername port username s).map fun r => (r.1, .code r.2)
  | .disconnectUser username =>
      (disconnectUser turns username s).map fun r => (r.1, .code r.2)
  | .registerFileFromUser username file description =>
      (registerFileFromUser turns o username file description s).map fun r => (r.1, .code r.2)
  | .unregisterFileFromUser username file =>
      (unregisterFileFromUser turns username file s).map fun r => (r.1, .code r.2)
  | .listUsers username =>
      (listUsers turns o.respuesta o.mallocRespuesta username s).map fun r => (s, r)
  | .listContent username username2 =>
      (listContent turns o.respuesta o.mallocRespuesta username username2 s).map fun r => (s, r)

/-- One call run alone. -/
def perform (turns : ℕ) (s : HeapStore) (a : HeapOutcomes × Call) :
    Option (HeapStore × Result) :=
  body turns a.1 (if a.2.initialises && !s.initedList then initList s else s) a.2

end HeapStore

end PeerDirectory
