import PeerDirectory.Lib.Locking
import PeerDirectory.Server.HeapList

/-!
# The functions of `list.c`, statement by statement

Every access of a statement to the static data or to a block is one step here, with
the calls to `pthread_mutex_lock` and `pthread_mutex_unlock` where they stand in the
source, so that threads can be stopped between any two of them. A section, run without
a stop, is the operation of `HeapList`. The strings that are passed do not change while
a call runs, and the response nodes of the listings are the thread's own, so they are
no data that is shared.
-/

namespace PeerDirectory

open Locking HeapStore

/-- Code on the static data and the blocks of `list.c`. -/
abbrev HeapCode := Prog HeapStore

/-- What the system answers to one call. The new blocks hold `userBlock` and
`fileBlock` before they are filled in. -/
structure CodeOutcomes where
  getpeername : Option InAddr
  malloc : Heap.Malloc ℕ Cell
  userBlock : UserCell
  fileBlock : FileCell
  respuesta : Bool
  mallocRespuesta : ℕ → Bool

/-- The same outcomes for an operation that runs in one piece. -/
def CodeOutcomes.outcomes (o : CodeOutcomes) : HeapOutcomes where
  getpeername := o.getpeername
  malloc := o.malloc
  block := ⟨o.userBlock.username, o.userBlock.ip, o.userBlock.port, []⟩
  respuesta := o.respuesta
  mallocRespuesta := o.mallocRespuesta

namespace HeapCode

/-! ## Statements -/

def loadInitedList : HeapCode Bool :=
  load fun s => some s.initedList

def storeInitedList (initedList : Bool) : HeapCode Unit :=
  store fun s => some { s with initedList := initedList }

def loadMessages : HeapCode (Option ℕ) :=
  load fun s => some s.messages

def storeMessages (messages : Option ℕ) : HeapCode Unit :=
  store fun s => some { s with messages := messages }

/-- A field of `*current` is read. -/
def loadUser (current : ℕ) : HeapCode UserCell :=
  load fun s => readUser s.heap current

/-- A field of `*current` is written. -/
def storeUser (current : ℕ) (f : UserCell → UserCell) : HeapCode Unit :=
  store fun s => do
    let user ← readUser s.heap current
    let heap ← Heap.store s.heap current (.user (f user))
    return { s with heap := heap }

def loadFile (fileCurrent : ℕ) : HeapCode FileCell :=
  load fun s => readFile s.heap fileCurrent

def storeFile (fileCurrent : ℕ) (f : FileCell → FileCell) : HeapCode Unit :=
  store fun s => do
    let file ← readFile s.heap fileCurrent
    let heap ← Heap.store s.heap fileCurrent (.file (f file))
    return { s with heap := heap }

def malloc (m : Heap.Malloc ℕ Cell) (block : Cell) : HeapCode (Option ℕ) :=
  act fun s =>
    match m.alloc s.heap with
    | none => some (none, s)
    | some a => some (some a, { s with heap := s.heap.insert a block })

def free (a : ℕ) : HeapCode Unit :=
  store fun s => (Heap.free s.heap a).map fun heap => { s with heap := heap }

/-! ## Loops -/

section Search

variable {γ : Type} (read : Heap.Mem ℕ Cell → ℕ → Option γ) (next : γ → Option ℕ)
  (found : γ → Bool)

/-- The loop that stops at the first cell that is `found`: one access for the
comparison, and one for the link. -/
def search : ℕ → Option ℕ → HeapCode (Option ℕ)
  | 0, _ => .fault
  | _ + 1, none => return none
  | turns + 1, some current => do
      let x ← load fun s => read s.heap current
      if found x then
        return some current
      else
        let x ← load fun s => read s.heap current
        search turns (next x)

/-- The same loop, which also keeps the address it comes from. -/
def searchPrevious : ℕ → Option ℕ → Option ℕ → HeapCode (Option (Option ℕ × ℕ))
  | 0, _, _ => .fault
  | _ + 1, _, none => return none
  | turns + 1, previous, some current => do
      let x ← load fun s => read s.heap current
      if found x then
        return some (previous, current)
      else
        let x ← load fun s => read s.heap current
        searchPrevious turns (some current) (next x)

end Search

/-- The loop that frees the files of a user. -/
def freeFiles : ℕ → Option ℕ → HeapCode Unit
  | 0, _ => .fault
  | _ + 1, none => return ()
  | turns + 1, some fileCurrent => do
      let file ← loadFile fileCurrent
      free fileCurrent
      freeFiles turns file.next

/-! ## Operations that change the store, behind the lock -/

/-- `previous->next = next`, or `messages = next` where there is no user in front. -/
def linkUser (previous next : Option ℕ) : HeapCode Unit :=
  match previous with
  | none => storeMessages next
  | some previous => storeUser previous fun user => { user with next := next }

/-- `file_previous->next = next`, or `current->list_files = next` where there is no
file in front. -/
def linkFile (current : ℕ) (previous next : Option ℕ) : HeapCode Unit :=
  match previous with
  | none => storeUser current fun user => { user with listFiles := next }
  | some filePrevious => storeFile filePrevious fun file => { file with next := next }

def registerUser (turns : ℕ) (o : CodeOutcomes) (username : Bytes) : HeapCode Int := do
  let current ← loadMessages
  match ← search readUser UserCell.next (hasName username) turns current with
  | some _ => unlockReturn 1
  | none =>
      match ← malloc o.malloc (.user o.userBlock) with
      | none => unlockReturn (-1)
      | some newNode => do
          storeUser newNode fun n =>
            { n with username := CharArray.strncpy maxValueLength username }
          storeUser newNode fun n => { n with ip := n.ip.set 0 0 }
          storeUser newNode fun n => { n with port := n.port.set 0 0 }
          storeUser newNode fun n => { n with listFiles := none }
          let messages ← loadMessages
          storeUser newNode fun n => { n with next := messages }
          storeMessages (some newNode)
          unlockReturn 0

def unregisterUser (turns : ℕ) (username : Bytes) : HeapCode Int := do
  let current ← loadMessages
  match ← searchPrevious readUser UserCell.next (hasName username) turns none current with
  | none => unlockReturn 1
  | some (previous, current) => do
      let user ← loadUser current
      linkUser previous user.next
      let user ← loadUser current
      freeFiles turns user.listFiles
      free current
      unlockReturn 0

def connectUser (turns : ℕ) (getpeername : Option InAddr) (port username : Bytes) :
    HeapCode Int := do
  let current ← loadMessages
  match ← search readUser UserCell.next (hasName username) turns current with
  | none => unlockReturn 1
  | some current => do
      let user ← loadUser current
      if user.connected then
        unlockReturn 2
      else
        match getpeername with
        | some addr => do
            storeUser current fun n =>
              { n with ip := CharArray.strncpy maxValueLength (inetNtoa addr) }
            storeUser current fun n => { n with port := CharArray.strncpy maxValueLength port }
            unlockReturn 0
        | none => unlockReturn 3

def disconnectUser (turns : ℕ) (username : Bytes) : HeapCode Int := do
  let current ← loadMessages
  match ← search readUser UserCell.next (hasName username) turns current with
  | none => unlockReturn 1
  | some current => do
      let user ← loadUser current
      if user.connected then do
        storeUser current fun n => { n with ip := n.ip.set 0 0 }
        storeUser current fun n => { n with port := n.port.set 0 0 }
        unlockReturn 0
      else
        unlockReturn 2

def registerFileFromUser (turns : ℕ) (o : CodeOutcomes) (username file description : Bytes) :
    HeapCode Int := do
  let current ← loadMessages
  match ← search readUser UserCell.next (hasName username) turns current with
  | none => unlockReturn 1
  | some current => do
      let user ← loadUser current
      if user.connected then do
        let user ← loadUser current
        match ← search readFile FileCell.next (hasFilename file) turns user.listFiles with
        | some _ => unlockReturn 3
        | none =>
            match ← malloc o.malloc (.file o.fileBlock) with
            | none => unlockReturn 4
            | some newFile => do
                storeFile newFile fun n =>
                  { n with filename := CharArray.strncpy maxValueLength file }
                storeFile newFile fun n =>
                  { n with description := CharArray.strncpy maxValueLength description }
                let user ← loadUser current
                storeFile newFile fun n => { n with next := user.listFiles }
                linkFile current none (some newFile)
                unlockReturn 0
      else
        unlockReturn 2

def unregisterFileFromUser (turns : ℕ) (username file : Bytes) : HeapCode Int := do
  let current ← loadMessages
  match ← search readUser UserCell.next (hasName username) turns current with
  | none => unlockReturn 1
  | some current => do
      let user ← loadUser current
      if user.connected then do
        let user ← loadUser current
        match ← searchPrevious readFile FileCell.next (hasFilename file) turns none
            user.listFiles with
        | none => unlockReturn 3
        | some (filePrevious, fileCurrent) => do
            let fields ← loadFile fileCurrent
            linkFile current filePrevious fields.next
            free fileCurrent
            unlockReturn 0
      else
        unlockReturn 2

/-! ## Operations that list, behind the lock -/

/-- The loop of `list_users` over `user_current`, as in `fillUsers`. -/
def fillUsers (malloc : ℕ → Bool) :
    ℕ → Bool → ℕ → Option ℕ → HeapCode (Chain UserFields × ℕ)
  | 0, _, _, _ => .fault
  | _ + 1, true, _, none => return (.node none .unset, 0)
  | _ + 1, false, _, none => return (.null, 0)
  | turns + 1, response, k, some userCurrent => do
      let user ← loadUser userCurrent
      if user.connected then
        match response with
        | false => .fault
        | true => do
            let username ← loadUser userCurrent
            let ip ← loadUser userCurrent
            let port ← loadUser userCurrent
            let fields : UserFields :=
              { username := CharArray.strncpy maxValueLength username.username.str
                ip := CharArray.strncpy maxValueLength ip.ip.str
                port := CharArray.strncpy maxValueLength port.port.str }
            let next ← loadUser userCurrent
            let user ← loadUser userCurrent
            match next.next with
            | none => return (.node (some fields) .null, 1)
            | some _ => do
                let r ← fillUsers malloc turns (malloc k) (k + 1) user.next
                return (.node (some fields) r.1, r.2 + 1)
      else do
        let user ← loadUser userCurrent
        fillUsers malloc turns response k user.next

/-- The loop of `list_content` over `file_current`, as in `fillContent`. -/
def fillContent (malloc : ℕ → Bool) : ℕ → Bool → ℕ → Option ℕ → HeapCode (Chain ContentFields)
  | 0, _, _, _ => .fault
  | _ + 1, _, _, none => return .null
  | turns + 1, response, k, some fileCurrent =>
      match response with
      | false => .fault
      | true => do
          let filename ← loadFile fileCurrent
          let description ← loadFile fileCurrent
          let fields : ContentFields :=
            { filename := CharArray.strncpy maxValueLength filename.filename.str
              description := CharArray.strncpy maxValueLength description.description.str }
          let next ← loadFile fileCurrent
          let file ← loadFile fileCurrent
          match next.next with
          | none => return .node (some fields) .null
          | some _ => do
              let r ← fillContent malloc turns (malloc k) (k + 1) file.next
              return .node (some fields) r

def listUsers (turns : ℕ) (respuesta : Bool) (malloc : ℕ → Bool) (username : Bytes) :
    HeapCode Result := do
  let current ← loadMessages
  match ← search readUser UserCell.next (hasName username) turns current with
  | none => unlockReturn (.code 1)
  | some current => do
      let user ← loadUser current
      if user.connected then do
        let userCurrent ← loadMessages
        let r ← fillUsers malloc turns respuesta 0 userCurrent
        unlockReturn (.users r.1 r.2)
      else
        unlockReturn (.code 2)

def listContent (turns : ℕ) (respuesta : Bool) (malloc : ℕ → Bool)
    (username username2 : Bytes) : HeapCode Result := do
  let current ← loadMessages
  match ← search readUser UserCell.next (hasName username) turns current with
  | none => unlockReturn (.code 1)
  | some current => do
      let user ← loadUser current
      if user.connected then do
        let current ← loadMessages
        match ← search readUser UserCell.next (hasName username2) turns current with
        | none => unlockReturn (.code 3)
        | some targetUser => do
            let target ← loadUser targetUser
            match target.listFiles with
            | none => unlockReturn (.content .null)
            | some _ => do
                let target ← loadUser targetUser
                let chain ← fillContent malloc turns respuesta 0 target.listFiles
                unlockReturn (.content chain)
      else
        unlockReturn (.code 2)

/-! ## Functions -/

/-- `init_list` -/
def initList : HeapCode Int := do
  lock
  let initedList ← loadInitedList
  if initedList then
    unlockReturn 0
  else do
    storeMessages none
    storeInitedList true
    unlockReturn 0

/-- The start of every operation except for the listings: `mutex` is taken, and
released around `init_list`. -/
def lockInited : HeapCode Unit := do
  lock
  let initedList ← loadInitedList
  if initedList then
    return ()
  else do
    unlock
    let _ ← initList
    lock

/-- What the function of a call does behind the lock. -/
def body (turns : ℕ) (o : CodeOutcomes) : Call → HeapCode Result
  | .registerUser username => Result.code <$> registerUser turns o username
  | .unregisterUser username => Result.code <$> unregisterUser turns username
  | .connectUser port username => Result.code <$> connectUser turns o.getpeername port username
  | .disconnectUser username => Result.code <$> disconnectUser turns username
  | .registerFileFromUser username file description =>
      Result.code <$> registerFileFromUser turns o username file description
  | .unregisterFileFromUser username file =>
      Result.code <$> unregisterFileFromUser turns username file
  | .listUsers username => listUsers turns o.respuesta o.mallocRespuesta username
  | .listContent username username2 =>
      listContent turns o.respuesta o.mallocRespuesta username username2

/-- The function of a call. -/
def call (turns : ℕ) (a : CodeOutcomes × Call) : HeapCode Result := do
  let _ ← if a.2.initialises then lockInited else lock
  body turns a.1 a.2

end HeapCode

end PeerDirectory
