import PeerDirectory.Server.ListFacts
import PeerDirectory.Lib.Mutex

/-!
# The functions of `list.c` with their mutex

`Server/List.lean` has what the operations do between taking `mutex` and
releasing it. Here every function is written with its `pthread_mutex_lock` and
`pthread_mutex_unlock`, one before each `return`, and with its accesses to
`messages` and the nodes. A loop keeps the nodes it has passed, so that a write
to a node is a write of the list. The operations compute `Call.perform` and come
back with `mutex` free; `destroy_list` does not come back when it has to
initialise the list, because `init_list` takes `mutex` again.
-/

namespace PeerDirectory

open Mutex

/-- Code on the static data of `list.c`. -/
abbrev ListCode := Mutex.Code ListState

/-- `messages = ...`, also where it is the `next` of a node that is written. -/
def writeMessages (messages : List Node) : ListCode Unit :=
  modify fun st => { st with messages := messages }

def writeInitedList (initedList : Bool) : ListCode Unit :=
  modify fun st => { st with initedList := initedList }

/-- `init_list` -/
def initListCode : ListCode Int := do
  lock
  let initedList ← read ListState.initedList
  if initedList then
    unlockReturn 0
  else do
    writeMessages []
    writeInitedList true
    unlockReturn 0

/-- The start of every operation except for the listings: `mutex` is taken, and
released around `init_list`. -/
def lockInited : ListCode Unit := do
  lock
  let initedList ← read ListState.initedList
  if initedList then
    pure ()
  else do
    unlock
    let _ ← initListCode
    lock

section Loops

variable {α β : Type} (key : α → Bytes) (k : Bytes)

/-- A loop over a list that looks for a node by its key. `found` gets the nodes
in front of the one that is found, this node and the ones behind it. -/
def searchLoop (found : List α → α → List α → ListCode β) (notFound : ListCode β) :
    List α → List α → ListCode β
  | _, [] => notFound
  | front, current :: next => do
      touch
      if key current = k then
        found front current next
      else
        searchLoop found notFound (front ++ [current]) next

end Loops

/-- The loop that frees the files of a user. -/
def freeFiles : List FileNode → ListCode Unit
  | [] => pure ()
  | _ :: fileNext => do
      touch
      freeFiles fileNext

/-- The loop of `destroy_list`. -/
def freeUsers : List Node → ListCode Unit
  | [] => pure ()
  | current :: next => do
      touch
      freeFiles current.listFiles
      touch
      freeUsers next

/-- `destroy_list` -/
def destroyListCode : ListCode Int := do
  lock
  let initedList ← read ListState.initedList
  let _ ← if initedList then pure 0 else initListCode
  let current ← read ListState.messages
  freeUsers current
  writeMessages []
  writeInitedList false
  unlockReturn 0

/-- `register_user`; the strings of the new node are written before it is in the
list. -/
def registerUserCode (malloc : Option Node) (username : Bytes) : ListCode Int := do
  lockInited
  let current ← read ListState.messages
  searchLoop Node.name username (fun _ _ _ => unlockReturn 1)
    (match malloc with
      | none => unlockReturn (-1)
      | some newNode => do
          touch
          let messages ← read ListState.messages
          writeMessages
            ({ newNode with
                username := CharArray.strncpy maxValueLength username
                ip := newNode.ip.set 0 0
                port := newNode.port.set 0 0
                listFiles := [] } :: messages)
          unlockReturn 0)
    [] current

/-- `unregister_user` -/
def unregisterUserCode (username : Bytes) : ListCode Int := do
  lockInited
  let current ← read ListState.messages
  searchLoop Node.name username
    (fun front current next => do
      writeMessages (front ++ next)
      freeFiles current.listFiles
      touch
      unlockReturn 0)
    (unlockReturn 1) [] current

/-- `connect_user` -/
def connectUserCode (getpeername : Option InAddr) (port username : Bytes) : ListCode Int := do
  lockInited
  let current ← read ListState.messages
  searchLoop Node.name username
    (fun front current next =>
      if current.connected then
        unlockReturn 2
      else
        match getpeername with
        | some addr => do
            writeMessages (front ++
              { current with
                ip := CharArray.strncpy maxValueLength (inetNtoa addr)
                port := CharArray.strncpy maxValueLength port } :: next)
            unlockReturn 0
        | none => unlockReturn 3)
    (unlockReturn 1) [] current

/-- `disconnect_user` -/
def disconnectUserCode (username : Bytes) : ListCode Int := do
  lockInited
  let current ← read ListState.messages
  searchLoop Node.name username
    (fun front current next =>
      if current.connected then do
        writeMessages (front ++
          { current with ip := current.ip.set 0 0, port := current.port.set 0 0 } :: next)
        unlockReturn 0
      else
        unlockReturn 2)
    (unlockReturn 1) [] current

/-- `register_file_from_user` -/
def registerFileFromUserCode (malloc : Bool) (username file description : Bytes) :
    ListCode Int := do
  lockInited
  let current ← read ListState.messages
  searchLoop Node.name username
    (fun front current next =>
      if current.connected then
        searchLoop FileNode.name file (fun _ _ _ => unlockReturn 3)
          (if malloc then do
            touch
            writeMessages (front ++
              { current with
                listFiles :=
                  { filename := CharArray.strncpy maxValueLength file
                    description := CharArray.strncpy maxValueLength description } ::
                    current.listFiles } :: next)
            unlockReturn 0
          else
            unlockReturn 4)
          [] current.listFiles
      else
        unlockReturn 2)
    (unlockReturn 1) [] current

/-- `unregister_file_from_user` -/
def unregisterFileFromUserCode (username file : Bytes) : ListCode Int := do
  lockInited
  let current ← read ListState.messages
  searchLoop Node.name username
    (fun front current next =>
      if current.connected then
        searchLoop FileNode.name file
          (fun fileFront _ fileNext => do
            writeMessages (front ++ { current with listFiles := fileFront ++ fileNext } :: next)
            touch
            unlockReturn 0)
          (unlockReturn 3) [] current.listFiles
      else
        unlockReturn 2)
    (unlockReturn 1) [] current

/-- The loop of `list_users` over `user_current`, as in `fillUsers`. -/
def fillUsersCode (malloc : ℕ → Bool) : Bool → ℕ → List Node → ListCode (Chain UserFields × ℕ)
  | true, _, [] => pure (.node none .unset, 0)
  | false, _, [] => pure (.null, 0)
  | response, k, user :: next => do
      touch
      if user.connected then
        match response with
        | false => null
        | true =>
            match next with
            | [] => pure (.node (some user.userFields) .null, 1)
            | _ :: _ => do
                let r ← fillUsersCode malloc (malloc k) (k + 1) next
                pure (.node (some user.userFields) r.1, r.2 + 1)
      else
        fillUsersCode malloc response k next

/-- The loop of `list_content` over `file_current`, as in `fillContent`. -/
def fillContentCode (malloc : ℕ → Bool) :
    Bool → ℕ → List FileNode → ListCode (Chain ContentFields)
  | _, _, [] => pure .null
  | false, _, _ :: _ => do
      touch
      null
  | true, k, file :: next => do
      touch
      match next with
      | [] => pure (.node (some file.contentFields) .null)
      | _ :: _ => do
          let r ← fillContentCode malloc (malloc k) (k + 1) next
          pure (.node (some file.contentFields) r)

/-- `list_users` -/
def listUsersCode (respuesta : Bool) (malloc : ℕ → Bool) (username : Bytes) :
    ListCode Result := do
  lock
  let current ← read ListState.messages
  searchLoop Node.name username
    (fun _ current _ =>
      if current.connected then do
        let userCurrent ← read ListState.messages
        let r ← fillUsersCode malloc respuesta 0 userCurrent
        unlockReturn (.users r.1 r.2)
      else
        unlockReturn (.code 2))
    (unlockReturn (.code 1)) [] current

/-- `list_content` -/
def listContentCode (respuesta : Bool) (malloc : ℕ → Bool) (username username2 : Bytes) :
    ListCode Result := do
  lock
  let current ← read ListState.messages
  searchLoop Node.name username
    (fun _ current _ =>
      if current.connected then do
        let current ← read ListState.messages
        searchLoop Node.name username2
          (fun _ targetUser _ => do
            touch
            match targetUser.listFiles with
            | [] => unlockReturn (.content .null)
            | file :: next => do
                let r ← fillContentCode malloc respuesta 0 (file :: next)
                unlockReturn (.content r))
          (unlockReturn (.code 3)) [] current
      else
        unlockReturn (.code 2))
    (unlockReturn (.code 1)) [] current

/-- The function of a call. -/
def Call.code (o : Outcomes) : Call → ListCode Result
  | .registerUser username => Result.code <$> registerUserCode o.mallocNode username
  | .unregisterUser username => Result.code <$> unregisterUserCode username
  | .connectUser port username => Result.code <$> connectUserCode o.getpeername port username
  | .disconnectUser username => Result.code <$> disconnectUserCode username
  | .registerFileFromUser username file description =>
      Result.code <$> registerFileFromUserCode o.mallocFile username file description
  | .unregisterFileFromUser username file =>
      Result.code <$> unregisterFileFromUserCode username file
  | .listUsers username => listUsersCode o.respuesta o.mallocRespuesta username
  | .listContent username username2 =>
      listContentCode o.respuesta o.mallocRespuesta username username2

/-- The functions of `list.c`. -/
inductive ListFunction where
  | initList
  | destroyList
  | call (c : Call)
deriving DecidableEq

def ListFunction.code (o : Outcomes) : ListFunction → ListCode Result
  | .initList => Result.code <$> initListCode
  | .destroyList => Result.code <$> destroyListCode
  | .call c => c.code o

/-! ## Run with the mutex held -/

@[simp] theorem writeMessages_bind_apply {α : Type} (messages : List Node)
    (next : Unit → ListCode α) (st : ListState) :
    (writeMessages messages >>= next) ⟨true, st⟩ =
      next () ⟨true, { st with messages := messages }⟩ := rfl

@[simp] theorem writeInitedList_bind_apply {α : Type} (initedList : Bool)
    (next : Unit → ListCode α) (st : ListState) :
    (writeInitedList initedList >>= next) ⟨true, st⟩ =
      next () ⟨true, { st with initedList := initedList }⟩ := rfl

theorem initListCode_apply (st : ListState) :
    initListCode ⟨false, st⟩ = .ok (0, ⟨false, initList st⟩) := by
  rw [initListCode, initList]
  cases h : st.initedList <;> simp [h]

/-- The operations that need a list find one. -/
theorem lockInited_bind_apply {α : Type} (next : Unit → ListCode α) (st : ListState) :
    (lockInited >>= next) ⟨false, st⟩ =
      next () ⟨true, if !st.initedList then initList st else st⟩ := by
  rw [lockInited]
  cases h : st.initedList with
  | false =>
      simp only [bind_bind_apply, lock_bind_apply, read_bind_apply, h, Bool.false_eq_true,
        if_false, unlock_bind_apply]
      rw [bind_of_ok _ (initListCode_apply st), lock_bind_apply]
      rfl
  | true =>
      simp only [bind_bind_apply, lock_bind_apply, read_bind_apply, h, if_true,
        pure_bind_apply]
      rfl

theorem freeFiles_bind_apply {α : Type} (files : List FileNode) (next : Unit → ListCode α)
    (st : ListState) : (freeFiles files >>= next) ⟨true, st⟩ = next () ⟨true, st⟩ := by
  induction files with
  | nil => rfl
  | cons file fileNext ih => rw [freeFiles, bind_bind_apply, touch_bind_apply, ih]

section Search

variable {α β : Type} {key : α → Bytes} {k : Bytes} {found : List α → α → List α → ListCode β}
  {notFound : ListCode β} {l : List α} {st : ListState}

/-- A search that does not find. -/
theorem searchLoop_of_lookup_eq_none (h : KeyedList.lookup key k l = none) (front : List α) :
    searchLoop key k found notFound front l ⟨true, st⟩ = notFound ⟨true, st⟩ := by
  induction l generalizing front with
  | nil => rfl
  | cons a l ih =>
      rw [KeyedList.lookup_cons] at h
      split at h
      · cases h
      · next hne =>
          rw [searchLoop, touch_bind_apply, if_neg hne]
          exact ih h _

/-- A search that finds. -/
theorem searchLoop_middle {pre post : List α} {a : α} (hpre : ∀ b ∈ pre, key b ≠ k)
    (ha : key a = k) (front : List α) :
    searchLoop key k found notFound front (pre ++ a :: post) ⟨true, st⟩ =
      found (front ++ pre) a post ⟨true, st⟩ := by
  induction pre generalizing front with
  | nil => rw [List.nil_append, searchLoop, touch_bind_apply, if_pos ha, List.append_nil]
  | cons b pre ih =>
      obtain ⟨hb, hpre⟩ := List.forall_mem_cons.mp hpre
      rw [List.cons_append, searchLoop, touch_bind_apply, if_neg hb, ih hpre, List.append_assoc]
      rfl

end Search

/-! ## The operations -/

/-- The list an operation works on. -/
def ListState.inited (st : ListState) : ListState :=
  if !st.initedList then initList st else st

/-- An operation whose search loop rewrites or unlinks what it finds, as `body`
says, and then returns. -/
theorem visitCode_apply {body : Node → Option Node × Int} {notFound : Int}
    {found : List Node → Node → List Node → ListCode Int} (username : Bytes) (st : ListState)
    (hfound : ∀ front current next st, st.messages = front ++ current :: next →
      found front current next ⟨true, st⟩ =
        .ok ((body current).2,
          ⟨false, { st with messages := front ++ ((body current).1.toList ++ next) }⟩)) :
    (lockInited >>= fun _ => read ListState.messages >>= fun current =>
        searchLoop Node.name username found (unlockReturn notFound) [] current) ⟨false, st⟩ =
      .ok ((KeyedList.visit Node.name username body notFound st.inited.messages).2,
        ⟨false, { st.inited with
          messages :=
            (KeyedList.visit Node.name username body notFound st.inited.messages).1 }⟩) := by
  rw [lockInited_bind_apply, read_bind_apply, ← ListState.inited]
  generalize st.inited = st
  cases hlookup : KeyedList.lookup Node.name username st.messages with
  | none =>
      rw [searchLoop_of_lookup_eq_none hlookup, KeyedList.visit_of_lookup_eq_none hlookup]
      rfl
  | some current =>
      obtain ⟨front, next, hl, hfront, hname⟩ := KeyedList.exists_append_of_lookup hlookup
      rw [hl, searchLoop_middle hfront hname, List.nil_append, hfound front current next st hl,
        KeyedList.visit_middle hfront hname]

theorem unregisterUserCode_apply (username : Bytes) (st : ListState) :
    unregisterUserCode username ⟨false, st⟩ =
      .ok ((unregisterUser username st.inited.messages).2,
        ⟨false, { st.inited with
          messages := (unregisterUser username st.inited.messages).1 }⟩) := by
  refine visitCode_apply username st fun front current next st hl => ?_
  rw [writeMessages_bind_apply, freeFiles_bind_apply, touch_bind_apply]
  rfl

theorem connectUserCode_apply (getpeername : Option InAddr) (port username : Bytes)
    (st : ListState) :
    connectUserCode getpeername port username ⟨false, st⟩ =
      .ok ((connectUser getpeername port username st.inited.messages).2,
        ⟨false, { st.inited with
          messages := (connectUser getpeername port username st.inited.messages).1 }⟩) := by
  refine visitCode_apply username st fun front current next st hl => ?_
  unfold connectNode
  split
  · simp [← hl]
  · cases getpeername with
    | some addr => rfl
    | none => simp [← hl]

theorem disconnectUserCode_apply (username : Bytes) (st : ListState) :
    disconnectUserCode username ⟨false, st⟩ =
      .ok ((disconnectUser username st.inited.messages).2,
        ⟨false, { st.inited with
          messages := (disconnectUser username st.inited.messages).1 }⟩) := by
  refine visitCode_apply username st fun front current next st hl => ?_
  unfold disconnectNode
  split
  · rfl
  · simp [← hl]

theorem registerFileFromUserCode_apply (malloc : Bool) (username file description : Bytes)
    (st : ListState) :
    registerFileFromUserCode malloc username file description ⟨false, st⟩ =
      .ok ((registerFileFromUser malloc username file description st.inited.messages).2,
        ⟨false, { st.inited with
          messages :=
            (registerFileFromUser malloc username file description st.inited.messages).1 }⟩) := by
  refine visitCode_apply username st fun front current next st hl => ?_
  unfold registerFileNode
  split
  · cases hlookup : KeyedList.lookup FileNode.name file current.listFiles with
    | some fileCurrent =>
        obtain ⟨fileFront, fileNext, hfiles, hfront, hname⟩ :=
          KeyedList.exists_append_of_lookup hlookup
        conv_lhs => rw [hfiles, searchLoop_middle hfront hname]
        simp [← hl]
    | none =>
        rw [searchLoop_of_lookup_eq_none hlookup]
        cases malloc with
        | true => rfl
        | false => simp [← hl]
  · simp [← hl]

theorem unregisterFileFromUserCode_apply (username file : Bytes) (st : ListState) :
    unregisterFileFromUserCode username file ⟨false, st⟩ =
      .ok ((unregisterFileFromUser username file st.inited.messages).2,
        ⟨false, { st.inited with
          messages := (unregisterFileFromUser username file st.inited.messages).1 }⟩) := by
  refine visitCode_apply username st fun front current next st hl => ?_
  unfold unregisterFileNode
  split
  · cases hlookup : KeyedList.lookup FileNode.name file current.listFiles with
    | some fileCurrent =>
        obtain ⟨fileFront, fileNext, hfiles, hfront, hname⟩ :=
          KeyedList.exists_append_of_lookup hlookup
        rw [hfiles, searchLoop_middle hfront hname, KeyedList.visit_middle hfront hname]
        rfl
    | none =>
        rw [searchLoop_of_lookup_eq_none hlookup, KeyedList.visit_of_lookup_eq_none hlookup]
        simp [← hl]
  · simp [← hl]

theorem registerUserCode_apply (malloc : Option Node) (username : Bytes) (st : ListState) :
    registerUserCode malloc username ⟨false, st⟩ =
      .ok ((registerUser malloc username st.inited.messages).2,
        ⟨false, { st.inited with
          messages := (registerUser malloc username st.inited.messages).1 }⟩) := by
  unfold registerUserCode registerUser
  rw [lockInited_bind_apply, read_bind_apply, ← ListState.inited]
  generalize st.inited = st
  cases hlookup : KeyedList.lookup Node.name username st.messages with
  | some current =>
      obtain ⟨front, next, hl, hfront, hname⟩ := KeyedList.exists_append_of_lookup hlookup
      conv_lhs => rw [hl, searchLoop_middle hfront hname]
      rfl
  | none =>
      rw [searchLoop_of_lookup_eq_none hlookup]
      cases malloc <;> rfl

/-- The loop of `list_users` is `fillUsers`, and goes wrong where this does. -/
theorem fillUsersCode_apply (malloc : ℕ → Bool) (response : Bool) (k : ℕ) (messages : List Node)
    (st : ListState) :
    fillUsersCode malloc response k messages ⟨true, st⟩ =
      match fillUsers malloc response k messages with
      | some r => .ok (r, ⟨true, st⟩)
      | none => .error .nullPointer := by
  induction messages generalizing response k with
  | nil => cases response <;> rfl
  | cons user next ih =>
      rw [fillUsersCode.eq_def, fillUsers.eq_def]
      simp only [touch_bind_apply]
      cases user.connected with
      | false => exact ih response k
      | true =>
          cases response with
          | false => rfl
          | true =>
              cases next with
              | nil => rfl
              | cons user' next =>
                  simp only [if_true]
                  rw [bind_apply, ih]
                  cases fillUsers malloc (malloc k) (k + 1) (user' :: next) <;> rfl

/-- The loop of `list_content` is `fillContent`. -/
theorem fillContentCode_apply (malloc : ℕ → Bool) (response : Bool) (k : ℕ)
    (files : List FileNode) (st : ListState) :
    fillContentCode malloc response k files ⟨true, st⟩ =
      match fillContent malloc response k files with
      | some r => .ok (r, ⟨true, st⟩)
      | none => .error .nullPointer := by
  induction files generalizing response k with
  | nil => cases response <;> rfl
  | cons file next ih =>
      cases response with
      | false => rfl
      | true =>
          cases next with
          | nil => rfl
          | cons file' next =>
              rw [fillContentCode.eq_def, fillContent.eq_def]
              simp only [touch_bind_apply]
              rw [bind_apply, ih]
              cases fillContent malloc (malloc k) (k + 1) (file' :: next) <;> rfl

theorem listUsersCode_apply (respuesta : Bool) (malloc : ℕ → Bool) (username : Bytes)
    (st : ListState) :
    listUsersCode respuesta malloc username ⟨false, st⟩ =
      match listUsers respuesta malloc username st.messages with
      | some r => .ok (r, ⟨false, st⟩)
      | none => .error .nullPointer := by
  unfold listUsersCode listUsers
  rw [lock_bind_apply, read_bind_apply]
  cases hlookup : KeyedList.lookup Node.name username st.messages with
  | none =>
      rw [searchLoop_of_lookup_eq_none hlookup]
      rfl
  | some current =>
      obtain ⟨front, next, hl, hfront, hname⟩ := KeyedList.exists_append_of_lookup hlookup
      conv_lhs => rw [hl, searchLoop_middle hfront hname]
      dsimp only
      cases current.connected with
      | false => rfl
      | true =>
          simp only [if_true, read_bind_apply]
          rw [bind_apply, fillUsersCode_apply]
          cases fillUsers malloc respuesta 0 st.messages <;> rfl

theorem listContentCode_apply (respuesta : Bool) (malloc : ℕ → Bool)
    (username username2 : Bytes) (st : ListState) :
    listContentCode respuesta malloc username username2 ⟨false, st⟩ =
      match listContent respuesta malloc username username2 st.messages with
      | some r => .ok (r, ⟨false, st⟩)
      | none => .error .nullPointer := by
  unfold listContentCode listContent
  rw [lock_bind_apply, read_bind_apply]
  cases hlookup : KeyedList.lookup Node.name username st.messages with
  | none =>
      rw [searchLoop_of_lookup_eq_none hlookup]
      rfl
  | some current =>
      obtain ⟨front, next, hl, hfront, hname⟩ := KeyedList.exists_append_of_lookup hlookup
      conv_lhs => rw [hl, searchLoop_middle hfront hname]
      dsimp only
      cases current.connected with
      | false => rfl
      | true =>
          simp only [if_true, read_bind_apply]
          cases htarget : KeyedList.lookup Node.name username2 st.messages with
          | none =>
              rw [searchLoop_of_lookup_eq_none htarget]
              rfl
          | some targetUser =>
              obtain ⟨front, next, hl, hfront, hname⟩ :=
                KeyedList.exists_append_of_lookup htarget
              conv_lhs => rw [hl, searchLoop_middle hfront hname]
              rw [touch_bind_apply]
              dsimp only
              cases hfiles : targetUser.listFiles with
              | nil => rfl
              | cons file next =>
                  simp only
                  rw [bind_apply, fillContentCode_apply]
                  cases fillContent malloc respuesta 0 (file :: next) <;> rfl

/-- Every operation computes what it does in one piece, and comes back with the
mutex free, unless it goes through a null pointer. -/
theorem Call.code_apply (o : Outcomes) (c : Call) (st : ListState) :
    c.code o ⟨false, st⟩ =
      match c.perform o st with
      | some (st', r) => .ok (r, ⟨false, st'⟩)
      | none => .error .nullPointer := by
  cases c with
  | registerUser username => exact map_of_ok _ (registerUserCode_apply _ username st)
  | unregisterUser username => exact map_of_ok _ (unregisterUserCode_apply username st)
  | connectUser port username => exact map_of_ok _ (connectUserCode_apply _ port username st)
  | disconnectUser username => exact map_of_ok _ (disconnectUserCode_apply username st)
  | registerFileFromUser username file description =>
      exact map_of_ok _ (registerFileFromUserCode_apply _ username file description st)
  | unregisterFileFromUser username file =>
      exact map_of_ok _ (unregisterFileFromUserCode_apply username file st)
  | listUsers username =>
      simp only [code, listUsersCode_apply, perform, body, initialises, Bool.false_and,
        Bool.false_eq_true, if_false]
      cases PeerDirectory.listUsers o.respuesta o.mallocRespuesta username st.messages <;> rfl
  | listContent username username2 =>
      simp only [code, listContentCode_apply, perform, body, initialises, Bool.false_and,
        Bool.false_eq_true, if_false]
      cases PeerDirectory.listContent o.respuesta o.mallocRespuesta username username2
        st.messages <;> rfl

/-! ## The discipline -/

theorem freeUsers_bind_apply {α : Type} (messages : List Node) (next : Unit → ListCode α)
    (st : ListState) : (freeUsers messages >>= next) ⟨true, st⟩ = next () ⟨true, st⟩ := by
  induction messages with
  | nil => rfl
  | cons current messages ih =>
      simp only [freeUsers, bind_bind_apply, touch_bind_apply, freeFiles_bind_apply, ih]

/-- A list that has been initialised is destroyed. -/
theorem destroyListCode_of_inited {st : ListState} (h : st.initedList = true) :
    destroyListCode ⟨false, st⟩ = .ok (0, ⟨false, .empty⟩) := by
  simp only [destroyListCode, lock_bind_apply, read_bind_apply, h, if_true, pure_bind_apply,
    freeUsers_bind_apply, writeMessages_bind_apply, writeInitedList_bind_apply,
    unlockReturn_apply]
  rfl

/-- `init_list` waits for the mutex that `destroy_list` holds. -/
theorem destroyListCode_of_not_inited {st : ListState} (h : st.initedList = false) :
    destroyListCode ⟨false, st⟩ = .error .deadlock := by
  rw [destroyListCode, lock_bind_apply, read_bind_apply, h, if_neg Bool.false_ne_true,
    initListCode, bind_bind_apply, lock_bind_held]

theorem Call.disciplined_code (o : Outcomes) (c : Call) (st : ListState) :
    Disciplined (c.code o) st := by
  have happly := c.code_apply o st
  cases hperform : c.perform o st with
  | some r =>
      rw [hperform] at happly
      exact disciplined_of_ok happly
  | none =>
      rw [hperform] at happly
      exact disciplined_of_null happly

/-- The functions of `list.c` keep the discipline of the mutex in every case but
one: `destroy_list` on a list that has not been initialised. -/
theorem ListFunction.disciplined_iff (o : Outcomes) (f : ListFunction) (st : ListState) :
    Disciplined (f.code o) st ↔ ¬ (f = .destroyList ∧ st.initedList = false) := by
  cases f with
  | initList =>
      refine iff_of_true ?_ (by simp)
      exact disciplined_of_ok (map_of_ok Result.code (initListCode_apply st))
  | call c => exact iff_of_true (c.disciplined_code o st) (by simp)
  | destroyList =>
      cases h : st.initedList with
      | true =>
          refine iff_of_true ?_ (by simp)
          exact disciplined_of_ok (map_of_ok Result.code (destroyListCode_of_inited h))
      | false =>
          refine iff_of_false (not_disciplined_of_deadlock ?_) (by simp)
          rw [ListFunction.code, map_apply, destroyListCode_of_not_inited h]

/-- The list is destroyed before it is used. -/
theorem ListFunction.not_disciplined_empty :
    ¬ Disciplined (ListFunction.destroyList.code (Outcomes.success ⟨10, 0, 0, 1⟩)) .empty :=
  not_disciplined_of_deadlock rfl

end PeerDirectory
