import PeerDirectory.Server.HeapCode
import PeerDirectory.Server.HeapRuns

/-!
# The sections of `list.c`

What a function of `list.c` does behind its lock, when nothing interrupts it, is the
operation of `HeapList`, whatever the store is: it leaves the same store and comes to
the same result, or it touches a block that is not live where the operation does. It
also takes no more steps than the loops have turns.
-/

namespace PeerDirectory

open Locking HeapStore

namespace HeapCode

/-! ## Run with the mutex held -/

section Statements

variable {α : Type} (s : HeapStore)

@[simp] theorem critical_loadInitedList_bind (k : Bool → HeapCode α) :
    (loadInitedList >>= k).critical s = (k s.initedList).critical s :=
  critical_load_bind k s _

@[simp] theorem critical_storeInitedList_bind (initedList : Bool) (k : Unit → HeapCode α) :
    (storeInitedList initedList >>= k).critical s =
      (k ()).critical { s with initedList := initedList } :=
  critical_store_bind s _ k

@[simp] theorem critical_loadMessages_bind (k : Option ℕ → HeapCode α) :
    (loadMessages >>= k).critical s = (k s.messages).critical s :=
  critical_load_bind k s _

@[simp] theorem critical_storeMessages_bind (messages : Option ℕ) (k : Unit → HeapCode α) :
    (storeMessages messages >>= k).critical s =
      (k ()).critical { s with messages := messages } :=
  critical_store_bind s _ k

@[simp] theorem critical_loadUser_bind (current : ℕ) (k : UserCell → HeapCode α) :
    (loadUser current >>= k).critical s =
      (readUser s.heap current).bind fun user => (k user).critical s :=
  critical_load_bind k s _

@[simp] theorem critical_storeUser_bind (current : ℕ) (f : UserCell → UserCell)
    (k : Unit → HeapCode α) :
    (storeUser current f >>= k).critical s =
      (readUser s.heap current).bind fun user =>
        (Heap.store s.heap current (.user (f user))).bind fun heap =>
          (k ()).critical { s with heap := heap } := by
  rw [storeUser, critical_store_bind]
  cases readUser s.heap current with
  | none => rfl
  | some user => cases h : Heap.store s.heap current (.user (f user)) <;> simp [h]

@[simp] theorem critical_loadFile_bind (fileCurrent : ℕ) (k : FileCell → HeapCode α) :
    (loadFile fileCurrent >>= k).critical s =
      (readFile s.heap fileCurrent).bind fun file => (k file).critical s :=
  critical_load_bind k s _

@[simp] theorem critical_storeFile_bind (fileCurrent : ℕ) (f : FileCell → FileCell)
    (k : Unit → HeapCode α) :
    (storeFile fileCurrent f >>= k).critical s =
      (readFile s.heap fileCurrent).bind fun file =>
        (Heap.store s.heap fileCurrent (.file (f file))).bind fun heap =>
          (k ()).critical { s with heap := heap } := by
  rw [storeFile, critical_store_bind]
  cases readFile s.heap fileCurrent with
  | none => rfl
  | some file => cases h : Heap.store s.heap fileCurrent (.file (f file)) <;> simp [h]

@[simp] theorem critical_malloc_bind (m : Heap.Malloc ℕ Cell) (block : Cell)
    (k : Option ℕ → HeapCode α) :
    (malloc m block >>= k).critical s =
      match m.alloc s.heap with
      | none => (k none).critical s
      | some a => (k (some a)).critical { s with heap := s.heap.insert a block } := by
  rw [malloc, critical_act_bind]
  cases m.alloc s.heap <;> rfl

@[simp] theorem critical_free_bind (a : ℕ) (k : Unit → HeapCode α) :
    (free a >>= k).critical s =
      (Heap.free s.heap a).bind fun heap => (k ()).critical { s with heap := heap } := by
  rw [free, critical_store_bind, Option.bind_map]
  rfl

end Statements

section Loops

variable {α γ : Type} {read : Heap.Mem ℕ Cell → ℕ → Option γ} {next : γ → Option ℕ}
  {found : γ → Bool} (turns : ℕ) (s : HeapStore)

@[simp] theorem critical_search_bind (p : Option ℕ) (k : Option ℕ → HeapCode α) :
    (search read next found turns p >>= k).critical s =
      (Heap.search (read s.heap) next found turns p).bind fun r => (k r).critical s := by
  induction turns generalizing p with
  | zero => rfl
  | succ turns ih =>
      cases p with
      | none => rfl
      | some current =>
          simp only [search, Heap.search, bind_assoc, critical_load_bind]
          cases hread : read s.heap current with
          | none => rfl
          | some x =>
              simp only [Option.bind_some]
              split
              · rfl
              · simp [hread, ih]

@[simp] theorem critical_searchPrevious_bind (previous p : Option ℕ)
    (k : Option (Option ℕ × ℕ) → HeapCode α) :
    (searchPrevious read next found turns previous p >>= k).critical s =
      (Heap.searchPrevious (read s.heap) next found turns previous p).bind fun r =>
        (k r).critical s := by
  induction turns generalizing previous p with
  | zero => rfl
  | succ turns ih =>
      cases p with
      | none => rfl
      | some current =>
          simp only [searchPrevious, Heap.searchPrevious, bind_assoc, critical_load_bind]
          cases hread : read s.heap current with
          | none => rfl
          | some x =>
              simp only [Option.bind_some]
              split
              · rfl
              · simp [hread, ih]

@[simp] theorem critical_freeFiles_bind (p : Option ℕ) (k : Unit → HeapCode α) :
    (freeFiles turns p >>= k).critical s =
      (Heap.freeChain FileCell.next Cell.asFile turns s.heap p).bind fun heap =>
        (k ()).critical { s with heap := heap } := by
  induction turns generalizing p s with
  | zero => rfl
  | succ turns ih =>
      cases p with
      | none => rfl
      | some fileCurrent =>
          simp only [freeFiles, Heap.freeChain, bind_assoc, critical_loadFile_bind,
            critical_free_bind, ih, Option.bind_assoc, readFile]

end Loops

/-! ## The operations in one piece -/

@[simp] theorem readUser_insert (heap : Heap.Mem ℕ Cell) (a : ℕ) (user : UserCell) :
    readUser (heap.insert a (.user user)) a = some user := by
  rw [readUser, Finmap.lookup_insert]
  rfl

@[simp] theorem readFile_insert (heap : Heap.Mem ℕ Cell) (a : ℕ) (file : FileCell) :
    readFile (heap.insert a (.file file)) a = some file := by
  rw [readFile, Finmap.lookup_insert]
  rfl

theorem readUser_insert_of_ne {heap : Heap.Mem ℕ Cell} {a b : ℕ} (h : a ≠ b) (x : Cell) :
    readUser (heap.insert b x) a = readUser heap a := by
  rw [readUser, Finmap.lookup_insert_of_ne _ h]
  rfl

theorem store_of_readUser {heap : Heap.Mem ℕ Cell} {a : ℕ} {user : UserCell}
    (h : readUser heap a = some user) (x : Cell) :
    Heap.store heap a x = some (heap.insert a x) :=
  if_pos (Option.isSome_of_isSome_bind (Option.isSome_of_mem h))

section Operations

variable (turns : ℕ) (o : CodeOutcomes) (s : HeapStore)

@[simp] theorem critical_linkUser_bind {α : Type} (previous next : Option ℕ)
    (k : Unit → HeapCode α) :
    (linkUser previous next >>= k).critical s =
      (HeapStore.linkUser previous next s).bind fun s => (k ()).critical s := by
  cases previous with
  | none => rfl
  | some current =>
      simp only [linkUser, HeapStore.linkUser, critical_storeUser_bind]
      cases readUser s.heap current with
      | none => rfl
      | some user =>
          cases h : Heap.store s.heap current (.user { user with next := next }) <;> simp [h]

@[simp] theorem critical_linkFile_bind {α : Type} (current : ℕ) (previous next : Option ℕ)
    (k : Unit → HeapCode α) :
    (linkFile current previous next >>= k).critical s =
      (HeapStore.linkFile current previous next s.heap).bind fun heap =>
        (k ()).critical { s with heap := heap } := by
  cases previous with
  | none =>
      simp only [linkFile, HeapStore.linkFile, critical_storeUser_bind]
      cases readUser s.heap current <;> rfl
  | some filePrevious =>
      simp only [linkFile, HeapStore.linkFile, critical_storeFile_bind]
      cases readFile s.heap filePrevious <;> rfl

theorem critical_registerUser (username : Bytes) :
    (registerUser turns o username).critical s =
      (HeapStore.registerUser turns o.outcomes username s).map fun r => (r.1, .ret r.2) := by
  simp only [registerUser, HeapStore.registerUser, searchUser, critical_loadMessages_bind,
    critical_search_bind]
  cases Heap.search (readUser s.heap) UserCell.next (hasName username) turns s.messages with
  | none => rfl
  | some r =>
      cases r with
      | some current => rfl
      | none =>
          simp only [CodeOutcomes.outcomes, Option.bind_some, critical_malloc_bind]
          cases o.malloc.alloc s.heap with
          | none => rfl
          | some newNode => simp

theorem critical_unregisterUser (username : Bytes) :
    (unregisterUser turns username).critical s =
      (HeapStore.unregisterUser turns username s).map fun r => (r.1, .ret r.2) := by
  simp only [unregisterUser, HeapStore.unregisterUser, critical_loadMessages_bind,
    critical_searchPrevious_bind]
  cases Heap.searchPrevious (readUser s.heap) UserCell.next (hasName username) turns none
      s.messages with
  | none => rfl
  | some r =>
      cases r with
      | none => rfl
      | some r =>
          simp only [Option.bind_some, critical_loadUser_bind, critical_linkUser_bind,
            critical_freeFiles_bind, critical_free_bind, critical_unlockReturn]
          simp [Option.map_bind]

theorem critical_connectUser (getpeername : Option InAddr) (port username : Bytes) :
    (connectUser turns getpeername port username).critical s =
      (HeapStore.connectUser turns getpeername port username s).map fun r =>
        (r.1, .ret r.2) := by
  simp only [connectUser, HeapStore.connectUser, searchUser, critical_loadMessages_bind,
    critical_search_bind]
  cases Heap.search (readUser s.heap) UserCell.next (hasName username) turns s.messages with
  | none => rfl
  | some r =>
      cases r with
      | none => rfl
      | some current =>
          simp only [Option.bind_some, critical_loadUser_bind]
          cases hread : readUser s.heap current with
          | none => simp [hread]
          | some user =>
              cases hc : user.connected with
              | true => simp [hread, hc]
              | false =>
                  cases getpeername with
                  | none => simp [hread, hc]
                  | some addr => simp [hread, hc, store_of_readUser hread]

theorem critical_disconnectUser (username : Bytes) :
    (disconnectUser turns username).critical s =
      (HeapStore.disconnectUser turns username s).map fun r => (r.1, .ret r.2) := by
  simp only [disconnectUser, HeapStore.disconnectUser, searchUser, critical_loadMessages_bind,
    critical_search_bind]
  cases Heap.search (readUser s.heap) UserCell.next (hasName username) turns s.messages with
  | none => rfl
  | some r =>
      cases r with
      | none => rfl
      | some current =>
          simp only [Option.bind_some, critical_loadUser_bind]
          cases hread : readUser s.heap current with
          | none => simp [hread]
          | some user =>
              cases hc : user.connected with
              | true => simp [hread, hc, store_of_readUser hread]
              | false => simp [hread, hc]

theorem critical_registerFileFromUser (username file description : Bytes) :
    (registerFileFromUser turns o username file description).critical s =
      (HeapStore.registerFileFromUser turns o.outcomes username file description s).map
        fun r => (r.1, .ret r.2) := by
  simp only [registerFileFromUser, HeapStore.registerFileFromUser, searchUser,
    critical_loadMessages_bind, critical_search_bind]
  cases Heap.search (readUser s.heap) UserCell.next (hasName username) turns s.messages with
  | none => rfl
  | some r =>
      cases r with
      | none => rfl
      | some current =>
          simp only [Option.bind_eq_bind, Option.bind_some, critical_loadUser_bind]
          cases hread : readUser s.heap current with
          | none => simp
          | some user =>
              cases hc : user.connected with
              | false => simp [hc]
              | true =>
                  simp only [if_true, critical_loadUser_bind, hread, Option.bind_some,
                    critical_search_bind, hc]
                  cases Heap.search (readFile s.heap) FileCell.next (hasFilename file) turns
                      user.listFiles with
                  | none => rfl
                  | some r =>
                      cases r with
                      | some fileCurrent => rfl
                      | none =>
                          simp only [Option.bind_some, critical_malloc_bind,
                            CodeOutcomes.outcomes]
                          cases halloc : o.malloc.alloc s.heap with
                          | none => rfl
                          | some newFile =>
                              have hne : current ≠ newFile := fun h =>
                                o.malloc.fresh _ _ halloc (h ▸ mem_of_readUser hread)
                              simp [readUser_insert_of_ne hne, hread, Option.map_bind]

theorem critical_unregisterFileFromUser (username file : Bytes) :
    (unregisterFileFromUser turns username file).critical s =
      (HeapStore.unregisterFileFromUser turns username file s).map fun r => (r.1, .ret r.2) := by
  simp only [unregisterFileFromUser, HeapStore.unregisterFileFromUser, searchUser,
    critical_loadMessages_bind, critical_search_bind]
  cases Heap.search (readUser s.heap) UserCell.next (hasName username) turns s.messages with
  | none => rfl
  | some r =>
      cases r with
      | none => rfl
      | some current =>
          simp only [Option.bind_eq_bind, Option.bind_some, critical_loadUser_bind]
          cases hread : readUser s.heap current with
          | none => simp
          | some user =>
              cases hc : user.connected with
              | false => simp [hc]
              | true =>
                  simp only [if_true, critical_loadUser_bind, hread, Option.bind_some,
                    critical_searchPrevious_bind, hc]
                  cases Heap.searchPrevious (readFile s.heap) FileCell.next (hasFilename file)
                      turns none user.listFiles with
                  | none => rfl
                  | some r =>
                      cases r with
                      | none => rfl
                      | some r => simp [Option.map_bind]

theorem critical_fillUsers_bind {α : Type} (malloc : ℕ → Bool) (response : Bool) (k : ℕ)
    (p : Option ℕ) (next : Chain UserFields × ℕ → HeapCode α) :
    (fillUsers malloc turns response k p >>= next).critical s =
      (HeapStore.fillUsers s.heap malloc turns response k p).bind fun r =>
        (next r).critical s := by
  induction turns generalizing response k p next with
  | zero => rfl
  | succ turns ih =>
      cases p with
      | none => cases response <;> rfl
      | some userCurrent =>
          rw [fillUsers.eq_def, HeapStore.fillUsers]
          simp only [bind_assoc, critical_loadUser_bind]
          cases hread : readUser s.heap userCurrent with
          | none => rfl
          | some user =>
              cases hc : user.connected with
              | false => simp [hread, hc, ih]
              | true =>
                  cases response with
                  | false => simp [hc]
                  | true =>
                      cases hnext : user.next with
                      | none => simp [hread, hc, hnext, userFields]
                      | some a => simp [hread, hc, hnext, ih, userFields, Option.bind_assoc]

theorem critical_fillContent_bind {α : Type} (malloc : ℕ → Bool) (response : Bool) (k : ℕ)
    (p : Option ℕ) (next : Chain ContentFields → HeapCode α) :
    (fillContent malloc turns response k p >>= next).critical s =
      (HeapStore.fillContent s.heap malloc turns response k p).bind fun r =>
        (next r).critical s := by
  induction turns generalizing response k p next with
  | zero => rfl
  | succ turns ih =>
      cases p with
      | none => cases response <;> rfl
      | some fileCurrent =>
          rw [fillContent.eq_def, HeapStore.fillContent]
          cases response with
          | false => cases readFile s.heap fileCurrent <;> simp
          | true =>
              simp only [bind_assoc, critical_loadFile_bind]
              cases hread : readFile s.heap fileCurrent with
              | none => rfl
              | some file =>
                  cases hnext : file.next with
                  | none => simp [hnext, contentFields]
                  | some a => simp [hnext, ih, contentFields, Option.bind_assoc]

theorem critical_listUsers (respuesta : Bool) (malloc : ℕ → Bool) (username : Bytes) :
    (listUsers turns respuesta malloc username).critical s =
      (HeapStore.listUsers turns respuesta malloc username s).map fun r => (s, .ret r) := by
  simp only [listUsers, HeapStore.listUsers, searchUser, critical_loadMessages_bind,
    critical_search_bind]
  cases Heap.search (readUser s.heap) UserCell.next (hasName username) turns s.messages with
  | none => rfl
  | some r =>
      cases r with
      | none => rfl
      | some current =>
          simp only [Option.bind_eq_bind, Option.bind_some, critical_loadUser_bind]
          cases readUser s.heap current with
          | none => rfl
          | some user =>
              cases hc : user.connected with
              | false => simp [hc]
              | true => simp [hc, critical_fillUsers_bind, Option.map_bind]

theorem critical_listContent (respuesta : Bool) (malloc : ℕ → Bool)
    (username username2 : Bytes) :
    (listContent turns respuesta malloc username username2).critical s =
      (HeapStore.listContent turns respuesta malloc username username2 s).map
        fun r => (s, .ret r) := by
  simp only [listContent, HeapStore.listContent, searchUser, critical_loadMessages_bind,
    critical_search_bind]
  cases Heap.search (readUser s.heap) UserCell.next (hasName username) turns s.messages with
  | none => rfl
  | some r =>
      cases r with
      | none => rfl
      | some current =>
          simp only [Option.bind_eq_bind, Option.bind_some, critical_loadUser_bind]
          cases readUser s.heap current with
          | none => rfl
          | some user =>
              cases hc : user.connected with
              | false => simp [hc]
              | true =>
                  simp only [Option.bind_some, if_true, critical_loadMessages_bind,
                    critical_search_bind, hc]
                  cases Heap.search (readUser s.heap) UserCell.next (hasName username2) turns
                      s.messages with
                  | none => rfl
                  | some r =>
                      cases r with
                      | none => rfl
                      | some targetUser =>
                          simp only [Option.bind_some, critical_loadUser_bind]
                          cases hread : readUser s.heap targetUser with
                          | none => rfl
                          | some target =>
                              cases hfiles : target.listFiles with
                              | none => simp [hfiles]
                              | some a =>
                                  simp [hread, hfiles, critical_fillContent_bind, Option.map_bind]

theorem critical_code {p : HeapCode Int} {r : Option (HeapStore × Int)}
    (h : p.critical s = r.map fun r => (r.1, .ret r.2)) :
    (Result.code <$> p).critical s =
      (r.map fun r => (r.1, Result.code r.2)).map fun r => (r.1, .ret r.2) := by
  rw [critical_map, h, Option.map_map, Option.map_map]
  rfl

/-- What a call does behind the lock, if nothing interrupts it, is the operation. -/
theorem critical_body (c : Call) :
    (body turns o c).critical s =
      (HeapStore.body turns o.outcomes s c).map fun r => (r.1, .ret r.2) := by
  cases c with
  | registerUser username => exact critical_code s (critical_registerUser turns o s username)
  | unregisterUser username => exact critical_code s (critical_unregisterUser turns s username)
  | connectUser port username =>
      exact critical_code s (critical_connectUser turns s o.getpeername port username)
  | disconnectUser username => exact critical_code s (critical_disconnectUser turns s username)
  | registerFileFromUser username file description =>
      exact critical_code s (critical_registerFileFromUser turns o s username file description)
  | unregisterFileFromUser username file =>
      exact critical_code s (critical_unregisterFileFromUser turns s username file)
  | listUsers username =>
      rw [body, critical_listUsers, HeapStore.body, Option.map_map]
      rfl
  | listContent username username2 =>
      rw [body, critical_listContent, HeapStore.body, Option.map_map]
      rfl

end Operations

/-! ## The steps of a call -/

section Steps

variable {turns n : ℕ}

theorem within_search {γ : Type} (read : Heap.Mem ℕ Cell → ℕ → Option γ) (next : γ → Option ℕ)
    (found : γ → Bool) (turns : ℕ) (p : Option ℕ) :
    (search read next found turns p).Within (2 * turns) := by
  induction turns generalizing p with
  | zero => trivial
  | succ turns ih =>
      cases p with
      | none => trivial
      | some current =>
          refine within_act_bind fun x => ?_
          split
          · trivial
          · exact within_act_bind fun x => ih (next x)

theorem within_searchPrevious {γ : Type} (read : Heap.Mem ℕ Cell → ℕ → Option γ)
    (next : γ → Option ℕ) (found : γ → Bool) (turns : ℕ) (previous p : Option ℕ) :
    (searchPrevious read next found turns previous p).Within (2 * turns) := by
  induction turns generalizing previous p with
  | zero => trivial
  | succ turns ih =>
      cases p with
      | none => trivial
      | some current =>
          refine within_act_bind fun x => ?_
          split
          · trivial
          · exact within_act_bind fun x => ih (some current) (next x)

theorem within_freeFiles (turns : ℕ) (p : Option ℕ) : (freeFiles turns p).Within (2 * turns) := by
  induction turns generalizing p with
  | zero => trivial
  | succ turns ih =>
      cases p with
      | none => trivial
      | some fileCurrent => exact within_act_bind fun file => within_act_bind fun _ => ih file.next

theorem within_fillUsers (malloc : ℕ → Bool) (turns : ℕ) (response : Bool) (k : ℕ)
    (p : Option ℕ) : (fillUsers malloc turns response k p).Within (6 * turns) := by
  induction turns generalizing response k p with
  | zero => trivial
  | succ turns ih =>
      cases p with
      | none => cases response <;> trivial
      | some userCurrent =>
          cases response with
          | false =>
              refine within_act_bind fun user => ?_
              split
              · trivial
              · refine within_act_bind fun user => ?_
                exact (ih false k user.next).mono (Nat.le_add_right (6 * turns) 4)
          | true =>
              refine within_act_bind fun user => ?_
              split
              · refine within_act_bind fun username => within_act_bind fun ip =>
                  within_act_bind fun port => within_act_bind fun next =>
                    within_act_bind fun user => ?_
                cases next.next with
                | none => trivial
                | some a => exact (ih (malloc k) (k + 1) user.next).bind (n := 0) fun r => trivial
              · refine within_act_bind fun user => ?_
                exact (ih true k user.next).mono (Nat.le_add_right (6 * turns) 4)

theorem within_fillContent (malloc : ℕ → Bool) (turns : ℕ) (response : Bool) (k : ℕ)
    (p : Option ℕ) : (fillContent malloc turns response k p).Within (4 * turns) := by
  induction turns generalizing response k p with
  | zero => trivial
  | succ turns ih =>
      cases p with
      | none => cases response <;> trivial
      | some fileCurrent =>
          rw [fillContent.eq_def]
          cases response with
          | false => trivial
          | true =>
              refine within_act_bind fun filename => within_act_bind fun description =>
                within_act_bind fun next => within_act_bind fun file => ?_
              cases next.next with
              | none => trivial
              | some a => exact (ih (malloc k) (k + 1) file.next).bind (n := 0) fun r => trivial

/-- The search for a user, which every operation begins with. -/
theorem within_searchUser {α : Type} (turns : ℕ) (username : Bytes)
    {k : Option ℕ → HeapCode α} {n : ℕ} (hk : ∀ r, (k r).Within n) :
    (loadMessages >>= fun current =>
      search readUser UserCell.next (hasName username) turns current >>= k).Within
        (2 * turns + n + 1) :=
  within_act_bind fun current => (within_search _ _ _ turns current).bind hk

theorem within_linkUser (previous next : Option ℕ) : (linkUser previous next).Within 1 := by
  cases previous <;> exact within_act _

theorem within_linkFile (current : ℕ) (previous next : Option ℕ) :
    (linkFile current previous next).Within 1 := by
  cases previous <;> exact within_act _

theorem within_registerUser (turns : ℕ) (o : CodeOutcomes) (username : Bytes) :
    (registerUser turns o username).Within (2 * turns + 9 + 1) := by
  refine within_searchUser turns username fun r => ?_
  cases r with
  | some current => trivial
  | none =>
      refine within_act_bind fun newNode => ?_
      cases newNode with
      | none => trivial
      | some newNode =>
          exact within_act_bind fun _ => within_act_bind fun _ => within_act_bind fun _ =>
            within_act_bind fun _ => within_act_bind fun _ => within_act_bind fun _ =>
              within_act_bind fun _ => within_unlockReturn 0 0

theorem within_unregisterUser (turns : ℕ) (username : Bytes) :
    (unregisterUser turns username).Within (2 * turns + (1 + (2 * turns + 2) + 1 + 1) + 1) := by
  refine within_act_bind fun current => ?_
  refine (within_searchPrevious _ _ _ turns none current).bind fun r => ?_
  cases r with
  | none => exact within_unlockReturn 1 _
  | some r =>
      refine within_act_bind fun user => ?_
      rw [Nat.add_assoc 1]
      refine (within_linkUser r.1 user.next).bind fun _ => within_act_bind fun user => ?_
      refine (within_freeFiles turns user.listFiles).bind fun _ => ?_
      exact within_act_bind fun _ => within_unlockReturn 0 0

theorem within_connectUser (turns : ℕ) (getpeername : Option InAddr) (port username : Bytes) :
    (connectUser turns getpeername port username).Within (2 * turns + 4 + 1) := by
  refine within_searchUser turns username fun r => ?_
  cases r with
  | none => trivial
  | some current =>
      refine within_act_bind fun user => ?_
      split
      · trivial
      · cases getpeername with
        | none => trivial
        | some addr =>
            exact within_act_bind fun _ => within_act_bind fun _ => within_unlockReturn 0 0

theorem within_disconnectUser (turns : ℕ) (username : Bytes) :
    (disconnectUser turns username).Within (2 * turns + 4 + 1) := by
  refine within_searchUser turns username fun r => ?_
  cases r with
  | none => trivial
  | some current =>
      refine within_act_bind fun user => ?_
      split
      · exact within_act_bind fun _ => within_act_bind fun _ => within_unlockReturn 0 0
      · trivial

theorem within_registerFileFromUser (turns : ℕ) (o : CodeOutcomes)
    (username file description : Bytes) :
    (registerFileFromUser turns o username file description).Within
      (2 * turns + (2 * turns + 7 + 1 + 1) + 1) := by
  refine within_searchUser turns username fun r => ?_
  cases r with
  | none => exact within_unlockReturn 1 _
  | some current =>
      refine within_act_bind fun user => ?_
      split
      · refine within_act_bind fun user => ?_
        refine (within_search _ _ _ turns user.listFiles).bind fun r => ?_
        cases r with
        | some fileCurrent => trivial
        | none =>
            refine within_act_bind fun newFile => ?_
            cases newFile with
            | none => trivial
            | some newFile =>
                exact within_act_bind fun _ => within_act_bind fun _ =>
                  within_act_bind fun user => within_act_bind fun _ =>
                    (within_linkFile current none (some newFile)).bind (n := 1) fun _ =>
                      within_unlockReturn 0 0
      · exact within_unlockReturn 2 _

theorem within_unregisterFileFromUser (turns : ℕ) (username file : Bytes) :
    (unregisterFileFromUser turns username file).Within
      (2 * turns + (2 * turns + 4 + 1 + 1) + 1) := by
  refine within_searchUser turns username fun r => ?_
  cases r with
  | none => exact within_unlockReturn 1 _
  | some current =>
      refine within_act_bind fun user => ?_
      split
      · refine within_act_bind fun user => ?_
        refine (within_searchPrevious _ _ _ turns none user.listFiles).bind fun r => ?_
        cases r with
        | none => trivial
        | some r =>
            refine within_act_bind fun fields => ?_
            refine (within_linkFile current r.1 fields.next).bind (n := 2) fun _ => ?_
            exact within_act_bind fun _ => within_unlockReturn 0 0
      · exact within_unlockReturn 2 _

theorem within_listUsers (turns : ℕ) (respuesta : Bool) (malloc : ℕ → Bool) (username : Bytes) :
    (listUsers turns respuesta malloc username).Within
      (2 * turns + (6 * turns + 1 + 1 + 1) + 1) := by
  refine within_searchUser turns username fun r => ?_
  cases r with
  | none => exact within_unlockReturn (Result.code 1) _
  | some current =>
      refine within_act_bind fun user => ?_
      split
      · refine within_act_bind fun userCurrent => ?_
        exact (within_fillUsers malloc turns respuesta 0 userCurrent).bind fun r =>
          within_unlockReturn (Result.users r.1 r.2) 0
      · exact within_unlockReturn (Result.code 2) _

theorem within_listContent (turns : ℕ) (respuesta : Bool) (malloc : ℕ → Bool)
    (username username2 : Bytes) :
    (listContent turns respuesta malloc username username2).Within
      (2 * turns + (2 * turns + (4 * turns + 1 + 1 + 1) + 1 + 1) + 1) := by
  refine within_searchUser turns username fun r => ?_
  cases r with
  | none => exact within_unlockReturn (Result.code 1) _
  | some current =>
      refine within_act_bind fun user => ?_
      split
      · refine within_searchUser turns username2 fun r => ?_
        cases r with
        | none => exact within_unlockReturn (Result.code 3) _
        | some targetUser =>
            refine within_act_bind fun target => ?_
            cases target.listFiles with
            | none => exact within_unlockReturn (Result.content .null) _
            | some a =>
                refine within_act_bind fun target => ?_
                exact (within_fillContent malloc turns respuesta 0 target.listFiles).bind
                  fun chain => within_unlockReturn (Result.content chain) 0
      · exact within_unlockReturn (Result.code 2) _

/-- The steps of a call behind its lock. -/
theorem within_body (turns : ℕ) (o : CodeOutcomes) (c : Call) :
    (body turns o c).Within (8 * turns + 10) := by
  cases c with
  | registerUser username =>
      exact ((within_registerUser turns o username).map _).mono (by omega)
  | unregisterUser username =>
      exact ((within_unregisterUser turns username).map _).mono (by omega)
  | connectUser port username =>
      exact ((within_connectUser turns o.getpeername port username).map _).mono (by omega)
  | disconnectUser username =>
      exact ((within_disconnectUser turns username).map _).mono (by omega)
  | registerFileFromUser username file description =>
      exact ((within_registerFileFromUser turns o username file description).map _).mono
        (by omega)
  | unregisterFileFromUser username file =>
      exact ((within_unregisterFileFromUser turns username file).map _).mono (by omega)
  | listUsers username =>
      exact (within_listUsers turns o.respuesta o.mallocRespuesta username).mono (by omega)
  | listContent username username2 =>
      exact (within_listContent turns o.respuesta o.mallocRespuesta username username2).mono
        (by omega)

theorem within_initList : initList.Within 5 := by
  refine within_lock_bind (within_act_bind fun initedList => ?_)
  cases initedList with
  | true => trivial
  | false => exact within_act_bind fun _ => within_act_bind fun _ => within_unlockReturn 0 0

theorem within_lockInited : lockInited.Within 9 := by
  refine within_lock_bind (within_act_bind fun initedList => ?_)
  cases initedList with
  | true => trivial
  | false => exact within_unlock_bind (within_initList.bind (n := 1) fun _ => trivial)

theorem call_of_initialises (turns : ℕ) {a : CodeOutcomes × Call}
    (h : a.2.initialises = true) :
    call turns a = lockInited >>= fun _ => body turns a.1 a.2 := by
  simp only [call, h, if_true]

theorem call_of_not_initialises (turns : ℕ) {a : CodeOutcomes × Call}
    (h : a.2.initialises = false) :
    call turns a = lock >>= fun _ => body turns a.1 a.2 := by
  simp only [call, h, Bool.false_eq_true, if_false]

/-- The steps of a call, which may take the lock three times. -/
theorem within_call (turns : ℕ) (a : CodeOutcomes × Call) :
    (call turns a).Within (9 + (8 * turns + 10)) := by
  cases h : a.2.initialises with
  | true =>
      rw [call_of_initialises turns h]
      exact within_lockInited.bind fun _ => within_body turns a.1 a.2
  | false =>
      have hlock : (lock : HeapCode Unit).Within 9 := trivial
      rw [call_of_not_initialises turns h]
      exact hlock.bind fun _ => within_body turns a.1 a.2

end Steps

end HeapCode

end PeerDirectory
