import PeerDirectory.Directory.Abstraction
import PeerDirectory.Lib.Run

/-!
# The operations of `list.c` refine the directory

One lemma for each operation says that its critical section computes the step
of the abstract directory. They are put together in `Call.body_refines`, and
the simulation of single calls is lifted to runs from the empty store.
-/

namespace PeerDirectory

section Operations

variable {o : Outcomes} {messages : List Node}

theorem registerUser_refines (hm : Unique messages) {username : Bytes}
    (hu : FitsField username) :
    BodyRefines o messages (.registerUser username)
      (registerUser o.mallocNode username messages).1
      (.code (registerUser o.mallocNode username messages).2) := by
  unfold registerUser
  cases h : KeyedList.lookup Node.name username messages with
  | some n =>
      have hd := abstract_eq_some h
      refine ⟨?_, ?_, hm, fun _ => rfl⟩ <;> simp [Directory.step, hd, Result.Matches]
  | none =>
      have hd := abstract_eq_none h
      cases hmalloc : o.mallocNode with
      | none =>
          refine ⟨?_, ?_, hm, fun _ => rfl⟩ <;>
            simp [Directory.step, hd, hmalloc, Result.Matches]
      | some block =>
          set newNode : Node :=
            { block with
              username := CharArray.strncpy maxValueLength username
              ip := block.ip.set 0 0
              port := block.port.set 0 0
              listFiles := [] } with hnew
          have hname : newNode.name = username := hu.str_strncpy
          have hentry : newNode.entry = { address := none, files := fun _ => none } := by
            have hconn : newNode.connected = false :=
              Node.not_connected_of_str_eq_nil (CharArray.str_set_zero_nul _)
            simp only [Node.entry, hconn, Bool.false_eq_true, if_false, Entry.mk.injEq,
              true_and]
            rfl
          refine ⟨?_, ?_, ⟨?_, ?_⟩, fun h0 => absurd rfl h0⟩
          · rw [abstract_cons, hname, hentry]
            simp [Directory.step, hd, hmalloc]
          · simp [Directory.step, hd, hmalloc, Result.Matches]
          · rw [KeyedList.nodupKeys_cons, hname, ← KeyedList.lookup_eq_none_iff]
            exact ⟨h, hm.users⟩
          · intro n hn
            rcases List.mem_cons.mp hn with rfl | hn
            · exact KeyedList.nodupKeys_nil
            · exact hm.files n hn

theorem unregisterUser_refines (hm : Unique messages) (username : Bytes) :
    BodyRefines o messages (.unregisterUser username)
      (unregisterUser username messages).1
      (.code (unregisterUser username messages).2) := by
  refine refines_of_visit hm keepsKey_unregisterUser ?_ ?_ ?_ ?_
  · intro a b _ h
    cases h
  · intro n h
    exact absurd rfl h
  · intro h
    simp [Directory.step, h]
  · intro n _ h
    simp [Directory.step, h]

theorem connectUser_refines (hm : Unique messages) {port : Bytes} (username : Bytes)
    (hport : FitsField port) :
    BodyRefines o messages (.connectUser port username)
      (connectUser o.getpeername port username messages).1
      (.code (connectUser o.getpeername port username messages).2) := by
  refine refines_of_visit hm (keepsKey_connectNode o.getpeername port) ?_ ?_ ?_ ?_
  · intro a b ha h
    rcases connectNode_cases h with rfl | ⟨-, addr, -, rfl⟩ <;> exact ha
  · intro n h
    unfold connectNode at h ⊢
    split
    · rfl
    · next hn =>
        rw [if_neg hn] at h
        cases hp : o.getpeername with
        | none => rfl
        | some addr => simp [hp] at h
  · intro h
    simp [Directory.step, h]
  · intro n hn h
    cases hc : n.connected with
    | true =>
        simp [Directory.step, h, connectNode, hc, Node.entry_of_connected hc,
          abstract_set_self hn]
    | false =>
        have haddr := Node.entry_of_not_connected hc
        cases hp : o.getpeername with
        | none => simp [Directory.step, h, connectNode, hc, haddr, hp, abstract_set_self hn]
        | some addr =>
            set n' : Node :=
              { n with
                ip := CharArray.strncpy maxValueLength (inetNtoa addr)
                port := CharArray.strncpy maxValueLength port } with hn'
            have hip : n'.ip.str = inetNtoa addr := str_strncpy_inetNtoa addr
            have hc' : n'.connected = true := by
              rw [Node.connected_iff, hip]
              exact inetNtoa_ne_nil addr
            have hentry : n'.entry =
                { n.entry with address := some (inetNtoa addr, port) } := by
              have haddr' := Node.entry_of_connected hc'
              rw [hip, show n'.port.str = port from hport.str_strncpy] at haddr'
              rw [← haddr']
              rfl
            simp [Directory.step, h, connectNode, hc, haddr, hp, ← hn', hentry]

theorem disconnectUser_refines (hm : Unique messages) (username : Bytes) :
    BodyRefines o messages (.disconnectUser username)
      (disconnectUser username messages).1
      (.code (disconnectUser username messages).2) := by
  refine refines_of_visit hm keepsKey_disconnectNode ?_ ?_ ?_ ?_
  · intro a b ha h
    rcases disconnectNode_cases h with rfl | ⟨-, rfl⟩ <;> exact ha
  · intro n h
    unfold disconnectNode at h ⊢
    split
    · next hn => simp [hn] at h
    · rfl
  · intro h
    simp [Directory.step, Directory.ifConnected, h]
  · intro n hn h
    cases hc : n.connected with
    | false =>
        simp [Directory.step, Directory.ifConnected, h, disconnectNode, hc,
          Node.entry_of_not_connected hc, abstract_set_self hn]
    | true =>
        set n' : Node := { n with ip := n.ip.set 0 0, port := n.port.set 0 0 } with hn'
        have hc' : n'.connected = false :=
          Node.not_connected_of_str_eq_nil (CharArray.str_set_zero_nul _)
        have hentry : n'.entry = { n.entry with address := none } := by
          rw [← Node.entry_of_not_connected hc']
          rfl
        simp [Directory.step, Directory.ifConnected, h, disconnectNode, hc,
          Node.entry_of_connected hc, ← hn', hentry]

theorem registerFileFromUser_refines (hm : Unique messages) (username : Bytes)
    {file description : Bytes} (hfile : FitsField file) (hdesc : FitsField description) :
    BodyRefines o messages (.registerFileFromUser username file description)
      (registerFileFromUser o.mallocFile username file description messages).1
      (.code (registerFileFromUser o.mallocFile username file description messages).2) := by
  refine refines_of_visit hm (keepsKey_registerFileNode o.mallocFile file description)
    ?_ ?_ ?_ ?_
  · intro a b ha h
    rcases registerFileNode_cases h with rfl | ⟨-, hl, -, rfl⟩
    · exact ha
    · rw [KeyedList.nodupKeys_cons]
      refine ⟨?_, ha⟩
      change (CharArray.strncpy maxValueLength file).str ∉ _
      rw [hfile.str_strncpy, ← KeyedList.lookup_eq_none_iff]
      exact hl
  · intro n h
    unfold registerFileNode at h ⊢
    cases hc : n.connected with
    | false => rfl
    | true =>
        cases hl : KeyedList.lookup FileNode.name file n.listFiles with
        | some f => rfl
        | none =>
            cases hmalloc : o.mallocFile with
            | false => rfl
            | true => simp [hc, hl, hmalloc] at h
  · intro h
    simp [Directory.step, Directory.ifConnected, h]
  · intro n hn h
    cases hc : n.connected with
    | false =>
        simp [Directory.step, Directory.ifConnected, h, registerFileNode, hc,
          Node.entry_of_not_connected hc, abstract_set_self hn]
    | true =>
        have haddr := Node.entry_of_connected hc
        cases hl : KeyedList.lookup FileNode.name file n.listFiles with
        | some f =>
            have hf : n.entry.files file = some f.description.str := by
              simp [Node.entry, Node.files, hl]
            simp [Directory.step, Directory.ifConnected, h, registerFileNode, hc, haddr,
              hl, hf, abstract_set_self hn]
        | none =>
            have hf : n.entry.files file = none := by
              simp [Node.entry, Node.files, hl]
            cases hmalloc : o.mallocFile with
            | false =>
                simp [Directory.step, Directory.ifConnected, h, registerFileNode, hc,
                  haddr, hl, hf, hmalloc, abstract_set_self hn]
            | true =>
                set newFile : FileNode :=
                  { filename := CharArray.strncpy maxValueLength file
                    description := CharArray.strncpy maxValueLength description }
                  with hnew
                have hname : newFile.name = file := hfile.str_strncpy
                have hdesc' : newFile.description.str = description := hdesc.str_strncpy
                have hentry :
                    Node.entry { n with listFiles := newFile :: n.listFiles } =
                      { n.entry with
                        files := Function.update n.entry.files file (some description) } := by
                  simp only [Node.entry, Entry.mk.injEq]
                  refine ⟨rfl, ?_⟩
                  funext name
                  rw [Function.update_apply, Node.files, KeyedList.lookup_cons, hname]
                  by_cases hnf : name = file
                  · simp [hnf, hdesc']
                  · rw [if_neg hnf, if_neg fun h => hnf h.symm]
                    rfl
                simp [Directory.step, Directory.ifConnected, h, registerFileNode, hc,
                  haddr, hl, hf, hmalloc, ← hnew, hentry]

theorem unregisterFileFromUser_refines (hm : Unique messages) (username file : Bytes) :
    BodyRefines o messages (.unregisterFileFromUser username file)
      (unregisterFileFromUser username file messages).1
      (.code (unregisterFileFromUser username file messages).2) := by
  refine refines_of_visit hm (keepsKey_unregisterFileNode file) ?_ ?_ ?_ ?_
  · intro a b ha h
    rcases unregisterFileNode_cases h with rfl | ⟨-, rfl⟩
    · exact ha
    · exact ha.visit keepsKey_unlinkFile
  · intro n h
    unfold unregisterFileNode at h ⊢
    cases hc : n.connected with
    | false => rfl
    | true =>
        cases hl : KeyedList.lookup FileNode.name file n.listFiles with
        | none => simp [KeyedList.visit_of_lookup_eq_none hl]
        | some f =>
            simp [hc, KeyedList.visit_snd_of_lookup_eq_some hl] at h
  · intro h
    simp [Directory.step, Directory.ifConnected, h]
  · intro n hn h
    cases hc : n.connected with
    | false =>
        simp [Directory.step, Directory.ifConnected, h, unregisterFileNode, hc,
          Node.entry_of_not_connected hc, abstract_set_self hn]
    | true =>
        have haddr := Node.entry_of_connected hc
        have hfiles := hm.files n (KeyedList.mem_of_lookup hn)
        cases hl : KeyedList.lookup FileNode.name file n.listFiles with
        | none =>
            have hf : n.entry.files file = none := by
              simp [Node.entry, Node.files, hl]
            simp [Directory.step, Directory.ifConnected, h, unregisterFileNode, hc,
              haddr, hf, KeyedList.visit_of_lookup_eq_none hl, abstract_set_self hn]
        | some f =>
            have hf : n.entry.files file = some f.description.str := by
              simp [Node.entry, Node.files, hl]
            set r := KeyedList.visit FileNode.name file (fun _ => (none, (0 : Int))) 3
              n.listFiles with hr
            have hcode : r.2 = 0 := KeyedList.visit_snd_of_lookup_eq_some hl
            have hentry : Node.entry { n with listFiles := r.1 } =
                { n.entry with files := Function.update n.entry.files file none } := by
              simp only [Node.entry, Entry.mk.injEq]
              refine ⟨rfl, ?_⟩
              funext name
              rw [Function.update_apply, Node.files]
              by_cases hnf : name = file
              · rw [if_pos hnf, hnf, hr,
                  KeyedList.lookup_visit_self hfiles keepsKey_unlinkFile, hl]
                rfl
              · rw [if_neg hnf, hr, KeyedList.lookup_visit_of_ne keepsKey_unlinkFile hnf]
                rfl
            simp [Directory.step, Directory.ifConnected, h, unregisterFileNode, hc,
              haddr, hf, ← hr, hcode, hentry]

/-! ## Listings -/

@[simp] theorem row_userFields (n : Node) :
    n.userFields.row = (n.name, n.ip.str, n.port.str) := by
  simp [UserFields.row, Node.userFields, str_strncpy_str, Node.name]

@[simp] theorem row_contentFields (f : FileNode) :
    f.contentFields.row = (f.name, f.description.str) := by
  simp [ContentFields.row, FileNode.contentFields, str_strncpy_str, FileNode.name]

/-- The connected users of the list are the rows of the directory. -/
theorem lists_userRows (hm : Unique messages) :
    Lists (((messages.filter Node.connected).map Node.userFields).map UserFields.row)
      (abstract messages).userRows := by
  constructor
  · apply List.Nodup.of_map Prod.fst
    rw [List.map_map, List.map_map]
    have hsub : ((messages.filter Node.connected).map Node.name).Sublist
        (messages.map Node.name) := List.filter_sublist.map _
    simpa [Function.comp_def] using hsub.nodup hm.users
  · rintro ⟨username, ip, port⟩
    simp only [List.map_map, List.mem_map, List.mem_filter, Function.comp_apply,
      row_userFields, Prod.mk.injEq, Directory.userRows, Set.mem_ofPred_eq]
    constructor
    · rintro ⟨n, ⟨hn, hc⟩, rfl, rfl, rfl⟩
      have hl := (KeyedList.lookup_eq_some_iff hm.users).mpr ⟨hn, rfl⟩
      exact ⟨n.entry, abstract_eq_some hl, Node.entry_of_connected hc⟩
    · rintro ⟨e, he, haddr⟩
      obtain ⟨n, hl, rfl⟩ := Option.map_eq_some_iff.mp he
      obtain ⟨hn, rfl⟩ := (KeyedList.lookup_eq_some_iff hm.users).mp hl
      cases hc : n.connected with
      | false => simp [Node.entry_of_not_connected hc] at haddr
      | true =>
          rw [Node.entry_of_connected hc, Option.some.injEq, Prod.mk.injEq] at haddr
          exact ⟨n, ⟨hn, hc⟩, rfl, haddr.1, haddr.2⟩

/-- The files of a node are the rows of its entry. -/
theorem lists_contentRows {n : Node}
    (hn : KeyedList.NodupKeys FileNode.name n.listFiles) :
    Lists ((n.listFiles.map FileNode.contentFields).map ContentFields.row)
      {row | n.entry.files row.1 = some row.2} := by
  constructor
  · apply List.Nodup.of_map Prod.fst
    rw [List.map_map, List.map_map]
    simpa [KeyedList.NodupKeys, Function.comp_def] using hn
  · rintro ⟨file, description⟩
    simp only [List.map_map, List.mem_map, Function.comp_apply, row_contentFields,
      Prod.mk.injEq, Set.mem_ofPred_eq, Node.entry, Node.files, Option.map_eq_some_iff,
      KeyedList.lookup_eq_some_iff hn]
    constructor
    · rintro ⟨f, hf, rfl, rfl⟩
      exact ⟨f, ⟨hf, rfl⟩, rfl⟩
    · rintro ⟨f, ⟨hf, rfl⟩, rfl⟩
      exact ⟨f, hf, rfl, rfl⟩

theorem listUsers_refines (hm : Unique messages) {username : Bytes} {r : Result}
    (h : listUsers o.respuesta o.mallocRespuesta username messages = some r) :
    BodyRefines o messages (.listUsers username) messages r := by
  unfold listUsers at h
  refine ⟨?_, ?_, hm, fun _ => rfl⟩
  · simp only [Directory.step, Directory.ifConnected]
    split
    · rfl
    · split <;> rfl
  · cases hl : KeyedList.lookup Node.name username messages with
    | none =>
        rw [hl] at h
        cases h
        simp [Directory.step, Directory.ifConnected, abstract_eq_none hl, Result.Matches]
    | some n =>
        cases hc : n.connected with
        | false =>
            simp only [hl, hc, Bool.false_eq_true, if_false, Option.some.injEq] at h
            subst h
            simp [Directory.step, Directory.ifConnected, abstract_eq_some hl,
              Node.entry_of_not_connected hc, Result.Matches]
        | true =>
            simp only [hl, hc, if_true, Option.map_eq_some_iff] at h
            obtain ⟨⟨chain, count⟩, hfill, rfl⟩ := h
            obtain ⟨hrows, hcount⟩ := rows_fillUsers hfill
            simp only [Directory.step, Directory.ifConnected, abstract_eq_some hl,
              Node.entry_of_connected hc, Result.Matches, hrows, hcount, List.length_map,
              true_and]
            exact lists_userRows hm

theorem listContent_refines (hm : Unique messages) {username username2 : Bytes} {r : Result}
    (h : listContent o.respuesta o.mallocRespuesta username username2 messages = some r) :
    BodyRefines o messages (.listContent username username2) messages r := by
  unfold listContent at h
  refine ⟨?_, ?_, hm, fun _ => rfl⟩
  · simp only [Directory.step, Directory.ifConnected]
    split
    · rfl
    · split
      · rfl
      · split <;> rfl
  · cases hl : KeyedList.lookup Node.name username messages with
    | none =>
        rw [hl] at h
        cases h
        simp [Directory.step, Directory.ifConnected, abstract_eq_none hl, Result.Matches]
    | some n =>
        cases hc : n.connected with
        | false =>
            simp only [hl, hc, Bool.false_eq_true, if_false, Option.some.injEq] at h
            subst h
            simp [Directory.step, Directory.ifConnected, abstract_eq_some hl,
              Node.entry_of_not_connected hc, Result.Matches]
        | true =>
            simp only [hl, hc, if_true] at h
            cases hl2 : KeyedList.lookup Node.name username2 messages with
            | none =>
                rw [hl2] at h
                cases h
                simp [Directory.step, Directory.ifConnected, abstract_eq_some hl,
                  Node.entry_of_connected hc, abstract_eq_none hl2, Result.Matches]
            | some target =>
                have hfiles := hm.files target (KeyedList.mem_of_lookup hl2)
                -- an empty file list and a filled chain show the same rows
                have hrows : ∃ chain, r = .content chain ∧
                    chain.rows = target.listFiles.map FileNode.contentFields := by
                  simp only [hl2] at h
                  cases hf : target.listFiles with
                  | nil =>
                      rw [hf] at h
                      cases h
                      exact ⟨.null, rfl, rfl⟩
                  | cons file next =>
                      rw [hf] at h
                      obtain ⟨chain, hfill, rfl⟩ := Option.map_eq_some_iff.mp h
                      exact ⟨chain, rfl, rows_fillContent hfill⟩
                obtain ⟨chain, rfl, hrows⟩ := hrows
                simp only [Directory.step, Directory.ifConnected, abstract_eq_some hl,
                  Node.entry_of_connected hc, abstract_eq_some hl2, Result.Matches, hrows]
                exact lists_contentRows hfiles

end Operations

/-! ## Calls -/

section Calls

variable {o : Outcomes} {messages messages' : List Node} {c : Call} {r : Result}

/-- The critical section of a call computes the step of the directory. -/
theorem Call.body_refines (hm : Unique messages) (hc : c.Fits)
    (h : c.body o messages = some (messages', r)) :
    BodyRefines o messages c messages' r := by
  cases c with
  | registerUser username =>
      cases h
      exact registerUser_refines hm (hc username (by simp [Call.args]))
  | unregisterUser username =>
      cases h
      exact unregisterUser_refines hm username
  | connectUser port username =>
      cases h
      exact connectUser_refines hm username (hc port (by simp [Call.args]))
  | disconnectUser username =>
      cases h
      exact disconnectUser_refines hm username
  | registerFileFromUser username file description =>
      cases h
      exact registerFileFromUser_refines hm username (hc file (by simp [Call.args]))
        (hc description (by simp [Call.args]))
  | unregisterFileFromUser username file =>
      cases h
      exact unregisterFileFromUser_refines hm username file
  | listUsers username =>
      obtain ⟨r', hr, h⟩ := Option.map_eq_some_iff.mp h
      cases h
      exact listUsers_refines hm hr
  | listContent username username2 =>
      obtain ⟨r', hr, h⟩ := Option.map_eq_some_iff.mp h
      cases h
      exact listContent_refines hm hr

/-- With the response nodes allocated no call writes through a null pointer. -/
theorem Call.body_isSome (ho : o.Allocated) (messages : List Node) (c : Call) :
    (c.body o messages).isSome := by
  cases c with
  | listUsers username =>
      simp only [Call.body, Option.isSome_map, PeerDirectory.listUsers, ho.1]
      split
      · rfl
      · split
        · simpa using fillUsers_isSome 0 messages fun j _ _ => ho.2 j
        · rfl
  | listContent username username2 =>
      simp only [Call.body, Option.isSome_map, PeerDirectory.listContent, ho.1]
      split
      · rfl
      · split
        · split
          · rfl
          · split
            · rfl
            · simpa using fillContent_isSome 0 _ fun j _ _ => ho.2 j
        · rfl
  | _ => rfl

end Calls

/-- Only the operations that test `inited_list` change the list. -/
theorem Call.body_of_not_initialises {o : Outcomes} {messages messages' : List Node}
    {c : Call} {r : Result} (hc : c.initialises = false)
    (h : c.body o messages = some (messages', r)) : messages' = messages := by
  cases c with
  | listUsers username =>
      obtain ⟨r', -, h⟩ := Option.map_eq_some_iff.mp h
      cases h
      rfl
  | listContent username username2 =>
      obtain ⟨r', -, h⟩ := Option.map_eq_some_iff.mp h
      cases h
      rfl
  | _ => cases hc

/-! ## The lazy initialisation -/

/-- `inited_list` is 0 on an empty list only. -/
def ListState.Lazy (st : ListState) : Prop :=
  st.initedList = false → st.messages = []

theorem ListState.lazy_empty : ListState.empty.Lazy := fun _ => rfl

/-- `init_list` throws nothing away. -/
theorem ListState.Lazy.messages_initList {st : ListState} (h : st.Lazy) :
    (initList st).messages = st.messages := by
  unfold initList
  split
  · rfl
  · next hinit => exact (h (by simpa using hinit)).symm

@[simp] theorem initedList_initList (st : ListState) : (initList st).initedList = true := by
  unfold initList
  split
  · assumption
  · rfl

section Perform

variable {o : Outcomes} {c : Call} {st st' : ListState} {r : Result}

/-- On a store where `inited_list` is right, a call is its critical section. -/
theorem Call.perform_eq_some (h : st.Lazy) (hp : c.perform o st = some (st', r)) :
    c.body o st.messages = some (st'.messages, r) ∧ st'.Lazy := by
  unfold Call.perform at hp
  obtain ⟨⟨messages', r'⟩, hbody, hp⟩ := Option.map_eq_some_iff.mp hp
  obtain ⟨rfl, rfl⟩ := Prod.mk.inj hp
  cases hi : c.initialises && !st.initedList with
  | true =>
      simp only [hi, if_true, h.messages_initList] at hbody
      exact ⟨hbody, by simp [ListState.Lazy]⟩
  | false =>
      simp only [hi, Bool.false_eq_true, if_false] at hbody
      refine ⟨hbody, ?_⟩
      intro hst
      simp only [Bool.false_eq_true, if_false] at hst
      have hc : c.initialises = false := by simpa [hst] using hi
      rw [Call.body_of_not_initialises hc hbody, h hst]

theorem Call.perform_isSome (ho : o.Allocated) (c : Call) (st : ListState) :
    (c.perform o st).isSome := by
  simp [Call.perform, Call.body_isSome ho]

end Perform

/-! ## Runs -/

/-- One call of a run, with the list before it and after it. -/
structure Called where
  before : List Node
  result : Result
  after : List Node

/-- One call of a run on the store. -/
def callStep (st : ListState) (a : Outcomes × Call) : Option (ListState × Called) :=
  (a.2.perform a.1 st).map fun r => (r.1, ⟨st.messages, r.2, r.1.messages⟩)

/-- One call of a run on the directory. -/
def Directory.callStep (d : Directory) (a : Outcomes × Call) : Option (Directory × Answer) :=
  some (d.step a.1 a.2)

/-- The code and the listing of a call are those of the directory, and a refused
call leaves the very same list. -/
def Called.Agrees (called : Called) (answer : Answer) : Prop :=
  called.result.Matches answer ∧ (called.result.error ≠ 0 → called.after = called.before)

/-- The store stands for the directory. -/
structure Simulates (st : ListState) (d : Directory) : Prop where
  lazy : st.Lazy
  unique : Unique st.messages
  directory : abstract st.messages = d

theorem Simulates.step {st : ListState} {d : Directory} (h : Simulates st d)
    {a : Outcomes × Call} (ho : a.1.Allocated) (hc : a.2.Fits) :
    ∃ st' called d' answer, callStep st a = some (st', called) ∧
      d.callStep a = some (d', answer) ∧ Simulates st' d' ∧ called.Agrees answer := by
  obtain ⟨⟨st', r⟩, hp⟩ := Option.isSome_iff_exists.mp (Call.perform_isSome ho a.2 st)
  obtain ⟨hbody, hlazy⟩ := Call.perform_eq_some h.lazy hp
  have href := Call.body_refines h.unique hc hbody
  have hd := h.directory
  subst hd
  exact ⟨st', ⟨st.messages, r, st'.messages⟩, _, _, by rw [callStep, hp]; rfl, rfl,
    ⟨hlazy, href.unique, href.directory⟩, href.answer, href.unchanged⟩

/-- Every run of calls from the empty store is a run of the abstract directory:
it ends in a list that stands for the final directory, and call by call the
codes and listings are the same and a refused call changes nothing. -/
theorem calls_refine_directory (calls : List (Outcomes × Call))
    (halloc : ∀ a ∈ calls, a.1.Allocated) (hfits : ∀ a ∈ calls, a.2.Fits) :
    ∃ st log d answers,
      Run.answers callStep .empty calls = some (st, log) ∧
      Run.answers Directory.callStep .empty calls = some (d, answers) ∧
      abstract st.messages = d ∧ List.Forall₂ Called.Agrees log answers := by
  have hinit : Simulates .empty .empty := ⟨ListState.lazy_empty, Unique.nil, rfl⟩
  have hstep : ∀ st d (a : Outcomes × Call), Simulates st d → a.1.Allocated ∧ a.2.Fits →
      ∃ st' called d' answer, callStep st a = some (st', called) ∧
        Directory.callStep d a = some (d', answer) ∧ Simulates st' d' ∧
        called.Agrees answer :=
    fun st d a h hok => h.step hok.1 hok.2
  obtain ⟨st, log, d, answers, hs, hd, hR, hlog⟩ :=
    Run.answers_simulates hstep hinit fun a ha => ⟨halloc a ha, hfits a ha⟩
  exact ⟨st, log, d, answers, hs, hd, hR.directory, hlog⟩

theorem calls_refine_directory_publish_and_list :
    ∃ st log d answers,
      Run.answers callStep .empty
        [(.success ⟨10, 0, 0, 1⟩, .registerUser [97]),
          (.success ⟨10, 0, 0, 1⟩, .connectUser [56, 48] [97]),
          (.success ⟨10, 0, 0, 1⟩, .registerFileFromUser [97] [102] []),
          (.success ⟨10, 0, 0, 1⟩, .listContent [97] [97])] = some (st, log) ∧
      Run.answers Directory.callStep .empty
        [(.success ⟨10, 0, 0, 1⟩, .registerUser [97]),
          (.success ⟨10, 0, 0, 1⟩, .connectUser [56, 48] [97]),
          (.success ⟨10, 0, 0, 1⟩, .registerFileFromUser [97] [102] []),
          (.success ⟨10, 0, 0, 1⟩, .listContent [97] [97])] = some (d, answers) ∧
      abstract st.messages = d ∧ List.Forall₂ Called.Agrees log answers :=
  calls_refine_directory _
    (by
      intro a ha
      simp only [List.mem_cons, List.not_mem_nil, or_false] at ha
      rcases ha with rfl | rfl | rfl | rfl <;> exact Outcomes.allocated_success _)
    (by
      intro a ha
      simp only [List.mem_cons, List.not_mem_nil, or_false] at ha
      rcases ha with rfl | rfl | rfl | rfl <;> decide)

end PeerDirectory
