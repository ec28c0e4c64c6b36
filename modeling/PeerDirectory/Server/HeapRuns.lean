import PeerDirectory.Server.HeapShape
import PeerDirectory.Server.LazyInit

/-!
# Runs in the heap

A call in the heap does what it does on the list of nodes and keeps the shape,
so runs of the two models give the same results. The blocks that are live after
a run are those the pointers lead to, and no loop takes more turns than calls
were made.
-/

namespace PeerDirectory

/-- The outcomes of the call on the list of nodes. -/
def HeapOutcomes.on (o : HeapOutcomes) (heap : Heap.Mem ℕ Cell) : Outcomes where
  getpeername := o.getpeername
  mallocNode := (o.malloc.alloc heap).map fun _ => o.block
  mallocFile := (o.malloc.alloc heap).isSome
  respuesta := o.respuesta
  mallocRespuesta := o.mallocRespuesta

theorem HeapOutcomes.Allocated.on {o : HeapOutcomes} (h : o.Allocated) (heap : Heap.Mem ℕ Cell) :
    (o.on heap).Allocated := h

/-- Only the listings write to response nodes. -/
theorem Call.body_isSome_of_initialises {c : Call} (hc : c.initialises = true) (o : Outcomes)
    (messages : List Node) : (c.body o messages).isSome := by
  cases c with
  | listUsers username => cases hc
  | listContent username username2 => cases hc
  | _ => rfl

namespace HeapStore

/-! ## Operations that list -/

section Listings

variable {heap : Heap.Mem ℕ Cell} {malloc : ℕ → Bool} {turns k : ℕ} {response : Bool}
  {p : Option ℕ}

/-- The loop of `list_users` sees the list of nodes. -/
theorem fillUsers_eq {blocks : List UserBlock}
    (hseg : Heap.Segment UserBlock.addr (fun b => b.cell.next) p blocks none)
    (hread : ∀ b ∈ blocks, readUser heap b.addr = some b.cell) (hturns : blocks.length < turns) :
    fillUsers heap malloc turns response k p =
      PeerDirectory.fillUsers malloc response k (blocks.map UserBlock.node) := by
  induction blocks generalizing p turns k response with
  | nil =>
      obtain rfl := Heap.segment_nil.mp hseg
      obtain ⟨turns, rfl⟩ := Nat.exists_eq_add_one.mpr hturns
      cases response <;> rfl
  | cons b blocks ih =>
      obtain ⟨rfl, hrest⟩ := Heap.segment_cons.mp hseg
      obtain ⟨turns, rfl⟩ := Nat.exists_eq_add_one.mpr (Nat.zero_lt_of_lt hturns)
      have hb : readUser heap b.addr = some b.cell := hread b (by simp)
      have hblocks := fun c hc => hread c (List.mem_cons_of_mem b hc)
      have hlt : blocks.length < turns := by simpa using hturns
      rw [List.map_cons, PeerDirectory.fillUsers.eq_def, fillUsers, hb, Option.bind_eq_bind,
        Option.bind_some]
      have hconnected := b.connected_node
      simp only [hconnected]
      cases b.cell.connected with
      | false => exact ih hrest hblocks hlt
      | true =>
          cases response with
          | false => rfl
          | true =>
              cases blocks with
              | nil =>
                  have hnext : b.cell.next = none := Heap.segment_nil.mp hrest
                  simp only [hnext]
                  rfl
              | cons c blocks =>
                  have hnext : b.cell.next = some c.addr := (Heap.segment_cons.mp hrest).1
                  have hfill := @ih _ (k + 1) (malloc k) _ hrest hblocks hlt
                  rw [hnext] at hfill
                  simp only [hnext, hfill, List.map_cons, Option.map_eq_bind]
                  rfl

/-- The loop of `list_content` sees the list of files. -/
theorem fillContent_eq {files : List (ℕ × FileCell)}
    (hseg : Heap.Segment Prod.fst (fun f => f.2.next) p files none)
    (hread : ∀ f ∈ files, readFile heap f.1 = some f.2) (hturns : files.length < turns) :
    fillContent heap malloc turns response k p =
      PeerDirectory.fillContent malloc response k (files.map fun f => f.2.node) := by
  induction files generalizing p turns k response with
  | nil =>
      obtain rfl := Heap.segment_nil.mp hseg
      obtain ⟨turns, rfl⟩ := Nat.exists_eq_add_one.mpr hturns
      rfl
  | cons f files ih =>
      obtain ⟨rfl, hrest⟩ := Heap.segment_cons.mp hseg
      obtain ⟨turns, rfl⟩ := Nat.exists_eq_add_one.mpr (Nat.zero_lt_of_lt hturns)
      have hf : readFile heap f.1 = some f.2 := hread f (by simp)
      have hfiles := fun g hg => hread g (List.mem_cons_of_mem f hg)
      have hlt : files.length < turns := by simpa using hturns
      rw [List.map_cons, PeerDirectory.fillContent.eq_def, fillContent, hf, Option.bind_eq_bind,
        Option.bind_some]
      cases response with
      | false => rfl
      | true =>
          cases files with
          | nil =>
              have hnext : f.2.next = none := Heap.segment_nil.mp hrest
              simp only [hnext]
              rfl
          | cons g files =>
              have hnext : f.2.next = some g.1 := (Heap.segment_cons.mp hrest).1
              have hfill := @ih _ (k + 1) (malloc k) _ hrest hfiles hlt
              rw [hnext] at hfill
              simp only [hnext, hfill, List.map_cons, Option.map_eq_bind]
              rfl

variable {s : HeapStore} {blocks : List UserBlock} {username : Bytes}

theorem Shape.listUsers (h : s.Shape blocks) (hturns : blocks.length < turns) (respuesta : Bool) :
    listUsers turns respuesta malloc username s =
      PeerDirectory.listUsers respuesta malloc username (blocks.map UserBlock.node) := by
  unfold HeapStore.listUsers PeerDirectory.listUsers
  have hfill := @fillUsers_eq s.heap malloc turns 0 respuesta _ _ h.messages
    (fun b hb => readUser_of_mem h.contents hb) hturns
  rcases h.searchUser_cases username hturns with
    ⟨hsearch, hall⟩ | ⟨l₁, b, l₂, rfl, hall, hb, hsearch⟩
  · rw [hsearch, KeyedList.lookup_eq_none_of_ne hall]
    rfl
  · have hread := readUser_of_mem h.contents (by simp : b ∈ l₁ ++ b :: l₂)
    rw [hsearch, lookup_blocks hall hb]
    simp only [Option.bind_eq_bind, Option.bind_some, hread, hfill, Option.map_eq_bind]
    rw [b.connected_node]
    cases b.cell.connected <;> rfl

theorem Shape.listContent (h : s.Shape blocks) (hturns : (storeCells blocks).length < turns)
    (respuesta : Bool) (username username2 : Bytes) :
    listContent turns respuesta malloc username username2 s =
      PeerDirectory.listContent respuesta malloc username username2
        (blocks.map UserBlock.node) := by
  unfold HeapStore.listContent PeerDirectory.listContent
  have hlt := (length_le_storeCells blocks).trans_lt hturns
  rcases h.searchUser_cases username hlt with
    ⟨hsearch, hall⟩ | ⟨l₁, b, l₂, hblocks, hall, hb, hsearch⟩
  · rw [hsearch, KeyedList.lookup_eq_none_of_ne hall]
    rfl
  · have hread := readUser_of_mem h.contents (by simp [hblocks] : b ∈ blocks)
    have hlookup : KeyedList.lookup Node.name username (blocks.map UserBlock.node) =
        some b.node := hblocks ▸ lookup_blocks hall hb
    rw [hsearch, hlookup]
    simp only [Option.bind_eq_bind, Option.bind_some, hread]
    rw [b.connected_node]
    cases b.cell.connected with
    | false => rfl
    | true =>
        rcases h.searchUser_cases username2 hlt with
          ⟨hsearch, hall⟩ | ⟨l₁, c, l₂, rfl, hall, hc, hsearch⟩
        · rw [hsearch, KeyedList.lookup_eq_none_of_ne hall]
          rfl
        · have hmem : c ∈ l₁ ++ c :: l₂ := by simp
          have hread := readUser_of_mem h.contents hmem
          have hfill := @fillContent_eq s.heap malloc turns 0 respuesta _ _ (h.listFiles c hmem)
            (fun f hf => readFile_of_mem h.contents hmem hf)
            ((length_files_le_storeCells hmem).trans_lt hturns)
          rw [hsearch, lookup_blocks hall hc]
          simp only [Option.bind_some, hread]
          have hnode : c.node.listFiles = c.files.map fun f => f.2.node := rfl
          have hlinked := h.listFiles c hmem
          unfold UserBlock.Linked at hlinked
          cases hfiles : c.files with
          | nil =>
              rw [hfiles, Heap.segment_nil] at hlinked
              rw [hnode, hfiles, hlinked]
              rfl
          | cons f files =>
              rw [hfiles, Heap.segment_cons] at hlinked
              rw [hfiles, hlinked.1] at hfill
              rw [hnode, hfiles, hlinked.1]
              simp only [List.map_cons, hfill, Option.map_eq_bind]
              rfl

end Listings

/-! ## Calls -/

/-- The store stands for the list of nodes. -/
def Represents (s : HeapStore) (st : ListState) : Prop :=
  ∃ blocks, s.Shape blocks ∧ blocks.map UserBlock.node = st.messages ∧
    s.initedList = st.initedList ∧ st.Lazy

theorem represents_empty : HeapStore.empty.Represents .empty :=
  ⟨[], shape_empty, rfl, rfl, ListState.lazy_empty⟩

/-- The number of blocks the list needs. -/
def blockCount (messages : List Node) : ℕ :=
  (messages.map fun n => n.listFiles.length + 1).sum

theorem blockCount_empty : blockCount ListState.empty.messages = 0 := rfl

theorem blockCount_node (blocks : List UserBlock) :
    blockCount (blocks.map UserBlock.node) = (storeCells blocks).length := by
  induction blocks with
  | nil => rfl
  | cons b blocks ih =>
      have hcons : blockCount ((b :: blocks).map UserBlock.node) =
          b.files.length + 1 + blockCount (blocks.map UserBlock.node) := by
        simp [blockCount, UserBlock.node]
      rw [hcons, ih, storeCells_cons, List.length_cons, List.length_append, fileCells,
        List.length_map]
      omega

/-- A call needs at most one more block. -/
theorem blockCount_body {o : Outcomes} {c : Call} {messages messages' : List Node} {r : Result}
    (h : c.body o messages = some (messages', r)) :
    blockCount messages' ≤ blockCount messages + 1 := by
  cases c with
  | registerUser username =>
      cases h
      unfold PeerDirectory.registerUser
      cases KeyedList.lookup Node.name username messages with
      | some n => exact Nat.le_succ _
      | none =>
          cases o.mallocNode with
          | none => exact Nat.le_succ _
          | some block => simp [blockCount, Nat.add_comm]
  | unregisterUser username =>
      cases h
      refine KeyedList.sum_visit_le ?_
      intro a b hab
      cases hab
  | connectUser port username =>
      cases h
      refine KeyedList.sum_visit_le ?_
      intro a b hab
      rcases connectNode_cases hab with rfl | ⟨-, addr, -, rfl⟩ <;> exact Nat.le_succ _
  | disconnectUser username =>
      cases h
      refine KeyedList.sum_visit_le ?_
      intro a b hab
      rcases disconnectNode_cases hab with rfl | ⟨-, rfl⟩ <;> exact Nat.le_succ _
  | registerFileFromUser username file description =>
      cases h
      refine KeyedList.sum_visit_le ?_
      intro a b hab
      rcases registerFileNode_cases hab with rfl | ⟨-, -, -, rfl⟩
      · exact Nat.le_succ _
      · exact le_rfl
  | unregisterFileFromUser username file =>
      cases h
      refine KeyedList.sum_visit_le ?_
      intro a b hab
      rcases unregisterFileNode_cases hab with rfl | ⟨-, rfl⟩
      · exact Nat.le_succ _
      · have hlength : ((KeyedList.visit FileNode.name file (fun _ => (none, (0 : Int))) 3
            a.listFiles).1.map FileNode.name).length ≤
            (a.listFiles.map FileNode.name).length :=
          (KeyedList.map_key_visit_sublist keepsKey_unlinkFile).length_le
        rw [List.length_map, List.length_map] at hlength
        exact Nat.le_succ_of_le (Nat.succ_le_succ hlength)
  | listUsers username =>
      rw [Call.body_of_not_initialises rfl h]
      exact Nat.le_succ _
  | listContent username username2 =>
      rw [Call.body_of_not_initialises rfl h]
      exact Nat.le_succ _

theorem Represents.lazy {s : HeapStore} {st : ListState} (h : s.Represents st) : st.Lazy := by
  obtain ⟨-, -, -, -, hlazy⟩ := h
  exact hlazy

section Calls

variable {s : HeapStore} {st : ListState} {blocks : List UserBlock} {turns : ℕ}

/-- The critical section of a call fails in both models, or it gives the same
result in both and keeps the shape. -/
theorem Shape.body (h : s.Shape blocks) (hturns : (storeCells blocks).length < turns)
    (o : HeapOutcomes) (c : Call) :
    (body turns o s c = none ∧ c.body (o.on s.heap) (blocks.map UserBlock.node) = none) ∨
      ∃ s' blocks' r, body turns o s c = some (s', r) ∧
        c.body (o.on s.heap) (blocks.map UserBlock.node) = some (blocks'.map UserBlock.node, r) ∧
        s'.Shape blocks' ∧ s'.initedList = s.initedList := by
  have hlt := (length_le_storeCells blocks).trans_lt hturns
  -- an operation that changes the store always gets through
  have hyields : ∀ {r : Option (HeapStore × Int)} {q : List Node × Int}, s.Yields r q →
      ∃ s' blocks' r', r.map (fun r => (r.1, Result.code r.2)) = some (s', r') ∧
        some (q.1, Result.code q.2) = some (blocks'.map UserBlock.node, r') ∧
        s'.Shape blocks' ∧ s'.initedList = s.initedList := by
    rintro r q ⟨s', blocks', rfl, hshape, hnodes, hinited⟩
    exact ⟨s', blocks', _, rfl, by rw [hnodes], hshape, hinited⟩
  cases c with
  | registerUser username => exact Or.inr (hyields (h.registerUser hlt o username))
  | unregisterUser username => exact Or.inr (hyields (h.unregisterUser hturns username))
  | connectUser port username =>
      exact Or.inr (hyields (h.connectUser hlt o.getpeername port username))
  | disconnectUser username => exact Or.inr (hyields (h.disconnectUser hlt username))
  | registerFileFromUser username file description =>
      exact Or.inr (hyields (h.registerFileFromUser hturns o username file description))
  | unregisterFileFromUser username file =>
      exact Or.inr (hyields (h.unregisterFileFromUser hturns username file))
  | listUsers username =>
      simp only [HeapStore.body, Call.body, h.listUsers hlt, HeapOutcomes.on]
      cases PeerDirectory.listUsers o.respuesta o.mallocRespuesta username
          (blocks.map UserBlock.node) with
      | none => exact Or.inl ⟨rfl, rfl⟩
      | some r => exact Or.inr ⟨s, blocks, r, rfl, rfl, h, rfl⟩
  | listContent username username2 =>
      simp only [HeapStore.body, Call.body, h.listContent hturns, HeapOutcomes.on]
      cases PeerDirectory.listContent o.respuesta o.mallocRespuesta username username2
          (blocks.map UserBlock.node) with
      | none => exact Or.inl ⟨rfl, rfl⟩
      | some r => exact Or.inr ⟨s, blocks, r, rfl, rfl, h, rfl⟩

theorem heap_initList (s : HeapStore) : (initList s).heap = s.heap := by
  unfold HeapStore.initList
  split <;> rfl

theorem initedList_initList (s : HeapStore) : (initList s).initedList = true := by
  unfold HeapStore.initList
  split
  · assumption
  · rfl

/-- `init_list` runs on an empty store only. -/
theorem Represents.initialise (h : s.Represents st) (initialises : Bool) :
    (if initialises && !s.initedList then initList s else s).Represents
      (if initialises && !st.initedList then PeerDirectory.initList st else st) := by
  obtain ⟨blocks, hshape, hnodes, hinited, hlazy⟩ := h
  rw [hinited]
  cases hi : initialises && !st.initedList with
  | false => exact ⟨blocks, hshape, hnodes, hinited, hlazy⟩
  | true =>
      have hst : st.initedList = false := by simpa using (Bool.and_eq_true_iff.mp hi).2
      obtain rfl : blocks = [] := List.map_eq_nil_iff.mp (hnodes.trans (hlazy hst))
      have hmessages : (initList s).messages = none := by
        rw [HeapStore.initList, hinited, hst]
        rfl
      refine ⟨[], ⟨?_, ?_, by simp⟩, ?_, ?_, by simp [ListState.Lazy]⟩
      · simpa only [if_true, heap_initList] using hshape.contents
      · exact Heap.segment_nil.mpr hmessages
      · exact hnodes.trans hlazy.messages_initList.symm
      · exact (initedList_initList s).trans (PeerDirectory.initedList_initList st).symm

/-- A call on a store that represents a list is the call on the list. -/
theorem Represents.perform (h : s.Represents st) (hturns : blockCount st.messages < turns)
    (a : HeapOutcomes × Call) :
    (perform turns s a = none ∧ performStep st (a.1.on s.heap, a.2) = none) ∨
      ∃ s' st' r, perform turns s a = some (s', r) ∧
        performStep st (a.1.on s.heap, a.2) = some (st', r) ∧ s'.Represents st' := by
  have hlazy := h.lazy
  have hmessages : (if a.2.initialises && !st.initedList then PeerDirectory.initList st else
      st).messages = st.messages := by
    split
    · exact hlazy.messages_initList
    · rfl
  have hheap : (if a.2.initialises && !s.initedList then initList s else s).heap = s.heap := by
    split
    · exact heap_initList s
    · rfl
  obtain ⟨blocks, hshape, hnodes, hinited, -⟩ := h.initialise a.2.initialises
  rw [hmessages] at hnodes
  rw [← hnodes, blockCount_node] at hturns
  have hbody := hshape.body hturns a.1 a.2
  rw [hheap, hnodes, ← hmessages] at hbody
  rcases hbody with ⟨hnone, hnone'⟩ | ⟨s', blocks', r, hsome, hsome', hshape', hinited'⟩
  · exact Or.inl ⟨hnone, by simp only [performStep, Call.perform, hnone', Option.map_none]⟩
  · have hperform : performStep st (a.1.on s.heap, a.2) =
        some ({ (if a.2.initialises && !st.initedList then PeerDirectory.initList st else st) with
          messages := blocks'.map UserBlock.node }, r) := by
      simp only [performStep, Call.perform, hsome', Option.map_some]
    exact Or.inr ⟨s', _, r, hsome, hperform, blocks', hshape', rfl, hinited'.trans hinited,
      (Call.perform_eq_some hlazy hperform).2⟩

/-! ## Runs -/

/-- A run in the heap is a run on lists with the same calls and the same
results. -/
theorem Represents.answers (h : s.Represents st) {calls : List (HeapOutcomes × Call)}
    (hturns : blockCount st.messages + calls.length ≤ turns) {s' : HeapStore}
    {results : List Result}
    (hrun : Run.answers (HeapStore.perform turns) s calls = some (s', results)) :
    ∃ actions st', actions.map Prod.snd = calls.map Prod.snd ∧
      Run.answers performStep st actions = some (st', results) ∧ s'.Represents st' ∧
      blockCount st'.messages ≤ blockCount st.messages + calls.length := by
  induction calls generalizing s st results with
  | nil =>
      cases hrun
      exact ⟨[], st, rfl, rfl, h, le_rfl⟩
  | cons a calls ih =>
      rw [List.length_cons] at hturns
      rw [Run.answers, Option.bind_eq_some_iff] at hrun
      obtain ⟨⟨s₁, r⟩, ha, hrun⟩ := hrun
      obtain ⟨⟨s₂, rs⟩, hcalls, heq⟩ := Option.map_eq_some_iff.mp hrun
      cases heq
      have hlt : blockCount st.messages < turns := by omega
      rcases h.perform hlt a with ⟨hnone, -⟩ | ⟨s₁', st₁, r', hs, hst, h₁⟩
      · rw [hnone] at ha
        cases ha
      · rw [ha] at hs
        cases hs
        have hcount := blockCount_body (Call.perform_eq_some h.lazy hst).1
        obtain ⟨actions, st₂, hactions, hrun', h₂, hle⟩ := ih h₁ (by omega) hcalls
        refine ⟨(a.1.on s.heap, a.2) :: actions, st₂, ?_, ?_, h₂, ?_⟩
        · rw [List.map_cons, List.map_cons, hactions]
        · rw [Run.answers_cons hst, hrun']
          rfl
        · rw [List.length_cons]
          omega

/-- With the response nodes of the listings allocated a call gets through. -/
theorem Represents.perform_isSome (h : s.Represents st) (hturns : blockCount st.messages < turns)
    {a : HeapOutcomes × Call} (ha : a.2.initialises = true ∨ a.1.Allocated) :
    (HeapStore.perform turns s a).isSome := by
  rcases h.perform hturns a with ⟨-, hnone⟩ | ⟨s', st', r, hs, -, -⟩
  · have hsome : (performStep st (a.1.on s.heap, a.2)).isSome := by
      rw [performStep, Call.perform, Option.isSome_map]
      rcases ha with hinitialises | hallocated
      · exact Call.body_isSome_of_initialises hinitialises _ _
      · exact Call.body_isSome (hallocated.on s.heap) _ _
    rw [hnone] at hsome
    cases hsome
  · rw [hs]
    rfl

theorem Represents.answers_isSome (h : s.Represents st) {calls : List (HeapOutcomes × Call)}
    (hturns : blockCount st.messages + calls.length ≤ turns)
    (hcalls : ∀ a ∈ calls, a.2.initialises = true ∨ a.1.Allocated) :
    (Run.answers (HeapStore.perform turns) s calls).isSome := by
  induction calls generalizing s st with
  | nil => rfl
  | cons a calls ih =>
      rw [List.length_cons] at hturns
      have hlt : blockCount st.messages < turns := by omega
      rcases h.perform hlt a with ⟨hnone, -⟩ | ⟨s', st', r, hs, hst, h'⟩
      · have hsome := h.perform_isSome hlt (hcalls a (by simp))
        rw [hnone] at hsome
        cases hsome
      · have hcount := blockCount_body (Call.perform_eq_some h.lazy hst).1
        rw [Run.answers_cons hs, Option.isSome_map]
        exact ih h' (by omega) fun b hb => hcalls b (List.mem_cons_of_mem a hb)

end Calls

/-! ## Reachable blocks -/

/-- A pointer of the store, or of a block that is reached, leads to the address. -/
inductive Reaches (s : HeapStore) : ℕ → Prop where
  | messages {a : ℕ} (h : s.messages = some a) : Reaches s a
  | next {a b : ℕ} {user : UserCell} (ha : Reaches s a) (hread : readUser s.heap a = some user)
      (h : user.next = some b) : Reaches s b
  | listFiles {a b : ℕ} {user : UserCell} (ha : Reaches s a)
      (hread : readUser s.heap a = some user) (h : user.listFiles = some b) : Reaches s b
  | fileNext {a b : ℕ} {file : FileCell} (ha : Reaches s a)
      (hread : readFile s.heap a = some file) (h : file.next = some b) : Reaches s b

section Reaches

variable {s : HeapStore} {blocks : List UserBlock} {a : ℕ}

/-- A block that can be read as a user is one. -/
theorem Shape.exists_of_readUser (h : s.Shape blocks) {user : UserCell}
    (hread : readUser s.heap a = some user) : ∃ b ∈ blocks, b.addr = a ∧ b.cell = user := by
  obtain ⟨x, hx, huser⟩ := Option.bind_eq_some_iff.mp hread
  obtain ⟨b, hb, hmem⟩ := List.mem_flatMap.mp ((h.contents.lookup a x).mp hx)
  rcases List.mem_cons.mp hmem with heq | hfile
  · cases heq
    exact ⟨b, hb, rfl, Option.some.inj huser⟩
  · obtain ⟨f, -, heq⟩ := List.mem_map.mp hfile
    cases heq
    cases huser

/-- A block that can be read as a file is one. -/
theorem Shape.exists_of_readFile (h : s.Shape blocks) {file : FileCell}
    (hread : readFile s.heap a = some file) : ∃ b ∈ blocks, (a, file) ∈ b.files := by
  obtain ⟨x, hx, hview⟩ := Option.bind_eq_some_iff.mp hread
  obtain ⟨b, hb, hmem⟩ := List.mem_flatMap.mp ((h.contents.lookup a x).mp hx)
  rcases List.mem_cons.mp hmem with heq | hfile
  · cases heq
    cases hview
  · obtain ⟨f, hf, heq⟩ := List.mem_map.mp hfile
    cases heq
    cases hview
    exact ⟨b, hb, hf⟩

/-- A live block is a user or a file of one. -/
theorem Shape.mem_cases (h : s.Shape blocks) (ha : a ∈ s.heap) :
    ∃ b ∈ blocks, b.addr = a ∨ ∃ f ∈ b.files, f.1 = a := by
  obtain ⟨x, hx⟩ := Finmap.mem_iff.mp ha
  obtain ⟨b, hb, hmem⟩ := List.mem_flatMap.mp ((h.contents.lookup a x).mp hx)
  rcases List.mem_cons.mp hmem with heq | hfile
  · cases heq
    exact ⟨b, hb, Or.inl rfl⟩
  · obtain ⟨f, hf, heq⟩ := List.mem_map.mp hfile
    cases heq
    exact ⟨b, hb, Or.inr ⟨f, hf, rfl⟩⟩

theorem mem_of_readUser {heap : Heap.Mem ℕ Cell} {user : UserCell}
    (hread : readUser heap a = some user) : a ∈ heap := by
  obtain ⟨x, hx, -⟩ := Option.bind_eq_some_iff.mp hread
  exact Finmap.mem_iff.mpr ⟨x, hx⟩

theorem mem_of_readFile {heap : Heap.Mem ℕ Cell} {file : FileCell}
    (hread : readFile heap a = some file) : a ∈ heap := by
  obtain ⟨x, hx, -⟩ := Option.bind_eq_some_iff.mp hread
  exact Finmap.mem_iff.mpr ⟨x, hx⟩

/-- The pointers lead to all live blocks. -/
theorem Shape.reaches_of_mem (h : s.Shape blocks) (ha : a ∈ s.heap) : s.Reaches a := by
  have husers : ∀ b ∈ blocks, s.Reaches b.addr :=
    h.messages.forall_of_next (fun _ hp => .messages hp) fun b hb hreach _ hnext =>
      .next hreach (readUser_of_mem h.contents hb) hnext
  have hfiles : ∀ b ∈ blocks, ∀ f ∈ b.files, s.Reaches f.1 := fun b hb =>
    Heap.Segment.forall_of_next (h.listFiles b hb)
      (fun _ hp => .listFiles (husers b hb) (readUser_of_mem h.contents hb) hp)
      fun f hf hreach _ hnext => .fileNext hreach (readFile_of_mem h.contents hb hf) hnext
  obtain ⟨b, hb, rfl | ⟨f, hf, rfl⟩⟩ := h.mem_cases ha
  · exact husers b hb
  · exact hfiles b hb f hf

/-- The pointers lead to live blocks only. -/
theorem Shape.mem_of_reaches (h : s.Shape blocks) (ha : s.Reaches a) : a ∈ s.heap := by
  have huser : ∀ b ∈ blocks, b.addr ∈ s.heap := fun b hb =>
    mem_of_readUser (readUser_of_mem h.contents hb)
  have hfile : ∀ b ∈ blocks, ∀ f ∈ b.files, f.1 ∈ s.heap := fun b hb f hf =>
    mem_of_readFile (readFile_of_mem h.contents hb hf)
  cases ha with
  | messages hp =>
      obtain ⟨b, hb, rfl⟩ := h.messages.exists_of_start hp
      exact huser b hb
  | next _ hread hnext =>
      obtain ⟨b, hb, -, rfl⟩ := h.exists_of_readUser hread
      obtain ⟨c, hc, rfl⟩ := h.messages.exists_of_next hb hnext
      exact huser c hc
  | listFiles _ hread hp =>
      obtain ⟨b, hb, -, rfl⟩ := h.exists_of_readUser hread
      obtain ⟨f, hf, rfl⟩ := Heap.Segment.exists_of_start (h.listFiles b hb) hp
      exact hfile b hb f hf
  | fileNext _ hread hnext =>
      obtain ⟨b, hb, hf⟩ := h.exists_of_readFile hread
      obtain ⟨g, hg, rfl⟩ := Heap.Segment.exists_of_next (h.listFiles b hb) hf hnext
      exact hfile b hb g hg

end Reaches

/-! ## The heap after a run -/

/-- After every run from the empty store the heap consists of the chains, the
blocks the pointers lead to are exactly the live ones, and every further call
ends without touching any other block, unless a listing lacks response nodes. -/
theorem heap_shape {turns : ℕ} {calls : List (HeapOutcomes × Call)}
    (hturns : calls.length < turns) :
    ((∀ a ∈ calls, a.2.initialises = true ∨ a.1.Allocated) →
        (Run.answers (perform turns) .empty calls).isSome) ∧
      ∀ s results, Run.answers (perform turns) .empty calls = some (s, results) →
        (∃ blocks, s.Shape blocks) ∧ (∀ a, a ∈ s.heap ↔ s.Reaches a) ∧
          ∀ o c, c.initialises = true ∨ o.Allocated → (perform turns s (o, c)).isSome := by
  have hcount : blockCount ListState.empty.messages + calls.length ≤ turns := by
    rw [blockCount_empty]
    omega
  refine ⟨fun hcalls => represents_empty.answers_isSome hcount hcalls, ?_⟩
  intro s results hrun
  obtain ⟨actions, st, -, -, hst, hle⟩ := represents_empty.answers hcount hrun
  rw [blockCount_empty, Nat.zero_add] at hle
  have hnext : ∀ o c, c.initialises = true ∨ o.Allocated → (perform turns s (o, c)).isSome :=
    fun o c ha => hst.perform_isSome (hle.trans_lt hturns) ha
  obtain ⟨blocks, hshape, -⟩ := hst
  exact ⟨⟨blocks, hshape⟩, fun a => ⟨hshape.reaches_of_mem, hshape.mem_of_reaches⟩, hnext⟩

/-- Everything the call asks for is granted. -/
def grantAll : HeapOutcomes where
  getpeername := some ⟨127, 0, 0, 1⟩
  malloc := Heap.Malloc.above
  block := ⟨CharArray.memset _, CharArray.memset _, CharArray.memset _, []⟩
  respuesta := true
  mallocRespuesta := fun _ => true

/-- The run used below: `a` publishes two files and deletes the last one of its
chain, and `b`, the first one of the users, is unregistered. -/
def publishAndDelete : List (HeapOutcomes × Call) :=
  [.registerUser [97], .registerUser [98], .connectUser [49] [97],
    .registerFileFromUser [97] [102] [100], .registerFileFromUser [97] [103] [100],
    .unregisterFileFromUser [97] [102], .unregisterUser [98]].map fun c => (grantAll, c)

theorem heap_shape_publishAndDelete :
    ∃ s results, Run.answers (perform 8) .empty publishAndDelete = some (s, results) ∧
      results.map Result.error = [0, 0, 0, 0, 0, 0, 0] ∧ s.messages = some 1 ∧
      (∃ blocks, s.Shape blocks) ∧ ∀ a, a ∈ s.heap ↔ s.Reaches a := by
  have hlt : publishAndDelete.length < 8 := by decide
  have hcalls : ∀ a ∈ publishAndDelete, a.2.initialises = true ∨ a.1.Allocated := by
    intro a ha
    obtain ⟨c, -, rfl⟩ := List.mem_map.mp ha
    exact Or.inr ⟨rfl, fun _ => rfl⟩
  obtain ⟨⟨s, results⟩, hrun⟩ := Option.isSome_iff_exists.mp ((heap_shape hlt).1 hcalls)
  have heval : (Run.answers (perform 8) .empty publishAndDelete).map (fun r =>
      (r.2.map Result.error, r.1.messages)) = some ([0, 0, 0, 0, 0, 0, 0], some 1) := by
    decide +kernel
  rw [hrun] at heval
  obtain ⟨herrors, hmessages⟩ := Prod.mk.inj (Option.some.inj heval)
  obtain ⟨hshape, hreaches, -⟩ := (heap_shape hlt).2 s results hrun
  exact ⟨s, results, hrun, herrors, hmessages, hshape, hreaches⟩

end HeapStore

end PeerDirectory
