import PeerDirectory.Directory.Refinement
import PeerDirectory.Server.HeapList

/-!
# The shape of the heap

The chains of the store reach their ends, share no block, and hold all live
blocks. Each operation keeps this and does to the chains what the operation of
the same name does to the lists of nodes, so the two models give the same
results, and no operation touches a block that is not live.
-/

namespace PeerDirectory

/-! ## Blocks -/

/-- A user with its files, each with its address. -/
structure UserBlock where
  addr : ℕ
  cell : UserCell
  files : List (ℕ × FileCell)

/-- The files as blocks of the heap. -/
def fileCells (files : List (ℕ × FileCell)) : List (ℕ × Cell) :=
  files.map fun f => (f.1, .file f.2)

/-- All blocks that belong to the user. -/
def UserBlock.cells (b : UserBlock) : List (ℕ × Cell) :=
  (b.addr, .user b.cell) :: fileCells b.files

/-- All blocks of the store. -/
def storeCells (blocks : List UserBlock) : List (ℕ × Cell) :=
  blocks.flatMap UserBlock.cells

/-- The file without its link. -/
def FileCell.node (file : FileCell) : FileNode where
  filename := file.filename
  description := file.description

/-- The user without its links. -/
def UserBlock.node (b : UserBlock) : Node where
  username := b.cell.username
  ip := b.cell.ip
  port := b.cell.port
  listFiles := b.files.map fun f => f.2.node

theorem UserBlock.connected_node (b : UserBlock) : b.node.connected = b.cell.connected := rfl

theorem storeCells_append (l₁ l₂ : List UserBlock) :
    storeCells (l₁ ++ l₂) = storeCells l₁ ++ storeCells l₂ := List.flatMap_append

theorem storeCells_cons (b : UserBlock) (l : List UserBlock) :
    storeCells (b :: l) = (b.addr, .user b.cell) :: (fileCells b.files ++ storeCells l) := rfl

theorem storeCells_middle (l₁ l₂ : List UserBlock) (b : UserBlock) :
    storeCells (l₁ ++ b :: l₂) =
      storeCells l₁ ++ (b.addr, .user b.cell) :: (fileCells b.files ++ storeCells l₂) := by
  rw [storeCells_append, storeCells_cons]

theorem length_le_storeCells (blocks : List UserBlock) :
    blocks.length ≤ (storeCells blocks).length := by
  induction blocks with
  | nil => exact le_rfl
  | cons b blocks ih =>
      rw [storeCells_cons, List.length_cons, List.length_cons, List.length_append]
      omega

theorem length_files_le_storeCells {blocks : List UserBlock} {b : UserBlock} (hb : b ∈ blocks) :
    b.files.length ≤ (storeCells blocks).length := by
  obtain ⟨l₁, l₂, rfl⟩ := List.append_of_mem hb
  rw [storeCells_middle, List.length_append, List.length_cons, List.length_append, fileCells,
    List.length_map]
  omega

/-! ## The shape -/

/-- The chain of files of the user reaches `NULL`. -/
def UserBlock.Linked (b : UserBlock) : Prop :=
  Heap.Segment Prod.fst (fun f => f.2.next) b.cell.listFiles b.files none

namespace HeapStore

/-- The store consists of these blocks. -/
structure Shape (s : HeapStore) (blocks : List UserBlock) : Prop where
  /-- No address occurs twice in the chains, and their blocks are what is live. -/
  contents : Heap.Contents s.heap (storeCells blocks)
  /-- The chain from `messages` reaches `NULL`. -/
  messages : Heap.Segment UserBlock.addr (fun b => b.cell.next) s.messages blocks none
  /-- So does the chain from every `list_files`. -/
  listFiles : ∀ b ∈ blocks, b.Linked

theorem shape_empty : HeapStore.empty.Shape [] where
  contents := Heap.contents_empty
  messages := Heap.segment_nil.mpr rfl
  listFiles := by simp

section Reads

variable {heap : Heap.Mem ℕ Cell} {blocks : List UserBlock} {b : UserBlock}

theorem readUser_of_contents {front back : List (ℕ × Cell)} {a : ℕ} {user : UserCell}
    (h : Heap.Contents heap (front ++ (a, .user user) :: back)) : readUser heap a = some user := by
  rw [readUser, h.lookup_middle]
  rfl

theorem readFile_of_contents {front back : List (ℕ × Cell)} {a : ℕ} {file : FileCell}
    (h : Heap.Contents heap (front ++ (a, .file file) :: back)) : readFile heap a = some file := by
  rw [readFile, h.lookup_middle]
  rfl

theorem readUser_of_mem (h : Heap.Contents heap (storeCells blocks)) (hb : b ∈ blocks) :
    readUser heap b.addr = some b.cell := by
  obtain ⟨l₁, l₂, rfl⟩ := List.append_of_mem hb
  exact readUser_of_contents (storeCells_middle l₁ l₂ b ▸ h)

theorem readFile_of_mem (h : Heap.Contents heap (storeCells blocks)) (hb : b ∈ blocks)
    {f : ℕ × FileCell} (hf : f ∈ b.files) : readFile heap f.1 = some f.2 := by
  have hmem : (f.1, Cell.file f.2) ∈ storeCells blocks :=
    List.mem_flatMap.mpr ⟨b, hb, List.mem_cons_of_mem _ (List.mem_map_of_mem hf)⟩
  rw [readFile, (h.lookup _ _).mpr hmem]
  rfl

end Reads

/-! ## Searches -/

section Searches

variable {s : HeapStore} {blocks : List UserBlock} {turns : ℕ}

theorem hasName_eq (b : UserBlock) (username : Bytes) :
    hasName username b.cell = decide (b.node.name = username) := rfl

theorem hasFilename_eq (f : FileCell) (file : Bytes) :
    hasFilename file f = decide (f.node.name = file) := rfl

theorem lookup_blocks {username : Bytes} {l₁ l₂ : List UserBlock} {b : UserBlock}
    (hall : ∀ n ∈ l₁.map UserBlock.node, n.name ≠ username) (hb : b.node.name = username) :
    KeyedList.lookup Node.name username ((l₁ ++ b :: l₂).map UserBlock.node) = some b.node := by
  rw [List.map_append, List.map_cons]
  exact KeyedList.lookup_middle hall hb

/-- The search for a user gives the first one with the name. -/
theorem Shape.searchUser_cases (h : s.Shape blocks) (username : Bytes)
    (hturns : blocks.length < turns) :
    (searchUser turns username s = some none ∧ ∀ n ∈ blocks.map UserBlock.node, n.name ≠ username) ∨
      ∃ l₁ b l₂, blocks = l₁ ++ b :: l₂ ∧ (∀ n ∈ l₁.map UserBlock.node, n.name ≠ username) ∧
        b.node.name = username ∧ searchUser turns username s = some (some b.addr) := by
  rcases Heap.search_cases (hasName username) h.messages
    (fun b hb => readUser_of_mem h.contents hb) hturns with
    ⟨hnone, hall⟩ | ⟨l₁, b, l₂, rfl, hall, hb, hsome⟩
  · exact Or.inl ⟨hnone, List.forall_mem_map.mpr fun b hb => by simpa [hasName_eq] using hall b hb⟩
  · exact Or.inr ⟨l₁, b, l₂, rfl,
      List.forall_mem_map.mpr fun c hc => by simpa [hasName_eq] using hall c hc,
      by simpa [hasName_eq] using hb, hsome⟩

/-- So does the search loop on the list of nodes. -/
theorem Shape.searchUser_visit (h : s.Shape blocks) (username : Bytes)
    (hturns : blocks.length < turns) (body : Node → Option Node × Int) :
    (searchUser turns username s = some none ∧
        KeyedList.visit Node.name username body 1 (blocks.map UserBlock.node) =
          (blocks.map UserBlock.node, 1)) ∨
      ∃ l₁ b l₂, blocks = l₁ ++ b :: l₂ ∧ searchUser turns username s = some (some b.addr) ∧
        readUser s.heap b.addr = some b.cell ∧
        KeyedList.visit Node.name username body 1 (blocks.map UserBlock.node) =
          (l₁.map UserBlock.node ++ ((body b.node).1.toList ++ l₂.map UserBlock.node),
            (body b.node).2) := by
  rcases h.searchUser_cases username hturns with
    ⟨hsearch, hall⟩ | ⟨l₁, b, l₂, rfl, hall, hb, hsearch⟩
  · exact Or.inl ⟨hsearch,
      KeyedList.visit_of_lookup_eq_none (KeyedList.lookup_eq_none_of_ne hall)⟩
  · refine Or.inr ⟨l₁, b, l₂, rfl, hsearch, readUser_of_mem h.contents (by simp), ?_⟩
    rw [List.map_append, List.map_cons, KeyedList.visit_middle hall hb]

/-- The search that keeps the user in front. -/
theorem Shape.searchPrevious_cases (h : s.Shape blocks) (username : Bytes)
    (hturns : blocks.length < turns) :
    (Heap.searchPrevious (readUser s.heap) UserCell.next (hasName username) turns none s.messages =
        some none ∧ ∀ n ∈ blocks.map UserBlock.node, n.name ≠ username) ∨
      ∃ l₁ b l₂, blocks = l₁ ++ b :: l₂ ∧ (∀ n ∈ l₁.map UserBlock.node, n.name ≠ username) ∧
        b.node.name = username ∧
        Heap.searchPrevious (readUser s.heap) UserCell.next (hasName username) turns none
          s.messages = some (some (l₁.getLast?.map UserBlock.addr, b.addr)) := by
  rcases Heap.searchPrevious_cases (hasName username) none h.messages
    (fun b hb => readUser_of_mem h.contents hb) hturns with
    ⟨hnone, hall⟩ | ⟨l₁, b, l₂, rfl, hall, hb, hsome⟩
  · exact Or.inl ⟨hnone, List.forall_mem_map.mpr fun b hb => by simpa [hasName_eq] using hall b hb⟩
  · rw [Option.or_none] at hsome
    exact Or.inr ⟨l₁, b, l₂, rfl,
      List.forall_mem_map.mpr fun c hc => by simpa [hasName_eq] using hall c hc,
      by simpa [hasName_eq] using hb, hsome⟩

variable {b : UserBlock}

/-- The search for a file of a user. -/
theorem Shape.searchFile_cases (h : s.Shape blocks) (file : Bytes) (hb : b ∈ blocks)
    (hturns : b.files.length < turns) :
    (Heap.search (readFile s.heap) FileCell.next (hasFilename file) turns b.cell.listFiles =
        some none ∧ KeyedList.lookup FileNode.name file b.node.listFiles = none) ∨
      ∃ a f, Heap.search (readFile s.heap) FileCell.next (hasFilename file) turns
          b.cell.listFiles = some (some a) ∧
        KeyedList.lookup FileNode.name file b.node.listFiles = some f := by
  rcases Heap.search_cases (hasFilename file) (h.listFiles b hb)
    (fun f hf => readFile_of_mem h.contents hb hf) hturns with
    ⟨hnone, hall⟩ | ⟨f₁, f, f₂, hfiles, hall, hf, hsome⟩
  · refine Or.inl ⟨hnone, KeyedList.lookup_eq_none_of_ne ?_⟩
    exact List.forall_mem_map.mpr fun f hf => by simpa [hasFilename_eq] using hall f hf
  · refine Or.inr ⟨f.1, f.2.node, hsome, ?_⟩
    have hfront : ∀ n ∈ f₁.map fun f => f.2.node, n.name ≠ file :=
      List.forall_mem_map.mpr fun f hf => by simpa [hasFilename_eq] using hall f hf
    rw [UserBlock.node, hfiles, List.map_append, List.map_cons]
    exact KeyedList.lookup_middle hfront (by simpa [hasFilename_eq] using hf)

/-- The search for a file that keeps the file in front. -/
theorem Shape.searchPreviousFile_cases (h : s.Shape blocks) (file : Bytes) (hb : b ∈ blocks)
    (hturns : b.files.length < turns) :
    (Heap.searchPrevious (readFile s.heap) FileCell.next (hasFilename file) turns none
        b.cell.listFiles = some none ∧ ∀ n ∈ b.node.listFiles, n.name ≠ file) ∨
      ∃ f₁ f f₂, b.files = f₁ ++ f :: f₂ ∧ (∀ n ∈ f₁.map fun f => f.2.node, n.name ≠ file) ∧
        f.2.node.name = file ∧
        Heap.searchPrevious (readFile s.heap) FileCell.next (hasFilename file) turns none
          b.cell.listFiles = some (some (f₁.getLast?.map Prod.fst, f.1)) := by
  rcases Heap.searchPrevious_cases (hasFilename file) none (h.listFiles b hb)
    (fun f hf => readFile_of_mem h.contents hb hf) hturns with
    ⟨hnone, hall⟩ | ⟨f₁, f, f₂, hfiles, hall, hf, hsome⟩
  · exact Or.inl ⟨hnone,
      List.forall_mem_map.mpr fun f hf => by simpa [hasFilename_eq] using hall f hf⟩
  · rw [Option.or_none] at hsome
    exact Or.inr ⟨f₁, f, f₂, hfiles,
      List.forall_mem_map.mpr fun f hf => by simpa [hasFilename_eq] using hall f hf,
      by simpa [hasFilename_eq] using hf, hsome⟩

end Searches

/-! ## Operations that change the store -/

/-- The operation gives the code and the nodes that the operation on the list of
nodes gives, and keeps the shape. -/
def Yields (s : HeapStore) (r : Option (HeapStore × Int)) (q : List Node × Int) : Prop :=
  ∃ s' blocks, r = some (s', q.2) ∧ s'.Shape blocks ∧ blocks.map UserBlock.node = q.1 ∧
    s'.initedList = s.initedList

section Operations

variable {s : HeapStore} {blocks l₁ l₂ : List UserBlock} {b : UserBlock} {turns : ℕ}

theorem Shape.yields (h : s.Shape blocks) (code : Int) :
    s.Yields (some (s, code)) (blocks.map UserBlock.node, code) :=
  ⟨s, blocks, rfl, h, rfl, rfl⟩

/-- A user and its files are changed in place. -/
theorem Shape.replace (h : s.Shape (l₁ ++ b :: l₂)) (b' : UserBlock) (haddr : b'.addr = b.addr)
    (hnext : b'.cell.next = b.cell.next) (hlinked : b'.Linked) {heap : Heap.Mem ℕ Cell}
    (hcontents : Heap.Contents heap (storeCells (l₁ ++ b' :: l₂))) :
    ({ s with heap := heap } : HeapStore).Shape (l₁ ++ b' :: l₂) where
  contents := hcontents
  messages := h.messages.replace haddr hnext
  listFiles := by
    intro c hc
    rcases List.mem_append.mp hc with hc | hc
    · exact h.listFiles c (List.mem_append_left _ hc)
    · rcases List.mem_cons.mp hc with rfl | hc
      · exact hlinked
      · exact h.listFiles c (List.mem_append_right _ (List.mem_cons_of_mem b hc))

theorem Shape.registerUser (h : s.Shape blocks) (hturns : blocks.length < turns)
    (o : HeapOutcomes) (username : Bytes) :
    s.Yields (registerUser turns o username s)
      (PeerDirectory.registerUser ((o.malloc.alloc s.heap).map fun _ => o.block) username
        (blocks.map UserBlock.node)) := by
  unfold HeapStore.registerUser PeerDirectory.registerUser
  rcases h.searchUser_cases username hturns with
    ⟨hsearch, hall⟩ | ⟨l₁, b, l₂, rfl, hall, hb, hsearch⟩
  · rw [hsearch, KeyedList.lookup_eq_none_of_ne hall]
    cases halloc : o.malloc.alloc s.heap with
    | none => exact h.yields (-1)
    | some newNode =>
        exact ⟨_, ⟨newNode, _, []⟩ :: blocks, rfl,
          { contents := h.contents.cons (o.malloc.fresh _ _ halloc)
            messages := ⟨rfl, h.messages⟩
            listFiles := List.forall_mem_cons.mpr ⟨rfl, h.listFiles⟩ }, rfl, rfl⟩
  · rw [hsearch, lookup_blocks hall hb]
    exact h.yields 1

/-- `current` is taken out of the chain, but is still live. -/
theorem Shape.linkUser (h : s.Shape (l₁ ++ b :: l₂)) :
    ∃ s' l₁', linkUser (l₁.getLast?.map UserBlock.addr) b.cell.next s = some s' ∧
      Heap.Contents s'.heap (storeCells (l₁' ++ b :: l₂)) ∧
      Heap.Segment UserBlock.addr (fun b => b.cell.next) s'.messages (l₁' ++ l₂) none ∧
      (∀ c ∈ l₁' ++ l₂, c.Linked) ∧ l₁'.map UserBlock.node = l₁.map UserBlock.node ∧
      s'.initedList = s.initedList := by
  have hlinked : ∀ c ∈ l₁ ++ l₂, c.Linked := fun c hc =>
    h.listFiles c (List.mem_append.mpr ((List.mem_append.mp hc).imp_right (List.mem_cons_of_mem b)))
  rcases List.eq_nil_or_concat l₁ with rfl | ⟨l₀, c, rfl⟩
  · exact ⟨_, [], rfl, h.contents, (Heap.segment_cons.mp h.messages).2, hlinked, rfl, rfl⟩
  · have hmiddle := storeCells_middle l₀ (b :: l₂)
    rw [List.concat_eq_append, List.append_assoc] at h hlinked
    have hcontents := h.contents
    rw [List.singleton_append, hmiddle] at hcontents
    obtain ⟨heap, hstore, hcontents'⟩ :=
      hcontents.store (.user { c.cell with next := b.cell.next })
    refine ⟨{ s with heap := heap }, l₀ ++ [{ c with cell := { c.cell with next := b.cell.next } }],
      ?_, ?_, ?_, ?_, ?_, rfl⟩
    · simp [HeapStore.linkUser, readUser_of_contents hcontents, hstore]
    · rw [List.append_assoc, List.singleton_append, hmiddle]
      exact hcontents'
    · rw [List.append_assoc, List.singleton_append]
      exact h.messages.unlink rfl rfl
    · rw [List.append_assoc]
      intro d hd
      rcases List.mem_append.mp hd with hd | hd
      · exact hlinked d (List.mem_append_left _ hd)
      · rcases List.mem_cons.mp hd with rfl | hd
        · exact hlinked c (by simp)
        · exact hlinked d (List.mem_append_right _ (List.mem_cons_of_mem c hd))
    · simp [UserBlock.node]

theorem Shape.unregisterUser (h : s.Shape blocks) (hturns : (storeCells blocks).length < turns)
    (username : Bytes) :
    s.Yields (unregisterUser turns username s)
      (PeerDirectory.unregisterUser username (blocks.map UserBlock.node)) := by
  unfold HeapStore.unregisterUser PeerDirectory.unregisterUser
  rcases h.searchPrevious_cases username
    ((length_le_storeCells blocks).trans_lt hturns) with
    ⟨hsearch, hall⟩ | ⟨l₁, b, l₂, rfl, hall, hb, hsearch⟩
  · rw [hsearch, KeyedList.visit_of_lookup_eq_none (KeyedList.lookup_eq_none_of_ne hall)]
    exact h.yields 1
  · have hmem : b ∈ l₁ ++ b :: l₂ := by simp
    have hread := readUser_of_mem h.contents hmem
    obtain ⟨s', l₁', hlink, hcontents, hmessages, hlinked, hnodes, hinited⟩ := h.linkUser
    rw [storeCells_middle] at hcontents
    have hread' := readUser_of_contents hcontents
    -- the files are freed first, then the user
    have hfiles : Heap.Contents s'.heap ((storeCells l₁' ++ [(b.addr, Cell.user b.cell)]) ++
        (b.files.map (fun f => (f.1, Cell.file f.2)) ++ storeCells l₂)) := by
      simpa [fileCells] using hcontents
    obtain ⟨heap, hchain, huser⟩ := Heap.freeChain_eq Cell.asFile
      (fun f => Cell.file f.2) (h.listFiles b hmem) (fun f _ => rfl) hfiles
      ((length_files_le_storeCells hmem).trans_lt hturns)
    rw [List.append_assoc, List.singleton_append] at huser
    obtain ⟨heap', hfree, hrest⟩ := huser.free
    rw [← storeCells_append] at hrest
    rw [hsearch, List.map_append, List.map_cons, KeyedList.visit_middle hall hb]
    refine ⟨{ s' with heap := heap' }, l₁' ++ l₂, ?_, ⟨hrest, hmessages, hlinked⟩, ?_, hinited⟩
    · simp [hread, hlink, hread', hchain, hfree]
    · simp [hnodes]

/-- The fields of a user are changed, but none of its links. -/
theorem Shape.storeUser (h : s.Shape (l₁ ++ b :: l₂)) (cell : UserCell)
    (hnext : cell.next = b.cell.next) (hfiles : cell.listFiles = b.cell.listFiles) :
    ∃ heap, Heap.store s.heap b.addr (.user cell) = some heap ∧
      ({ s with heap := heap } : HeapStore).Shape (l₁ ++ { b with cell := cell } :: l₂) := by
  have hcontents := h.contents
  rw [storeCells_middle] at hcontents
  obtain ⟨heap, hstore, hcontents'⟩ := hcontents.store (.user cell)
  have hlinked : UserBlock.Linked { b with cell := cell } := by
    rw [UserBlock.Linked, hfiles]
    exact h.listFiles b (by simp)
  refine ⟨heap, hstore, h.replace { b with cell := cell } rfl hnext hlinked ?_⟩
  rw [storeCells_middle]
  exact hcontents'

theorem Shape.connectUser (h : s.Shape blocks) (hturns : blocks.length < turns)
    (getpeername : Option InAddr) (port username : Bytes) :
    s.Yields (connectUser turns getpeername port username s)
      (PeerDirectory.connectUser getpeername port username (blocks.map UserBlock.node)) := by
  unfold HeapStore.connectUser PeerDirectory.connectUser
  rcases h.searchUser_visit username hturns (connectNode getpeername port) with
    ⟨hsearch, hvisit⟩ | ⟨l₁, b, l₂, rfl, hsearch, hread, hvisit⟩
  · rw [hsearch, hvisit]
    exact h.yields 1
  · rw [hsearch, hvisit]
    unfold connectNode
    rw [b.connected_node]
    cases hc : b.cell.connected with
    | true => simpa [hread, hc] using h.yields 2
    | false =>
        cases getpeername with
        | none => simpa [hread, hc] using h.yields 3
        | some addr =>
            obtain ⟨heap, hstore, hshape⟩ := h.storeUser { b.cell with
              ip := CharArray.strncpy maxValueLength (inetNtoa addr)
              port := CharArray.strncpy maxValueLength port } rfl rfl
            refine ⟨_, _, ?_, hshape, ?_, rfl⟩
            · simp [hread, hc, hstore]
            · simp [UserBlock.node]

theorem Shape.disconnectUser (h : s.Shape blocks) (hturns : blocks.length < turns)
    (username : Bytes) :
    s.Yields (disconnectUser turns username s)
      (PeerDirectory.disconnectUser username (blocks.map UserBlock.node)) := by
  unfold HeapStore.disconnectUser PeerDirectory.disconnectUser
  rcases h.searchUser_visit username hturns disconnectNode with
    ⟨hsearch, hvisit⟩ | ⟨l₁, b, l₂, rfl, hsearch, hread, hvisit⟩
  · rw [hsearch, hvisit]
    exact h.yields 1
  · rw [hsearch, hvisit]
    unfold disconnectNode
    rw [b.connected_node]
    cases hc : b.cell.connected with
    | false => simpa [hread, hc] using h.yields 2
    | true =>
        obtain ⟨heap, hstore, hshape⟩ := h.storeUser { b.cell with
          ip := b.cell.ip.set 0 0
          port := b.cell.port.set 0 0 } rfl rfl
        refine ⟨_, _, ?_, hshape, ?_, rfl⟩
        · simp [hread, hc, hstore]
        · simp [UserBlock.node]

/-- A block that is not live becomes the first file of the user. -/
theorem Shape.insertFile (h : s.Shape (l₁ ++ b :: l₂)) {newFile : ℕ} (hnew : newFile ∉ s.heap)
    (file : FileCell) (hnext : file.next = b.cell.listFiles) :
    ∃ heap, linkFile b.addr none (some newFile) (s.heap.insert newFile (.file file)) = some heap ∧
      ({ s with heap := heap } : HeapStore).Shape (l₁ ++
        { b with
          cell := { b.cell with listFiles := some newFile }
          files := (newFile, file) :: b.files } :: l₂) := by
  have hcontents := h.contents
  rw [storeCells_middle, List.append_cons] at hcontents
  have hinsert := hcontents.insert (x := Cell.file file) hnew
  rw [← List.append_cons] at hinsert
  obtain ⟨heap, hstore, hcontents'⟩ :=
    hinsert.store (.user { b.cell with listFiles := some newFile })
  have hread := readUser_of_contents hinsert
  let b' : UserBlock :=
    { b with
      cell := { b.cell with listFiles := some newFile }
      files := (newFile, file) :: b.files }
  have hlinked : b'.Linked := by
    refine Heap.segment_cons.mpr ⟨rfl, ?_⟩
    change Heap.Segment _ _ file.next b.files none
    rw [hnext]
    exact h.listFiles b (by simp)
  refine ⟨heap, by simp [linkFile, hread, hstore], h.replace b' rfl rfl hlinked ?_⟩
  rw [storeCells_middle]
  exact hcontents'

theorem Shape.registerFileFromUser (h : s.Shape blocks)
    (hturns : (storeCells blocks).length < turns) (o : HeapOutcomes)
    (username file description : Bytes) :
    s.Yields (registerFileFromUser turns o username file description s)
      (PeerDirectory.registerFileFromUser (o.malloc.alloc s.heap).isSome username file description
        (blocks.map UserBlock.node)) := by
  unfold HeapStore.registerFileFromUser PeerDirectory.registerFileFromUser
  rcases h.searchUser_visit username ((length_le_storeCells blocks).trans_lt hturns)
      (registerFileNode (o.malloc.alloc s.heap).isSome file description) with
    ⟨hsearch, hvisit⟩ | ⟨l₁, b, l₂, rfl, hsearch, hread, hvisit⟩
  · rw [hsearch, hvisit]
    exact h.yields 1
  · have hmem : b ∈ l₁ ++ b :: l₂ := by simp
    rw [hsearch, hvisit]
    unfold registerFileNode
    rw [b.connected_node]
    cases hc : b.cell.connected with
    | false => simpa [hread, hc] using h.yields 2
    | true =>
        rcases h.searchFile_cases file hmem
          ((length_files_le_storeCells hmem).trans_lt hturns) with
          ⟨hfile, hlookup⟩ | ⟨a, f, hfile, hlookup⟩
        · cases halloc : o.malloc.alloc s.heap with
          | none => simpa [hread, hc, hfile, hlookup, halloc] using h.yields 4
          | some newFile =>
              obtain ⟨heap, hlink, hshape⟩ := h.insertFile (o.malloc.fresh _ _ halloc)
                { filename := CharArray.strncpy maxValueLength file
                  description := CharArray.strncpy maxValueLength description
                  next := b.cell.listFiles } rfl
              refine ⟨_, _, ?_, hshape, ?_, rfl⟩
              · simp [hread, hc, hfile, hlookup, hlink]
              · simp only [hlookup, if_true]
                simp [UserBlock.node, FileCell.node]
        · simpa [hread, hc, hfile, hlookup] using h.yields 3

/-- The file is taken out of the chain of the user, but is still live. -/
theorem linkFile_eq {heap : Heap.Mem ℕ Cell} {f₁ f₂ : List (ℕ × FileCell)} {f : ℕ × FileCell}
    (hcontents : Heap.Contents heap (storeCells (l₁ ++ b :: l₂))) (hlinked : b.Linked)
    (hfiles : b.files = f₁ ++ f :: f₂) :
    ∃ heap' listFiles f₁', linkFile b.addr (f₁.getLast?.map Prod.fst) f.2.next heap = some heap' ∧
      Heap.Contents heap' (storeCells (l₁ ++
        ⟨b.addr, { b.cell with listFiles := listFiles }, f₁' ++ f :: f₂⟩ :: l₂)) ∧
      Heap.Segment Prod.fst (fun f => f.2.next) listFiles (f₁' ++ f₂) none ∧
      f₁'.map (fun f => f.2.node) = f₁.map fun f => f.2.node := by
  have hsegment : Heap.Segment Prod.fst (fun f => f.2.next) b.cell.listFiles (f₁ ++ f :: f₂) none :=
    hfiles ▸ hlinked
  rw [storeCells_middle, hfiles] at hcontents
  rcases List.eq_nil_or_concat f₁ with rfl | ⟨f₀, g, rfl⟩
  · obtain ⟨heap', hstore, hcontents'⟩ :=
      hcontents.store (.user { b.cell with listFiles := f.2.next })
    refine ⟨heap', f.2.next, [], ?_, ?_, (Heap.segment_cons.mp hsegment).2, rfl⟩
    · simp [linkFile, readUser_of_contents hcontents, hstore]
    · rw [storeCells_middle]
      exact hcontents'
  · rw [List.concat_eq_append, List.append_assoc, List.singleton_append] at hsegment
    have hfile : Heap.Contents heap ((storeCells l₁ ++ (b.addr, .user b.cell) :: fileCells f₀) ++
        (g.1, .file g.2) :: (fileCells (f :: f₂) ++ storeCells l₂)) := by
      simpa [fileCells] using hcontents
    obtain ⟨heap', hstore, hcontents'⟩ := hfile.store (.file { g.2 with next := f.2.next })
    refine ⟨heap', b.cell.listFiles, f₀ ++ [(g.1, { g.2 with next := f.2.next })], ?_, ?_, ?_, ?_⟩
    · simp [linkFile, readFile_of_contents hfile, hstore]
    · rw [storeCells_middle]
      simpa [fileCells] using hcontents'
    · rw [List.append_assoc, List.singleton_append]
      exact hsegment.unlink rfl rfl
    · simp [FileCell.node]

theorem Shape.unregisterFileFromUser (h : s.Shape blocks)
    (hturns : (storeCells blocks).length < turns) (username file : Bytes) :
    s.Yields (unregisterFileFromUser turns username file s)
      (PeerDirectory.unregisterFileFromUser username file (blocks.map UserBlock.node)) := by
  unfold HeapStore.unregisterFileFromUser PeerDirectory.unregisterFileFromUser
  rcases h.searchUser_visit username ((length_le_storeCells blocks).trans_lt hturns)
      (unregisterFileNode file) with
    ⟨hsearch, hvisit⟩ | ⟨l₁, b, l₂, rfl, hsearch, hread, hvisit⟩
  · rw [hsearch, hvisit]
    exact h.yields 1
  · have hmem : b ∈ l₁ ++ b :: l₂ := by simp
    rw [hsearch, hvisit]
    unfold unregisterFileNode
    rw [b.connected_node]
    cases hc : b.cell.connected with
    | false => simpa [hread, hc] using h.yields 2
    | true =>
        rcases h.searchPreviousFile_cases file hmem
          ((length_files_le_storeCells hmem).trans_lt hturns) with
          ⟨hfile, hne⟩ | ⟨f₁, f, f₂, hfiles, hne, hf, hfile⟩
        · rw [KeyedList.visit_of_lookup_eq_none (KeyedList.lookup_eq_none_of_ne hne)]
          simpa [hread, hc, hfile] using h.yields 3
        · have hreadFile : readFile s.heap f.1 = some f.2 :=
            readFile_of_mem h.contents hmem (by simp [hfiles])
          obtain ⟨heap, listFiles, f₁', hlink, hcontents, hsegment, hnodes⟩ :=
            linkFile_eq h.contents (h.listFiles b hmem) hfiles
          have hunlinked : Heap.Contents heap ((storeCells l₁ ++
              (b.addr, .user { b.cell with listFiles := listFiles }) :: fileCells f₁') ++
              (f.1, .file f.2) :: (fileCells f₂ ++ storeCells l₂)) := by
            rw [storeCells_middle] at hcontents
            simpa [fileCells] using hcontents
          obtain ⟨heap', hfree, hrest⟩ := hunlinked.free
          let b' : UserBlock := ⟨b.addr, { b.cell with listFiles := listFiles }, f₁' ++ f₂⟩
          have hcontents' : Heap.Contents heap' (storeCells (l₁ ++ b' :: l₂)) := by
            rw [storeCells_middle]
            simpa [fileCells, b'] using hrest
          have hvisitFile : KeyedList.visit FileNode.name file (fun _ => (none, (0 : Int))) 3
              b.node.listFiles = (b'.node.listFiles, 0) := by
            rw [UserBlock.node, hfiles, List.map_append, List.map_cons,
              KeyedList.visit_middle hne hf]
            simp [UserBlock.node, b', hnodes]
          rw [hvisitFile]
          refine ⟨_, _, ?_, h.replace b' rfl rfl hsegment hcontents', ?_, rfl⟩
          · simp [hread, hc, hfile, hreadFile, hlink, hfree]
          · simp [UserBlock.node, b']

end Operations

end HeapStore

end PeerDirectory
