import PeerDirectory.Server.Connections

/-!
# The strings in the store

What a call can do to the nodes of the list, and two things it keeps. Every array
of a node holds a string that has its NUL and no newline, whatever the clients
send, because `readLine` has cut it. A user has an address exactly when it has a
port as long as no CONNECT without a port gets through: `connect_user` takes the
port as it is, and all operations look at the address only.
-/

namespace PeerDirectory

/-! ## Nodes after a call -/

section Nodes

variable {o : Outcomes} {c : Call} {messages messages' : List Node} {r : Result}

/-- What holds of all nodes holds after a call, if it holds of a new node and is
kept where a node is rewritten. -/
theorem Call.forall_body {P : Node → Prop} (hmessages : ∀ n ∈ messages, P n)
    (hnew : ∀ username (block : Node), c = .registerUser username →
      P { block with
          username := CharArray.strncpy maxValueLength username
          ip := block.ip.set 0 0
          port := block.port.set 0 0
          listFiles := [] })
    (hconnect : ∀ port username addr (n : Node), c = .connectUser port username → P n →
      n ∈ messages → n.name = username → n.connected = false → o.getpeername = some addr →
      P { n with
          ip := CharArray.strncpy maxValueLength (inetNtoa addr)
          port := CharArray.strncpy maxValueLength port })
    (hdisconnect : ∀ n : Node, P n → P { n with ip := n.ip.set 0 0, port := n.port.set 0 0 })
    (hpublish : ∀ username file description (n : Node),
      c = .registerFileFromUser username file description → P n →
      P { n with
          listFiles :=
            { filename := CharArray.strncpy maxValueLength file
              description := CharArray.strncpy maxValueLength description } :: n.listFiles })
    (hdelete : ∀ (n : Node) files, P n → (∀ f ∈ files, f ∈ n.listFiles) →
      P { n with listFiles := files })
    (h : c.body o messages = some (messages', r)) : ∀ n ∈ messages', P n := by
  cases c with
  | registerUser username =>
      cases h
      unfold PeerDirectory.registerUser
      cases KeyedList.lookup Node.name username messages with
      | some n => exact hmessages
      | none =>
          cases o.mallocNode with
          | none => exact hmessages
          | some block =>
              exact List.forall_mem_cons.mpr ⟨hnew username block rfl, hmessages⟩
  | unregisterUser username =>
      cases h
      refine KeyedList.forall_mem_visit hmessages ?_
      intro a b _ hab
      cases hab
  | connectUser port username =>
      cases h
      intro n hn
      rcases KeyedList.mem_visit hn with hn | ⟨a, ha, hname, hab⟩
      · exact hmessages n hn
      · rcases connectNode_cases hab with rfl | ⟨hconnected, addr, haddr, rfl⟩
        · exact hmessages _ ha
        · exact hconnect port username addr a rfl (hmessages a ha) ha hname hconnected haddr
  | disconnectUser username =>
      cases h
      refine KeyedList.forall_mem_visit hmessages ?_
      intro a b ha hab
      rcases disconnectNode_cases hab with rfl | ⟨-, rfl⟩
      · exact ha
      · exact hdisconnect a ha
  | registerFileFromUser username file description =>
      cases h
      refine KeyedList.forall_mem_visit hmessages ?_
      intro a b ha hab
      rcases registerFileNode_cases hab with rfl | ⟨-, -, -, rfl⟩
      · exact ha
      · exact hpublish username file description a rfl ha
  | unregisterFileFromUser username file =>
      cases h
      refine KeyedList.forall_mem_visit hmessages ?_
      intro a b ha hab
      rcases unregisterFileNode_cases hab with rfl | ⟨-, rfl⟩
      · exact ha
      · refine hdelete a _ ha fun f hf => ?_
        rcases KeyedList.mem_visit hf with hf | ⟨g, -, -, hgf⟩
        · exact hf
        · cases hgf
  | listUsers username =>
      rw [Call.body_of_not_initialises rfl h]
      exact hmessages
  | listContent username username2 =>
      rw [Call.body_of_not_initialises rfl h]
      exact hmessages

end Nodes

/-! ## Strings with a NUL and without a newline -/

/-- The array holds a string with its NUL and without a newline. -/
def HoldsLine (a : CharArray maxValueLength) : Prop :=
  0 ∈ a.bytes ∧ 10 ∉ a.str

def FileNode.HoldsLines (f : FileNode) : Prop :=
  HoldsLine f.filename ∧ HoldsLine f.description

/-- Every array of the user and of its files does. -/
def Node.HoldsLines (n : Node) : Prop :=
  HoldsLine n.username ∧ HoldsLine n.ip ∧ HoldsLine n.port ∧ ∀ f ∈ n.listFiles, f.HoldsLines

/-- What holds of the store at every moment. -/
structure ListState.WellStored (st : ListState) : Prop where
  unique : Unique st.messages
  lines : ∀ n ∈ st.messages, n.HoldsLines

theorem holdsLine_strncpy {s : Bytes} (hfits : FitsField s) (hline : 10 ∉ s) :
    HoldsLine (CharArray.strncpy maxValueLength s) :=
  ⟨CharArray.nul_mem_strncpy hfits.2, by rw [hfits.str_strncpy]; exact hline⟩

theorem holdsLine_inetNtoa (addr : InAddr) :
    HoldsLine (CharArray.strncpy maxValueLength (inetNtoa addr)) := by
  have hlen : (inetNtoa addr).length < maxValueLength :=
    (length_inetNtoa_le addr).trans_lt (by decide)
  refine holdsLine_strncpy ⟨nul_notMem_inetNtoa addr, hlen⟩ fun h => ?_
  have := byte_of_mem_inetNtoa h
  simp at this

theorem holdsLine_set_nul (a : CharArray maxValueLength) : HoldsLine (a.set 0 0) :=
  ⟨a.nul_mem_set (by decide), by simp⟩

/-- A call with lines as its arguments stores lines. -/
theorem Call.holdsLines_body {o : Outcomes} {c : Call} {messages messages' : List Node}
    {r : Result} (hfits : c.Fits) (hlines : ∀ a ∈ c.args, 10 ∉ a)
    (hmessages : ∀ n ∈ messages, n.HoldsLines) (h : c.body o messages = some (messages', r)) :
    ∀ n ∈ messages', n.HoldsLines := by
  have harg : ∀ a ∈ c.args, HoldsLine (CharArray.strncpy maxValueLength a) := fun a ha =>
    holdsLine_strncpy (hfits a ha) (hlines a ha)
  refine Call.forall_body hmessages ?_ ?_ ?_ ?_ ?_ h
  · rintro username block rfl
    exact ⟨harg username (by simp [Call.args]), holdsLine_set_nul _, holdsLine_set_nul _, by simp⟩
  · rintro port username addr n rfl ⟨husername, -, -, hfiles⟩ - - - -
    exact ⟨husername, holdsLine_inetNtoa addr, harg port (by simp [Call.args]), hfiles⟩
  · rintro n ⟨husername, -, -, hfiles⟩
    exact ⟨husername, holdsLine_set_nul _, holdsLine_set_nul _, hfiles⟩
  · rintro username file description n rfl ⟨husername, hip, hport, hfiles⟩
    refine ⟨husername, hip, hport, List.forall_mem_cons.mpr ⟨⟨?_, ?_⟩, hfiles⟩⟩
    · exact harg file (by simp [Call.args])
    · exact harg description (by simp [Call.args])
  · rintro n files ⟨husername, hip, hport, hfiles⟩ hsub
    exact ⟨husername, hip, hport, fun f hf => hfiles f (hsub f hf)⟩

/-- What the handlers share, with the strings in it. -/
structure Shared.HoldsLines (g : Shared) : Prop where
  valid : g.Valid
  buffer : 10 ∉ g.buffer.bytes
  nodes : ∀ n ∈ g.store.messages, n.HoldsLines

/-- The strings of a handler are lines that fit. -/
def Handler.HoldsLines (h : Handler) : Prop :=
  h.Fits ∧ ∀ v, 10 ∉ h.locals v

theorem Operation.args_storeCall {buffer : Bytes} {locals : Var → Bytes} {op : Operation}
    {a : Bytes} (ha : a ∈ (op.storeCall buffer locals).args) :
    a = buffer ∨ ∃ v, a = locals v := by
  cases op <;>
    simp only [storeCall, Call.args, List.mem_cons, List.not_mem_nil, or_false] at ha
  all_goals first
    | exact Or.inl ha
    | exact Or.inr ⟨_, ha⟩
    | (rcases ha with ha | ha <;> exact Or.inr ⟨_, ha⟩)
    | (rcases ha with ha | ha | ha <;> exact Or.inr ⟨_, ha⟩)

/-- Every statement keeps the strings in order, whatever the reads give. -/
theorem keeps_holdsLines : Statement.Keeps Shared.HoldsLines Handler.HoldsLines := by
  rintro s conn g g' h h' flow ⟨hvalid, hbuffer, hnodes⟩ ⟨hfits, hlocals⟩ hexec
  obtain ⟨hvalid', hfits'⟩ := keeps_valid s conn g g' h h' flow hvalid hfits hexec
  cases s with
  | readLine =>
      cases hexec
      exact ⟨⟨hvalid', newline_notMem_readLine hbuffer _, hnodes⟩, hfits', hlocals⟩
  | sprintf dst =>
      cases hexec
      refine ⟨⟨hvalid', hbuffer, hnodes⟩, hfits', fun v => ?_⟩
      by_cases hv : v = dst
      · subst hv
        simpa using CharArray.notMem_str hbuffer
      · simpa [Function.update_of_ne hv] using hlocals v
  | memset =>
      cases hexec
      exact ⟨⟨hvalid', CharArray.notMem_memset (by decide), hnodes⟩, hfits', hlocals⟩
  | call op =>
      obtain ⟨⟨store, r⟩, hperform, hexec⟩ := Option.map_eq_some_iff.mp hexec
      cases hexec
      obtain ⟨hbody, -⟩ := Call.perform_eq_some hvalid.store.lazy hperform
      have hcall := op.fits_storeCall (fitsField_str hvalid.buffer) hfits
      have hlines : ∀ a ∈ (op.storeCall g.buffer.str h.locals).args, 10 ∉ a := by
        intro a ha
        rcases Operation.args_storeCall ha with rfl | ⟨v, rfl⟩
        · exact CharArray.notMem_str hbuffer
        · exact hlocals v
      exact ⟨⟨hvalid', hbuffer, Call.holdsLines_body hcall hlines hnodes hbody⟩, hfits', hlocals⟩
  | rpcLlamada file =>
      cases hexec
      exact ⟨⟨hvalid', hbuffer, hnodes⟩, hfits', hlocals⟩
  | sendError =>
      cases hexec
      exact ⟨⟨hvalid', hbuffer, hnodes⟩, hfits', hlocals⟩
  | sendUsers =>
      obtain ⟨rfl, hsame⟩ := Statement.locals_of_send (Or.inl rfl) hexec
      exact ⟨⟨hvalid', hbuffer, hnodes⟩, hfits', fun v => hsame ▸ hlocals v⟩
  | sendContent =>
      obtain ⟨rfl, hsame⟩ := Statement.locals_of_send (Or.inr rfl) hexec
      exact ⟨⟨hvalid', hbuffer, hnodes⟩, hfits', fun v => hsame ▸ hlocals v⟩

theorem Handler.holdsLines_start (input : List ReadEvent) : (Handler.start input).HoldsLines :=
  ⟨Handler.fits_start input, by simp [Handler.start]⟩

theorem Shared.holdsLines_init : Shared.init.HoldsLines where
  valid := Shared.valid_init
  buffer := CharArray.notMem_memset (by decide)
  nodes := by simp [Shared.init, ListState.empty]

theorem Shared.HoldsLines.wellStored {g : Shared} (h : g.HoldsLines) : g.store.WellStored :=
  ⟨h.valid.store.unique, h.nodes⟩

/-- Between the connections and between any two statements of their handlers, the
names in the store are unique and all its arrays hold strings with their NUL and
without a newline, whatever the connections are. -/
theorem stored_strings (conns : List Connection) :
    (∀ g, serve .init conns = some g → g.store.WellStored) ∧
      ∀ (order : List (Fin conns.length)) (s : HandlerSystem (Fin conns.length)),
        Run.run (HandlerSystem.step conns.get) (.init conns.get .init) order = some s →
          s.shared.store.WellStored := by
  constructor
  · intro g hserve
    have hstep : ∀ (g : Shared) (conn : Connection) (g' : Shared), g.HoldsLines →
        serveOne g conn = some g' → g'.HoldsLines := by
      intro g conn g' hg h
      obtain ⟨r, hr, rfl⟩ := Option.map_eq_some_iff.mp h
      exact keeps_holdsLines.treatRequest Handler.holdsLines_start hg hr
    exact (Run.invariant hstep Shared.holdsLines_init hserve).wellStored
  · intro order s hrun
    exact (keeps_holdsLines.run Handler.holdsLines_start Shared.holdsLines_init hrun).wellStored

/-- A name that is too long, a newline in a request, and a request that is cut
short. -/
theorem stored_strings_cut :
    let o := Outcomes.success ⟨10, 0, 0, 1⟩
    let conns : List Connection :=
      [.ofStream (encodeRequest .register [[100], List.replicate 300 97]) o,
        .ofStream (encodeRequest .register [[100], [98, 10, 99]]) o,
        .ofStream (encodeRequest .connect [[100], [98]]) o]
    ∃ g, serve .init conns = some g ∧ g.store.WellStored := by
  intro o conns
  have hsome : (serve .init conns).isSome := by decide +kernel
  obtain ⟨g, hserve⟩ := Option.isSome_iff_exists.mp hsome
  exact ⟨g, hserve, (stored_strings conns).1 g hserve⟩

/-! ## Addresses and ports -/

/-- The user has an address exactly when it has a port. -/
def Node.FullAddress (n : Node) : Prop :=
  n.ip.str ≠ [] ↔ n.port.str ≠ []

/-- Every user does. -/
def FullAddresses (messages : List Node) : Prop :=
  ∀ n ∈ messages, n.FullAddress

/-- A call that connects a user is given a port. -/
def Call.GivesPort (o : Outcomes) (messages : List Node) : Call → Prop
  | .connectUser port username =>
      o.getpeername ≠ none →
        (∃ n, KeyedList.lookup Node.name username messages = some n ∧ n.connected = false) →
          port ≠ []
  | _ => True

theorem fullAddress_connected {addr : InAddr} {port : Bytes} (hport : FitsField port) (n : Node) :
    Node.FullAddress { n with
        ip := CharArray.strncpy maxValueLength (inetNtoa addr)
        port := CharArray.strncpy maxValueLength port } ↔ port ≠ [] := by
  simp only [Node.FullAddress, str_strncpy_inetNtoa, hport.str_strncpy]
  exact iff_true_left (inetNtoa_ne_nil addr)

/-- A call keeps all addresses full exactly when it gives a port to a user it
connects. -/
theorem Call.fullAddresses_body_iff {o : Outcomes} {c : Call} {messages messages' : List Node}
    {r : Result} (hunique : Unique messages) (hfits : c.Fits) (hmessages : FullAddresses messages)
    (h : c.body o messages = some (messages', r)) :
    FullAddresses messages' ↔ c.GivesPort o messages := by
  constructor
  · intro hfull
    cases c with
    | connectUser port username =>
        rintro hpeer ⟨n, hn, hconnected⟩
        obtain ⟨addr, haddr⟩ := Option.ne_none_iff_exists'.mp hpeer
        cases h
        have hlookup : KeyedList.lookup Node.name username
            (PeerDirectory.connectUser o.getpeername port username messages).1 =
            (KeyedList.lookup Node.name username messages).bind fun n =>
              (connectNode o.getpeername port n).1 :=
          KeyedList.lookup_visit_self hunique.users (keepsKey_connectNode o.getpeername port)
        have hnode : (connectNode o.getpeername port n).1 = some { n with
            ip := CharArray.strncpy maxValueLength (inetNtoa addr)
            port := CharArray.strncpy maxValueLength port } := by
          simp [connectNode, hconnected, haddr]
        rw [hn, Option.bind_some, hnode] at hlookup
        have hnew := hfull _ (KeyedList.mem_of_lookup hlookup)
        exact (fullAddress_connected (hfits port (by simp [Call.args])) n).mp hnew
    | _ => trivial
  · intro hport
    refine Call.forall_body hmessages ?_ ?_ ?_ ?_ ?_ h
    · intro username block _
      simp [Node.FullAddress]
    · rintro port username addr n rfl - hmem rfl hconnected hpeer
      rw [fullAddress_connected (hfits port (by simp [Call.args]))]
      refine hport (by simp [hpeer]) ⟨n, ?_, hconnected⟩
      exact (KeyedList.lookup_eq_some_iff hunique.users).mpr ⟨hmem, rfl⟩
    · intro n _
      simp [Node.FullAddress]
    · intro username file description n _ hn
      exact hn
    · intro n files hn _
      exact hn

/-- A connection that connects a user is given a port. -/
def PortGiven (g : Shared) (conn : Connection) : Prop :=
  conn.mallocStrings = true → ∀ op, command (commandString g conn.bytes) = some op →
    (op.requestCall conn.bytes).GivesPort conn.outcomes g.store.messages

theorem fullAddresses_serveOne_iff {conn : Connection} {g g' : Shared} (hvalid : g.Valid)
    (hfull : FullAddresses g.store.messages) (hclean : conn.Clean)
    (h : serveOne g conn = some g') : FullAddresses g'.store.messages ↔ PortGiven g conn := by
  obtain ⟨⟨g', h⟩, hrun, rfl⟩ := Option.map_eq_some_iff.mp h
  cases hmalloc : conn.mallocStrings with
  | false =>
      rw [treatRequest_of_not_malloc conn g hmalloc] at hrun
      cases hrun
      refine iff_of_true hfull fun hm => ?_
      rw [hmalloc] at hm
      cases hm
  | true =>
      have hspec := treatRequest_eq conn conn.bytes g hclean hmalloc
      rw [hrun, Option.map_some] at hspec
      cases hcommand : command (commandString g conn.bytes) with
      | none =>
          rw [hcommand, Option.some.injEq] at hspec
          have hstore : g'.store = g.store := congrArg Served.store hspec
          rw [hstore]
          refine iff_of_true hfull fun _ op hop => ?_
          rw [hcommand] at hop
          cases hop
      | some op =>
          rw [hcommand] at hspec
          obtain ⟨⟨store, r⟩, hperform, hserved⟩ := Option.bind_eq_some_iff.mp hspec.symm
          obtain ⟨listing, -, hserved⟩ := Option.map_eq_some_iff.mp hserved
          have hstore : g'.store = store := (congrArg Served.store hserved).symm
          obtain ⟨hbody, -⟩ := Call.perform_eq_some hvalid.store.lazy hperform
          rw [hstore, Call.fullAddresses_body_iff hvalid.store.unique
            (op.fits_requestCall conn.bytes) hfull hbody]
          constructor
          · intro hport _ op' hop'
            rw [hcommand, Option.some.injEq] at hop'
            rw [← hop']
            exact hport
          · intro hport
            exact hport hmalloc op hcommand

/-- A CONNECT is always carried out. -/
theorem serveOne_isSome_of_not_portGiven {conn : Connection} {g : Shared} (hclean : conn.Clean)
    (h : ¬ PortGiven g conn) : (serveOne g conn).isSome := by
  simp only [PortGiven, Classical.not_imp, not_forall] at h
  obtain ⟨hmalloc, op, hcommand, hport⟩ := h
  have hspec := treatRequest_eq conn conn.bytes g hclean hmalloc
  rw [hcommand] at hspec
  cases op with
  | connect =>
      have hsome : (Operation.connect.serve conn conn.bytes g.store).isSome := by
        simp [Operation.serve, Operation.requestCall, Call.perform, Call.body, Operation.listing]
      rw [serveOne, Option.isSome_map]
      rw [← Option.isSome_map (f := observe), hspec]
      exact hsome
  | _ => exact absurd trivial hport

/-- In a sequence of connections every user has an address exactly when it has a
port, at every point, exactly as long as every CONNECT that connects a user has a
port field that is not empty. -/
theorem full_addresses_iff {conns : List Connection} (hclean : ∀ conn ∈ conns, conn.Clean) :
    (∀ handled, handled <+: conns → ∀ g, serve .init handled = some g →
        FullAddresses g.store.messages) ↔
      Run.Guarded serveOne PortGiven .init conns := by
  have hstep : ∀ (g : Shared) (conn : Connection) (g' : Shared), g.Valid →
      FullAddresses g.store.messages → conn.Clean → serveOne g conn = some g' →
        (FullAddresses g'.store.messages ↔ PortGiven g conn) :=
    fun _ _ _ hg hfull hclean h => fullAddresses_serveOne_iff hg hfull hclean h
  have hinit : FullAddresses Shared.init.store.messages := by
    simp [FullAddresses, Shared.init, ListState.empty]
  exact Run.forall_prefix_iff_guarded (fun _ _ _ hg h => Shared.Valid.serveOne hg h) hstep
    (fun _ _ _ hclean h => serveOne_isSome_of_not_portGiven hclean h) Shared.valid_init hinit hclean

/-- A user connects with a port, disconnects and connects again. -/
theorem full_addresses_iff_reconnect :
    let o := Outcomes.success ⟨10, 0, 0, 1⟩
    let conns : List Connection :=
      [.ofStream (encodeRequest .register [[100], [97]]) o,
        .ofStream (encodeRequest .connect [[100], [97], [56, 48]]) o,
        .ofStream (encodeRequest .disconnect [[100], [97]]) o,
        .ofStream (encodeRequest .connect [[100], [97], [56, 49]]) o]
    (∀ handled, handled <+: conns → ∀ g, serve .init handled = some g →
        FullAddresses g.store.messages) ↔
      Run.Guarded serveOne PortGiven .init conns :=
  full_addresses_iff (by decide +kernel)

/-- CONNECT of `a` ends before its port: `a` is connected without a port. -/
theorem connect_without_port :
    let o := Outcomes.success ⟨10, 0, 0, 1⟩
    let conns : List Connection :=
      [.ofStream (encodeRequest .register [[100], [97]]) o,
        .ofStream (encodeRequest .connect [[100], [97]]) o]
    (∀ conn ∈ conns, conn.Clean) ∧
      ∃ g n, serve .init conns = some g ∧ n ∈ g.store.messages ∧ n.name = [97] ∧
        n.ip.str = inetNtoa ⟨10, 0, 0, 1⟩ ∧ n.port.str = [] ∧ ¬ n.FullAddress := by
  intro o conns
  constructor
  · decide +kernel
  · have hsome : ((serve .init conns).bind fun g => g.store.messages.head?.map fun n =>
        (n.name, n.ip.str, n.port.str)) = some ([97], inetNtoa ⟨10, 0, 0, 1⟩, []) := by
      decide +kernel
    obtain ⟨g, hserve, hhead⟩ := Option.bind_eq_some_iff.mp hsome
    obtain ⟨n, hn, hrow⟩ := Option.map_eq_some_iff.mp hhead
    simp only [Prod.mk.injEq] at hrow
    obtain ⟨hname, hip, hport⟩ := hrow
    refine ⟨g, n, hserve, List.mem_of_mem_head? hn, hname, hip, hport, fun hfull => ?_⟩
    exact hfull.mp (by rw [hip]; exact inetNtoa_ne_nil _) hport

end PeerDirectory
