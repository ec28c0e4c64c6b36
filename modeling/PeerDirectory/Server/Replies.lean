import PeerDirectory.Server.Request
import PeerDirectory.Directory.Refinement

/-!
# The answers of the listings

LIST_USERS sends the users of its response chain by their number, LIST_CONTENT
walks its chain twice, once to count and once to send. With the memory a handler
asks for, both get through, whatever the store is.
-/

namespace PeerDirectory

/-- The two strings sent for a file. -/
def sentFile (row : Bytes × Bytes) : Bytes :=
  cstring row.1 ++ cstring row.2

/-- A published file with its description. -/
def FileNode.row (f : FileNode) : Bytes × Bytes :=
  (f.name, f.description.str)

theorem nul_notMem_row (f : FileNode) : 0 ∉ f.row.1 ∧ 0 ∉ f.row.2 :=
  ⟨f.filename.nul_notMem_str, f.description.nul_notMem_str⟩

/-! ## LIST_CONTENT -/

theorem countContent_of_complete {c : Chain ContentFields} (h : c.Complete) :
    countContent c = some (c.rows.countP fun fields => fields.filename.str ≠ []) := by
  induction h with
  | null => rfl
  | node fields _ ih =>
      rw [countContent, ih, Chain.rows_node, List.countP_cons]
      by_cases hf : fields.filename.str = [] <;> simp [hf]

theorem sendContentLoop_of_complete {c : Chain ContentFields} (h : c.Complete) :
    sendContentLoop c =
      some (c.rows.flatMap fun fields =>
        sentFile (fields.filename.str, fields.description.str)) := by
  induction h with
  | null => rfl
  | node fields _ ih =>
      rw [sendContentLoop, ih, Chain.rows_node, List.flatMap_cons]
      simp [sentFile]

/-- The bytes behind the result code: the number of files with a name, and all
files. -/
def contentListing (files : List FileNode) : Bytes :=
  cstring (decimal (files.countP fun f => f.name ≠ [])) ++
    files.flatMap fun f => sentFile f.row

theorem contentReply_eq {c : Chain ContentFields} {files : List FileNode} (hc : c.Complete)
    (hrows : c.rows = files.map FileNode.contentFields) :
    contentReply c = some (contentListing files) := by
  have hname : ∀ f : FileNode, f.contentFields.filename.str = f.name := fun f =>
    str_strncpy_str f.filename
  have hdescription : ∀ f : FileNode, f.contentFields.description.str = f.description.str :=
    fun f => str_strncpy_str f.description
  rw [contentReply, countContent_of_complete hc, sendContentLoop_of_complete hc, hrows,
    Option.bind_some, Option.map_some, contentListing, List.countP_map, List.flatMap_map]
  simp only [Function.comp_def, hname, hdescription]
  rfl

/-- With its response nodes `list_content` gives a complete chain. -/
theorem complete_listContent {o : Outcomes} {username username2 : Bytes}
    {messages : List Node} {chain : Chain ContentFields}
    (h : listContent o.respuesta o.mallocRespuesta username username2 messages =
      some (.content chain)) : chain.Complete := by
  unfold listContent at h
  split at h
  · cases h
  · split at h
    · split at h
      · cases h
      · split at h
        · cases h
          exact .null
        · obtain ⟨c, hc, hchain⟩ := Option.map_eq_some_iff.mp h
          cases hchain
          exact complete_fillContent hc
    · cases h

/-- What is sent of a chain `list_content` has given: the files of some user. -/
theorem contentReply_of_listContent {o : Outcomes} {username username2 : Bytes}
    {messages : List Node} {chain : Chain ContentFields}
    (h : listContent o.respuesta o.mallocRespuesta username username2 messages =
      some (.content chain)) :
    ∃ target : Node, contentReply chain = some (contentListing target.listFiles) := by
  have hcomplete := complete_listContent h
  unfold listContent at h
  split at h
  · cases h
  · split at h
    · split at h
      · cases h
      · next target _ =>
          refine ⟨target, contentReply_eq hcomplete ?_⟩
          split at h
          · next hfiles =>
              cases h
              rw [hfiles]
              rfl
          · next hfiles =>
              obtain ⟨c, hc, hchain⟩ := Option.map_eq_some_iff.mp h
              cases hchain
              rw [hfiles]
              exact rows_fillContent hc
    · cases h

/-- What `list_content` gives a connected user about a registered one. -/
theorem listContent_of_lookup {o : Outcomes} (ho : o.Allocated) {username username2 : Bytes}
    {messages : List Node} {requester target : Node}
    (hrequester : KeyedList.lookup Node.name username messages = some requester)
    (hconnected : requester.connected = true)
    (htarget : KeyedList.lookup Node.name username2 messages = some target) :
    ∃ chain, listContent o.respuesta o.mallocRespuesta username username2 messages =
        some (.content chain) ∧ chain.Complete ∧
      chain.rows = target.listFiles.map FileNode.contentFields := by
  simp only [listContent, hrequester, hconnected, htarget, if_true]
  cases hfiles : target.listFiles with
  | nil => exact ⟨.null, rfl, .null, rfl⟩
  | cons file next =>
      obtain ⟨chain, hchain⟩ := Option.isSome_iff_exists.mp
        (fillContent_isSome 0 (file :: next) fun j _ _ => ho.2 j)
      rw [ho.1]
      exact ⟨chain, by simp only [hchain, Option.map_some], complete_fillContent hchain,
        rows_fillContent hchain⟩

theorem perform_listContent {o : Outcomes} {username username2 : Bytes} {store : ListState}
    {r : Result}
    (h : listContent o.respuesta o.mallocRespuesta username username2 store.messages = some r) :
    (Call.listContent username username2).perform o store = some (store, r) := by
  simp [Call.perform, Call.initialises, Call.body, h]

/-- What LIST_CONTENT answers a connected user about a registered one. -/
theorem serve_listContent {s : Bytes} {o : Outcomes} (ho : o.Allocated) {store : ListState}
    {requester target : Node}
    (hrequester : KeyedList.lookup Node.name (received 2 s) store.messages = some requester)
    (hconnected : requester.connected = true)
    (htarget : KeyedList.lookup Node.name (received 3 s) store.messages = some target) :
    ∃ served, Operation.listContent.serve (.ofStream s o) s store = some served ∧
      served.reply = errorStr 0 ++ contentListing target.listFiles := by
  obtain ⟨chain, hresult, hcomplete, hrows⟩ :=
    listContent_of_lookup ho hrequester hconnected htarget
  have hreply := contentReply_eq hcomplete hrows
  simp only [Operation.serve, Operation.requestCall, Connection.ofStream,
    perform_listContent hresult, Option.bind_some, Operation.listing, if_true, hreply,
    Option.map_some]
  exact ⟨_, rfl, rfl⟩

/-! ## LIST_USERS -/

/-- The three strings sent for a user. -/
def sentUser (row : Bytes × Bytes × Bytes) : Bytes :=
  cstring row.1 ++ cstring row.2.1 ++ cstring row.2.2

/-- A user with its address. -/
def Node.row (n : Node) : Bytes × Bytes × Bytes :=
  (n.name, n.ip.str, n.port.str)

theorem sentUser_userFields (n : Node) :
    cstring n.userFields.username.str ++ cstring n.userFields.ip.str ++
      cstring n.userFields.port.str = sentUser n.row := by
  simp only [Node.userFields, str_strncpy_str]
  rfl

/-- The sending loop never meets a pointer nobody has set, and sends the connected
users in list order. -/
theorem sendUsersLoop_fillUsers {malloc : ℕ → Bool} {response : Bool} {k : ℕ}
    {messages : List Node} {c : Chain UserFields} {n : ℕ}
    (h : fillUsers malloc response k messages = some (c, n)) :
    c ≠ .unset ∧ (c = .null → n = 0) ∧
      sendUsersLoop n c =
        some ((messages.filter Node.connected).flatMap fun user => sentUser user.row) := by
  induction messages generalizing response k c n with
  | nil => cases response <;> cases h <;> simp [sendUsersLoop]
  | cons user next ih =>
      rcases fillUsers_cons h with
        ⟨hu, hr⟩ | ⟨hu, rfl, rfl, rfl⟩ | ⟨c', n', hu, -, rfl, rfl, hr⟩
      · simpa [hu] using ih hr
      · simp [sendUsersLoop, hu, ← sentUser_userFields]
      · obtain ⟨hunset, hnull, hloop⟩ := ih hr
        refine ⟨by simp, by simp, ?_⟩
        rw [List.filter_cons_of_pos hu, List.flatMap_cons, ← sentUser_userFields]
        cases c' with
        | unset => exact absurd rfl hunset
        | null =>
            -- nobody behind this user is connected
            obtain rfl := hnull rfl
            rw [sendUsersLoop, Option.some.injEq] at hloop
            simp [sendUsersLoop, ← hloop]
        | node fields next' => simp [sendUsersLoop, hloop]

/-- The bytes behind the result code: the number of connected users, and these
users. -/
def usersListing (messages : List Node) : Bytes :=
  cstring (decimal (messages.filter Node.connected).length) ++
    (messages.filter Node.connected).flatMap fun user => sentUser user.row

/-- What is sent of a chain `list_users` has given. -/
theorem usersReply_of_listUsers {o : Outcomes} {username : Bytes} {messages : List Node}
    {chain : Chain UserFields} {n : ℕ}
    (h : listUsers o.respuesta o.mallocRespuesta username messages = some (.users chain n)) :
    usersReply chain n = some (usersListing messages) := by
  unfold listUsers at h
  split at h
  · cases h
  · split at h
    · obtain ⟨r, hr, hchain⟩ := Option.map_eq_some_iff.mp h
      cases hchain
      obtain ⟨-, hn⟩ := rows_fillUsers hr
      obtain ⟨-, -, hsend⟩ := sendUsersLoop_fillUsers hr
      rw [usersReply, hsend, hn, Option.map_some, usersListing]
    · cases h

/-- What `list_users` gives a connected user, and what is sent of it. -/
theorem listUsers_of_lookup {o : Outcomes} (ho : o.Allocated) {username : Bytes}
    {messages : List Node} {requester : Node}
    (hrequester : KeyedList.lookup Node.name username messages = some requester)
    (hconnected : requester.connected = true) :
    ∃ chain, listUsers o.respuesta o.mallocRespuesta username messages =
        some (.users chain (messages.filter Node.connected).length) ∧
      sendUsersLoop (messages.filter Node.connected).length chain =
        some ((messages.filter Node.connected).flatMap fun user => sentUser user.row) := by
  obtain ⟨⟨chain, n⟩, hfill⟩ :=
    Option.isSome_iff_exists.mp (fillUsers_isSome 0 messages fun j _ _ => ho.2 j)
  obtain ⟨-, rfl⟩ := rows_fillUsers hfill
  obtain ⟨-, -, hsend⟩ := sendUsersLoop_fillUsers hfill
  refine ⟨chain, ?_, hsend⟩
  simp only [listUsers, hrequester, hconnected, if_true, ho.1, hfill, Option.map_some]

theorem perform_listUsers {o : Outcomes} {username : Bytes} {store : ListState} {r : Result}
    (h : listUsers o.respuesta o.mallocRespuesta username store.messages = some r) :
    (Call.listUsers username).perform o store = some (store, r) := by
  simp [Call.perform, Call.initialises, Call.body, h]

/-- What LIST_USERS answers a connected user. -/
theorem serve_listUsers {s : Bytes} {o : Outcomes} (ho : o.Allocated) {store : ListState}
    {requester : Node}
    (hrequester : KeyedList.lookup Node.name (received 2 s) store.messages = some requester)
    (hconnected : requester.connected = true) :
    ∃ served, Operation.listUsers.serve (.ofStream s o) s store = some served ∧
      served.reply = errorStr 0 ++ usersListing store.messages := by
  obtain ⟨chain, hresult, hsend⟩ := listUsers_of_lookup ho hrequester hconnected
  have hreply : usersReply chain (store.messages.filter Node.connected).length =
      some (usersListing store.messages) := by
    rw [usersReply, hsend, Option.map_some, usersListing]
  simp only [Operation.serve, Operation.requestCall, Connection.ofStream,
    perform_listUsers hresult, Option.bind_some, Operation.listing, if_true, hreply,
    Option.map_some]
  exact ⟨_, rfl, rfl⟩

/-! ## Every request -/

/-- What the call gave can be sent. -/
def Result.Sendable : Result → Prop
  | .code _ => True
  | .users respuesta nUser => (usersReply respuesta nUser).isSome
  | .content respuesta => (contentReply respuesta).isSome

/-- Whatever the call and the store were, its result can be sent. -/
theorem Call.sendable_of_perform {o : Outcomes} {c : Call} {st st' : ListState} {r : Result}
    (h : c.perform o st = some (st', r)) : r.Sendable := by
  obtain ⟨q, hbody, hq⟩ := Option.map_eq_some_iff.mp h
  obtain ⟨-, rfl⟩ := Prod.mk.inj hq
  cases c with
  | listUsers username =>
      obtain ⟨r, hr, rfl⟩ := Option.map_eq_some_iff.mp hbody
      cases r with
      | users chain n => exact Option.isSome_of_eq_some (usersReply_of_listUsers hr)
      | code error => trivial
      | content chain =>
          simp only [PeerDirectory.listUsers] at hr
          split at hr
          · cases hr
          · split at hr
            · obtain ⟨_, -, hchain⟩ := Option.map_eq_some_iff.mp hr
              cases hchain
            · cases hr
  | listContent username username2 =>
      obtain ⟨r, hr, rfl⟩ := Option.map_eq_some_iff.mp hbody
      cases r with
      | content chain =>
          obtain ⟨target, htarget⟩ := contentReply_of_listContent hr
          exact Option.isSome_of_eq_some htarget
      | code error => trivial
      | users chain n =>
          simp only [PeerDirectory.listContent] at hr
          split at hr
          · cases hr
          · split at hr
            · split at hr
              · cases hr
              · split at hr
                · cases hr
                · obtain ⟨_, -, hchain⟩ := Option.map_eq_some_iff.mp hr
                  cases hchain
            · cases hr
  | _ =>
      cases hbody
      trivial

/-- With its memory, a handler gets through every request. -/
theorem Operation.serve_isSome (op : Operation) {conn : Connection}
    (ho : conn.outcomes.Allocated) (hcount : conn.mallocCount = true) (s : Bytes)
    (store : ListState) : (op.serve conn s store).isSome := by
  obtain ⟨⟨store', r⟩, hperform⟩ :=
    Option.isSome_iff_exists.mp (Call.perform_isSome ho (op.requestCall s) store)
  have hsend := Call.sendable_of_perform hperform
  have hlisting : (op.listing conn.mallocCount r).isSome := by
    cases op <;> cases r <;> simp_all [listing, Result.Sendable]
  obtain ⟨bytes, hbytes⟩ := Option.isSome_iff_exists.mp hlisting
  simp [serve, hperform, hbytes]

end PeerDirectory
