import PeerDirectory.Client.ListContent
import PeerDirectory.Client.ListUsers
import PeerDirectory.Client.Session

/-!
# Result codes on their way to the caller

The server sends the code of its store operation as the character `'0' + error`,
and each method of the client turns this character into a member of `RC`. A
method that is answered reports the code of the server, except where the server has
carried a `connect` or a `disconnect` out: these start the listener thread or shut
the listening socket down before they return, and where that raises they report a
failure.
-/

namespace PeerDirectory

/-! ## The codes of the server -/

/-- The values `list.h` gives for the operation. -/
def Operation.retvals : Operation → List Int
  | .register => [0, 1, 2]
  | .unregister => [0, 1, 2]
  | .connect => [0, 1, 2, 3]
  | .disconnect => [0, 1, 2, 3]
  | .publish => [0, 1, 2, 3, 4]
  | .delete => [0, 1, 2, 3, 4]
  | .listUsers => [0, 1, 2, 3]
  | .listContent => [0, 1, 2, 3, 4]

/-- What a search loop returns, when its body and what follows it do so. -/
theorem visit_snd_mem {α : Type} {key : α → Bytes} {k : Bytes} {body : α → Option α × Int}
    {notFound : Int} {codes : List Int} (hbody : ∀ a, (body a).2 ∈ codes)
    (hnot : notFound ∈ codes) (l : List α) :
    (KeyedList.visit key k body notFound l).2 ∈ codes := by
  cases h : KeyedList.lookup key k l with
  | none =>
      rw [KeyedList.visit_of_lookup_eq_none h]
      exact hnot
  | some a =>
      rw [KeyedList.visit_snd_of_lookup_eq_some h]
      exact hbody a

theorem registerUser_error (malloc : Option Node) (username : Bytes) (messages : List Node) :
    (registerUser malloc username messages).2 ∈ [0, 1, 2] ∨
      (registerUser malloc username messages).2 = -1 := by
  unfold registerUser
  split
  · exact Or.inl (by simp)
  · split
    · exact Or.inr rfl
    · exact Or.inl (by simp)

theorem connectNode_error (getpeername : Option InAddr) (port : Bytes) (n : Node) :
    (connectNode getpeername port n).2 ∈ [0, 1, 2, 3] := by
  unfold connectNode
  split
  · simp
  · split <;> simp

theorem disconnectNode_error (n : Node) : (disconnectNode n).2 ∈ [0, 1, 2, 3] := by
  unfold disconnectNode
  split <;> simp

theorem registerFileNode_error (malloc : Bool) (file description : Bytes) (n : Node) :
    (registerFileNode malloc file description n).2 ∈ [0, 1, 2, 3, 4] := by
  unfold registerFileNode
  split
  · split
    · simp
    · split <;> simp
  · simp

theorem unregisterFileNode_error (file : Bytes) (n : Node) :
    (unregisterFileNode file n).2 ∈ [0, 1, 2, 3, 4] := by
  unfold unregisterFileNode
  split
  · exact visit_snd_mem (fun _ => by simp) (by simp) n.listFiles
  · simp

theorem listUsers_error {respuesta : Bool} {malloc : ℕ → Bool} {username : Bytes}
    {messages : List Node} {r : Result}
    (h : listUsers respuesta malloc username messages = some r) : r.error ∈ [0, 1, 2, 3] := by
  unfold listUsers at h
  split at h
  · cases h
    simp [Result.error]
  · split at h
    · obtain ⟨q, -, rfl⟩ := Option.map_eq_some_iff.mp h
      simp [Result.error]
    · cases h
      simp [Result.error]

theorem listContent_error {respuesta : Bool} {malloc : ℕ → Bool} {username username2 : Bytes}
    {messages : List Node} {r : Result}
    (h : listContent respuesta malloc username username2 messages = some r) :
    r.error ∈ [0, 1, 2, 3, 4] := by
  unfold listContent at h
  split at h
  · cases h
    simp [Result.error]
  · split at h
    · split at h
      · cases h
        simp [Result.error]
      · split at h
        · cases h
          simp [Result.error]
        · obtain ⟨q, -, rfl⟩ := Option.map_eq_some_iff.mp h
          simp [Result.error]
    · cases h
      simp [Result.error]

/-- An operation returns a value `list.h` gives, or `-1`. -/
theorem Operation.error_mem_retvals (op : Operation) {s : Bytes} {o : Outcomes}
    {store store' : ListState} {r : Result}
    (h : (op.requestCall s).perform o store = some (store', r)) :
    r.error ∈ op.retvals ∨ r.error = -1 := by
  obtain ⟨⟨messages, r'⟩, hbody, heq⟩ := Option.map_eq_some_iff.mp h
  obtain ⟨-, rfl⟩ := Prod.mk.inj heq
  cases op with
  | register =>
      cases hbody
      exact registerUser_error _ _ _
  | unregister =>
      cases hbody
      exact Or.inl (visit_snd_mem (fun _ => by simp [retvals]) (by simp [retvals]) _)
  | connect =>
      cases hbody
      exact Or.inl (visit_snd_mem (connectNode_error _ _) (by simp) _)
  | disconnect =>
      cases hbody
      exact Or.inl (visit_snd_mem disconnectNode_error (by simp) _)
  | publish =>
      cases hbody
      exact Or.inl (visit_snd_mem (registerFileNode_error _ _ _) (by simp) _)
  | delete =>
      cases hbody
      exact Or.inl (visit_snd_mem (unregisterFileNode_error _) (by simp) _)
  | listUsers =>
      obtain ⟨q, hq, heq⟩ := Option.map_eq_some_iff.mp hbody
      obtain ⟨-, rfl⟩ := Prod.mk.inj heq
      exact Or.inl (listUsers_error hq)
  | listContent =>
      obtain ⟨q, hq, heq⟩ := Option.map_eq_some_iff.mp hbody
      obtain ⟨-, rfl⟩ := Prod.mk.inj heq
      exact Or.inl (listContent_error hq)

theorem Operation.bounds_of_mem_retvals {op : Operation} {e : Int}
    (h : e ∈ op.retvals ∨ e = -1) : -1 ≤ e ∧ e ≤ 4 := by
  rcases h with h | rfl
  · have hall : ∀ e ∈ op.retvals, -1 ≤ e ∧ e ≤ 4 := by cases op <;> decide
    exact hall e h
  · decide

namespace Client

/-! ## The codes of the client -/

/-- The value of the member. -/
def RC.value : RC → Int
  | .ok => 0
  | .error => 1
  | .userError => 2
  | .otherCases => 3
  | .anotherCases => 4

/-- What the method for an operation returns on any other response. -/
def catchAll : Operation → RC
  | .register => .userError
  | .unregister => .userError
  | .connect => .otherCases
  | .disconnect => .otherCases
  | .publish => .anotherCases
  | .delete => .anotherCases
  | .listUsers => .otherCases
  | .listContent => .anotherCases

/-- The member tells what the operation has returned. -/
def Reports (op : Operation) (error : Int) (rc : RC) : Prop :=
  (error ∈ op.retvals → rc.value = error) ∧ (error ∉ op.retvals → rc = catchAll op)

instance (op : Operation) (error : Int) (rc : RC) : Decidable (Reports op error rc) :=
  inferInstanceAs (Decidable (_ ∧ _))

/-! ## The methods -/

section Methods

variable {σ : Type} {env : Environment σ} {port : UInt16} {e : Int} {st : ClientState} {peer : σ}
  {rest : Bytes}

theorem register_reports {user : Str} (hlength : excedeTamano user = false)
    (hsocket : env.connectSocket = true)
    (hsend : (send env (fun time => some (registerMessage time user)) peer).1 =
      .returns (codeText e, rest))
    (he : e ∈ Operation.register.retvals ∨ e = -1) :
    ∃ rc, (register env user peer).1 = .returns rc ∧ Reports .register e rc := by
  simp only [register, hlength, hsocket, hsend, Outcome.bind_returns, Bool.false_eq_true, if_false,
    if_true]
  simp only [Operation.retvals, List.mem_cons, List.not_mem_nil, or_false] at he
  obtain (rfl | rfl | rfl) | rfl := he
  all_goals exact ⟨_, rfl, by decide⟩

theorem unregister_reports {user : Str} (hsocket : env.connectSocket = true)
    (hsend : (send env (fun time => some (unregisterMessage time user)) peer).1 =
      .returns (codeText e, rest))
    (he : e ∈ Operation.unregister.retvals ∨ e = -1) :
    ∃ rc, (unregister env user peer).1 = .returns rc ∧
      Reports .unregister e rc := by
  simp only [unregister, hsocket, hsend, Outcome.bind_returns, if_true]
  simp only [Operation.retvals, List.mem_cons, List.not_mem_nil, or_false] at he
  obtain (rfl | rfl | rfl) | rfl := he
  all_goals exact ⟨_, rfl, by decide⟩

/-- `connect` reports every code, but the code 0 only if the listener thread can be
started. -/
theorem connect_reports_iff {user : Str} (hconnected : st.connected = false)
    (hsocket : env.connectSocket = true) (hgiven : env.socket = true) (hport : env.bind = some port)
    (hsend : (send env (fun time => some (connectMessage time user port)) peer).1 =
      .returns (codeText e, rest))
    (he : e ∈ Operation.connect.retvals ∨ e = -1) :
    (∃ rc, (connect env user st peer).1 = .returns rc ∧ Reports .connect e rc) ↔
      (e = 0 → env.start = true) := by
  simp only [connect, hconnected, hsocket, hgiven, hport, hsend, Bool.false_eq_true, if_false,
    if_true]
  simp only [Operation.retvals, List.mem_cons, List.not_mem_nil, or_false] at he
  obtain (rfl | rfl | rfl | rfl) | rfl := he
  · cases env.start with
    | true => exact iff_of_true ⟨_, rfl, by decide⟩ fun _ => rfl
    | false =>
        refine iff_of_false ?_ (by simp)
        rintro ⟨rc, hrc, hreports⟩
        obtain rfl : RC.otherCases = rc := Outcome.returns.inj hrc
        exact absurd hreports (by decide)
  all_goals exact iff_of_true ⟨_, rfl, by decide⟩ fun h => absurd h (by decide)

/-- `disconnect` reports every code, but the code 0 only if the socket can be shut
down. -/
theorem disconnect_reports_iff {user : Str} (hsocket : env.connectSocket = true)
    (hsend : (send env (fun time => some (disconnectMessage time user)) peer).1 =
      .returns (codeText e, rest))
    (he : e ∈ Operation.disconnect.retvals ∨ e = -1) :
    (∃ rc, (disconnect env user st peer).1 = .returns rc ∧
        Reports .disconnect e rc) ↔
      (e = 0 → st.serverSocket = some .listening) := by
  simp only [disconnect, hsocket, hsend, if_true]
  simp only [Operation.retvals, List.mem_cons, List.not_mem_nil, or_false] at he
  obtain (rfl | rfl | rfl | rfl) | rfl := he
  · cases st.serverSocket with
    | none =>
        refine iff_of_false ?_ (by simp)
        rintro ⟨rc, hrc, hreports⟩
        obtain rfl : RC.otherCases = rc := Outcome.returns.inj hrc
        exact absurd hreports (by decide)
    | some socket =>
        cases socket with
        | listening => exact iff_of_true ⟨_, rfl, by decide⟩ fun _ => rfl
        | _ =>
            refine iff_of_false ?_ (by simp)
            rintro ⟨rc, hrc, hreports⟩
            obtain rfl : RC.otherCases = rc := Outcome.returns.inj hrc
            exact absurd hreports (by decide)
  all_goals exact iff_of_true ⟨_, rfl, by decide⟩ fun h => absurd h (by decide)

theorem publish_reports {fileName description : Str} (hlength : excedeTamano fileName = false)
    (hconnected : st.connected = true) (hsocket : env.connectSocket = true)
    (hsend : (send env (fun time => st.user.map fun user =>
      publishMessage time user fileName description) peer).1 = .returns (codeText e, rest))
    (he : e ∈ Operation.publish.retvals ∨ e = -1) :
    ∃ rc, (publish env fileName description st peer).1 = .returns rc ∧
      Reports .publish e rc := by
  simp only [publish, hlength, hconnected, hsocket, hsend, Outcome.bind_returns, Bool.not_true,
    Bool.false_eq_true, if_false, if_true]
  simp only [Operation.retvals, List.mem_cons, List.not_mem_nil, or_false] at he
  obtain (rfl | rfl | rfl | rfl | rfl) | rfl := he
  all_goals exact ⟨_, rfl, by decide⟩

theorem delete_reports {fileName : Str} (hlength : excedeTamano fileName = false)
    (hconnected : st.connected = true) (hsocket : env.connectSocket = true)
    (hsend : (send env (fun time => st.user.map fun user =>
      deleteMessage time user fileName) peer).1 = .returns (codeText e, rest))
    (he : e ∈ Operation.delete.retvals ∨ e = -1) :
    ∃ rc, (delete env fileName st peer).1 = .returns rc ∧
      Reports .delete e rc := by
  simp only [delete, hlength, hconnected, hsocket, hsend, Outcome.bind_returns, Bool.not_true,
    Bool.false_eq_true, if_false, if_true]
  simp only [Operation.retvals, List.mem_cons, List.not_mem_nil, or_false] at he
  obtain (rfl | rfl | rfl | rfl | rfl) | rfl := he
  all_goals exact ⟨_, rfl, by decide⟩

theorem listusers_reports (hconnected : st.connected = true) (hsocket : env.connectSocket = true)
    (hsend : (send env (fun time => st.user.map fun user => listUsersMessage time user) peer).1 =
      .returns (codeText e, rest))
    (hlimit : env.maxStrDigits = .unlimited)
    (hrows : e = 0 → ∃ n socket, rest = cstring (decimal n) ++ socket ∧
      (readUsers n socket).ends = .returns ())
    (he : e ∈ Operation.listUsers.retvals ∨ e = -1) :
    ∃ listing, (listusers env st peer).1 = .returns listing ∧ Reports .listUsers e listing.rc := by
  simp only [listusers, hconnected, hsocket, hsend, hlimit, Outcome.bind_returns, Bool.not_true,
    Bool.false_eq_true, if_false, if_true]
  simp only [Operation.retvals, List.mem_cons, List.not_mem_nil, or_false] at he
  obtain (rfl | rfl | rfl | rfl) | rfl := he
  · obtain ⟨n, socket, rfl, hread⟩ := hrows rfl
    rw [if_pos (by decide), readListing_decimal (takes_unlimited _), Reading.listing, hread]
    exact ⟨_, rfl, by simp [Reports, RC.value, Operation.retvals]⟩
  all_goals exact ⟨_, rfl, by rw [Listing.rc_failed]; decide⟩

theorem listcontent_reports {user : Str} (hconnected : st.connected = true)
    (hsocket : env.connectSocket = true)
    (hsend : (send env (fun time => st.user.map fun u =>
      listContentMessage time u user) peer).1 = .returns (codeText e, rest))
    (hlimit : env.maxStrDigits = .unlimited)
    (hrows : e = 0 → ∃ n socket, rest = cstring (decimal n) ++ socket ∧
      (readFiles n socket).ends = .returns ())
    (he : e ∈ Operation.listContent.retvals ∨ e = -1) :
    ∃ listing, (listcontent env user st peer).1 = .returns listing ∧
      Reports .listContent e listing.rc := by
  simp only [listcontent, hconnected, hsocket, hsend, hlimit, Outcome.bind_returns, Bool.not_true,
    Bool.false_eq_true, if_false, if_true]
  simp only [Operation.retvals, List.mem_cons, List.not_mem_nil, or_false] at he
  obtain (rfl | rfl | rfl | rfl | rfl) | rfl := he
  · obtain ⟨n, socket, rfl, hread⟩ := hrows rfl
    rw [if_pos (by decide), readListing_decimal (takes_unlimited _), Reading.listing, hread]
    exact ⟨_, rfl, by simp [Reports, RC.value, Operation.retvals]⟩
  all_goals exact ⟨_, rfl, by rw [Listing.rc_failed]; decide⟩

end Methods

/-! ## The listings -/

/-- The loop of `listusers` on the users the server sends. -/
theorem readUsers_sent {rows : List (Bytes × Bytes × Bytes)} (hnul : ∀ r ∈ rows, NulFreeRow r)
    (hascii : ∀ r ∈ rows, AsciiUserRow r) :
    (readUsers rows.length (rows.flatMap sentUser)).ends = .returns () := by
  induction rows with
  | nil => rfl
  | cons r rows ih =>
      obtain ⟨hname, hip, hport⟩ := hnul r (by simp)
      obtain ⟨hname', hip', hport'⟩ := hascii r (by simp)
      have hrest := ih (fun q hq => hnul q (by simp [hq])) fun q hq => hascii q (by simp [hq])
      rw [List.flatMap_cons, List.length_cons, readUsers, sentUser, List.append_assoc,
        List.append_assoc, Reading.response_cstring hname hname',
        Reading.response_cstring hip hip', Reading.response_cstring hport hport']
      exact hrest

/-- An ASCII listing of users is read to its end. -/
theorem readUsers_usersListing {messages : List Node}
    (hascii : Text.IsAscii (usersListing messages)) :
    ∃ n socket, usersListing messages = cstring (decimal n) ++ socket ∧
      (readUsers n socket).ends = .returns () := by
  set users := (messages.filter Node.connected).map Node.row with husers
  have hsent : (messages.filter Node.connected).flatMap (fun user => sentUser user.row) =
      users.flatMap sentUser := by rw [husers, List.flatMap_map]
  have hrows : ∀ r ∈ users, AsciiUserRow r := by
    intro r hr
    have hmem : ∀ b ∈ sentUser r, b.toNat < 128 := fun b hb => hascii b <| by
      rw [usersListing, hsent]
      exact List.mem_append_right _ (List.mem_flatMap.mpr ⟨r, hr, hb⟩)
    refine ⟨fun b hb => hmem b ?_, fun b hb => hmem b ?_, fun b hb => hmem b ?_⟩ <;>
      simp [sentUser, cstring, hb]
  refine ⟨users.length, users.flatMap sentUser, ?_,
    readUsers_sent (List.forall_mem_map.mpr fun n _ => nulFreeRow_row n) hrows⟩
  rw [usersListing, hsent, husers, List.length_map]

/-- So is one of files. -/
theorem readFiles_contentListing {files : List FileNode}
    (hascii : Text.IsAscii (contentListing files)) :
    ∃ n socket, contentListing files = cstring (decimal n) ++ socket ∧
      (readFiles n socket).ends = .returns () := by
  set rows := files.map FileNode.row with hrowsdef
  have hsent : files.flatMap (fun f => sentFile f.row) = rows.flatMap sentFile := by
    rw [hrowsdef, List.flatMap_map]
  have hrows : ∀ r ∈ rows, AsciiRow r := by
    intro r hr
    have hmem : ∀ b ∈ sentFile r, b.toNat < 128 := fun b hb => hascii b <| by
      rw [contentListing, hsent]
      exact List.mem_append_right _ (List.mem_flatMap.mpr ⟨r, hr, hb⟩)
    refine ⟨fun b hb => hmem b ?_, fun b hb => hmem b ?_⟩ <;> simp [sentFile, cstring, hb]
  have hle : (files.countP fun f => f.name ≠ []) ≤ rows.length := by
    rw [hrowsdef, List.length_map]
    exact List.countP_le_length
  have hread := readFiles_sent (List.forall_mem_map.mpr fun f _ => nul_notMem_row f) hle
    fun r hr => hrows r (List.mem_of_mem_take hr)
  refine ⟨files.countP fun f => f.name ≠ [], rows.flatMap sentFile, ?_, ?_⟩
  · rw [contentListing, hsent]
  · rw [hread]

/-- What follows the code 0 in the answer to LIST_USERS. -/
theorem listing_listUsers {username bytes : Bytes} {o : Outcomes} {messages : List Node}
    {r : Result} (h : listUsers o.respuesta o.mallocRespuesta username messages = some r)
    (hlisting : Operation.listUsers.listing true r = some bytes) (h0 : r.error = 0) :
    bytes = usersListing messages := by
  cases r with
  | users chain n =>
      simp only [Operation.listing, if_true, usersReply_of_listUsers h, Option.some.injEq]
        at hlisting
      exact hlisting.symm
  | code error =>
      unfold listUsers at h
      split at h
      · cases h
        cases h0
      · split at h
        · obtain ⟨q, -, hq⟩ := Option.map_eq_some_iff.mp h
          cases hq
        · cases h
          cases h0
  | content chain =>
      unfold listUsers at h
      split at h
      · cases h
      · split at h
        · obtain ⟨q, -, hq⟩ := Option.map_eq_some_iff.mp h
          cases hq
        · cases h

/-- And in the answer to LIST_CONTENT. -/
theorem listing_listContent {username username2 bytes : Bytes} {o : Outcomes}
    {messages : List Node} {r : Result}
    (h : listContent o.respuesta o.mallocRespuesta username username2 messages = some r)
    (hlisting : Operation.listContent.listing true r = some bytes) (h0 : r.error = 0) :
    ∃ target : Node, bytes = contentListing target.listFiles := by
  cases r with
  | content chain =>
      obtain ⟨target, hreply⟩ := contentReply_of_listContent h
      simp only [Operation.listing, if_true, hreply, Option.some.injEq] at hlisting
      exact ⟨target, hlisting.symm⟩
  | code error =>
      unfold listContent at h
      split at h
      · cases h
        cases h0
      · split at h
        · split at h
          · cases h
            cases h0
          · split at h
            · cases h
            · obtain ⟨q, -, hq⟩ := Option.map_eq_some_iff.mp h
              cases hq
        · cases h
          cases h0
  | users chain n =>
      unfold listContent at h
      split at h
      · cases h
      · split at h
        · split at h
          · cases h
          · split at h
            · cases h
            · obtain ⟨q, -, hq⟩ := Option.map_eq_some_iff.mp h
              cases hq
        · cases h

/-! ## Every method -/

/-- The server has the user as connected. -/
def ConnectedAt (g : Shared) (user : Str) : Prop :=
  ∃ n, KeyedList.lookup Node.name (entryName user) g.store.messages = some n ∧ n.connected = true

/-- The server has the user as registered and not connected. -/
def FreeAt (g : Shared) (user : Str) : Prop :=
  ∃ n, KeyedList.lookup Node.name (entryName user) g.store.messages = some n ∧ n.connected = false

/-- What a method does itself once the server has carried the operation out, it can
do: `connect` starts its listener thread, and `disconnect` finds a listening
socket. -/
def CanFinish (c : Command) (st : ClientState) (g : Shared) (o : Outcomes) (start : Bool) :
    Prop :=
  match c with
  | .connect user => FreeAt g user → o.getpeername.isSome → start = true
  | .disconnect user => ConnectedAt g user → st.serverSocket = some .listening
  | _ => True

/-- `connect_user` succeeds for a registered user that is not connected, if
`getpeername` does. -/
theorem connectUser_error_eq_zero_iff {getpeername : Option InAddr} {port : Bytes} {user : Str}
    {g : Shared} :
    (connectUser getpeername port (entryName user) g.store.messages).2 = 0 ↔
      FreeAt g user ∧ getpeername.isSome := by
  unfold connectUser FreeAt
  cases h : KeyedList.lookup Node.name (entryName user) g.store.messages with
  | none =>
      rw [KeyedList.visit_of_lookup_eq_none h]
      exact iff_of_false (by simp) (by simp)
  | some n =>
      rw [KeyedList.visit_snd_of_lookup_eq_some h]
      cases hn : n.connected with
      | true => simp [connectNode, hn]
      | false => cases getpeername <;> simp [connectNode, hn]

/-- `disconnect_user` succeeds for a connected user. -/
theorem disconnectUser_error_eq_zero_iff {user : Str} {g : Shared} :
    (disconnectUser (entryName user) g.store.messages).2 = 0 ↔ ConnectedAt g user := by
  unfold disconnectUser ConnectedAt
  cases h : KeyedList.lookup Node.name (entryName user) g.store.messages with
  | none =>
      rw [KeyedList.visit_of_lookup_eq_none h]
      exact iff_of_false (by simp) (by simp)
  | some n =>
      rw [KeyedList.visit_snd_of_lookup_eq_some h]
      cases hn : n.connected with
      | true => simp [disconnectNode, hn]
      | false => simp [disconnectNode, hn]

/-- What the server does with a message it answers: the code of the operation comes
first. -/
theorem answered_of_exchange {c : Command} {time : StructTime} {port : UInt16} {o : Outcomes}
    {g g' : Shared} {user : Str} {m reply : Bytes}
    (hm : m = encodeMessage (c.message (strftime time) user port))
    (hexchange : (Environment.server time port o).exchange m g = some (reply, g')) :
    ∃ r listing, (c.operation.requestCall m).perform o g.store = some (g'.store, r) ∧
      c.operation.listing true r = some listing ∧ reply = errorStr r.error ++ listing := by
  obtain ⟨⟨g₁, h⟩, hrun, heq⟩ := Option.map_eq_some_iff.mp hexchange
  obtain ⟨rfl, rfl⟩ := Prod.mk.inj heq
  have hspec := treatRequest_eq (.ofStream m o) m g rfl rfl
  rw [hm, c.command_commandString, ← hm, hrun, Option.map_some] at hspec
  obtain ⟨⟨store, r⟩, hperform, hserved⟩ := Option.bind_eq_some_iff.mp hspec.symm
  obtain ⟨listing, hlisting, hobserve⟩ := Option.map_eq_some_iff.mp hserved
  refine ⟨r, listing, ?_, hlisting, (congrArg Served.reply hobserve).symm⟩
  rw [show g₁.store = store from (congrArg Served.store hobserve).symm]
  exact hperform

section Sent

variable {time : StructTime} {port : UInt16} {st : ClientState} {m : Bytes}

@[simp] theorem connectSocket_recording :
    (Environment.recording time port).connectSocket = true := rfl

theorem user_of_send {message : Str → Str → List Str}
    (h : (send (.recording time port) (fun t => st.user.map (message t)) []).2 = [m]) :
    ∃ user, st.user = some user := by
  rw [send_recording] at h
  cases huser : st.user with
  | none => simp [huser] at h
  | some user => exact ⟨user, rfl⟩

theorem register_sent {user : Str} (hsent : (Command.register user).sent time port st = [m]) :
    excedeTamano user = false := by
  simp only [Command.sent, Command.run, register] at hsent
  split at hsent
  · cases hsent
  · next hlength => simpa using hlength

theorem connect_sent {user : Str} (hsent : (Command.connect user).sent time port st = [m]) :
    st.connected = false := by
  simp only [Command.sent, Command.run, connect] at hsent
  split at hsent
  · cases hsent
  · next hconnected => simpa using hconnected

theorem publish_sent {fileName description : Str}
    (hsent : (Command.publish fileName description).sent time port st = [m]) :
    excedeTamano fileName = false ∧ st.connected = true ∧ ∃ user, st.user = some user := by
  simp only [Command.sent, Command.run, publish, connectSocket_recording, if_true] at hsent
  split at hsent
  · cases hsent
  · next hlength =>
      split at hsent
      · cases hsent
      · next hconnected =>
          exact ⟨by simpa using hlength, by simpa using hconnected, user_of_send hsent⟩

theorem delete_sent {fileName : Str}
    (hsent : (Command.delete fileName).sent time port st = [m]) :
    excedeTamano fileName = false ∧ st.connected = true ∧ ∃ user, st.user = some user := by
  simp only [Command.sent, Command.run, delete, connectSocket_recording, if_true] at hsent
  split at hsent
  · cases hsent
  · next hlength =>
      split at hsent
      · cases hsent
      · next hconnected =>
          exact ⟨by simpa using hlength, by simpa using hconnected, user_of_send hsent⟩

theorem listusers_sent (hsent : Command.listusers.sent time port st = [m]) :
    st.connected = true ∧ ∃ user, st.user = some user := by
  simp only [Command.sent, Command.run, listusers, connectSocket_recording, if_true] at hsent
  split at hsent
  · cases hsent
  · next hconnected => exact ⟨by simpa using hconnected, user_of_send hsent⟩

theorem listcontent_sent {target : Str}
    (hsent : (Command.listcontent target).sent time port st = [m]) :
    st.connected = true ∧ ∃ user, st.user = some user := by
  simp only [Command.sent, Command.run, listcontent, connectSocket_recording, if_true] at hsent
  split at hsent
  · cases hsent
  · next hconnected => exact ⟨by simpa using hconnected, user_of_send hsent⟩

end Sent

/-- A method that sends its request and gets an ASCII answer returns the member for
the code of the server's operation, exactly if it is neither a `connect` that the
server carries out and whose listener thread cannot be started, nor a `disconnect` of
a user the server has as connected on a client without a listening socket. -/
theorem reports_iff_canFinish {c : Command} {time : StructTime} {port : UInt16} {o : Outcomes}
    {start : Bool} {st : ClientState} {g g' : Shared} {m reply : Bytes}
    (hreachable : g.store.Reachable) (hsent : c.sent time port st = [m])
    (hexchange : (Environment.server time port o).exchange m g = some (reply, g'))
    (hascii : Text.IsAscii reply) :
    ∃ r, (c.operation.requestCall m).perform o g.store = some (g'.store, r) ∧
      ((∃ rc, (c.run ((Environment.server time port o).granting true start) st g).1 =
            .returns rc ∧
          Reports c.operation r.error rc) ↔ CanFinish c st g o start) := by
  set env := (Environment.server time port o).granting true start
  have hm := c.sent_eq hsent
  obtain ⟨r, listing, hperform, hlisting, hreply⟩ := answered_of_exchange hm hexchange
  refine ⟨r, hperform, ?_⟩
  have he := c.operation.error_mem_retvals hperform
  obtain ⟨hlow, hhigh⟩ := Operation.bounds_of_mem_retvals he
  have hsend : ∀ request : Str → Option (List Str),
      request (strftime time) = some (c.message (strftime time) (st.user.getD []) port) →
      (send env request g).1 = .returns (codeText r.error, listing) := by
    intro request hrequest
    have htime : env.getTime = some time := rfl
    have hexchange' : env.exchange m g = some (reply, g') := hexchange
    rw [send_of_exchange htime hrequest (hm ▸ hexchange'), hreply]
    exact readResponse_code hlow hhigh listing
  have hlistingAscii : Text.IsAscii listing := fun b hb =>
    hascii b (hreply ▸ List.mem_append_right _ hb)
  obtain ⟨hbody, -⟩ := Call.perform_eq_some (ListState.valid_of_reachable hreachable).lazy hperform
  cases c with
  | register user =>
      exact iff_of_true (register_reports (register_sent hsent) rfl (hsend _ rfl) he) trivial
  | unregister user => exact iff_of_true (unregister_reports rfl (hsend _ rfl) he) trivial
  | connect user =>
      have hcode : r.error = 0 ↔ FreeAt g user ∧ o.getpeername.isSome := by
        simp only [Command.operation, Operation.requestCall, Call.body, Option.some.injEq,
          Prod.mk.injEq] at hbody
        rw [← @connectUser_error_eq_zero_iff o.getpeername (received 3 m), ← hbody.2, hm,
          (Command.connect user).received_userName]
        rfl
      refine (connect_reports_iff (connect_sent hsent) rfl rfl rfl (hsend _ rfl) he).trans ?_
      rw [hcode, and_imp]
      rfl
  | disconnect user =>
      have hcode : r.error = 0 ↔ ConnectedAt g user := by
        simp only [Command.operation, Operation.requestCall, Call.body, Option.some.injEq,
          Prod.mk.injEq] at hbody
        rw [← disconnectUser_error_eq_zero_iff, ← hbody.2, hm,
          (Command.disconnect user).received_userName]
        rfl
      exact (disconnect_reports_iff rfl (hsend _ rfl) he).trans (imp_congr_left hcode)
  | publish fileName description =>
      obtain ⟨hlength, hconnected, user, huser⟩ := publish_sent hsent
      have hrequest := hsend (fun time => st.user.map fun user =>
        publishMessage time user fileName description) (by simp [huser, Command.message])
      exact iff_of_true (publish_reports hlength hconnected rfl hrequest he) trivial
  | delete fileName =>
      obtain ⟨hlength, hconnected, user, huser⟩ := delete_sent hsent
      have hrequest := hsend (fun time => st.user.map fun user =>
        deleteMessage time user fileName) (by simp [huser, Command.message])
      exact iff_of_true (delete_reports hlength hconnected rfl hrequest he) trivial
  | listusers =>
      obtain ⟨hconnected, user, huser⟩ := listusers_sent hsent
      have hrequest := hsend (fun time => st.user.map fun user =>
        listUsersMessage time user) (by simp [huser, Command.message])
      obtain ⟨q, hq, heq⟩ := Option.map_eq_some_iff.mp hbody
      obtain ⟨-, rfl⟩ := Prod.mk.inj heq
      obtain ⟨answer, hanswer, hreports⟩ := listusers_reports hconnected rfl hrequest rfl
        (fun h0 => by
          obtain rfl := listing_listUsers hq hlisting h0
          exact readUsers_usersListing hlistingAscii) he
      refine iff_of_true ⟨answer.rc, ?_, hreports⟩ trivial
      simp only [Command.run, hanswer, Outcome.bind_returns]
  | listcontent target =>
      obtain ⟨hconnected, user, huser⟩ := listcontent_sent hsent
      have hrequest := hsend (fun time => st.user.map fun user =>
        listContentMessage time user target) (by simp [huser, Command.message])
      obtain ⟨q, hq, heq⟩ := Option.map_eq_some_iff.mp hbody
      obtain ⟨-, rfl⟩ := Prod.mk.inj heq
      obtain ⟨answer, hanswer, hreports⟩ := listcontent_reports hconnected rfl hrequest rfl
        (fun h0 => by
          obtain ⟨node, rfl⟩ := listing_listContent hq hlisting h0
          exact readFiles_contentListing hlistingAscii) he
      refine iff_of_true ⟨answer.rc, ?_, hreports⟩ trivial
      simp only [Command.run, hanswer, Outcome.bind_returns]

/-- The user `a` disconnects from the client it has connected with. -/
theorem reports_iff_canFinish_own_user :
    let o := Outcomes.success ⟨10, 0, 0, 1⟩
    let time : StructTime := ⟨2023, 12, 1, 10, 0, 0⟩
    let m := encodeMessage (disconnectMessage (strftime time) ['a'])
    let node : Node :=
      ⟨.strncpy _ [97], .strncpy _ (inetNtoa ⟨10, 0, 0, 1⟩), .strncpy _ [56, 48], []⟩
    let g : Shared := ⟨.memset _, ⟨true, [node]⟩⟩
    let st : ClientState := ⟨true, some ['a'], false, some .listening⟩
    ∃ (g' : Shared) (r : Result),
      (Call.disconnectUser (received 2 m)).perform o g.store = some (g'.store, r) ∧
      ((∃ rc, ((Command.disconnect ['a']).run ((Environment.server time 80 o).granting true true)
            st g).1 = .returns rc ∧
          Reports .disconnect r.error rc) ↔ CanFinish (.disconnect ['a']) st g o true) := by
  intro o time m node g st
  have hreachable : g.store.Reachable := by
    let calls : List (Outcomes × Call) :=
      [(o, .registerUser [97]), (o, .connectUser [56, 48] [97])]
    have hfits : ∀ a ∈ calls, a.2.Fits := by decide +kernel
    have hrun : (Run.answers callStep .empty calls).map Prod.fst = some g.store := by
      decide +kernel
    obtain ⟨⟨store, log⟩, hlog, hstore⟩ := Option.map_eq_some_iff.mp hrun
    exact ⟨calls, log, hfits, hstore ▸ hlog⟩
  have hexchange : ((Environment.server time 80 o).exchange m g).map Prod.fst = some [48, 0] := by
    decide +kernel
  obtain ⟨⟨reply, g'⟩, hg', hreply⟩ := Option.map_eq_some_iff.mp hexchange
  have hascii : Text.IsAscii reply := by
    rw [show reply = [48, 0] from hreply]
    decide
  have hsent : (Command.disconnect ['a']).sent time 80 st = [m] := by decide +kernel
  exact ⟨g', reports_iff_canFinish hreachable hsent hg' hascii⟩

/-- One client connects `a`, and another one, which has no listening socket,
disconnects it: the server answers 0, and the caller is told of a failure. -/
theorem disconnect_without_socket :
    let o := Outcomes.success ⟨10, 0, 0, 1⟩
    let time : StructTime := ⟨2023, 12, 1, 10, 0, 0⟩
    let env := Environment.server time 80 o
    let registered := (Command.register ['a']).run env .init .init
    let connected := (Command.connect ['a']).run env registered.2.1 registered.2.2
    let g := connected.2.2
    let m := encodeMessage (disconnectMessage (strftime time) ['a'])
    (Command.disconnect ['a']).sent time 80 .init = [m] ∧
      (env.exchange m g).map Prod.fst = some [48, 0] ∧
      ((Call.disconnectUser (received 2 m)).perform o g.store).map (fun r => r.2.error) = some 0 ∧
      ((Command.disconnect ['a']).run env .init g).1 = .returns .otherCases ∧
      ¬ Reports .disconnect 0 .otherCases := by
  decide +kernel

end Client

end PeerDirectory
