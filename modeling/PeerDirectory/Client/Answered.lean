import PeerDirectory.Client.ResultCodes

/-!
# Calls come back

`read_response` waits for ever where the string it reads has no NUL, and the listing
methods read as many strings as the number says that comes first. The server sends
every string with its NUL, and never fewer than it announces. So a method that is
answered by the server comes back in whatever state both are; strings that are not
ASCII make it fail, and not wait. Only where `connect` gets no socket to listen on,
and there is no old one, an exception leaves it.
-/

namespace PeerDirectory

/-! ## Code that comes back -/

/-- The code comes back, with a value or with an exception. -/
def Outcome.Ends {α : Type} (o : Outcome α) : Prop :=
  o ≠ .hangs

namespace Outcome.Ends

variable {α β : Type} {o : Outcome α}

theorem returns (a : α) : (Outcome.returns a).Ends := by
  simp [Ends]

theorem raises : (Outcome.raises : Outcome α).Ends := by
  simp [Ends]

theorem bind (h : o.Ends) {next : α → Outcome β} (hnext : ∀ a, o = .returns a → (next a).Ends) :
    (o.bind next).Ends := by
  cases o with
  | returns a => exact hnext a rfl
  | raises => exact raises
  | hangs => exact absurd rfl h

/-- `except Exception` makes a value of it. -/
theorem catching (h : o.Ends) (value : α) : ∃ a, o.catching value = .returns a := by
  cases o with
  | returns a => exact ⟨a, rfl⟩
  | raises => exact ⟨value, rfl⟩
  | hangs => exact absurd rfl h

end Outcome.Ends

namespace Client

open Outcome

/-! ## Readers on what the server sends -/

/-- A string of a row that is there is read, and then what is behind it. -/
theorem Reading.response_cstring_ends {ρ : Type} {f : Bytes} (hnul : 0 ∉ f) (begun : List Str)
    {s : Bytes} {next : Str × Bytes → Reading ρ} (hnext : ∀ text, (next (text, s)).ends.Ends) :
    (Reading.response begun (cstring f ++ s) next).ends.Ends := by
  unfold Reading.response
  rcases readResponse_cstring_cases hnul s with ⟨-, h⟩ | ⟨-, h⟩
  · rw [h]
    exact hnext _
  · rw [h]
    exact .raises

theorem readUsers_ends {rows : List (Bytes × Bytes × Bytes)} (hnul : ∀ r ∈ rows, NulFreeRow r) :
    (readUsers rows.length (rows.flatMap sentUser)).ends.Ends := by
  induction rows with
  | nil => exact .returns _
  | cons r rows ih =>
      obtain ⟨hname, hip, hport⟩ := hnul r List.mem_cons_self
      have hrest := ih fun q hq => hnul q (List.mem_cons_of_mem r hq)
      rw [List.flatMap_cons, List.length_cons, readUsers, sentUser, List.append_assoc,
        List.append_assoc]
      refine Reading.response_cstring_ends hname _ fun username => ?_
      refine Reading.response_cstring_ends hip _ fun ip => ?_
      refine Reading.response_cstring_ends hport _ fun port => ?_
      exact hrest

/-- Files without a name are sent, and not counted. -/
theorem readFiles_ends {rows : List (Bytes × Bytes)} (hnul : ∀ r ∈ rows, 0 ∉ r.1 ∧ 0 ∉ r.2)
    {turns : ℕ} (hturns : turns ≤ rows.length) :
    (readFiles turns (rows.flatMap sentFile)).ends.Ends := by
  induction rows generalizing turns with
  | nil =>
      obtain rfl : turns = 0 := Nat.le_zero.mp hturns
      exact .returns _
  | cons r rows ih =>
      cases turns with
      | zero => exact .returns _
      | succ turns =>
          obtain ⟨hname, hdescription⟩ := hnul r List.mem_cons_self
          have hrest := ih (fun q hq => hnul q (List.mem_cons_of_mem r hq))
            (Nat.le_of_succ_le_succ hturns)
          rw [List.flatMap_cons, readFiles, sentFile, List.append_assoc]
          refine Reading.response_cstring_ends hname _ fun fileName => ?_
          refine Reading.response_cstring_ends hdescription _ fun description => ?_
          exact hrest

theorem Reading.listing_ends {ρ : Type} {r : Reading ρ} (h : r.ends.Ends) (rc : RC) :
    (r.listing rc).Ends := by
  unfold Reading.listing
  cases hends : r.ends with
  | returns _ => exact .returns _
  | raises => exact .returns _
  | hangs => exact absurd hends h

theorem readListing_usersListing_ends (messages : List Node) (rc : RC) :
    (readListing .unlimited readUsers rc (usersListing messages)).Ends := by
  have hsent : (messages.filter Node.connected).flatMap (fun user => sentUser user.row) =
      ((messages.filter Node.connected).map Node.row).flatMap sentUser := by
    rw [List.flatMap_map]
  have hrows : ∀ r ∈ (messages.filter Node.connected).map Node.row, NulFreeRow r :=
    List.forall_mem_map.mpr fun n _ => nulFreeRow_row n
  have hread := readUsers_ends hrows
  rw [List.length_map] at hread
  rw [usersListing, hsent, readListing_decimal (takes_unlimited _)]
  exact Reading.listing_ends hread rc

theorem readListing_contentListing_ends (files : List FileNode) (rc : RC) :
    (readListing .unlimited readFiles rc (contentListing files)).Ends := by
  have hsent : files.flatMap (fun f => sentFile f.row) =
      (files.map FileNode.row).flatMap sentFile := by
    rw [List.flatMap_map]
  have hle : (files.countP fun f => f.name ≠ []) ≤ (files.map FileNode.row).length := by
    rw [List.length_map]
    exact List.countP_le_length
  rw [contentListing, hsent, readListing_decimal (takes_unlimited _)]
  exact Reading.listing_ends
    (readFiles_ends (List.forall_mem_map.mpr fun f _ => nul_notMem_row f) hle) rc

/-! ## The methods -/

/-- The other end of a connection is the server, or the connection fails. All the rest
of the outside may fail as well. -/
structure Environment.Serving (env : Environment Shared) (o : Outcomes) : Prop where
  exchange : ∀ m g, env.exchange m g = none ∨
    env.exchange m g = (treatRequest (.ofStream m o) g).map fun r => (r.2.sent, r.1)
  maxStrDigits : env.maxStrDigits = .unlimited

section Server

variable (c : Command) {env : Environment Shared} {o : Outcomes} (h : env.Serving o)
  (ho : o.Allocated) (user : Str) (port : UInt16) (g : Shared) (request : Str → Option (List Str))

include h ho

/-- The first response comes, and behind the code 0 of a listing the listing. -/
theorem send_server_ends
    (hrequest : ∀ time m, request time = some m → m = c.message time user port) :
    (send env request g).1.Ends ∧
      ∀ rest, (send env request g).1 = .returns (['0'], rest) →
        (c.operation = .listUsers → ∃ messages, rest = usersListing messages) ∧
          (c.operation = .listContent → ∃ files, rest = contentListing files) := by
  unfold send
  cases hm : env.getTime.bind fun time => request (strftime time) with
  | none => exact ⟨.raises, fun rest h => by cases h⟩
  | some m =>
      obtain ⟨time, -, hm⟩ := Option.bind_eq_some_iff.mp hm
      obtain rfl := hrequest _ m hm
      dsimp only
      rcases h.exchange (encodeMessage (c.message (strftime time) user port)) g with hx | hserver
      · rw [hx]
        exact ⟨.raises, fun rest h => by cases h⟩
      · have hx : env.exchange (encodeMessage (c.message (strftime time) user port)) g =
            (Environment.server time port o).exchange
              (encodeMessage (c.message (strftime time) user port)) g := hserver
        -- the memory is granted, so there is an answer
        have hsome := c.operation.serve_isSome ho
          (rfl : (Connection.ofStream (encodeMessage (c.message (strftime time) user port))
            o).mallocCount = true)
          (encodeMessage (c.message (strftime time) user port)) g.store
        obtain ⟨served, hserve⟩ := Option.isSome_iff_exists.mp hsome
        obtain ⟨g', -, hanswer⟩ := exchange_server hserve
        rw [hx, hanswer]
        obtain ⟨r, listing, hperform, hlisting, hreply⟩ := answered_of_exchange rfl hanswer
        obtain ⟨hlow, hhigh⟩ :=
          Operation.bounds_of_mem_retvals (c.operation.error_mem_retvals hperform)
        dsimp only
        rw [hreply, readResponse_code hlow hhigh listing]
        refine ⟨.returns _, fun rest h => ?_⟩
        obtain ⟨hcode, rfl⟩ := Prod.mk.inj (Outcome.returns.inj h)
        have h0 : r.error = 0 := (codeText_eq_zero_iff hlow hhigh).mp hcode
        obtain ⟨⟨messages, r'⟩, hbody, heq⟩ := Option.map_eq_some_iff.mp hperform
        obtain ⟨-, rfl⟩ := Prod.mk.inj heq
        refine ⟨fun hop => ?_, fun hop => ?_⟩
        · rw [hop] at hbody hlisting
          obtain ⟨q, hq, heq⟩ := Option.map_eq_some_iff.mp hbody
          obtain ⟨-, rfl⟩ := Prod.mk.inj heq
          exact ⟨_, listing_listUsers hq hlisting h0⟩
        · rw [hop] at hbody hlisting
          obtain ⟨q, hq, heq⟩ := Option.map_eq_some_iff.mp hbody
          obtain ⟨-, rfl⟩ := Prod.mk.inj heq
          obtain ⟨target, htarget⟩ := listing_listContent hq hlisting h0
          exact ⟨_, htarget⟩

/-- A method that looks at the first response only. -/
theorem answer_returns
    (hrequest : ∀ time m, request time = some m → m = c.message time user port)
    {next : Str × Bytes → Outcome RC} (hnext : ∀ response, (next response).Ends) (rc : RC) :
    ∃ rc', ((send env request g).1.bind next).catching rc = .returns rc' := by
  have hends := (send_server_ends c h ho user port g request hrequest).1
  exact (hends.bind fun response _ => hnext response).catching rc

end Server

/-- The request of a method that names the connected user. -/
theorem eq_message_of_user {c : Command} {st : ClientState} {port : UInt16}
    (message : Str → Str → List Str) (h : ∀ time user, message time user = c.message time user port)
    (time : Str) (m : List Str) (hm : (st.user.map fun user => message time user) = some m) :
    m = c.message time (st.user.getD []) port := by
  obtain ⟨user, huser, rfl⟩ := Option.map_eq_some_iff.mp hm
  rw [huser, h]
  rfl

section Calls

variable {env : Environment Shared} {o : Outcomes} (h : env.Serving o) (ho : o.Allocated)
  (st : ClientState) (g : Shared)

include h ho

theorem listusers_returns : ∃ l, (listusers env st g).1 = .returns l := by
  unfold listusers
  split
  · exact ⟨_, rfl⟩
  · split
    · obtain ⟨hends, hlisting⟩ := send_server_ends .listusers h ho (st.user.getD []) 0 g
        (fun time => st.user.map fun user => listUsersMessage time user)
        (eq_message_of_user listUsersMessage fun _ _ => rfl)
      refine (hends.bind fun response hresponse => ?_).catching _
      obtain ⟨response, rest⟩ := response
      dsimp only
      by_cases h0 : response = ['0']
      · subst h0
        obtain ⟨messages, rfl⟩ := (hlisting rest hresponse).1 rfl
        rw [if_pos rfl, h.maxStrDigits]
        exact readListing_usersListing_ends messages _
      · rw [if_neg h0]
        split
        · exact .returns _
        · split <;> exact .returns _
    · exact ⟨_, rfl⟩

theorem listcontent_returns (user : Str) : ∃ l, (listcontent env user st g).1 = .returns l := by
  unfold listcontent
  split
  · exact ⟨_, rfl⟩
  · split
    · obtain ⟨hends, hlisting⟩ := send_server_ends (.listcontent user) h ho
        (st.user.getD []) 0 g (fun time => st.user.map fun u => listContentMessage time u user)
        (eq_message_of_user (fun time u => listContentMessage time u user) fun _ _ => rfl)
      refine (hends.bind fun response hresponse => ?_).catching _
      obtain ⟨response, rest⟩ := response
      dsimp only
      by_cases h0 : response = ['0']
      · subst h0
        obtain ⟨files, rfl⟩ := (hlisting rest hresponse).2 rfl
        rw [if_pos rfl, h.maxStrDigits]
        exact readListing_contentListing_ends files _
      · rw [if_neg h0]
        split
        · exact .returns _
        · split
          · exact .returns _
          · split <;> exact .returns _
    · exact ⟨_, rfl⟩

theorem register_returns (user : Str) : ∃ rc, (register env user g).1 = .returns rc := by
  unfold register
  split
  · exact ⟨_, rfl⟩
  · split
    · refine answer_returns (.register user) h ho [] 0 g _
        (fun time m hm => (Option.some.inj hm).symm) (fun response => ?_) _
      repeat' split
      all_goals exact .returns _
    · exact ⟨_, rfl⟩

theorem unregister_returns (user : Str) : ∃ rc, (unregister env user g).1 = .returns rc := by
  unfold unregister
  split
  · refine answer_returns (.unregister user) h ho [] 0 g _
      (fun time m hm => (Option.some.inj hm).symm) (fun response => ?_) _
    repeat' split
    all_goals exact .returns _
  · exact ⟨_, rfl⟩

theorem publish_returns (fileName description : Str) :
    ∃ rc, (publish env fileName description st g).1 = .returns rc := by
  unfold publish
  split
  · exact ⟨_, rfl⟩
  · split
    · exact ⟨_, rfl⟩
    · split
      · refine answer_returns (.publish fileName description) h ho (st.user.getD []) 0 g _
          (eq_message_of_user (fun time user => publishMessage time user fileName description)
            fun _ _ => rfl) (fun response => ?_) _
        repeat' split
        all_goals exact .returns _
      · exact ⟨_, rfl⟩

theorem delete_returns (fileName : Str) :
    ∃ rc, (delete env fileName st g).1 = .returns rc := by
  unfold delete
  split
  · exact ⟨_, rfl⟩
  · split
    · exact ⟨_, rfl⟩
    · split
      · refine answer_returns (.delete fileName) h ho (st.user.getD []) 0 g _
          (eq_message_of_user (fun time user => deleteMessage time user fileName) fun _ _ => rfl)
          (fun response => ?_) _
        repeat' split
        all_goals exact .returns _
      · exact ⟨_, rfl⟩

/-- `connect` comes back, if it gets a socket to listen on or there is an old one. -/
theorem connect_returns (user : Str) (hgiven : env.socket = true ∨ st.serverSocket ≠ none) :
    ∃ rc, (connect env user st g).1 = .returns rc := by
  unfold connect
  dsimp only
  split
  · exact ⟨_, rfl⟩
  · split
    · split
      · cases env.bind with
        | none => exact ⟨_, rfl⟩
        | some port =>
            obtain ⟨hends, -⟩ := send_server_ends (.connect user) h ho [] port g
              (fun time => some (connectMessage time user port))
              fun time m hm => (Option.some.inj hm).symm
            dsimp only
            generalize send env _ g = r at hends ⊢
            obtain ⟨answer, g'⟩ := r
            cases answer with
            | returns response =>
                dsimp only
                repeat' split
                all_goals exact ⟨_, rfl⟩
            | raises => exact ⟨_, rfl⟩
            | hangs => exact absurd rfl hends
      · next hsocket =>
          obtain ⟨socket, hold⟩ := Option.ne_none_iff_exists'.mp (hgiven.resolve_left hsocket)
          rw [hold]
          exact ⟨_, rfl⟩
    · exact ⟨_, rfl⟩

theorem disconnect_returns (user : Str) : ∃ rc, (disconnect env user st g).1 = .returns rc := by
  obtain ⟨hends, -⟩ := send_server_ends (.disconnect user) h ho [] 0 g
    (fun time => some (disconnectMessage time user)) fun time m hm => (Option.some.inj hm).symm
  unfold disconnect
  dsimp only
  split
  · generalize send env _ g = r at hends ⊢
    obtain ⟨answer, g'⟩ := r
    cases answer with
    | returns response =>
        dsimp only
        repeat' split
        all_goals exact ⟨_, rfl⟩
    | raises => exact ⟨_, rfl⟩
    | hangs => exact absurd rfl hends
  · exact ⟨_, rfl⟩

end Calls

end Client

end PeerDirectory
