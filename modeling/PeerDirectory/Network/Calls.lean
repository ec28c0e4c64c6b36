import PeerDirectory.Client.Session
import PeerDirectory.Directory.Addresses

/-!
# What a call does to the addresses at the server

A call of a client that the server handles alone changes the address of at most
one user: `connect` sets it where the user has none, `disconnect` and `unregister`
take it. The client then counts as connected as the answer says, if the listener
thread starts.
-/

namespace PeerDirectory

/-- The addresses the server knows. -/
def Shared.address (g : Shared) : Bytes → Option (Bytes × Bytes) :=
  (abstract g.store.messages).address

namespace Client

/-- A user name that everyone can read: a line of ASCII that fits. -/
def IsPlain (user : Str) : Prop :=
  Char.ofNat 0 ∉ user ∧ ReceivedWhole user ∧ ∀ c ∈ user, c.toNat < 128

instance (user : Str) : Decidable (IsPlain user) :=
  letI : Decidable (∀ c ∈ user, c.toNat < 128) := List.decidableBAll (fun c => c.toNat < 128) user
  inferInstanceAs (Decidable (Char.ofNat 0 ∉ user ∧ ReceivedWhole user ∧ ∀ c ∈ user, c.toNat < 128))

theorem IsPlain.entryName {user : Str} (h : IsPlain user) : entryName user = Text.encode user :=
  entryName_eq h.1 h.2.1

section Calls

variable {time : StructTime} {port : UInt16} {o : Outcomes} {socket : Bool} {st : ClientState}
  {g : Shared} {user : Str}

/-- The port `connect` sends behind a user name that is received whole. -/
theorem received_connectMessage (time : StructTime) (port : UInt16) (h : IsPlain user) :
    received 3 (encodeMessage (connectMessage (strftime time) user port)) =
      decimal port.toNat := by
  have huser := (fitsLine_encode_iff h.1).mpr h.2.1
  have hfits : ∀ f ∈ (connectMessage (strftime time) user port).map Text.encode,
      FitsLine maxValueLength f := by
    refine ((Command.connect user).fitsLine_message_iff time [] port).mpr fun a ha => ?_
    rw [List.mem_singleton.mp ha]
    exact huser
  rw [encodeMessage, received_frame hfits (by simp [connectMessage])]
  rfl

/-- `connect` of a client that is connected asks nobody. -/
theorem run_connect_of_connected (env : Environment Shared) (user : Str)
    (hconnected : st.connected = true) (g : Shared) :
    (Command.connect user).run env st g = (.returns .userError, st, g) :=
  if_pos hconnected

/-- `connect` of a client that is not connected: either the user gets the address
of the client, or nothing changes. -/
theorem run_connect (time : StructTime) (port : UInt16) (hplain : IsPlain user)
    (hvalid : g.Valid) (ho : o.Allocated) (hconnected : st.connected = false) :
    ∃ answer st' g', (Command.connect user).run
        ((Environment.server time port o).granting socket true) st g = (answer, st', g') ∧
      g'.Valid ∧
      ((st'.connected = true ∧ st'.user = some user ∧ g.address (entryName user) = none ∧
          ∃ addr, o.getpeername = some addr ∧ g'.address =
            Function.update g.address (entryName user)
              (some (inetNtoa addr, decimal port.toNat))) ∨
        st'.connected = false ∧ g'.address = g.address) := by
  cases socket with
  | false =>
      rcases connect_of_no_socket ((Environment.server time port o).granting false true) user st g
        rfl rfl hconnected with hrun | hrun
      · exact ⟨_, _, _, hrun, hvalid, Or.inr ⟨hconnected, rfl⟩⟩
      · exact ⟨_, _, _, hrun, hvalid, Or.inr ⟨hconnected, rfl⟩⟩
  | true =>
  obtain ⟨g', reply, response, rest, hx, hvalid', hdirectory, hresponse, hzero⟩ :=
    exchange_refines (.connect user) time [] port ho hvalid
  obtain ⟨rc, socket, hrun, -⟩ := connect_of_exchange
    ((Environment.server time port o).granting true true) st rfl rfl rfl rfl hconnected hx hresponse
  have hcall : (Command.connect user).operation.requestCall (encodeMessage
      ((Command.connect user).message (strftime time) [] port)) =
      .connectUser (decimal port.toNat) (entryName user) := by
    have hname := (Command.connect user).received_userName time [] port
    have hport := received_connectMessage time port hplain
    exact congrArg₂ Call.connectUser hport hname
  rw [hcall] at hdirectory hzero
  have hstart : (response = ['0'] ∧ ((Environment.server time port o).granting true true).start =
      true) ↔ response = ['0'] := and_iff_left rfl
  rw [if_congr hstart rfl rfl] at hrun
  refine ⟨_, _, g', hrun, hvalid', ?_⟩
  rcases Directory.step_connectUser o (abstract g.store.messages) (decimal port.toNat)
    (entryName user) with ⟨hcode, hfree, addr, haddr, hset⟩ | ⟨hcode, hsame⟩
  · rw [if_pos (hzero.mpr hcode)]
    refine Or.inl ⟨rfl, rfl, hfree, addr, haddr, ?_⟩
    rw [Shared.address, hdirectory, hset]
    rfl
  · rw [if_neg (mt hzero.mp hcode)]
    refine Or.inr ⟨hconnected, ?_⟩
    rw [Shared.address, hdirectory, hsame]
    rfl

/-- `disconnect` takes the address of its user and resets the client. -/
theorem run_disconnect (time : StructTime) (port : UInt16) (user : Str) (st : ClientState)
    (hvalid : g.Valid) (ho : o.Allocated) :
    ∃ rc st' g', (Command.disconnect user).run (.server time port o) st g =
        (.returns rc, st', g') ∧ g'.Valid ∧ st'.connected = false ∧
      g'.address = Function.update g.address (entryName user) none := by
  obtain ⟨g', reply, response, rest, hx, hvalid', hdirectory, hresponse, -⟩ :=
    exchange_refines (.disconnect user) time [] port ho hvalid
  obtain ⟨rc, socket, hrun⟩ := disconnect_of_exchange (.server time port o) st rfl rfl hx hresponse
  refine ⟨rc, _, g', hrun, hvalid', rfl, ?_⟩
  funext name
  have hname := (Command.disconnect user).received_userName time [] port
  rw [Shared.address, hdirectory, Function.update_apply]
  refine (Directory.address_step_of_leaves o _ (Or.inr rfl)).trans ?_
  rw [hname]
  rfl

/-- `unregister` takes the address of its user and leaves the client as it is. -/
theorem run_unregister (time : StructTime) (port : UInt16) (user : Str) (st : ClientState)
    (hvalid : g.Valid) (ho : o.Allocated) :
    ∃ rc g', (Command.unregister user).run (.server time port o) st g =
        (.returns rc, st, g') ∧ g'.Valid ∧
      g'.address = Function.update g.address (entryName user) none := by
  obtain ⟨g', reply, response, rest, hx, hvalid', hdirectory, hresponse, -⟩ :=
    exchange_refines (.unregister user) time [] port ho hvalid
  have hsend : send (.server time port o) (fun t => some (unregisterMessage t user)) g =
      (readResponse reply, g') := send_of_exchange rfl rfl hx
  have hrun : ∃ rc, (Command.unregister user).run (.server time port o) st g =
      (.returns rc, st, g') := by
    simp only [Command.run, Client.unregister, hsend, hresponse, Outcome.bind_returns]
    by_cases h0 : response = ['0']
    · exact ⟨.ok, by simp [h0, Environment.server]⟩
    · by_cases h1 : response = ['1']
      · exact ⟨.error, by simp [h1, Environment.server]⟩
      · exact ⟨.userError, by simp [h0, h1, Environment.server]⟩
  obtain ⟨rc, hrun⟩ := hrun
  refine ⟨rc, g', hrun, hvalid', ?_⟩
  funext name
  have hname := (Command.unregister user).received_userName time [] port
  rw [Shared.address, hdirectory, Function.update_apply]
  refine (Directory.address_step_of_leaves o _ (Or.inl rfl)).trans ?_
  rw [hname]
  rfl

/-- The calls that neither connect nor disconnect anybody. -/
def Command.Keeps : Command → Prop
  | .connect _ => False
  | .disconnect _ => False
  | .unregister _ => False
  | _ => True

/-- The other calls keep the client and all addresses. -/
theorem run_of_keeps (time : StructTime) (port : UInt16) {c : Command} (hc : c.Keeps)
    (st : ClientState) (hvalid : g.Valid) (ho : o.Allocated) :
    ∃ answer g', c.run (.server time port o) st g = (answer, st, g') ∧ g'.Valid ∧
      g'.address = g.address := by
  have hclient : (c.run (.server time port o) st g).2.1 = st := by
    cases c with
    | connect _ | disconnect _ | unregister _ => exact hc.elim
    | _ => rfl
  refine ⟨(c.run (.server time port o) st g).1, (c.run (.server time port o) st g).2.2,
    Prod.ext rfl (Prod.ext hclient rfl), ?_⟩
  rcases c.run_server time port o st g with hg | ⟨reply, hx⟩
  · rw [hg]
    exact ⟨hvalid, rfl⟩
  · obtain ⟨g', reply', -, -, hx', hvalid', hdirectory, -, -⟩ :=
      exchange_refines c time (st.user.getD []) port ho hvalid
    rw [hx, Option.some.injEq, Prod.mk.injEq] at hx'
    obtain ⟨-, rfl⟩ := hx'
    refine ⟨hvalid', ?_⟩
    rw [Shared.address, hdirectory]
    refine Directory.address_step_of_keeps o _ fun name => ?_
    cases c with
    | connect _ | disconnect _ | unregister _ => exact hc.elim
    | _ => rfl

end Calls

section Sockets

variable {σ : Type}

/-- The listening socket still has its port. -/
def ClientState.isOpen (st : ClientState) : Bool :=
  match st.serverSocket with
  | none => false
  | some .closed => false
  | some _ => true

/-- `disconnect` opens no socket. -/
theorem isOpen_disconnect {env : Environment σ} {user : Str} {st : ClientState} {peer : σ}
    (h : (disconnect env user st peer).2.1.isOpen = true) : st.isOpen = true := by
  have hsocket : (disconnect env user st peer).2.1.serverSocket = st.serverSocket ∨
      st.serverSocket = some .listening := by
    unfold disconnect
    split
    · dsimp only
      split
      · split
        · split
          · next socket hshut =>
              right
              obtain ⟨s, hs, hshut⟩ := Option.bind_eq_some_iff.mp hshut
              cases s <;> first | exact hs | cases hshut
          · exact Or.inl rfl
        · (repeat' split) <;> exact Or.inl rfl
      · exact Or.inl rfl
      · exact Or.inl rfl
    · exact Or.inl rfl
  rcases hsocket with hsame | hlistening
  · rw [ClientState.isOpen, hsame] at h
    exact h
  · simp [ClientState.isOpen, hlistening]

/-- Only `connect` opens a socket, and only for a client that is not connected. -/
theorem isOpen_run {env : Environment σ} {c : Command} {st : ClientState} {peer : σ}
    (h : (c.run env st peer).2.1.isOpen = true) :
    st.isOpen = true ∨ st.connected = false ∧ ∃ user, c = .connect user := by
  cases c with
  | connect user =>
      cases hc : st.connected with
      | false => exact Or.inr ⟨rfl, user, rfl⟩
      | true =>
          have hrun : (Command.connect user).run env st peer = (.returns .userError, st, peer) :=
            if_pos hc
          rw [hrun] at h
          exact Or.inl h
  | disconnect user => exact Or.inl (isOpen_disconnect h)
  | register _ | unregister _ | publish _ _ | delete _ | listusers | listcontent _ => exact Or.inl h

end Sockets

end Client

end PeerDirectory
