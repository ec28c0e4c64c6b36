import PeerDirectory.Directory.Publications

/-!
# Addresses over whole histories

A user gets its address by `connect_user`, and loses it by `disconnect_user` or
with its entry by `unregister_user`. Over any history of calls, `list_users` shows
a user with an address exactly when the latest of these events that succeeded was
the connection from that address and with that port.
-/

namespace PeerDirectory

namespace Directory

/-- The address of a connected user. -/
def address (d : Directory) (username : Bytes) : Option (Bytes × Bytes) :=
  (d username).bind Entry.address

theorem connected_iff_address {d : Directory} {username : Bytes} :
    d.Connected username ↔ (d.address username).isSome := by
  unfold Connected address
  cases d username <;> simp

theorem address_set {d : Directory} {username n : Bytes} {e : Option Entry} :
    (d.set n e).address username =
      if username = n then e.bind Entry.address else d.address username := by
  unfold address set
  by_cases h : username = n
  · subst h
    simp
  · simp [h]

end Directory

/-- What the call means for the address of a user when it succeeds. -/
def Call.addressEvent (o : Outcomes) (username : Bytes) : Call → Option (Option (Bytes × Bytes))
  | .connectUser port u =>
      if u = username then o.getpeername.map fun addr => some (inetNtoa addr, port) else none
  | .disconnectUser u => if u = username then some none else none
  | .unregisterUser u => if u = username then some none else none
  | _ => none

namespace Directory

/-- A call with this outcome has set the address as its event says, or was refused
and has changed nothing. -/
def SetsAddress (d : Directory) (username : Bytes) (event : Option (Option (Bytes × Bytes)))
    (r : Directory × Answer) : Prop :=
  r.1.address username =
    if r.2.error = 0 then event.getD (d.address username) else d.address username

variable {d : Directory} {username : Bytes}

theorem setsAddress_refused {error : Int} (h : error ≠ 0)
    (event : Option (Option (Bytes × Bytes))) : d.SetsAddress username event (d, .code error) :=
  (if_neg h).symm

/-- A call without an event for the user keeps its address. -/
theorem setsAddress_none {r : Directory × Answer}
    (h : r.1.address username = d.address username) : d.SetsAddress username none r := by
  rw [SetsAddress, h, Option.getD_none, ite_self]

/-- A call that succeeds and gives its user this address. -/
theorem setsAddress_set {n : Bytes} {e : Option Entry} {address : Option (Bytes × Bytes)}
    (h : e.bind Entry.address = address) :
    d.SetsAddress username (if n = username then some address else none)
      (d.set n e, .code 0) := by
  rw [SetsAddress, address_set, h]
  by_cases hn : n = username
  · simp [hn, Answer.error]
  · simp [hn, Ne.symm hn]

/-- Replacing the files of a user. -/
theorem address_set_files {n : Bytes} {e : Entry} (he : d n = some e)
    (files : Bytes → Option Bytes) :
    (d.set n (some { e with files := files })).address username = d.address username := by
  rw [address_set]
  split
  · next h => simp [h, address, he]
  · rfl

theorem setsAddress_ifConnected {n : Bytes} {k : Entry → Directory × Answer}
    {event : Option (Option (Bytes × Bytes))}
    (hk : ∀ e, d n = some e → d.SetsAddress username event (k e)) :
    d.SetsAddress username event (d.ifConnected n k) := by
  unfold ifConnected
  cases hn : d n with
  | none => exact setsAddress_refused (by decide) event
  | some e =>
      cases ha : e.address with
      | none =>
          simp only [ha]
          exact setsAddress_refused (by decide) event
      | some address =>
          simp only [ha]
          exact hk e hn

/-- A call that succeeds sets the addresses it is about, and nothing else changes
one. -/
theorem setsAddress_step (o : Outcomes) (d : Directory) (c : Call) (username : Bytes) :
    d.SetsAddress username (c.addressEvent o username) (d.step o c) := by
  cases c with
  | registerUser n =>
      refine setsAddress_none ?_
      simp only [step]
      cases hn : d n with
      | some e => rfl
      | none =>
          cases o.mallocNode with
          | none => rfl
          | some block =>
              simp only [address_set]
              split
              · next h => simp [h, address, hn]
              · rfl
  | unregisterUser n =>
      simp only [step, Call.addressEvent]
      cases d n with
      | none => exact setsAddress_refused (by decide) _
      | some e => exact setsAddress_set rfl
  | connectUser port n =>
      simp only [step, Call.addressEvent]
      cases d n with
      | none => exact setsAddress_refused (by decide) _
      | some e =>
          cases ha : e.address with
          | some address =>
              simp only [ha]
              exact setsAddress_refused (by decide) _
          | none =>
              simp only [ha]
              cases o.getpeername with
              | none => exact setsAddress_refused (by decide) _
              | some addr => exact setsAddress_set rfl
  | disconnectUser n => exact setsAddress_ifConnected fun e _ => setsAddress_set rfl
  | registerFileFromUser n f description =>
      refine setsAddress_ifConnected fun e he => setsAddress_none ?_
      cases e.files f with
      | some description' => rfl
      | none =>
          cases o.mallocFile with
          | false => rfl
          | true => exact address_set_files he _
  | unregisterFileFromUser n f =>
      refine setsAddress_ifConnected fun e he => setsAddress_none ?_
      cases e.files f with
      | none => rfl
      | some description => exact address_set_files he _
  | listUsers n => exact setsAddress_ifConnected fun e _ => setsAddress_none rfl
  | listContent n n2 =>
      refine setsAddress_ifConnected fun e _ => setsAddress_none ?_
      cases d n2 <;> rfl

/-- A user that is unregistered or disconnected has no address, whatever the
code. -/
theorem address_step_of_leaves (o : Outcomes) (d : Directory) {c : Call} {n : Bytes}
    (hc : c = .unregisterUser n ∨ c = .disconnectUser n) :
    (d.step o c).1.address username = if username = n then none else d.address username := by
  have hset := d.setsAddress_step o c username
  have hconnected : (d.step o c).1.Connected username ↔ d.Connected username ∧ username ≠ n := by
    rcases hc with rfl | rfl <;> exact connected_step _
  rw [SetsAddress] at hset
  split
  · next h =>
      rw [← Option.not_isSome_iff_eq_none, ← connected_iff_address, hconnected]
      exact fun hand => hand.2 h
  · next h =>
      rw [hset]
      rcases hc with rfl | rfl <;> simp [Call.addressEvent, Ne.symm h]

/-- `connect_user` gives its user an address where it has none, or changes
nothing. -/
theorem step_connectUser (o : Outcomes) (d : Directory) (port n : Bytes) :
    ((d.step o (.connectUser port n)).2.error = 0 ∧ d.address n = none ∧
      ∃ addr, o.getpeername = some addr ∧ (d.step o (.connectUser port n)).1.address =
        Function.update d.address n (some (inetNtoa addr, port))) ∨
    (d.step o (.connectUser port n)).2.error ≠ 0 ∧ (d.step o (.connectUser port n)).1 = d := by
  simp only [step]
  cases hn : d n with
  | none => exact Or.inr ⟨by simp [Answer.error], rfl⟩
  | some e =>
      cases ha : e.address with
      | some address => exact Or.inr ⟨by simp [ha, Answer.error], by simp [ha]⟩
      | none =>
          cases hpeer : o.getpeername with
          | none => exact Or.inr ⟨by simp [ha, Answer.error], by simp [ha]⟩
          | some addr =>
              refine Or.inl ⟨by simp [ha, Answer.error], by simp [address, hn, ha], addr, rfl, ?_⟩
              funext m
              simp only [ha, address_set, Function.update_apply]
              rfl

/-- The other calls keep every address. -/
theorem address_step_of_keeps (o : Outcomes) (d : Directory) {c : Call}
    (hc : ∀ username, c.addressEvent o username = none) : (d.step o c).1.address = d.address := by
  funext username
  have hset := d.setsAddress_step o c username
  rw [SetsAddress, hc, Option.getD_none, ite_self] at hset
  exact hset

end Directory

/-! ## Histories -/

/-- A call of a history, with what the system answered to it and what it gave
back. -/
structure Logged where
  outcomes : Outcomes
  call : Call
  result : Result

def loggedStep (st : ListState) (a : Outcomes × Call) : Option (ListState × Logged) :=
  (a.2.perform a.1 st).map fun r => (r.1, ⟨a.1, a.2, r.2⟩)

/-- What a call of a history did to the address of a user. -/
def Logged.addressEvent (username : Bytes) (a : Logged) : Option (Option (Bytes × Bytes)) :=
  if a.result.error = 0 then a.call.addressEvent a.outcomes username else none

/-- A successful connection of the user. -/
def Logged.Connects (username : Bytes) (a : Logged) : Prop :=
  a.result.error = 0 ∧ ∃ port, a.call = .connectUser port username

/-- A successful disconnection of the user, or the end of its entry. -/
def Logged.Leaves (username : Bytes) (a : Logged) : Prop :=
  a.result.error = 0 ∧ (a.call = .disconnectUser username ∨ a.call = .unregisterUser username)

variable {username : Bytes}

theorem loggedStep_eq_some {s t : ListState} {a : Outcomes × Call} {e : Logged}
    (hvalid : s.Valid) (hfits : a.2.Fits) (hstep : loggedStep s a = some (t, e)) :
    t.Valid ∧ e.outcomes = a.1 ∧ e.call = a.2 ∧
      BodyRefines a.1 s.messages a.2 t.messages e.result := by
  obtain ⟨⟨t', r⟩, hperform, heq⟩ := Option.map_eq_some_iff.mp hstep
  obtain ⟨rfl, rfl⟩ := Prod.mk.inj heq
  obtain ⟨hbody, -⟩ := Call.perform_eq_some hvalid.lazy hperform
  exact ⟨hvalid.perform hfits hperform, rfl, rfl, Call.body_refines hvalid.unique hfits hbody⟩

/-- The history says which address the directory has for a user. -/
theorem address_history (username : Bytes) {calls : List (Outcomes × Call)}
    (hfits : ∀ a ∈ calls, a.2.Fits) {s t : ListState} {history : List Logged}
    (hvalid : s.Valid) (hrun : Run.answers loggedStep s calls = some (t, history)) :
    t.Valid ∧ (abstract t.messages).address username =
      ((history.filterMap (Logged.addressEvent username)).getLast?).getD
        ((abstract s.messages).address username) := by
  refine Run.answers_latest (fun st : ListState => (abstract st.messages).address username)
    (Logged.addressEvent username) (fun s a s' e hs ha hstep => ?_) hvalid hfits hrun
  obtain ⟨hs', ho, hc, href⟩ := loggedStep_eq_some hs ha hstep
  refine ⟨hs', ?_⟩
  have hset := Directory.setsAddress_step a.1 (abstract s.messages) a.2 username
  rw [Directory.SetsAddress, ← href.directory, ← href.answer.error_eq] at hset
  rw [hset, Logged.addressEvent, ho, hc]
  split <;> rfl

theorem leaves_of_addressEvent {a : Logged} (h : a.addressEvent username = some none) :
    a.Leaves username := by
  unfold Logged.addressEvent at h
  split at h
  · next hzero =>
      refine ⟨hzero, ?_⟩
      cases hc : a.call with
      | connectUser port u =>
          rw [hc, Call.addressEvent] at h
          split at h
          · obtain ⟨addr, -, haddr⟩ := Option.map_eq_some_iff.mp h
            cases haddr
          · cases h
      | disconnectUser u =>
          rw [hc, Call.addressEvent] at h
          split at h
          · next hu => exact Or.inl (by rw [hu])
          · cases h
      | unregisterUser u =>
          rw [hc, Call.addressEvent] at h
          split at h
          · next hu => exact Or.inr (by rw [hu])
          · cases h
      | _ =>
          rw [hc] at h
          cases h
  · cases h

/-- A connection succeeds only where the user has no address, and then it has the
one of the connection. -/
theorem address_of_connects {s t : ListState} {a : Outcomes × Call} {e : Logged}
    (hvalid : s.Valid) (hfits : a.2.Fits) (hstep : loggedStep s a = some (t, e))
    (he : e.Connects username) :
    (abstract s.messages).address username = none ∧
      ((abstract t.messages).address username).isSome := by
  obtain ⟨-, ho, hc, href⟩ := loggedStep_eq_some hvalid hfits hstep
  obtain ⟨hzero, port, hcall⟩ := he
  rw [hc] at hcall
  have hdirectory := href.directory
  rw [href.answer.error_eq, hcall] at hzero
  rw [hcall] at hdirectory
  rw [hdirectory]
  simp only [Directory.step] at hzero ⊢
  cases hu : abstract s.messages username with
  | none => simp [hu, Answer.error] at hzero
  | some entry =>
      cases haddress : entry.address with
      | some address => simp [hu, haddress, Answer.error] at hzero
      | none =>
          cases hpeer : a.1.getpeername with
          | none => simp [hu, haddress, hpeer, Answer.error] at hzero
          | some addr => simp [Directory.address, hu, haddress, Directory.set]

/-- Between two successful connections of a user it has left. -/
theorem leaves_between {calls : List (Outcomes × Call)} (hfits : ∀ a ∈ calls, a.2.Fits)
    {st : ListState} {before between after : List Logged} {a b : Logged}
    (hrun : Run.answers loggedStep .empty calls =
      some (st, before ++ a :: (between ++ b :: after)))
    (ha : a.Connects username) (hb : b.Connects username) : ∃ c ∈ between, c.Leaves username := by
  obtain ⟨calls₁, a', rest, s₁, s₂, rfl, hrun₁, hstep, hrest⟩ := Run.answers_eq_append_cons hrun
  obtain ⟨calls₂, b', calls₃, s₃, s₄, rfl, hrun₂, hstep', -⟩ := Run.answers_eq_append_cons hrest
  obtain ⟨hvalid₁, -⟩ :=
    address_history username (fun c hc => hfits c (by simp [hc])) ListState.valid_empty hrun₁
  have hfit : a'.2.Fits := hfits a' (by simp)
  obtain ⟨hvalid₂, -⟩ := loggedStep_eq_some hvalid₁ hfit hstep
  obtain ⟨address, haddress⟩ :=
    Option.isSome_iff_exists.mp (address_of_connects hvalid₁ hfit hstep ha).2
  obtain ⟨hvalid₃, hlatest⟩ :=
    address_history username (fun c hc => hfits c (by simp [hc])) hvalid₂ hrun₂
  -- at the second connection the address of the first one is gone
  rw [(address_of_connects hvalid₃ (hfits b' (by simp)) hstep' hb).1, haddress] at hlatest
  cases hlast : (between.filterMap (Logged.addressEvent username)).getLast? with
  | none => simp [hlast] at hlatest
  | some event =>
      rw [hlast, Option.getD_some] at hlatest
      subst hlatest
      obtain ⟨c, hc, hevent⟩ := List.mem_filterMap.mp (List.mem_of_getLast? hlast)
      exact ⟨c, hc, leaves_of_addressEvent hevent⟩

/-- After every run of calls, `list_users` shows a connected user some user with an
address exactly when the latest successful event for the address of that user is a
connection with this address; and between two successful connections of a user it
has been disconnected or unregistered. -/
theorem listed_iff_latest_connection {calls : List (Outcomes × Call)}
    (hfits : ∀ a ∈ calls, a.2.Fits) {st : ListState} {history : List Logged}
    (hrun : Run.answers loggedStep .empty calls = some (st, history)) (username : Bytes) :
    (∀ (o : Outcomes) (requester : Bytes) (n : Node), o.Allocated →
      KeyedList.lookup Node.name requester st.messages = some n → n.connected = true →
      ∃ chain nUser, (Call.listUsers requester).perform o st = some (st, .users chain nUser) ∧
        ∀ address, (username, address) ∈ chain.rows.map UserFields.row ↔
          (history.filterMap (Logged.addressEvent username)).getLast? = some (some address)) ∧
    ∀ before between after a b, history = before ++ a :: (between ++ b :: after) →
      a.Connects username → b.Connects username → ∃ c ∈ between, c.Leaves username := by
  constructor
  · intro o requester n ho hn hconnected
    obtain ⟨⟨chain, nUser⟩, hfill⟩ :=
      Option.isSome_iff_exists.mp (fillUsers_isSome 0 st.messages fun j _ _ => ho.2 j)
    have hresult : listUsers o.respuesta o.mallocRespuesta requester st.messages =
        some (.users chain nUser) := by
      simp only [listUsers, hn, hconnected, if_true, ho.1, hfill, Option.map_some]
    refine ⟨chain, nUser, perform_listUsers hresult, fun address => ?_⟩
    obtain ⟨hvalid, haddress⟩ := address_history username hfits ListState.valid_empty hrun
    have hrow := (lists_userRows hvalid.unique).2 (username, address)
    have hentry : (username, address) ∈ (abstract st.messages).userRows ↔
        (abstract st.messages).address username = some address :=
      Option.bind_eq_some_iff.symm
    rw [(rows_fillUsers hfill).1, hrow, hentry, haddress]
    cases (history.filterMap (Logged.addressEvent username)).getLast? <;>
      simp [Directory.address, abstract, ListState.empty]
  · rintro before between after a b rfl ha hb
    exact leaves_between hfits hrun ha hb

/-- A user is connected again from another address. -/
theorem listed_iff_latest_connection_again :
    let o := Outcomes.success ⟨10, 0, 0, 1⟩
    let calls : List (Outcomes × Call) :=
      [(o, .registerUser [97]), (o, .connectUser [56, 48] [97]), (o, .connectUser [57] [97]),
        (o, .disconnectUser [97]), (.success ⟨10, 0, 0, 2⟩, .connectUser [56, 49] [97])]
    ∃ st history, Run.answers loggedStep .empty calls = some (st, history) ∧
      (∀ (o : Outcomes) (requester : Bytes) (n : Node), o.Allocated →
        KeyedList.lookup Node.name requester st.messages = some n → n.connected = true →
        ∃ chain nUser, (Call.listUsers requester).perform o st = some (st, .users chain nUser) ∧
          ∀ address, ([97], address) ∈ chain.rows.map UserFields.row ↔
            (history.filterMap (Logged.addressEvent [97])).getLast? = some (some address)) ∧
      ∀ before between after a b, history = before ++ a :: (between ++ b :: after) →
        a.Connects [97] → b.Connects [97] → ∃ c ∈ between, c.Leaves [97] := by
  intro o calls
  have hfits : ∀ a ∈ calls, a.2.Fits := by
    intro a ha
    simp only [calls, List.mem_cons, List.not_mem_nil, or_false] at ha
    rcases ha with rfl | rfl | rfl | rfl | rfl <;> decide
  have hsome : (Run.answers loggedStep .empty calls).isSome := by decide +kernel
  obtain ⟨⟨st, history⟩, hrun⟩ := Option.isSome_iff_exists.mp hsome
  exact ⟨st, history, hrun, listed_iff_latest_connection hfits hrun [97]⟩

end PeerDirectory
