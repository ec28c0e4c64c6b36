import PeerDirectory.Client.GetFile

/-!
# Replies that are cut short

A connection may end in the middle of a reply: the other side dies, or it leaves on
an error. `read_response` does not notice the end of the stream and waits for ever.
So a method never takes a part of a reply for the whole: on the beginning of a reply
it does what it does on the whole reply, or it does not come back. `Behind` says this
of two pieces of code; it is kept when code is run after it.
-/

namespace PeerDirectory

/-! ## Code that gets less far -/

/-- The first piece of code waits for ever, or both end in the same way, with values
that are related. -/
inductive Outcome.Behind {α β : Type} (R : α → β → Prop) : Outcome α → Outcome β → Prop where
  | hangs (o : Outcome β) : Behind R .hangs o
  | raises : Behind R .raises .raises
  | returns {a : α} {b : β} : R a b → Behind R (.returns a) (.returns b)

namespace Outcome.Behind

variable {α β γ δ : Type} {R : α → β → Prop} {S : γ → δ → Prop} {o' : Outcome α} {o : Outcome β}

theorem bind (h : Behind R o' o) {next' : α → Outcome γ} {next : β → Outcome δ}
    (hnext : ∀ a b, R a b → Behind S (next' a) (next b)) :
    Behind S (o'.bind next') (o.bind next) := by
  cases h with
  | hangs o => exact .hangs _
  | raises => exact .raises
  | returns hab => exact hnext _ _ hab

theorem catching (h : Behind R o' o) {a : α} {b : β} (hab : R a b) :
    Behind R (o'.catching a) (o.catching b) := by
  cases h with
  | hangs o => exact .hangs _
  | raises => exact .returns hab
  | returns hab' => exact .returns hab'

theorem refl {R : α → α → Prop} (hR : ∀ a, R a a) (o : Outcome α) : Behind R o o := by
  cases o with
  | returns a => exact .returns (hR a)
  | raises => exact .raises
  | hangs => exact .hangs _

theorem eq_or_eq {o' o : Outcome α} (h : Behind Eq o' o) : o' = .hangs ∨ o' = o := by
  cases h with
  | hangs o => exact Or.inl rfl
  | raises => exact Or.inr rfl
  | returns hab => exact Or.inr (by rw [hab])

end Outcome.Behind

namespace Client

open Outcome

/-! ## Readers -/

/-- The same value has been read, and what is left of the one stream begins what is
left of the other. -/
def SameRead {α : Type} (a b : α × Bytes) : Prop :=
  a.1 = b.1 ∧ a.2 <+: b.2

/-- A reader on the beginning of a stream and on the whole of it. -/
theorem readResponse_behind {s t : Bytes} (h : s <+: t) :
    Behind SameRead (readResponse s) (readResponse t) := by
  induction s generalizing t with
  | nil => exact .hangs _
  | cons b s ih =>
      cases t with
      | nil => simp at h
      | cons b' t =>
          obtain ⟨rfl, hst⟩ := List.cons_prefix_cons.mp h
          simp only [readResponse]
          split
          · exact .returns ⟨rfl, hst⟩
          · cases Text.decodeByte b with
            | none => exact .raises
            | some c =>
                exact (ih hst).bind fun a b hab => .returns ⟨congrArg (c :: ·) hab.1, hab.2⟩

theorem findUser_behind (maxStrDigits : StrDigits) (user : Str) (turns : ℕ) {s t : Bytes}
    (h : s <+: t) :
    Behind Eq (findUser maxStrDigits user turns s) (findUser maxStrDigits user turns t) := by
  induction turns generalizing s t with
  | zero => exact .returns rfl
  | succ turns ih =>
      simp only [findUser]
      refine (readResponse_behind h).bind fun username username' husername => ?_
      refine (readResponse_behind husername.2).bind fun ip ip' hip => ?_
      refine (readResponse_behind hip.2).bind fun port port' hport => ?_
      rw [husername.1, hip.1, hport.1]
      split
      · exact .refl (fun _ => rfl) _
      · exact ih hport.2

/-! ## Listings -/

/-- Two listings that show the same. -/
def SameListing {ρ : Type} (l l' : Listing ρ) : Prop :=
  l.rc = l'.rc ∧ l.rows = l'.rows ∧ l.begun = l'.begun

theorem sameListing_failed {ρ : Type} (rc : RC) (s t : Bytes) :
    SameListing (Listing.failed rc s : Listing ρ) (.failed rc t) :=
  ⟨rfl, rfl, rfl⟩

/-- The first loop waits for ever, or both end in the same way and have printed the
same. -/
def Reading.Behind {ρ : Type} (r' r : Reading ρ) : Prop :=
  r'.ends = .hangs ∨ r'.ends = r.ends ∧ r'.rows = r.rows ∧ r'.begun = r.begun

theorem Reading.Behind.response {ρ : Type} {s t : Bytes} (h : s <+: t) (begun : List Str)
    {next' next : Str × Bytes → Reading ρ}
    (hnext : ∀ a b, SameRead a b → (next' a).Behind (next b)) :
    (Reading.response begun s next').Behind (Reading.response begun t next) := by
  have hread := readResponse_behind h
  unfold Reading.response
  cases hs : readResponse s with
  | hangs => exact Or.inl rfl
  | raises =>
      rw [hs] at hread
      cases ht : readResponse t with
      | raises => exact Or.inr ⟨rfl, rfl, rfl⟩
      | returns b => rw [ht] at hread; cases hread
      | hangs => rw [ht] at hread; cases hread
  | returns a =>
      rw [hs] at hread
      cases ht : readResponse t with
      | returns b =>
          rw [ht] at hread
          cases hread with
          | returns hab => exact hnext a b hab
      | raises => rw [ht] at hread; cases hread
      | hangs => rw [ht] at hread; cases hread

theorem Reading.Behind.behind {ρ : Type} {r' r : Reading ρ} (h : r'.Behind r) (row : ρ) :
    (r'.behind row).Behind (r.behind row) := by
  rcases h with hhangs | ⟨hends, hrows, hbegun⟩
  · exact Or.inl hhangs
  · exact Or.inr ⟨hends, congrArg (row :: ·) hrows, hbegun⟩

theorem readUsers_behind (turns : ℕ) {s t : Bytes} (h : s <+: t) :
    (readUsers turns s).Behind (readUsers turns t) := by
  induction turns generalizing s t with
  | zero => exact Or.inr ⟨rfl, rfl, rfl⟩
  | succ turns ih =>
      simp only [readUsers]
      refine .response h [] fun username username' husername => ?_
      rw [husername.1]
      refine .response husername.2 _ fun ip ip' hip => ?_
      rw [hip.1]
      refine .response hip.2 _ fun port port' hport => ?_
      rw [hport.1]
      exact (ih hport.2).behind _

theorem readFiles_behind (turns : ℕ) {s t : Bytes} (h : s <+: t) :
    (readFiles turns s).Behind (readFiles turns t) := by
  induction turns generalizing s t with
  | zero => exact Or.inr ⟨rfl, rfl, rfl⟩
  | succ turns ih =>
      simp only [readFiles]
      refine .response h [] fun fileName fileName' hname => ?_
      rw [hname.1]
      refine .response hname.2 _ fun description description' hdescription => ?_
      rw [hdescription.1]
      exact (ih hdescription.2).behind _

theorem Reading.Behind.listing {ρ : Type} {r' r : Reading ρ} (h : r'.Behind r) (rc : RC) :
    Outcome.Behind SameListing (r'.listing rc) (r.listing rc) := by
  unfold Reading.listing
  rcases h with hhangs | ⟨hends, hrows, hbegun⟩
  · rw [hhangs]
    exact .hangs _
  · rw [hends]
    cases r.ends with
    | returns _ => exact .returns ⟨rfl, hrows, hbegun⟩
    | raises => exact .returns ⟨rfl, hrows, hbegun⟩
    | hangs => exact .hangs _

/-- A listing method behind the code `0`. -/
theorem readListing_behind {ρ : Type} (maxStrDigits : StrDigits) {loop : ℕ → Bytes → Reading ρ}
    (hloop : ∀ turns s t, s <+: t → (loop turns s).Behind (loop turns t)) (rc : RC) {s t : Bytes}
    (h : s <+: t) :
    Behind SameListing (readListing maxStrDigits loop rc s)
      (readListing maxStrDigits loop rc t) := by
  have hread := readResponse_behind h
  unfold readListing
  cases hs : readResponse s with
  | hangs => exact .hangs _
  | raises =>
      rw [hs] at hread
      cases ht : readResponse t with
      | raises => exact .returns (sameListing_failed _ _ _)
      | returns b => rw [ht] at hread; cases hread
      | hangs => rw [ht] at hread; cases hread
  | returns a =>
      obtain ⟨number, s'⟩ := a
      rw [hs] at hread
      cases ht : readResponse t with
      | returns b =>
          obtain ⟨number', t'⟩ := b
          rw [ht] at hread
          cases hread with
          | returns hab =>
              obtain ⟨rfl, hprefix⟩ : number = number' ∧ s' <+: t' := hab
              dsimp only
              cases int maxStrDigits number with
              | returns turns => exact (hloop turns.toNat s' t' hprefix).listing rc
              | raises => exact .returns (sameListing_failed _ _ _)
              | hangs => exact .hangs _
      | raises => rw [ht] at hread; cases hread
      | hangs => rw [ht] at hread; cases hread

/-! ## The methods -/

/-- The replies of the other side are cut. -/
def Environment.cutting {σ : Type} (env : Environment σ) (cut : Bytes → Bytes) : Environment σ :=
  { env with exchange := fun message peer =>
      (env.exchange message peer).map fun r => (cut r.1, r.2) }

@[simp] theorem connectSocket_cutting {σ : Type} (env : Environment σ) (cut : Bytes → Bytes) :
    (env.cutting cut).connectSocket = env.connectSocket := rfl

@[simp] theorem socket_cutting {σ : Type} (env : Environment σ) (cut : Bytes → Bytes) :
    (env.cutting cut).socket = env.socket := rfl

@[simp] theorem bind_cutting {σ : Type} (env : Environment σ) (cut : Bytes → Bytes) :
    (env.cutting cut).bind = env.bind := rfl

@[simp] theorem start_cutting {σ : Type} (env : Environment σ) (cut : Bytes → Bytes) :
    (env.cutting cut).start = env.start := rfl

@[simp] theorem maxStrDigits_cutting {σ : Type} (env : Environment σ) (cut : Bytes → Bytes) :
    (env.cutting cut).maxStrDigits = env.maxStrDigits := rfl

section Methods

variable {σ : Type} {cut : Bytes → Bytes} (hcut : ∀ s, cut s <+: s) (env : Environment σ)
  (st : ClientState) (peer : σ)

include hcut

theorem send_cutting (request : Str → Option (List Str)) :
    Behind SameRead (send (env.cutting cut) request peer).1 (send env request peer).1 ∧
      (send (env.cutting cut) request peer).2 = (send env request peer).2 := by
  simp only [send, Environment.cutting]
  split
  · exact ⟨.raises, rfl⟩
  · next message _ =>
      cases env.exchange (encodeMessage message) peer with
      | none => exact ⟨.raises, rfl⟩
      | some r => exact ⟨readResponse_behind (hcut r.1), rfl⟩

/-- A method that looks at the first response only. -/
theorem answer_cutting (request : Str → Option (List Str)) {next : Str × Bytes → Outcome RC}
    (hnext : ∀ a s s', next (a, s) = next (a, s')) (rc : RC) :
    Behind Eq (((send (env.cutting cut) request peer).1.bind next).catching rc)
        (((send env request peer).1.bind next).catching rc) ∧
      (send (env.cutting cut) request peer).2 = (send env request peer).2 := by
  obtain ⟨hbehind, hpeer⟩ := send_cutting hcut env peer request
  refine ⟨(hbehind.bind fun a b hab => ?_).catching rfl, hpeer⟩
  obtain ⟨response, s⟩ := a
  obtain ⟨response', s'⟩ := b
  obtain rfl : response = response' := hab.1
  rw [hnext response s s']
  exact .refl (fun _ => rfl) _

theorem register_cutting (user : Str) :
    Behind Eq (register (env.cutting cut) user peer).1 (register env user peer).1 ∧
      (register (env.cutting cut) user peer).2 = (register env user peer).2 := by
  by_cases hlength : excedeTamano user = true
  · simp only [register, hlength, if_true]
    exact ⟨.returns rfl, trivial⟩
  · by_cases hsocket : env.connectSocket = true
    · simp only [register, connectSocket_cutting, hlength, hsocket, Bool.false_eq_true, if_false,
        if_true]
      exact answer_cutting hcut env peer _ (fun _ _ _ => rfl) .userError
    · simp only [register, connectSocket_cutting, hlength, hsocket, Bool.false_eq_true, if_false]
      exact ⟨.returns rfl, trivial⟩

theorem unregister_cutting (user : Str) :
    Behind Eq (unregister (env.cutting cut) user peer).1 (unregister env user peer).1 ∧
      (unregister (env.cutting cut) user peer).2 = (unregister env user peer).2 := by
  by_cases hsocket : env.connectSocket = true
  · simp only [unregister, connectSocket_cutting, hsocket, if_true]
    exact answer_cutting hcut env peer _ (fun _ _ _ => rfl) .userError
  · simp only [unregister, connectSocket_cutting, hsocket, Bool.false_eq_true, if_false]
    exact ⟨.returns rfl, trivial⟩

theorem publish_cutting (fileName description : Str) :
    Behind Eq (publish (env.cutting cut) fileName description st peer).1
        (publish env fileName description st peer).1 ∧
      (publish (env.cutting cut) fileName description st peer).2 =
        (publish env fileName description st peer).2 := by
  simp only [publish, connectSocket_cutting]
  by_cases hlength : excedeTamano fileName = true
  · simp only [hlength, if_true]
    exact ⟨.returns rfl, trivial⟩
  · by_cases hconnected : (!st.connected) = true
    · simp only [hlength, hconnected, Bool.false_eq_true, if_false, if_true]
      exact ⟨.returns rfl, trivial⟩
    · by_cases hsocket : env.connectSocket = true
      · simp only [hlength, hconnected, hsocket, Bool.false_eq_true, if_false, if_true]
        exact answer_cutting hcut env peer _ (fun _ _ _ => rfl) .anotherCases
      · simp only [hlength, hconnected, hsocket, Bool.false_eq_true, if_false]
        exact ⟨.returns rfl, trivial⟩

theorem delete_cutting (fileName : Str) :
    Behind Eq (delete (env.cutting cut) fileName st peer).1 (delete env fileName st peer).1 ∧
      (delete (env.cutting cut) fileName st peer).2 = (delete env fileName st peer).2 := by
  simp only [delete, connectSocket_cutting]
  by_cases hlength : excedeTamano fileName = true
  · simp only [hlength, if_true]
    exact ⟨.returns rfl, trivial⟩
  · by_cases hconnected : (!st.connected) = true
    · simp only [hlength, hconnected, Bool.false_eq_true, if_false, if_true]
      exact ⟨.returns rfl, trivial⟩
    · by_cases hsocket : env.connectSocket = true
      · simp only [hlength, hconnected, hsocket, Bool.false_eq_true, if_false, if_true]
        exact answer_cutting hcut env peer _ (fun _ _ _ => rfl) .anotherCases
      · simp only [hlength, hconnected, hsocket, Bool.false_eq_true, if_false]
        exact ⟨.returns rfl, trivial⟩

theorem connect_cutting (user : Str) :
    ((connect (env.cutting cut) user st peer).1 = .hangs ∧
        (connect (env.cutting cut) user st peer).2.2 = (connect env user st peer).2.2) ∨
      connect (env.cutting cut) user st peer = connect env user st peer := by
  simp only [connect, connectSocket_cutting, socket_cutting, bind_cutting, start_cutting]
  by_cases hasks : st.connected = false ∧ env.connectSocket = true ∧ env.socket = true
  · obtain ⟨hconnected, hsocket, hgiven⟩ := hasks
    simp only [hconnected, hsocket, hgiven, Bool.false_eq_true, if_false, if_true]
    cases env.bind with
    | none => exact Or.inr rfl
    | some port =>
        obtain ⟨hbehind, hpeer⟩ := send_cutting hcut env peer
          fun time => some (connectMessage time user port)
        dsimp only
        rw [hpeer]
        generalize (send (env.cutting cut) _ peer).1 = o' at hbehind ⊢
        generalize send env _ peer = r at hbehind ⊢
        obtain ⟨o, peer'⟩ := r
        cases hbehind with
        | hangs o =>
            left
            refine ⟨rfl, ?_⟩
            dsimp only
            repeat' split
            all_goals rfl
        | raises => exact Or.inr rfl
        | returns hab =>
            right
            simp only [hab.1]
  · -- `connect` does not get as far as its request
    right
    by_cases hconnected : st.connected = true
    · simp only [hconnected, if_true]
    · by_cases hsocket : env.connectSocket = true
      · have hgiven : ¬ env.socket = true := fun h => hasks ⟨by simpa using hconnected, hsocket, h⟩
        simp only [hconnected, hsocket, hgiven, Bool.false_eq_true, if_false, if_true]
      · simp only [hconnected, hsocket, Bool.false_eq_true, if_false]

theorem disconnect_cutting (user : Str) :
    ((disconnect (env.cutting cut) user st peer).1 = .hangs ∧
        (disconnect (env.cutting cut) user st peer).2.2 = (disconnect env user st peer).2.2) ∨
      disconnect (env.cutting cut) user st peer = disconnect env user st peer := by
  simp only [disconnect, connectSocket_cutting]
  split
  · obtain ⟨hbehind, hpeer⟩ := send_cutting hcut env peer
      fun time => some (disconnectMessage time user)
    rw [hpeer]
    generalize (send (env.cutting cut) _ peer).1 = o' at hbehind ⊢
    generalize send env _ peer = r at hbehind ⊢
    obtain ⟨o, peer'⟩ := r
    cases hbehind with
    | hangs o =>
        left
        refine ⟨rfl, ?_⟩
        dsimp only
        repeat' split
        all_goals rfl
    | raises => exact Or.inr rfl
    | returns hab =>
        right
        simp only [hab.1]
  · exact Or.inr rfl

theorem listusers_cutting :
    Behind SameListing (listusers (env.cutting cut) st peer).1 (listusers env st peer).1 ∧
      (listusers (env.cutting cut) st peer).2 = (listusers env st peer).2 := by
  cases hconnected : st.connected with
  | false =>
      simp only [listusers, hconnected, Bool.not_false, if_true]
      exact ⟨.returns (sameListing_failed _ _ _), trivial⟩
  | true =>
      cases hsocket : env.connectSocket with
      | false =>
          simp only [listusers, connectSocket_cutting, hconnected, hsocket, Bool.not_true,
            Bool.false_eq_true, if_false]
          exact ⟨.returns (sameListing_failed _ _ _), trivial⟩
      | true =>
          simp only [listusers, connectSocket_cutting, maxStrDigits_cutting, hconnected, hsocket,
            Bool.not_true, Bool.false_eq_true, if_false, if_true]
          obtain ⟨hbehind, hpeer⟩ := send_cutting hcut env peer
            fun time => st.user.map fun user => listUsersMessage time user
          refine ⟨(hbehind.bind fun a b hab => ?_).catching (sameListing_failed _ _ _), hpeer⟩
          rw [hab.1]
          split
          · exact readListing_behind _ (fun turns _ _ h => readUsers_behind turns h) _ hab.2
          · (repeat' split) <;> exact .returns (sameListing_failed _ _ _)

theorem listcontent_cutting (user : Str) :
    Behind SameListing (listcontent (env.cutting cut) user st peer).1
        (listcontent env user st peer).1 ∧
      (listcontent (env.cutting cut) user st peer).2 = (listcontent env user st peer).2 := by
  cases hconnected : st.connected with
  | false =>
      simp only [listcontent, hconnected, Bool.not_false, if_true]
      exact ⟨.returns (sameListing_failed _ _ _), trivial⟩
  | true =>
      cases hsocket : env.connectSocket with
      | false =>
          simp only [listcontent, connectSocket_cutting, hconnected, hsocket, Bool.not_true,
            Bool.false_eq_true, if_false]
          exact ⟨.returns (sameListing_failed _ _ _), trivial⟩
      | true =>
          simp only [listcontent, connectSocket_cutting, maxStrDigits_cutting, hconnected, hsocket,
            Bool.not_true, Bool.false_eq_true, if_false, if_true]
          obtain ⟨hbehind, hpeer⟩ := send_cutting hcut env peer
            fun time => st.user.map fun u => listContentMessage time u user
          refine ⟨(hbehind.bind fun a b hab => ?_).catching (sameListing_failed _ _ _), hpeer⟩
          rw [hab.1]
          split
          · exact readListing_behind _ (fun turns _ _ h => readFiles_behind turns h) _ hab.2
          · (repeat' split) <;> exact .returns (sameListing_failed _ _ _)

omit hcut in
/-- A method that leaves the client as it is. -/
theorem eq_or_hangs_of_behind {o' o : Outcome RC} {peer' peer₁ : σ} (h : Behind Eq o' o)
    (hpeer : peer' = peer₁) :
    (o', st, peer').2.2 = (o, st, peer₁).2.2 ∧
      ((o', st, peer').1 = .hangs ∨ (o', st, peer') = (o, st, peer₁)) := by
  refine ⟨hpeer, ?_⟩
  rcases h.eq_or_eq with h | h
  · exact Or.inl h
  · exact Or.inr (by rw [h, hpeer])

omit hcut in
theorem rc_behind {ρ : Type} {o' o : Outcome (Listing ρ)} (h : Behind SameListing o' o) :
    Behind Eq (o'.bind fun listing => .returns listing.rc)
      (o.bind fun listing => .returns listing.rc) :=
  h.bind fun _ _ hab => .returns hab.1

/-- The call of a method. -/
theorem Command.run_cutting (c : Command) :
    (c.run (env.cutting cut) st peer).2.2 = (c.run env st peer).2.2 ∧
      ((c.run (env.cutting cut) st peer).1 = .hangs ∨
        c.run (env.cutting cut) st peer = c.run env st peer) := by
  cases c with
  | register user =>
      obtain ⟨hbehind, hpeer⟩ := register_cutting hcut env peer user
      exact eq_or_hangs_of_behind st hbehind hpeer
  | unregister user =>
      obtain ⟨hbehind, hpeer⟩ := unregister_cutting hcut env peer user
      exact eq_or_hangs_of_behind st hbehind hpeer
  | connect user =>
      rcases connect_cutting hcut env st peer user with ⟨h, hpeer⟩ | h
      · exact ⟨hpeer, Or.inl h⟩
      · exact ⟨congrArg (fun r => r.2.2) h, Or.inr h⟩
  | disconnect user =>
      rcases disconnect_cutting hcut env st peer user with ⟨h, hpeer⟩ | h
      · exact ⟨hpeer, Or.inl h⟩
      · exact ⟨congrArg (fun r => r.2.2) h, Or.inr h⟩
  | publish fileName description =>
      obtain ⟨hbehind, hpeer⟩ := publish_cutting hcut env st peer fileName description
      exact eq_or_hangs_of_behind st hbehind hpeer
  | delete fileName =>
      obtain ⟨hbehind, hpeer⟩ := delete_cutting hcut env st peer fileName
      exact eq_or_hangs_of_behind st hbehind hpeer
  | listusers =>
      obtain ⟨hbehind, hpeer⟩ := listusers_cutting hcut env st peer
      exact eq_or_hangs_of_behind st (rc_behind hbehind) hpeer
  | listcontent user =>
      obtain ⟨hbehind, hpeer⟩ := listcontent_cutting hcut env st peer user
      exact eq_or_hangs_of_behind st (rc_behind hbehind) hpeer

end Methods

/-! ## GET_FILE -/

section GetFile

variable {σ : Type}

/-- `askPeer`, where what the listener thread sends arrives as `deliver` says. -/
def askPeerVia (deliver : Bytes → Bytes) (env : FileEnvironment σ) (files : Files)
    (remoteFileName : Str) : Outcome (Str × Bytes) :=
  match serveRequest files (getFileMessage remoteFileName) with
  | .returns message => readResponse (deliver message)
  | .raises => if env.reset then .raises else readResponse []
  | .hangs => .hangs

def copyFileVia (deliver : Bytes → Bytes) (env : FileEnvironment σ) (files : Files)
    (remoteFileName localFileName : Str) : Outcome (RC × Option Str) :=
  (askPeerVia deliver env files remoteFileName).bind fun responseC =>
    if responseC.1 = ['0'] then
      (readResponse responseC.2).bind fun fileContent =>
        let result := saveContent env.writable localFileName fileContent.1
        if result.2 = 1 then .returns (.userError, result.1) else .returns (.ok, result.1)
    else if responseC.1 = ['1'] then .returns (.error, none)
    else .returns (.userError, none)

def getfileVia (deliver : Bytes → Bytes) (env : FileEnvironment σ)
    (user remoteFileName localFileName : Str) (st : ClientState) (peer : σ) :
    Outcome (RC × Option Str) × σ :=
  if !st.connected then
    (.returns (.userError, none), peer)
  else if env.connectSocket then
    let r := findPeer env.toEnvironment user st peer
    let answer := (r.1.bind fun data =>
      match data.bind fun address => env.connectPeer address.1 address.2 with
      | none => .raises
      | some files =>
          (copyFileVia deliver env files remoteFileName localFileName).catching
            (.userError, none))
    (answer, r.2)
  else
    (.returns (.userError, none), peer)

/-- Where everything arrives, this is `getfile`. -/
theorem getfileVia_id (env : FileEnvironment σ) (user remoteFileName localFileName : Str)
    (st : ClientState) (peer : σ) :
    getfileVia id env user remoteFileName localFileName st peer =
      getfile env user remoteFileName localFileName st peer := rfl

/-- The replies of the server are cut. -/
def FileEnvironment.cutting (env : FileEnvironment σ) (cut : Bytes → Bytes) : FileEnvironment σ :=
  { env with toEnvironment := env.toEnvironment.cutting cut }

variable {cut deliver : Bytes → Bytes} (hcut : ∀ s, cut s <+: s) (hdeliver : ∀ s, deliver s <+: s)
  (env : FileEnvironment σ) (files : Files) (user remoteFileName localFileName : Str)
  (st : ClientState) (peer : σ)

include hdeliver in
theorem askPeerVia_behind :
    Behind SameRead (askPeerVia deliver (env.cutting cut) files remoteFileName)
      (askPeer env files remoteFileName) := by
  simp only [askPeerVia, askPeer]
  cases serveRequest files (getFileMessage remoteFileName) with
  | returns message => exact readResponse_behind (hdeliver message)
  | raises => exact .refl (fun _ => ⟨rfl, List.prefix_rfl⟩) _
  | hangs => exact .hangs _

include hdeliver in
theorem copyFileVia_behind :
    Behind Eq (copyFileVia deliver (env.cutting cut) files remoteFileName localFileName)
      (copyFile env files remoteFileName localFileName) := by
  refine (askPeerVia_behind hdeliver env files remoteFileName).bind fun a b hab => ?_
  rw [hab.1]
  split
  · refine (readResponse_behind hab.2).bind fun text text' htext => ?_
    rw [htext.1]
    exact .refl (fun _ => rfl) _
  · exact .refl (fun _ => rfl) _

include hcut in
theorem findPeer_behind :
    Behind Eq (findPeer (env.toEnvironment.cutting cut) user st peer).1
      (findPeer env.toEnvironment user st peer).1 := by
  obtain ⟨hbehind, -⟩ := send_cutting hcut env.toEnvironment peer
    fun time => st.user.map fun u => listUsersMessage time u
  refine hbehind.bind fun a b hab => ?_
  rw [hab.1, maxStrDigits_cutting]
  split
  · refine (readResponse_behind hab.2).bind fun number number' hnumber => ?_
    rw [hnumber.1]
    refine (Behind.refl (fun _ => rfl) (int env.maxStrDigits number'.1)).bind fun n n' hn => ?_
    subst hn
    exact findUser_behind env.maxStrDigits user n.toNat hnumber.2
  · exact .refl (fun _ => rfl) _

include hcut hdeliver in
theorem getfileVia_behind :
    Behind Eq (getfileVia deliver (env.cutting cut) user remoteFileName localFileName st peer).1
      (getfile env user remoteFileName localFileName st peer).1 := by
  have hsocket : (env.cutting cut).connectSocket = env.connectSocket := rfl
  cases hconnected : st.connected with
  | false =>
      simp only [getfileVia, getfile, hconnected, Bool.not_false, if_true]
      exact .returns rfl
  | true =>
      simp only [getfileVia, getfile, hconnected, hsocket, Bool.not_true, Bool.false_eq_true,
        if_false]
      split
      · refine (findPeer_behind hcut env user st peer).bind fun data data' hdata => ?_
        subst hdata
        simp only [FileEnvironment.cutting]
        cases data.bind fun address => env.connectPeer address.1 address.2 with
        | none => exact .raises
        | some files =>
            exact (copyFileVia_behind hdeliver env files remoteFileName localFileName).catching rfl
      · exact .returns rfl

end GetFile

/-- Wherever the streams of the server end, and that of the listener thread, a
call has the same effect at the server, and it either does for its caller what it does
on the whole replies, or it does not come back: the same member of `RC`, the same
attributes, the same rows, the same text in the local file. -/
theorem cut_replies {σ : Type} {cut deliver : Bytes → Bytes} (hcut : ∀ s, cut s <+: s)
    (hdeliver : ∀ s, deliver s <+: s) (env : FileEnvironment σ) (st : ClientState) (peer : σ) :
    (∀ c : Command,
        (c.run (env.cutting cut).toEnvironment st peer).2.2 =
          (c.run env.toEnvironment st peer).2.2 ∧
        ((c.run (env.cutting cut).toEnvironment st peer).1 = .hangs ∨
          c.run (env.cutting cut).toEnvironment st peer = c.run env.toEnvironment st peer)) ∧
      Behind SameListing (listusers (env.cutting cut).toEnvironment st peer).1
        (listusers env.toEnvironment st peer).1 ∧
      (∀ user, Behind SameListing (listcontent (env.cutting cut).toEnvironment user st peer).1
        (listcontent env.toEnvironment user st peer).1) ∧
      ∀ user remoteFileName localFileName,
        (getfileVia deliver (env.cutting cut) user remoteFileName localFileName st peer).1 =
            .hangs ∨
          (getfileVia deliver (env.cutting cut) user remoteFileName localFileName st peer).1 =
            (getfile env user remoteFileName localFileName st peer).1 := by
  refine ⟨fun c => c.run_cutting hcut env.toEnvironment st peer,
    (listusers_cutting hcut env.toEnvironment st peer).1,
    fun user => (listcontent_cutting hcut env.toEnvironment st peer user).1,
    fun user remoteFileName localFileName => ?_⟩
  exact (getfileVia_behind hcut hdeliver env user remoteFileName localFileName st peer).eq_or_eq

/-- The server lists the user `b` alone, whose client has the file `f` with the text
`hi`. -/
def onlyPeer : FileEnvironment Unit where
  connectSocket := true
  getTime := (ownFile ['h', 'i']).getTime
  socket := true
  bind := some 80
  start := true
  maxStrDigits := .default
  exchange := fun _ _ => some ([48, 0, 49, 0, 98, 0, 49, 0, 56, 0], ())
  connectPeer := fun _ _ => some (ownFiles ['h', 'i'])
  reset := false
  writable := fun _ => true

/-- The connection to the client of `b` ends behind the first letter of the text. -/
theorem cut_replies_onlyPeer :
    let st : ClientState := ⟨true, some ['a'], false, some .listening⟩
    (getfile onlyPeer ['b'] ['f'] ['g'] st ()).1 = .returns (.ok, some ['h', 'i']) ∧
      (getfileVia (List.take 3) (onlyPeer.cutting (List.take 10)) ['b'] ['f'] ['g'] st ()).1 =
        .hangs ∧
      Behind SameListing (listusers (onlyPeer.cutting (List.take 10)).toEnvironment st ()).1
        (listusers onlyPeer.toEnvironment st ()).1 := by
  intro st
  have h := cut_replies (List.take_prefix 10) (List.take_prefix 3) onlyPeer st ()
  exact ⟨by decide +kernel, by decide +kernel, h.2.1⟩

end Client

end PeerDirectory
