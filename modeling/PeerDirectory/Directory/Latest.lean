import PeerDirectory.Directory.Addresses
import PeerDirectory.Lib.Recency
import PeerDirectory.Server.Commute
import PeerDirectory.Server.History

/-!
# The store of a history

What can be seen of the store is fixed by the latest successful events: the users are
those whose latest event is their registration, the latest ones first, each with the
address of its latest connection, unless it has left since, and with the files that were
published and not deleted since it was registered, again the latest ones first. So the
history gives the answer to every call, the rows of a listing in their order.
-/

namespace PeerDirectory

/-! ## The latest events of a history -/

/-- The user that is registered or unregistered. -/
def Call.accountEvent : Call → Option (Bytes × Option Unit)
  | .registerUser username => some (username, some ())
  | .unregisterUser username => some (username, none)
  | _ => none

/-- The file of the user that is published, with its description, or deleted. -/
def Call.fileEvent (username : Bytes) : Call → Option (Bytes × Option Bytes)
  | .registerFileFromUser u file description =>
      if u = username then some (file, some description) else none
  | .unregisterFileFromUser u file => if u = username then some (file, none) else none
  | _ => none

/-- A call of a history that was refused means nothing. -/
def Logged.accountEvent (a : Logged) : Option (Bytes × Option Unit) :=
  if a.result.error = 0 then a.call.accountEvent else none

def Logged.fileEvent (username : Bytes) (a : Logged) : Option (Bytes × Option Bytes) :=
  if a.result.error = 0 then a.call.fileEvent username else none

/-- The user is not removed by the call. -/
def Logged.leavesUser (username : Bytes) (a : Logged) : Bool :=
  a.result.error ≠ 0 ∨ a.call ≠ .unregisterUser username

/-- The users that are registered, the latest ones first. -/
def latestUsers (history : List Logged) : List Bytes :=
  (Recency.live (history.filterMap Logged.accountEvent)).map Prod.fst

/-- The address of the latest connection of a user that has not left since. -/
def latestAddress (username : Bytes) (history : List Logged) : Option (Bytes × Bytes) :=
  ((history.filterMap (Logged.addressEvent username)).getLast?).getD none

/-- The files of a user since it was last removed, the latest ones first. -/
def latestFiles (username : Bytes) (history : List Logged) : List (Bytes × Bytes) :=
  Recency.live
    ((history.rtakeWhile (Logged.leavesUser username)).filterMap (Logged.fileEvent username))

def latestUser (history : List Logged) (username : Bytes) : UserView where
  name := username
  address := latestAddress username history
  files := latestFiles username history

@[simp] theorem latestUser_name (history : List Logged) (username : Bytes) :
    (latestUser history username).name = username := rfl

/-- The store that a history should leave. -/
def latestView (history : List Logged) : List UserView :=
  (latestUsers history).map (latestUser history)

section Append

variable {history : List Logged} {a : Logged} {username : Bytes}

theorem latestUsers_append (history : List Logged) (a : Logged) :
    latestUsers (history ++ [a]) =
      match a.accountEvent with
      | none => latestUsers history
      | some e =>
          (e.2.map fun _ => e.1).toList ++ (latestUsers history).filter fun u => u ≠ e.1 := by
  rw [latestUsers, List.filterMap_append, List.filterMap_cons, List.filterMap_nil]
  cases h : a.accountEvent with
  | none => rw [List.append_nil, latestUsers]
  | some e =>
      obtain ⟨u, v⟩ := e
      rw [Recency.live_append_singleton, List.map_append, latestUsers]
      simp only [List.filter_map]
      cases v <;> rfl

theorem latestAddress_append (history : List Logged) (a : Logged) (username : Bytes) :
    latestAddress username (history ++ [a]) =
      (a.addressEvent username).getD (latestAddress username history) := by
  rw [latestAddress, List.filterMap_append, List.filterMap_cons, List.filterMap_nil]
  cases a.addressEvent username with
  | none => rw [List.append_nil, Option.getD_none, latestAddress]
  | some v =>
      rw [List.getLast?_append, List.getLast?_singleton, Option.some_or]
      rfl

theorem latestFiles_append_of_leaves (h : a.leavesUser username = true) :
    latestFiles username (history ++ [a]) =
      match a.fileEvent username with
      | none => latestFiles username history
      | some e => (e.2.map fun d => (e.1, d)).toList ++
          (latestFiles username history).filter fun f => f.1 ≠ e.1 := by
  rw [latestFiles, List.rtakeWhile_concat_pos _ _ _ h, List.filterMap_append, List.filterMap_cons,
    List.filterMap_nil]
  cases a.fileEvent username with
  | none => rw [List.append_nil, latestFiles]
  | some e => rw [Recency.live_append_singleton, latestFiles]

theorem latestFiles_append_of_removes (h : a.leavesUser username = false) :
    latestFiles username (history ++ [a]) = [] := by
  rw [latestFiles, List.rtakeWhile_concat_neg _ _ _ (by simp [h])]
  rfl

theorem latestUser_append (h : a.leavesUser username = true) :
    latestUser (history ++ [a]) username =
      { name := username
        address := (a.addressEvent username).getD (latestUser history username).address
        files :=
          match a.fileEvent username with
          | none => (latestUser history username).files
          | some e => (e.2.map fun d => (e.1, d)).toList ++
              (latestUser history username).files.filter fun f => f.1 ≠ e.1 } := by
  rw [latestUser, latestAddress_append, latestFiles_append_of_leaves h, latestUser]

theorem latestUser_append_of_accepted (hzero : a.result.error = 0)
    (hcall : a.call ≠ .unregisterUser username) :
    latestUser (history ++ [a]) username =
      { name := username
        address := (a.call.addressEvent a.outcomes username).getD
          (latestUser history username).address
        files :=
          match a.call.fileEvent username with
          | none => (latestUser history username).files
          | some e => (e.2.map fun d => (e.1, d)).toList ++
              (latestUser history username).files.filter fun f => f.1 ≠ e.1 } := by
  rw [latestUser_append (decide_eq_true (Or.inr hcall)), Logged.addressEvent, Logged.fileEvent,
    if_pos hzero, if_pos hzero]

/-- A call changes nothing but its own user. -/
theorem latestUser_append_of_ne (h : a.call.username ≠ username) :
    latestUser (history ++ [a]) username = latestUser history username := by
  have haddress : a.addressEvent username = none := by
    unfold Logged.addressEvent
    split
    · cases hc : a.call <;> simp_all [Call.addressEvent, Call.username]
    · rfl
  have hfile : a.fileEvent username = none := by
    unfold Logged.fileEvent
    split
    · cases hc : a.call <;> simp_all [Call.fileEvent, Call.username]
    · rfl
  have hleaves : a.leavesUser username = true := by
    refine decide_eq_true (Or.inr fun hc => h ?_)
    rw [hc]
    rfl
  rw [latestUser_append hleaves, haddress, hfile]
  rfl

/-- A call that was refused changes nothing. -/
theorem latestUser_append_of_refused (h : a.result.error ≠ 0) :
    latestUser (history ++ [a]) username = latestUser history username := by
  have hleaves : a.leavesUser username = true := decide_eq_true (Or.inl h)
  have haddress : a.addressEvent username = none := if_neg h
  have hfile : a.fileEvent username = none := if_neg h
  rw [latestUser_append hleaves, haddress, hfile]
  rfl

theorem latestView_append_of_refused (h : a.result.error ≠ 0) :
    latestView (history ++ [a]) = latestView history := by
  have haccount : a.accountEvent = none := if_neg h
  rw [latestView, latestUsers_append, haccount, latestView]
  exact List.map_congr_left fun u _ => latestUser_append_of_refused h

/-- A call that keeps the users rewrites its own. -/
theorem latestView_append_of_keeps (h : a.accountEvent = none) :
    latestView (history ++ [a]) = (latestView history).map fun v =>
      if v.name = a.call.username then latestUser (history ++ [a]) a.call.username else v := by
  rw [latestView, latestUsers_append, h, latestView, List.map_map]
  refine List.map_congr_left fun u _ => ?_
  rw [Function.comp_apply, latestUser_name]
  by_cases hu : u = a.call.username
  · rw [if_pos hu, hu]
  · rw [if_neg hu, latestUser_append_of_ne (Ne.symm hu)]

theorem nodupKeys_latestView (history : List Logged) :
    KeyedList.NodupKeys UserView.name (latestView history) := by
  rw [KeyedList.NodupKeys, latestView, List.map_map]
  have hnames : UserView.name ∘ latestUser history = id := rfl
  rw [hnames, List.map_id]
  exact Recency.nodupKeys_live _

/-- What is found under a name. -/
theorem lookup_latestView {v : UserView}
    (h : KeyedList.lookup UserView.name username (latestView history) = some v) :
    username ∈ latestUsers history ∧ v = latestUser history username := by
  obtain ⟨u, hu, rfl⟩ := List.mem_map.mp (KeyedList.mem_of_lookup h)
  obtain rfl : u = username := KeyedList.key_of_lookup h
  exact ⟨hu, rfl⟩

theorem lookup_latestView_eq_none_iff :
    KeyedList.lookup UserView.name username (latestView history) = none ↔
      username ∉ latestUsers history := by
  have hnames : (latestView history).map UserView.name = latestUsers history := by
    rw [latestView, List.map_map]
    exact List.map_id _
  rw [KeyedList.lookup_eq_none_iff, hnames]

end Append

/-! ## One more call -/

theorem View.step_of_refused {o : Outcomes} {vs : List UserView} {c : Call}
    (h : (View.step o vs c).2.error ≠ 0) : (View.step o vs c).1 = vs := by
  have hvisit : ∀ {username : Bytes} {body : UserView → Option UserView × Int},
      (KeyedList.visit UserView.name username body 1 vs).2 ≠ 0 →
      (∀ v, (body v).2 ≠ 0 → (body v).1 = some v) →
        (KeyedList.visit UserView.name username body 1 vs).1 = vs := by
    intro username body hne hbody
    refine KeyedList.visit_fst_eq_self_iff.mpr fun v hv => hbody v ?_
    rwa [KeyedList.visit_snd_of_lookup_eq_some hv] at hne
  cases c with
  | registerUser username =>
      simp only [View.step] at h ⊢
      split
      · rfl
      · split
        · next hnone hmalloc => simp [hnone, hmalloc, ViewAnswer.error] at h
        · rfl
  | unregisterUser username => exact hvisit h fun v hv => absurd rfl hv
  | connectUser port username =>
      refine hvisit h fun v hv => ?_
      split at hv
      · next haddress => rw [if_pos haddress]
      · next haddress =>
          rw [if_neg haddress]
          cases hpeer : o.getpeername with
          | none => rfl
          | some addr => simp [hpeer] at hv
  | disconnectUser username =>
      refine hvisit h fun v hv => ?_
      rw [View.ifConnected] at hv ⊢
      split at hv
      · exact absurd rfl hv
      · next haddress => rw [if_neg haddress]
  | registerFileFromUser username file description =>
      refine hvisit h fun v hv => ?_
      dsimp only [View.ifConnected] at hv ⊢
      split at hv
      · next haddress =>
          rw [if_pos haddress]
          cases hfile : KeyedList.lookup Prod.fst file v.files with
          | some f => rfl
          | none =>
              cases hmalloc : o.mallocFile with
              | false => rfl
              | true => simp [hfile, hmalloc] at hv
      · next haddress => rw [if_neg haddress]
  | unregisterFileFromUser username file =>
      refine hvisit h fun v hv => ?_
      dsimp only [View.ifConnected] at hv ⊢
      split at hv
      · next haddress =>
          rw [if_pos haddress]
          cases hfile : KeyedList.lookup Prod.fst file v.files with
          | some f => simp [KeyedList.visit_snd_of_lookup_eq_some hfile] at hv
          | none => rw [KeyedList.visit_of_lookup_eq_none hfile]
      · next haddress => rw [if_neg haddress]
  | listUsers username =>
      simp only [View.step]
      split
      · rfl
      · split <;> rfl
  | listContent username username2 =>
      simp only [View.step]
      split
      · rfl
      · split
        · split <;> rfl
        · rfl

section Step

variable {history : List Logged} {a : Logged} {username : Bytes}

/-- A call that succeeds at the node of its user. -/
theorem latestView_append_of_visit {body : UserView → Option UserView × Int}
    (haccount : a.call.accountEvent = none) (hname : a.call.username = username)
    (hzero : (KeyedList.visit UserView.name username body 1 (latestView history)).2 = 0)
    (hbody : (body (latestUser history username)).2 = 0 →
      (body (latestUser history username)).1 = some (latestUser (history ++ [a]) username)) :
    latestView (history ++ [a]) =
        (KeyedList.visit UserView.name username body 1 (latestView history)).1 ∧
      username ∈ latestUsers history := by
  have hnone : a.accountEvent = none := by
    rw [Logged.accountEvent, haccount, ite_self]
  cases hfound : KeyedList.lookup UserView.name username (latestView history) with
  | none =>
      rw [KeyedList.visit_of_lookup_eq_none hfound] at hzero
      cases hzero
  | some v =>
      obtain ⟨hmem, rfl⟩ := lookup_latestView hfound
      rw [KeyedList.visit_snd_of_lookup_eq_some hfound] at hzero
      rw [KeyedList.visit_fst_of_rewrites (nodupKeys_latestView history) hfound (hbody hzero),
        latestView_append_of_keeps hnone, hname]
      exact ⟨rfl, hmem⟩

/-- A listing means nothing for any user. -/
theorem latestView_append_of_lists {o : Outcomes} {c : Call} {r : Result} (hzero : r.error = 0)
    (hc : c.initialises = false) : latestView (history ++ [⟨o, c, r⟩]) = latestView history := by
  have hsame : ∀ username, latestUser (history ++ [⟨o, c, r⟩]) username =
      latestUser history username := by
    intro username
    cases c with
    | listUsers u =>
        rw [latestUser_append_of_accepted hzero (by simp)]
        rfl
    | listContent u u2 =>
        rw [latestUser_append_of_accepted hzero (by simp)]
        rfl
    | _ => cases hc
  have haccount : Logged.accountEvent ⟨o, c, r⟩ = none := by
    rw [Logged.accountEvent, if_pos hzero]
    cases c <;> first | rfl | cases hc
  rw [latestView, latestUsers_append, haccount, latestView]
  exact List.map_congr_left fun u _ => hsame u

/-- Whoever is not registered has left nothing behind. -/
def NothingElse (history : List Logged) : Prop :=
  ∀ username ∉ latestUsers history, latestUser history username = ⟨username, none, []⟩

theorem nothingElse_append (h : NothingElse history)
    (hmem : a.result.error = 0 → a.call.accountEvent = none →
      a.call.username ∈ latestUsers history) : NothingElse (history ++ [a]) := by
  intro username hnot
  rw [latestUsers_append] at hnot
  by_cases hzero : a.result.error = 0
  · rw [Logged.accountEvent, if_pos hzero] at hnot
    by_cases hname : a.call.username = username
    · cases hc : a.call with
      | registerUser u =>
          rw [hc] at hname hnot
          exact absurd (hname ▸ List.mem_cons_self) hnot
      | unregisterUser u =>
          obtain rfl : u = username := by simpa [hc, Call.username] using hname
          have hremoves : a.leavesUser u = false := by simp [Logged.leavesUser, hzero, hc]
          have haddress : a.addressEvent u = some none := by
            simp [Logged.addressEvent, hzero, hc, Call.addressEvent]
          rw [latestUser, latestAddress_append, haddress, latestFiles_append_of_removes hremoves]
          rfl
      | _ =>
          rw [hname] at hmem
          rw [hc] at hmem hnot
          exact absurd (hmem hzero rfl) hnot
    · rw [latestUser_append_of_ne hname]
      refine h username fun hin => hnot ?_
      cases hc : a.call with
      | registerUser u =>
          rw [hc] at hname
          exact List.mem_cons_of_mem _ (List.mem_filter.mpr ⟨hin, decide_eq_true (Ne.symm hname)⟩)
      | unregisterUser u =>
          rw [hc] at hname
          exact List.mem_filter.mpr ⟨hin, decide_eq_true (Ne.symm hname)⟩
      | _ => exact hin
  · rw [Logged.accountEvent, if_neg hzero] at hnot
    rw [latestUser_append_of_refused hzero]
    exact h username hnot

/-- A new user comes to the front. -/
theorem latestView_append_of_registers (h : NothingElse history) {o : Outcomes} {r : Result}
    (hzero : r.error = 0) (hnot : username ∉ latestUsers history) :
    latestView (history ++ [⟨o, .registerUser username, r⟩]) =
      ⟨username, none, []⟩ :: latestView history := by
  set a : Logged := ⟨o, .registerUser username, r⟩ with ha
  have haccount : a.accountEvent = some (username, some ()) := if_pos hzero
  have husers : latestUsers (history ++ [a]) = username :: latestUsers history := by
    have hall : (latestUsers history).filter (fun u => u ≠ username) = latestUsers history :=
      List.filter_eq_self.mpr fun u hu => decide_eq_true fun heq => hnot (heq ▸ hu)
    rw [latestUsers_append, haccount]
    dsimp only
    rw [hall]
    rfl
  have hself : latestUser (history ++ [a]) username = ⟨username, none, []⟩ := by
    rw [latestUser_append (by simp [ha, Logged.leavesUser]), h username hnot]
    simp [ha, Logged.addressEvent, Logged.fileEvent, Call.addressEvent, Call.fileEvent]
  rw [latestView, husers, List.map_cons, hself, latestView]
  congr 1
  refine List.map_congr_left fun u hu => latestUser_append_of_ne fun heq => hnot ?_
  exact (show username = u from heq) ▸ hu

/-- A user that is removed is gone, and the others are as they were. -/
theorem latestView_append_of_unregisters {o : Outcomes} {r : Result} (hzero : r.error = 0) :
    latestView (history ++ [⟨o, .unregisterUser username, r⟩]) =
      (latestView history).filter fun v => v.name ≠ username := by
  set a : Logged := ⟨o, .unregisterUser username, r⟩ with ha
  have haccount : a.accountEvent = some (username, none) := if_pos hzero
  rw [latestView, latestUsers_append, haccount, latestView, List.filter_map]
  refine List.map_congr_left fun u hu => latestUser_append_of_ne fun heq => ?_
  exact of_decide_eq_true (List.mem_filter.mp hu).2 (show username = u from heq).symm

/-- A call that is accepted does to the users what it means for them. -/
theorem latestView_append_of_accepted (h : NothingElse history) (hzero : a.result.error = 0)
    (haccepted : (View.step a.outcomes (latestView history) a.call).2.error = 0) :
    latestView (history ++ [a]) = (View.step a.outcomes (latestView history) a.call).1 ∧
      (a.call.accountEvent = none → a.call.username ∈ latestUsers history) := by
  obtain ⟨o, c, r⟩ := a
  dsimp only at hzero haccepted ⊢
  cases c with
  | registerUser username =>
      cases hfound : KeyedList.lookup UserView.name username (latestView history) with
      | some v => simp [View.step, hfound, ViewAnswer.error] at haccepted
      | none =>
          cases hmalloc : o.mallocNode.isSome with
          | false => simp [View.step, hfound, hmalloc, ViewAnswer.error] at haccepted
          | true =>
              refine ⟨?_, fun hnone => by cases hnone⟩
              rw [latestView_append_of_registers h hzero
                (lookup_latestView_eq_none_iff.mp hfound)]
              simp [View.step, hfound, hmalloc]
  | unregisterUser username =>
      refine ⟨?_, fun hnone => by cases hnone⟩
      cases hfound : KeyedList.lookup UserView.name username (latestView history) with
      | none =>
          rw [View.step, KeyedList.visit_of_lookup_eq_none hfound] at haccepted
          cases haccepted
      | some v =>
          rw [View.step, KeyedList.visit_fst_of_unlinks (nodupKeys_latestView history) hfound rfl]
          exact latestView_append_of_unregisters hzero
  | connectUser port username =>
      refine And.imp_right (fun hmem _ => hmem)
        (latestView_append_of_visit rfl rfl haccepted fun hbody => ?_)
      split at hbody
      · cases hbody
      · next haddress =>
          rw [if_neg haddress]
          cases hpeer : o.getpeername with
          | none => simp [hpeer] at hbody
          | some addr =>
              rw [latestUser_append_of_accepted hzero (by simp)]
              simp [Call.addressEvent, Call.fileEvent, hpeer]
  | disconnectUser username =>
      refine And.imp_right (fun hmem _ => hmem)
        (latestView_append_of_visit rfl rfl haccepted fun hbody => ?_)
      rw [View.ifConnected] at hbody ⊢
      split at hbody
      · next haddress =>
          rw [if_pos haddress, latestUser_append_of_accepted hzero (by simp)]
          simp [Call.addressEvent, Call.fileEvent]
      · cases hbody
  | registerFileFromUser username file description =>
      refine And.imp_right (fun hmem _ => hmem)
        (latestView_append_of_visit rfl rfl haccepted fun hbody => ?_)
      rw [View.ifConnected] at hbody ⊢
      split at hbody
      · next haddress =>
          rw [if_pos haddress]
          cases hfile : KeyedList.lookup Prod.fst file (latestUser history username).files with
          | some f => simp [hfile] at hbody
          | none =>
              cases hmalloc : o.mallocFile with
              | false => simp [hfile, hmalloc] at hbody
              | true =>
                  have hrest := KeyedList.filter_ne_eq_self hfile
                  rw [latestUser_append_of_accepted hzero (by simp)]
                  simp only [Call.addressEvent, Call.fileEvent, if_true, hrest]
                  rfl
      · cases hbody
  | unregisterFileFromUser username file =>
      refine And.imp_right (fun hmem _ => hmem)
        (latestView_append_of_visit rfl rfl haccepted fun hbody => ?_)
      dsimp only [View.ifConnected] at hbody ⊢
      split at hbody
      · next haddress =>
          rw [if_pos haddress]
          cases hfile : KeyedList.lookup Prod.fst file (latestUser history username).files with
          | none =>
              rw [KeyedList.visit_of_lookup_eq_none hfile] at hbody
              cases hbody
          | some f =>
              have hrest : (KeyedList.visit Prod.fst file (fun _ => (none, (0 : Int))) 3
                  (latestUser history username).files).1 =
                    (latestUser history username).files.filter fun f => f.1 ≠ file :=
                KeyedList.visit_fst_of_unlinks (Recency.nodupKeys_live _) hfile rfl
              rw [latestUser_append_of_accepted hzero (by simp), hrest]
              simp only [Call.addressEvent, Call.fileEvent, if_true]
              rfl
      · cases hbody
  | listUsers username =>
      rw [latestView_append_of_lists hzero rfl]
      cases hfound : KeyedList.lookup UserView.name username (latestView history) with
      | none => simp [View.step, hfound, ViewAnswer.error] at haccepted
      | some v =>
          refine ⟨?_, fun _ => (lookup_latestView hfound).1⟩
          simp only [View.step, hfound]
          split <;> rfl
  | listContent username username2 =>
      rw [latestView_append_of_lists hzero rfl]
      cases hfound : KeyedList.lookup UserView.name username (latestView history) with
      | none => simp [View.step, hfound, ViewAnswer.error] at haccepted
      | some v =>
          refine ⟨?_, fun _ => (lookup_latestView hfound).1⟩
          simp only [View.step, hfound]
          split
          · split <;> rfl
          · rfl

/-- Every call does to the users what its result says. -/
theorem latestView_append (h : NothingElse history) {vs : List UserView} {answer : ViewAnswer}
    (hstep : View.step a.outcomes (latestView history) a.call = (vs, answer))
    (herror : answer.error = a.result.error) :
    latestView (history ++ [a]) = vs ∧ NothingElse (history ++ [a]) := by
  have hvs : (View.step a.outcomes (latestView history) a.call).1 = vs := congrArg Prod.fst hstep
  have hcode : (View.step a.outcomes (latestView history) a.call).2.error = a.result.error := by
    rw [hstep, herror]
  by_cases hzero : a.result.error = 0
  · obtain ⟨hview, hmem⟩ := latestView_append_of_accepted h hzero (hcode.trans hzero)
    exact ⟨hview.trans hvs, nothingElse_append h fun _ => hmem⟩
  · have hrefused := View.step_of_refused (hcode.trans_ne hzero)
    refine ⟨?_, nothingElse_append h fun h => absurd h hzero⟩
    rw [latestView_append_of_refused hzero, ← hvs, hrefused]

end Step

/-! ## Histories -/

/-- The store is the one of its history. -/
structure ListState.OfHistory (st : ListState) (history : List Logged) : Prop where
  valid : st.Valid
  view : view st.messages = latestView history
  nothingElse : NothingElse history

theorem ofHistory_empty : ListState.empty.OfHistory [] where
  valid := ListState.valid_empty
  view := rfl
  nothingElse := fun _ _ => rfl

theorem ListState.OfHistory.step {st st' : ListState} {history : List Logged}
    {a : Outcomes × Call} {e : Logged} (h : st.OfHistory history) (hfits : a.2.Fits)
    (hstep : loggedStep st a = some (st', e)) : st'.OfHistory (history ++ [e]) := by
  obtain ⟨⟨st₁, r⟩, hperform, heq⟩ := Option.map_eq_some_iff.mp hstep
  obtain ⟨rfl, rfl⟩ := Prod.mk.inj heq
  obtain ⟨hbody, -⟩ := Call.perform_eq_some h.valid.lazy hperform
  have hview := Call.body_view hfits hbody
  rw [h.view] at hview
  obtain ⟨hlatest, hnothing⟩ :=
    latestView_append (a := ⟨a.1, a.2, r⟩) h.nothingElse hview (Result.error_answer r)
  exact ⟨h.valid.perform hfits hperform, hlatest.symm, hnothing⟩

theorem ofHistory_of_run {calls : List (Outcomes × Call)} (hfits : ∀ a ∈ calls, a.2.Fits)
    {st : ListState} {history : List Logged}
    (hrun : Run.answers loggedStep .empty calls = some (st, history)) : st.OfHistory history := by
  have hstep : ∀ (st : ListState) (log : List Logged) (a : Outcomes × Call) (st' : ListState)
      (e : Logged), st.OfHistory log → a.2.Fits → loggedStep st a = some (st', e) →
        st'.OfHistory (log ++ [e]) :=
    fun _ _ _ _ _ h hfits hstep => h.step hfits hstep
  exact Run.answers_invariant_log hstep ofHistory_empty hfits hrun

/-- After every run of calls the store has the users that are registered, the latest
registrations first, each with the address of its latest connection unless it has left
since, and with its files, the latest publications first. `list_users` gives the rows of
those with an address, and `list_content` those of the files, in this order. -/
theorem view_of_history {calls : List (Outcomes × Call)} (hfits : ∀ a ∈ calls, a.2.Fits)
    {st : ListState} {history : List Logged}
    (hrun : Run.answers loggedStep .empty calls = some (st, history)) :
    view st.messages = latestView history ∧
      (∀ o requester st' chain nUser,
        (Call.listUsers requester).perform o st = some (st', .users chain nUser) →
          chain.rows.map UserFields.row = (latestUsers history).filterMap fun username =>
            (latestAddress username history).map fun address => (username, address)) ∧
      ∀ o requester username st' chain,
        (Call.listContent requester username).perform o st = some (st', .content chain) →
          chain.rows.map ContentFields.row = latestFiles username history := by
  have hhistory := ofHistory_of_run hfits hrun
  have hview := hhistory.view
  refine ⟨hview, fun o requester st' chain nUser h => ?_,
    fun o requester username st' chain h => ?_⟩
  · obtain ⟨hbody, -⟩ := Call.perform_eq_some hhistory.valid.lazy h
    obtain ⟨r, hr, heq⟩ := Option.map_eq_some_iff.mp hbody
    obtain ⟨-, rfl⟩ := Prod.mk.inj heq
    have hrows := listUsers_view hr
    rw [hview] at hrows
    split at hrows
    · cases hrows
    · split at hrows
      · rw [← ViewAnswer.users.inj hrows, latestView, List.filterMap_map]
        rfl
      · cases hrows
  · obtain ⟨hbody, -⟩ := Call.perform_eq_some hhistory.valid.lazy h
    obtain ⟨r, hr, heq⟩ := Option.map_eq_some_iff.mp hbody
    obtain ⟨-, rfl⟩ := Prod.mk.inj heq
    have hrows := listContent_view hr
    rw [hview] at hrows
    split at hrows
    · cases hrows
    · split at hrows
      · split at hrows
        · cases hrows
        · next target htarget =>
            rw [← ViewAnswer.content.inj hrows, (lookup_latestView htarget).2]
            rfl
      · cases hrows

/-- A user is removed and comes back, and is then the first one; it has the file that it
has published since, and the other user no address any more. -/
theorem view_of_history_again :
    let o := Outcomes.success ⟨10, 0, 0, 1⟩
    let calls : List (Outcomes × Call) :=
      [.registerUser [97], .registerUser [98], .connectUser [56] [98], .connectUser [57] [97],
        .registerFileFromUser [97] [102] [49], .unregisterUser [97], .registerUser [97],
        .disconnectUser [98], .connectUser [55] [97],
        .registerFileFromUser [97] [103] [50]].map fun c => (o, c)
    ∃ st history, Run.answers loggedStep .empty calls = some (st, history) ∧
      view st.messages =
        [⟨[97], some (inetNtoa ⟨10, 0, 0, 1⟩, [55]), [([103], [50])]⟩, ⟨[98], none, []⟩] ∧
      view st.messages = latestView history := by
  intro o calls
  have hfits : ∀ a ∈ calls, a.2.Fits := by decide
  have hend : (Run.answers loggedStep .empty calls).map (fun q => view q.1.messages) =
      some [⟨[97], some (inetNtoa ⟨10, 0, 0, 1⟩, [55]), [([103], [50])]⟩, ⟨[98], none, []⟩] := by
    decide +kernel
  obtain ⟨⟨st, history⟩, hrun, hview⟩ := Option.map_eq_some_iff.mp hend
  exact ⟨st, history, hrun, hview, (view_of_history hfits hrun).1⟩

end PeerDirectory
