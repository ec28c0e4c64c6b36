import PeerDirectory.Server.LockedList
import PeerDirectory.Server.Connections

/-!
# The response nodes of the listings

`list_users` and `list_content` fill the node of the caller and allocate a node
for every further entry. `list_users` does so whenever there is a next user in
the list, connected or not, so a chain whose last user is not connected has one
node that nobody fills. Neither looks at what `malloc` gives.
-/

namespace PeerDirectory

/-! ## The chain of `list_users` -/

/-- The nodes met on the way to `NULL`; there is no way where a pointer is not
set. -/
def Chain.nodes {α : Type} : Chain α → Option (List (Option α))
  | .null => some []
  | .unset => none
  | .node fields next => next.nodes.map fun nodes => fields :: nodes

/-- The list ends with a connected user. -/
def endsConnected (messages : List Node) : Bool :=
  messages.getLast?.any Node.connected

theorem endsConnected_cons {user : Node} {next : List Node} (h : next ≠ []) :
    endsConnected (user :: next) = endsConnected next := by
  rw [endsConnected, endsConnected, List.getLast?_cons_of_ne_nil h]

theorem endsConnected_cons_of_not_connected {user : Node} (h : user.connected = false)
    (next : List Node) : endsConnected (user :: next) = endsConnected next := by
  cases next with
  | nil => simp [endsConnected, h]
  | cons user' next => exact endsConnected_cons (by simp)

/-- The loop of `list_users` with its allocations: all of the chain is filled if
the list ends with a connected user, and else it ends in a node without a
pointer. -/
theorem nodes_fillUsers {malloc : ℕ → Bool} (hm : ∀ k, malloc k = true) {k : ℕ}
    {messages : List Node} {c : Chain UserFields} {n : ℕ}
    (h : fillUsers malloc true k messages = some (c, n)) :
    c.nodes =
      if endsConnected messages then
        some ((messages.filter Node.connected).map fun user => some user.userFields)
      else none := by
  induction messages generalizing k c n with
  | nil =>
      cases h
      rfl
  | cons user next ih =>
      rcases fillUsers_cons h with
        ⟨hu, hr⟩ | ⟨hu, rfl, rfl, rfl⟩ | ⟨c', n', hu, hne, rfl, rfl, hr⟩
      · rw [ih hr, endsConnected_cons_of_not_connected hu, List.filter_cons_of_neg (by simp [hu])]
      · simp [endsConnected, hu, Chain.nodes]
      · rw [hm k] at hr
        rw [Chain.nodes, ih hr, endsConnected_cons hne, List.filter_cons_of_pos hu]
        split <;> rfl

theorem perform_listUsers_eq (o : Outcomes) (username : Bytes) (st : ListState) :
    (Call.listUsers username).perform o st =
      (listUsers o.respuesta o.mallocRespuesta username st.messages).map fun r => (st, r) := by
  simp only [Call.perform, Call.initialises, Call.body, Bool.false_and, Bool.false_eq_true,
    if_false, Option.map_map]
  rfl

theorem perform_listContent_eq (o : Outcomes) (username username2 : Bytes) (st : ListState) :
    (Call.listContent username username2).perform o st =
      (listContent o.respuesta o.mallocRespuesta username username2 st.messages).map
        fun r => (st, r) := by
  simp only [Call.perform, Call.initialises, Call.body, Bool.false_and, Bool.false_eq_true,
    if_false, Option.map_map]
  rfl

/-- A call of `list_users` that gives users has run its loop. -/
theorem fillUsers_of_perform {o : Outcomes} {username : Bytes} {st st' : ListState}
    {c : Chain UserFields} {n : ℕ}
    (h : (Call.listUsers username).perform o st = some (st', .users c n)) :
    fillUsers o.mallocRespuesta o.respuesta 0 st.messages = some (c, n) := by
  rw [perform_listUsers_eq] at h
  obtain ⟨r, hlist, heq⟩ := Option.map_eq_some_iff.mp h
  cases heq
  unfold listUsers at hlist
  split at hlist
  · cases hlist
  · split at hlist
    · obtain ⟨⟨c', n'⟩, hfill, heq⟩ := Option.map_eq_some_iff.mp hlist
      cases heq
      exact hfill
    · cases hlist

/-- When all nodes are allocated and `list_users` succeeds, following `next` visits
the connected users in the order of the list, `n_user` of them, and then `NULL`,
exactly if the last user of the list is connected. -/
theorem nodes_listUsers_iff {o : Outcomes} (ho : o.Allocated) {username : Bytes}
    {st st' : ListState} {c : Chain UserFields} {n : ℕ}
    (h : (Call.listUsers username).perform o st = some (st', .users c n)) :
    (c.nodes = some ((st.messages.filter Node.connected).map fun user => some user.userFields) ∧
        n = (st.messages.filter Node.connected).length) ↔
      ∃ user, st.messages.getLast? = some user ∧ user.connected = true := by
  have hfill := fillUsers_of_perform h
  have hcount := (rows_fillUsers hfill).2
  rw [ho.1] at hfill
  rw [nodes_fillUsers ho.2 hfill, and_iff_left hcount]
  have hends : endsConnected st.messages = true ↔
      ∃ user, st.messages.getLast? = some user ∧ user.connected = true := by
    rw [endsConnected, Option.any_eq_true]
  rw [← hends]
  split
  · next hconnected => exact iff_of_true rfl hconnected
  · next hnot => exact iff_of_false nofun hnot

/-- Two users, of whom only the one that came last is connected. -/
def lastNotConnected : List (Outcomes × Call) :=
  [(Outcomes.success ⟨10, 0, 0, 1⟩, .registerUser [98]),
    (Outcomes.success ⟨10, 0, 0, 1⟩, .registerUser [97]),
    (Outcomes.success ⟨10, 0, 0, 1⟩, .connectUser [56, 48] [97])]

/-- The same, and then the other one is connected too. -/
def lastConnected : List (Outcomes × Call) :=
  lastNotConnected ++ [(Outcomes.success ⟨10, 0, 0, 1⟩, .connectUser [56, 48] [98])]

theorem fits_of_mem_lastConnected : ∀ a ∈ lastConnected, a.2.Fits := by
  intro a ha
  simp only [lastConnected, lastNotConnected, List.cons_append, List.nil_append, List.mem_cons,
    List.not_mem_nil, or_false] at ha
  rcases ha with rfl | rfl | rfl | rfl <;> decide

theorem reachable_of_prefix {calls : List (Outcomes × Call)} (hcalls : calls <+: lastConnected)
    {st : ListState} {log : List Called}
    (hrun : Run.answers callStep .empty calls = some (st, log)) :
    st.Reachable :=
  ⟨calls, log, fun a ha => fits_of_mem_lastConnected a (hcalls.subset ha), hrun⟩

/-- The user 97 is connected in the store that `calls` leave, and what the last
user of this store is. -/
theorem exists_listUsers (calls : List (Outcomes × Call)) (hcalls : calls <+: lastConnected)
    (ends : Bool)
    (hrun : (Run.answers callStep .empty calls).map (fun r =>
      ((KeyedList.lookup Node.name [97] r.1.messages).any Node.connected,
        endsConnected r.1.messages)) = some (true, ends)) :
    ∃ st c n, st.Reachable ∧ endsConnected st.messages = ends ∧
      (Call.listUsers [97]).perform (Outcomes.success ⟨10, 0, 0, 1⟩) st =
        some (st, .users c n) := by
  obtain ⟨⟨st, log⟩, hanswers, heq⟩ := Option.map_eq_some_iff.mp hrun
  obtain ⟨hany, hends⟩ := Prod.mk.inj heq
  obtain ⟨current, hlookup, hconnected⟩ := (Option.any_eq_true _ _).mp hany
  have hsome : (fillUsers (fun _ => true) true 0 st.messages).isSome :=
    fillUsers_isSome 0 st.messages fun _ _ _ => rfl
  obtain ⟨⟨c, n⟩, hfill⟩ := Option.isSome_iff_exists.mp hsome
  refine ⟨st, c, n, reachable_of_prefix hcalls hanswers, hends, ?_⟩
  rw [perform_listUsers_eq, listUsers, hlookup]
  simp only [hconnected, if_true, Outcomes.success, hfill, Option.map_some]

theorem nodes_listUsers_lastConnected :
    ∃ st c n, st.Reachable ∧
      (Call.listUsers [97]).perform (Outcomes.success ⟨10, 0, 0, 1⟩) st = some (st, .users c n) ∧
      c.nodes = some ((st.messages.filter Node.connected).map fun user => some user.userFields) ∧
      n = (st.messages.filter Node.connected).length := by
  obtain ⟨st, c, n, hst, hends, hperform⟩ :=
    exists_listUsers lastConnected (List.prefix_refl _) true (by decide +kernel)
  have hlast := (Option.any_eq_true _ _).mp hends
  exact ⟨st, c, n, hst, hperform,
    (nodes_listUsers_iff (Outcomes.allocated_success _) hperform).mpr hlast⟩

/-- When the last user of the list is not connected, the chain ends in a node
whose pointer has not been set. -/
theorem nodes_listUsers_lastNotConnected :
    ∃ st c n, st.Reachable ∧
      (Call.listUsers [97]).perform (Outcomes.success ⟨10, 0, 0, 1⟩) st = some (st, .users c n) ∧
      c.nodes = none := by
  obtain ⟨st, c, n, hst, hends, hperform⟩ :=
    exists_listUsers lastNotConnected (List.prefix_append _ _) false (by decide +kernel)
  refine ⟨st, c, n, hst, hperform, ?_⟩
  rw [nodes_fillUsers (fun _ => rfl) (fillUsers_of_perform hperform), hends,
    if_neg Bool.false_ne_true]

/-! ## Without memory -/

/-- The number of response nodes that a call allocates when it gets them. -/
def Call.responseMallocs (messages : List Node) : Call → ℕ
  | .listUsers username =>
      match KeyedList.lookup Node.name username messages with
      | none => 0
      | some current => if current.connected then userMallocs messages else 0
  | .listContent username username2 =>
      match KeyedList.lookup Node.name username messages with
      | none => 0
      | some current =>
          if current.connected then
            match KeyedList.lookup Node.name username2 messages with
            | none => 0
            | some targetUser => fileMallocs targetUser.listFiles
          else 0
  | _ => 0

/-- Whether a call writes to the node of its caller. -/
def Call.fillsRespuesta (messages : List Node) : Call → Bool
  | .listUsers username => (KeyedList.lookup Node.name username messages).any Node.connected
  | .listContent username username2 =>
      (KeyedList.lookup Node.name username messages).any Node.connected &&
        (KeyedList.lookup Node.name username2 messages).any fun targetUser =>
          !targetUser.listFiles.isEmpty
  | _ => false

/-- The node of the caller is there when it is needed, and every allocation of a
further one succeeds. -/
def Call.GetsNodes (o : Outcomes) (messages : List Node) (c : Call) : Prop :=
  (c.fillsRespuesta messages = true → o.respuesta = true) ∧
    ∀ j < c.responseMallocs messages, o.mallocRespuesta j = true

/-- The call goes through no null pointer, and when it does not get one of its
nodes, it releases the mutex, leaves the list as it is and returns `otherCase`. -/
def SurvivesNoMemory (o : Outcomes) (c : Call) (otherCase : Int) (st : ListState) : Prop :=
  c.code o ⟨false, st⟩ ≠ .error .nullPointer ∧
    ((∃ j < c.responseMallocs st.messages, o.mallocRespuesta j = false) →
      c.code o ⟨false, st⟩ = .ok (.code otherCase, ⟨false, st⟩))

/-- A call that gets through with its nodes, does not without the first one, and
has no way to return `otherCase` when it allocates any. -/
theorem survivesNoMemory_iff {o : Outcomes} {c : Call} {otherCase : Int} {st : ListState}
    (hsome : c.GetsNodes o st.messages → (c.perform o st).isSome)
    (hnone : c.fillsRespuesta st.messages = true → o.respuesta = false →
      c.perform o st = none)
    (hcode : 0 < c.responseMallocs st.messages →
      ∀ st', c.perform o st ≠ some (st', .code otherCase)) :
    SurvivesNoMemory o c otherCase st ↔ c.GetsNodes o st.messages := by
  have happly := c.code_apply o st
  constructor
  · rintro ⟨hnull, hfail⟩
    constructor
    · intro hfills
      by_contra hnot
      rw [hnone hfills (Bool.not_eq_true _ ▸ hnot)] at happly
      exact hnull happly
    · by_contra hnot
      simp only [not_forall, Bool.not_eq_true] at hnot
      obtain ⟨j, hj, hfalse⟩ := hnot
      have hresult := hfail ⟨j, hj, hfalse⟩
      cases hperform : c.perform o st with
      | none =>
          rw [happly, hperform] at hresult
          cases hresult
      | some r =>
          obtain ⟨st', r⟩ := r
          rw [happly, hperform] at hresult
          obtain ⟨rfl, -⟩ := Prod.mk.inj (Except.ok.inj hresult)
          exact hcode (by omega) _ hperform
  · intro hgets
    obtain ⟨r, hperform⟩ := Option.isSome_iff_exists.mp (hsome hgets)
    rw [hperform] at happly
    constructor
    · rw [happly]
      exact nofun
    · rintro ⟨j, hj, hfalse⟩
      rw [hgets.2 j hj] at hfalse
      cases hfalse

section Listings

variable (o : Outcomes) (st : ListState)

theorem survivesNoMemory_listUsers_iff (username : Bytes) :
    SurvivesNoMemory o (.listUsers username) 3 st ↔
      (Call.listUsers username).GetsNodes o st.messages := by
  refine survivesNoMemory_iff ?_ ?_ ?_
  · rintro ⟨hfills, hall⟩
    rw [perform_listUsers_eq, Option.isSome_map, listUsers]
    simp only [Call.fillsRespuesta, Call.responseMallocs] at hfills hall
    cases hlookup : KeyedList.lookup Node.name username st.messages with
    | none => rfl
    | some current =>
        cases hconnected : current.connected with
        | false => simp [hconnected]
        | true =>
            simp only [hlookup, Option.any_some, hconnected, if_true, forall_const] at hfills hall
            simpa [hconnected, hfills] using
              fillUsers_isSome 0 st.messages fun j _ hj => hall j (by omega)
  · intro hfills hrespuesta
    obtain ⟨current, hlookup, hconnected⟩ := (Option.any_eq_true _ _).mp hfills
    rw [perform_listUsers_eq, listUsers, hlookup, hrespuesta]
    simp [hconnected, fillUsers_eq_none 0 (KeyedList.mem_of_lookup hlookup) hconnected]
  · intro hpos st' hperform
    rw [perform_listUsers_eq, listUsers] at hperform
    simp only [Call.responseMallocs] at hpos
    cases hlookup : KeyedList.lookup Node.name username st.messages with
    | none => simp [hlookup] at hpos
    | some current =>
        cases hconnected : current.connected with
        | false => simp [hlookup, hconnected] at hpos
        | true => simp [hlookup, hconnected] at hperform

theorem survivesNoMemory_listContent_iff (username username2 : Bytes) :
    SurvivesNoMemory o (.listContent username username2) 4 st ↔
      (Call.listContent username username2).GetsNodes o st.messages := by
  refine survivesNoMemory_iff ?_ ?_ ?_
  · rintro ⟨hfills, hall⟩
    rw [perform_listContent_eq, Option.isSome_map, listContent]
    simp only [Call.fillsRespuesta, Call.responseMallocs] at hfills hall
    cases hlookup : KeyedList.lookup Node.name username st.messages with
    | none => rfl
    | some current =>
        cases hconnected : current.connected with
        | false => simp [hconnected]
        | true =>
            cases htarget : KeyedList.lookup Node.name username2 st.messages with
            | none => simp [hconnected]
            | some targetUser =>
                simp only [hlookup, Option.any_some, hconnected, htarget, if_true] at hfills hall
                cases hfiles : targetUser.listFiles with
                | nil => simp [hconnected, hfiles]
                | cons file next =>
                    rw [hfiles] at hfills hall
                    simpa [hconnected, hfiles, hfills rfl] using
                      fillContent_isSome 0 (file :: next) fun j _ hj => hall j (by omega)
  · intro hfills hrespuesta
    obtain ⟨huser, htarget⟩ := Bool.and_eq_true_iff.mp hfills
    obtain ⟨current, hlookup, hconnected⟩ := (Option.any_eq_true _ _).mp huser
    obtain ⟨targetUser, hlookup2, hfiles⟩ := (Option.any_eq_true _ _).mp htarget
    rw [perform_listContent_eq, listContent, hlookup, hrespuesta]
    cases hlist : targetUser.listFiles with
    | nil => simp [hlist] at hfiles
    | cons file next => simp [hconnected, hlookup2, hlist, fillContent]
  · intro hpos st' hperform
    rw [perform_listContent_eq, listContent] at hperform
    simp only [Call.responseMallocs] at hpos
    cases hlookup : KeyedList.lookup Node.name username st.messages with
    | none => simp [hlookup] at hpos
    | some current =>
        cases hconnected : current.connected with
        | false => simp [hlookup, hconnected] at hpos
        | true =>
            cases htarget : KeyedList.lookup Node.name username2 st.messages with
            | none => simp [hlookup, hconnected, htarget] at hpos
            | some targetUser =>
                cases hfiles : targetUser.listFiles <;>
                  simp [hlookup, hconnected, htarget, hfiles] at hperform

/-- A listing survives exactly if it gets every node it needs. -/
theorem survivesNoMemory_listings_iff (username username2 : Bytes) :
    (SurvivesNoMemory o (.listUsers username) 3 st ↔
        (Call.listUsers username).GetsNodes o st.messages) ∧
      (SurvivesNoMemory o (.listContent username username2) 4 st ↔
        (Call.listContent username username2).GetsNodes o st.messages) :=
  ⟨survivesNoMemory_listUsers_iff o st username,
    survivesNoMemory_listContent_iff o st username username2⟩

end Listings

/-- A connected user. -/
def connectedUser (name : Bytes) : Node where
  username := CharArray.strncpy maxValueLength name
  ip := CharArray.strncpy maxValueLength (inetNtoa ⟨10, 0, 0, 1⟩)
  port := CharArray.strncpy maxValueLength [56, 48]
  listFiles := []

/-- Two connected users. -/
def twoConnected : ListState where
  initedList := true
  messages := [connectedUser [97], connectedUser [98]]

/-- The node for the second one is not allocated. -/
theorem not_survivesNoMemory_twoConnected :
    ¬ SurvivesNoMemory
      { Outcomes.success ⟨10, 0, 0, 1⟩ with mallocRespuesta := fun _ => false }
      (.listUsers [97]) 3 twoConnected := by
  rw [survivesNoMemory_listUsers_iff]
  rintro ⟨-, hall⟩
  exact absurd (hall 0 (by decide +kernel)) (by decide)

end PeerDirectory
