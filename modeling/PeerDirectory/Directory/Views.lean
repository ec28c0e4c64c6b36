import PeerDirectory.Server.Connections

/-!
# What can be seen of the store

The arrays of a node hold bytes behind their first NUL, and an address that is no
longer in use. `view` keeps what the operations look at: the users in list order,
with the address of those that are connected, and their files in list order. Every
call computes a step on the view, with the rows of the listings in their order; so
a reply is a function of the view and the call.
-/

namespace PeerDirectory

/-- A user as the operations see it. -/
structure UserView where
  name : Bytes
  address : Option (Bytes × Bytes)
  files : List (Bytes × Bytes)
deriving DecidableEq

def Node.view (n : Node) : UserView where
  name := n.name
  address := if n.connected then some (n.ip.str, n.port.str) else none
  files := n.listFiles.map FileNode.row

/-- The store as the operations see it. -/
def view (messages : List Node) : List UserView :=
  messages.map Node.view

/-- The answer to a call, with the rows of a listing in their order. -/
inductive ViewAnswer where
  | code (error : Int)
  | users (rows : List (Bytes × Bytes × Bytes))
  | content (rows : List (Bytes × Bytes))
deriving DecidableEq

/-- What the caller sees of a result. -/
def Result.answer : Result → ViewAnswer
  | .code error => .code error
  | .users respuesta _ => .users (respuesta.rows.map UserFields.row)
  | .content respuesta => .content (respuesta.rows.map ContentFields.row)

/-- The row of a user that is connected. -/
def UserView.row (v : UserView) : Option (Bytes × Bytes × Bytes) :=
  v.address.map fun address => (v.name, address)

namespace View

/-- The operation is left to connected users. -/
def ifConnected (v : UserView) (k : Option UserView × Int) : Option UserView × Int :=
  if v.address.isSome then k else (some v, 2)

/-- What a call does to a view. -/
def step (o : Outcomes) (vs : List UserView) : Call → List UserView × ViewAnswer
  | .registerUser username =>
      match KeyedList.lookup UserView.name username vs with
      | some _ => (vs, .code 1)
      | none =>
          if o.mallocNode.isSome then (⟨username, none, []⟩ :: vs, .code 0) else (vs, .code (-1))
  | .unregisterUser username =>
      let r := KeyedList.visit UserView.name username (fun _ => (none, (0 : Int))) 1 vs
      (r.1, .code r.2)
  | .connectUser port username =>
      let body := fun v : UserView =>
        if v.address.isSome then (some v, (2 : Int))
        else
          match o.getpeername with
          | some addr => (some { v with address := some (inetNtoa addr, port) }, 0)
          | none => (some v, 3)
      let r := KeyedList.visit UserView.name username body 1 vs
      (r.1, .code r.2)
  | .disconnectUser username =>
      let body := fun v : UserView => ifConnected v (some { v with address := none }, 0)
      let r := KeyedList.visit UserView.name username body 1 vs
      (r.1, .code r.2)
  | .registerFileFromUser username file description =>
      let body := fun v : UserView =>
        ifConnected v <|
          match KeyedList.lookup Prod.fst file v.files with
          | some _ => (some v, 3)
          | none =>
              if o.mallocFile then (some { v with files := (file, description) :: v.files }, 0)
              else (some v, 4)
      let r := KeyedList.visit UserView.name username body 1 vs
      (r.1, .code r.2)
  | .unregisterFileFromUser username file =>
      let body := fun v : UserView =>
        let r := KeyedList.visit Prod.fst file (fun _ => (none, (0 : Int))) 3 v.files
        ifConnected v (some { v with files := r.1 }, r.2)
      let r := KeyedList.visit UserView.name username body 1 vs
      (r.1, .code r.2)
  | .listUsers username =>
      match KeyedList.lookup UserView.name username vs with
      | none => (vs, .code 1)
      | some v =>
          if v.address.isSome then (vs, .users (vs.filterMap UserView.row)) else (vs, .code 2)
  | .listContent username username2 =>
      match KeyedList.lookup UserView.name username vs with
      | none => (vs, .code 1)
      | some v =>
          if v.address.isSome then
            match KeyedList.lookup UserView.name username2 vs with
            | none => (vs, .code 3)
            | some target => (vs, .content target.files)
          else
            (vs, .code 2)

end View

/-! ## The list computes the view -/

theorem Node.isSome_address_view (n : Node) : n.view.address.isSome = n.connected := by
  unfold Node.view
  cases n.connected <;> rfl

theorem lookup_view (username : Bytes) (messages : List Node) :
    KeyedList.lookup UserView.name username (view messages) =
      (KeyedList.lookup Node.name username messages).map Node.view :=
  KeyedList.lookup_map fun _ => rfl

/-- A search loop over the users is one over their views. -/
theorem view_visit {messages : List Node} {username : Bytes} {body : Node → Option Node × Int}
    {body' : UserView → Option UserView × Int}
    (hbody : ∀ n, body' n.view = ((body n).1.map Node.view, (body n).2)) :
    KeyedList.visit UserView.name username body' 1 (view messages) =
      (view (KeyedList.visit Node.name username body 1 messages).1,
        (KeyedList.visit Node.name username body 1 messages).2) :=
  KeyedList.visit_map (fun _ => rfl) hbody

section Bodies

variable (n : Node)

theorem Node.view_of_not_connected {n : Node} (h : n.connected = false) :
    n.view = ⟨n.name, none, n.listFiles.map FileNode.row⟩ := by
  simp [Node.view, h]

theorem connectNode_view (getpeername : Option InAddr) {port : Bytes} (hport : FitsField port) :
    (if n.view.address.isSome then (some n.view, (2 : Int))
      else
        match getpeername with
        | some addr => (some { n.view with address := some (inetNtoa addr, port) }, 0)
        | none => (some n.view, 3)) =
      ((connectNode getpeername port n).1.map Node.view, (connectNode getpeername port n).2) := by
  rw [Node.isSome_address_view, connectNode.eq_def]
  cases hc : n.connected with
  | true => rfl
  | false =>
      cases getpeername with
      | none => rfl
      | some addr =>
          have hip := str_strncpy_inetNtoa addr
          have hconnected : Node.connected { n with
              ip := CharArray.strncpy maxValueLength (inetNtoa addr)
              port := CharArray.strncpy maxValueLength port } = true := by
            rw [Node.connected_iff, hip]
            exact inetNtoa_ne_nil addr
          simp only [Bool.false_eq_true, if_false, Option.map_some]
          rw [Node.view, Node.view, if_pos hconnected, hip, hport.str_strncpy]
          rfl

theorem disconnectNode_view :
    View.ifConnected n.view (some { n.view with address := none }, 0) =
      ((disconnectNode n).1.map Node.view, (disconnectNode n).2) := by
  rw [View.ifConnected, Node.isSome_address_view, disconnectNode]
  cases hc : n.connected with
  | false => rfl
  | true =>
      have hconnected : Node.connected
          { n with ip := n.ip.set 0 0, port := n.port.set 0 0 } = false :=
        Node.not_connected_of_str_eq_nil (CharArray.str_set_zero_nul _)
      simp only [if_true, Option.map_some]
      rw [Node.view_of_not_connected hconnected]
      rfl

theorem registerFileNode_view (malloc : Bool) {file description : Bytes} (hfile : FitsField file)
    (hdescription : FitsField description) :
    View.ifConnected n.view
        (match KeyedList.lookup Prod.fst file n.view.files with
        | some _ => (some n.view, 3)
        | none =>
            if malloc then
              (some { n.view with files := (file, description) :: n.view.files }, 0)
            else (some n.view, 4)) =
      ((registerFileNode malloc file description n).1.map Node.view,
        (registerFileNode malloc file description n).2) := by
  have hlookup : KeyedList.lookup Prod.fst file n.view.files =
      (KeyedList.lookup FileNode.name file n.listFiles).map FileNode.row :=
    KeyedList.lookup_map fun _ => rfl
  rw [View.ifConnected, Node.isSome_address_view, registerFileNode, hlookup]
  cases hc : n.connected with
  | false => rfl
  | true =>
      cases KeyedList.lookup FileNode.name file n.listFiles with
      | some f => rfl
      | none =>
          cases malloc with
          | false => rfl
          | true =>
              have hrow : FileNode.row
                  { filename := CharArray.strncpy maxValueLength file
                    description := CharArray.strncpy maxValueLength description } =
                  (file, description) :=
                Prod.ext hfile.str_strncpy hdescription.str_strncpy
              simp only [if_true, Option.map_none, Option.map_some]
              rw [← hrow]
              rfl

theorem unregisterFileNode_view (file : Bytes) :
    View.ifConnected n.view
        (some { n.view with
          files := (KeyedList.visit Prod.fst file (fun _ => (none, (0 : Int))) 3 n.view.files).1 },
          (KeyedList.visit Prod.fst file (fun _ => (none, (0 : Int))) 3 n.view.files).2) =
      ((unregisterFileNode file n).1.map Node.view, (unregisterFileNode file n).2) := by
  have hvisit : KeyedList.visit Prod.fst file (fun _ => (none, (0 : Int))) 3 n.view.files =
      ((KeyedList.visit FileNode.name file (fun _ => (none, (0 : Int))) 3 n.listFiles).1.map
        FileNode.row,
        (KeyedList.visit FileNode.name file (fun _ => (none, (0 : Int))) 3 n.listFiles).2) :=
    KeyedList.visit_map (fun _ => rfl) fun _ => rfl
  rw [View.ifConnected, Node.isSome_address_view, unregisterFileNode, hvisit]
  cases hc : n.connected <;> rfl

end Bodies

theorem filterMap_row_view (messages : List Node) :
    (view messages).filterMap UserView.row =
      ((messages.filter Node.connected).map Node.userFields).map UserFields.row := by
  rw [view, List.filterMap_map, List.map_map, ← List.filterMap_eq_filter, List.map_filterMap]
  congr 1
  funext n
  cases hc : n.connected with
  | false => simp [UserView.row, Node.view, hc]
  | true =>
      simp [UserView.row, Node.view, hc, UserFields.row, Node.userFields, str_strncpy_str,
        Node.name]

theorem registerUser_view (malloc : Option Node) {username : Bytes} (husername : FitsField username)
    (messages : List Node) :
    (match KeyedList.lookup UserView.name username (view messages) with
      | some _ => (view messages, ViewAnswer.code 1)
      | none =>
          if malloc.isSome then (⟨username, none, []⟩ :: view messages, .code 0)
          else (view messages, .code (-1))) =
      (view (registerUser malloc username messages).1,
        .code (registerUser malloc username messages).2) := by
  rw [lookup_view, registerUser.eq_def]
  cases KeyedList.lookup Node.name username messages with
  | some n => rfl
  | none =>
      cases malloc with
      | none => rfl
      | some newNode =>
          have hconnected : Node.connected { newNode with
              username := CharArray.strncpy maxValueLength username
              ip := newNode.ip.set 0 0
              port := newNode.port.set 0 0
              listFiles := [] } = false :=
            Node.not_connected_of_str_eq_nil (CharArray.str_set_zero_nul _)
          simp only [Option.map_none, Option.isSome_some, if_true]
          have hview := Node.view_of_not_connected hconnected
          simp only [Node.name, husername.str_strncpy] at hview
          rw [view, view, List.map_cons, hview]
          rfl

theorem listUsers_view {respuesta : Bool} {malloc : ℕ → Bool} {username : Bytes}
    {messages : List Node} {r : Result}
    (h : listUsers respuesta malloc username messages = some r) :
    (match KeyedList.lookup UserView.name username (view messages) with
      | none => ViewAnswer.code 1
      | some v =>
          if v.address.isSome then .users ((view messages).filterMap UserView.row)
          else .code 2) = r.answer := by
  rw [lookup_view]
  unfold listUsers at h
  cases hn : KeyedList.lookup Node.name username messages with
  | none =>
      rw [hn] at h
      cases h
      rfl
  | some n =>
      simp only [hn] at h
      simp only [Option.map_some, Node.isSome_address_view]
      split at h
      · next hc =>
          obtain ⟨⟨c, count⟩, hfill, rfl⟩ := Option.map_eq_some_iff.mp h
          rw [if_pos hc, Result.answer, (rows_fillUsers hfill).1, filterMap_row_view]
      · next hc =>
          cases h
          rw [if_neg hc]
          rfl

theorem listContent_view {respuesta : Bool} {malloc : ℕ → Bool} {username username2 : Bytes}
    {messages : List Node} {r : Result}
    (h : listContent respuesta malloc username username2 messages = some r) :
    (match KeyedList.lookup UserView.name username (view messages) with
      | none => ViewAnswer.code 1
      | some v =>
          if v.address.isSome then
            match KeyedList.lookup UserView.name username2 (view messages) with
            | none => .code 3
            | some target => .content target.files
          else .code 2) = r.answer := by
  rw [lookup_view, lookup_view]
  unfold listContent at h
  cases hn : KeyedList.lookup Node.name username messages with
  | none =>
      rw [hn] at h
      cases h
      rfl
  | some n =>
      simp only [hn] at h
      simp only [Option.map_some, Node.isSome_address_view]
      split at h
      · next hc =>
          rw [if_pos hc]
          cases ht : KeyedList.lookup Node.name username2 messages with
          | none =>
              rw [ht] at h
              cases h
              rfl
          | some target =>
              simp only [ht] at h
              simp only [Option.map_some]
              split at h
              · next hfiles =>
                  cases h
                  simp [Node.view, hfiles, Result.answer]
              · next file next hfiles =>
                  obtain ⟨c, hfill, rfl⟩ := Option.map_eq_some_iff.mp h
                  rw [Result.answer, rows_fillContent hfill, ← hfiles, List.map_map]
                  refine congrArg ViewAnswer.content (List.map_congr_left fun f _ => ?_)
                  exact Prod.ext (str_strncpy_str f.filename).symm
                    (str_strncpy_str f.description).symm
      · next hc =>
          cases h
          rw [if_neg hc]
          rfl

/-- Every critical section computes the step of the view, and gives its answer. -/
theorem Call.body_view {o : Outcomes} {c : Call} {messages messages' : List Node} {r : Result}
    (hfits : c.Fits) (h : c.body o messages = some (messages', r)) :
    View.step o (view messages) c = (view messages', r.answer) := by
  cases c with
  | registerUser username =>
      cases h
      exact registerUser_view o.mallocNode (hfits username (by simp [Call.args])) messages
  | unregisterUser username =>
      cases h
      have hunlink : ∀ n : Node, ((none, 0) : Option UserView × Int) =
          (((none, 0) : Option Node × Int).1.map Node.view, 0) := fun _ => rfl
      rw [View.step, view_visit hunlink]
      rfl
  | connectUser port username =>
      cases h
      have hport : FitsField port := hfits port (by simp [Call.args])
      rw [View.step, view_visit fun n => connectNode_view n o.getpeername hport]
      rfl
  | disconnectUser username =>
      cases h
      rw [View.step, view_visit disconnectNode_view]
      rfl
  | registerFileFromUser username file description =>
      cases h
      have hfile : FitsField file := hfits file (by simp [Call.args])
      have hdescription : FitsField description := hfits description (by simp [Call.args])
      rw [View.step, view_visit fun n =>
        registerFileNode_view n o.mallocFile hfile hdescription]
      rfl
  | unregisterFileFromUser username file =>
      cases h
      rw [View.step, view_visit fun n => unregisterFileNode_view n file]
      rfl
  | listUsers username =>
      obtain ⟨r, hr, hmessages⟩ := Option.map_eq_some_iff.mp h
      cases hmessages
      rw [View.step, ← listUsers_view hr]
      cases KeyedList.lookup UserView.name username (view messages) with
      | none => rfl
      | some v => cases hv : v.address <;> simp [hv]
  | listContent username username2 =>
      obtain ⟨r, hr, hmessages⟩ := Option.map_eq_some_iff.mp h
      cases hmessages
      rw [View.step, ← listContent_view hr]
      cases KeyedList.lookup UserView.name username (view messages) with
      | none => rfl
      | some v =>
          cases hv : v.address with
          | none => simp [hv]
          | some address =>
              cases KeyedList.lookup UserView.name username2 (view messages) <;> simp [hv]

end PeerDirectory
