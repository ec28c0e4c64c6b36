import PeerDirectory.Directory.Views
import PeerDirectory.Server.Replies

/-!
# What the handlers answer

The handlers run at the same time, and between its store call and the end of its
answer a handler may be overtaken by others. What it sends is nevertheless what one
directory answers that serves the calls one after another, in the order in which they
are made: the answer is fixed by the store at the moment of the call, and the response
nodes are the handler's own. `storeCalls` are the calls of a run in their order,
`View.serial` serves them.
-/

namespace PeerDirectory

/-! ## Answers as bytes -/

def ViewAnswer.error : ViewAnswer → Int
  | .code error => error
  | .users _ => 0
  | .content _ => 0

/-- What is sent behind the result code. -/
def ViewAnswer.listing : ViewAnswer → Bytes
  | .code _ => []
  | .users rows => cstring (decimal rows.length) ++ rows.flatMap sentUser
  | .content rows =>
      cstring (decimal (rows.countP fun row => row.1 ≠ [])) ++ rows.flatMap sentFile

/-- The reply that gives this answer. -/
def ViewAnswer.reply (answer : ViewAnswer) : Bytes :=
  errorStr answer.error ++ answer.listing

@[simp] theorem Result.error_answer (r : Result) : r.answer.error = r.error := by
  cases r <;> rfl

/-- The loops that send the result send what its answer lists. -/
def Result.Listed : Result → Prop
  | .code _ => True
  | .users respuesta nUser =>
      usersReply respuesta nUser = some (Result.users respuesta nUser).answer.listing
  | .content respuesta => contentReply respuesta = some (Result.content respuesta).answer.listing

theorem listing_userFields (users : List Node) :
    (ViewAnswer.users ((users.map Node.userFields).map UserFields.row)).listing =
      cstring (decimal users.length) ++ users.flatMap fun user => sentUser user.row := by
  rw [ViewAnswer.listing, List.length_map, List.length_map, List.flatMap_map, List.flatMap_map]
  simp only [← sentUser_userFields]
  rfl

theorem contentReply_of_complete {c : Chain ContentFields} (h : c.Complete) :
    contentReply c = some (Result.content c).answer.listing := by
  rw [contentReply, countContent_of_complete h, sendContentLoop_of_complete h, Option.bind_some,
    Option.map_some, Result.answer, ViewAnswer.listing, List.countP_map, List.flatMap_map]
  rfl

theorem rows_listUsers {respuesta : Bool} {malloc : ℕ → Bool} {username : Bytes}
    {messages : List Node} {chain : Chain UserFields} {n : ℕ}
    (h : listUsers respuesta malloc username messages = some (.users chain n)) :
    chain.rows = (messages.filter Node.connected).map Node.userFields ∧
      usersReply chain n = some (usersListing messages) := by
  simp only [listUsers] at h
  repeat' split at h
  · cases h
  · obtain ⟨q, hfill, heq⟩ := Option.map_eq_some_iff.mp h
    cases heq
    obtain ⟨hrows, hn⟩ := rows_fillUsers hfill
    obtain ⟨-, -, hsend⟩ := sendUsersLoop_fillUsers hfill
    rw [usersReply, hsend, hn, Option.map_some, usersListing]
    exact ⟨hrows, rfl⟩
  · cases h

/-- Only the listings give more than a code. -/
theorem Call.result_cases {o : Outcomes} {c : Call} {messages messages' : List Node} {r : Result}
    (h : c.body o messages = some (messages', r)) :
    (∃ error, r = .code error) ∨
      (∃ username chain n, c = .listUsers username ∧ r = .users chain n) ∨
      ∃ username username2 chain, c = .listContent username username2 ∧ r = .content chain := by
  cases c with
  | listUsers username =>
      obtain ⟨r, hr, heq⟩ := Option.map_eq_some_iff.mp h
      cases heq
      simp only [PeerDirectory.listUsers] at hr
      repeat' split at hr
      · exact Or.inl ⟨_, (Option.some.inj hr).symm⟩
      · obtain ⟨q, -, rfl⟩ := Option.map_eq_some_iff.mp hr
        exact Or.inr (Or.inl ⟨username, q.1, q.2, rfl, rfl⟩)
      · exact Or.inl ⟨_, (Option.some.inj hr).symm⟩
  | listContent username username2 =>
      obtain ⟨r, hr, heq⟩ := Option.map_eq_some_iff.mp h
      cases heq
      simp only [PeerDirectory.listContent] at hr
      repeat' split at hr
      · exact Or.inl ⟨_, (Option.some.inj hr).symm⟩
      · exact Or.inl ⟨_, (Option.some.inj hr).symm⟩
      · exact Or.inr (Or.inr ⟨username, username2, .null, rfl, (Option.some.inj hr).symm⟩)
      · obtain ⟨q, -, rfl⟩ := Option.map_eq_some_iff.mp hr
        exact Or.inr (Or.inr ⟨username, username2, q, rfl, rfl⟩)
      · exact Or.inl ⟨_, (Option.some.inj hr).symm⟩
  | _ =>
      cases h
      exact Or.inl ⟨_, rfl⟩

/-- Whatever the call and the store were, its result is sent as it should be. -/
theorem Call.listed_of_perform {o : Outcomes} {c : Call} {st st' : ListState} {r : Result}
    (h : c.perform o st = some (st', r)) : r.Listed := by
  obtain ⟨⟨messages, r⟩, hbody, hq⟩ := Option.map_eq_some_iff.mp h
  obtain ⟨-, rfl⟩ := Prod.mk.inj hq
  rcases Call.result_cases hbody with
    ⟨error, rfl⟩ | ⟨username, chain, n, rfl, rfl⟩ | ⟨username, username2, chain, rfl, rfl⟩
  · trivial
  · obtain ⟨r, hr, heq⟩ := Option.map_eq_some_iff.mp hbody
    cases heq
    obtain ⟨hrows, hreply⟩ := rows_listUsers hr
    rw [Result.Listed, hreply, Result.answer, hrows, listing_userFields]
    rfl
  · obtain ⟨r, hr, heq⟩ := Option.map_eq_some_iff.mp hbody
    cases heq
    exact contentReply_of_complete (complete_listContent hr)

/-! ## The statements around a store call -/

/-- The statements of a branch up to its store call. -/
def Statement.isRead : Statement → Bool
  | .readLine => true
  | .sprintf _ => true
  | .memset => true
  | _ => false

/-- The statements of a branch behind its store call. -/
def Statement.isAnswer : Statement → Bool
  | .memset => true
  | .rpcLlamada _ => true
  | .sendError => true
  | .sendUsers => true
  | .sendContent => true
  | _ => false

/-- What a branch does with the result of its store call. -/
def Operation.answering (op : Operation) : List Statement :=
  (op.branch.dropWhile Statement.isRead).tail

theorem Operation.branch_eq (op : Operation) :
    op.branch = op.branch.takeWhile Statement.isRead ++ .call op :: op.answering := by
  cases op <;> rfl

theorem Operation.isAnswer_answering {op : Operation} {s : Statement} (h : s ∈ op.answering) :
    s.isAnswer = true := by
  have hall : ∀ s ∈ op.answering, s.isAnswer = true := by
    cases op <;> decide
  exact hall s h

/-- What the statements still send of a result. -/
def unsent (r : Result) : List Statement → Bytes
  | [] => []
  | .sendError :: rest => errorStr r.error ++ unsent r rest
  | .sendUsers :: rest =>
      match r with
      | .users _ _ => r.answer.listing ++ unsent r rest
      | _ => []
  | .sendContent :: rest =>
      match r with
      | .content _ => r.answer.listing ++ unsent r rest
      | _ => []
  | _ :: rest => unsent r rest

/-- Behind its store call a branch sends the reply. -/
theorem Operation.unsent_answering (op : Operation) {buffer : Bytes} {locals : Var → Bytes}
    {o : Outcomes} {st st' : ListState} {r : Result}
    (h : (op.storeCall buffer locals).perform o st = some (st', r)) :
    unsent r op.answering = r.answer.reply := by
  obtain ⟨⟨messages, r⟩, hbody, hq⟩ := Option.map_eq_some_iff.mp h
  obtain ⟨-, rfl⟩ := Prod.mk.inj hq
  rcases Call.result_cases hbody with
    ⟨error, rfl⟩ | ⟨username, chain, n, hc, rfl⟩ | ⟨username, username2, chain, hc, rfl⟩
  · cases op <;> rfl
  · cases op <;> cases hc
    exact congrArg (errorStr 0 ++ ·) (List.append_nil _)
  · cases op <;> cases hc
    exact congrArg (errorStr 0 ++ ·) (List.append_nil _)

/-! ## One handler -/

section Handler

variable {conn : Connection} {g g' : Shared} {h h' : Handler} {s : Statement}
  {rest : List Statement} {flow : Flow} {code code' : Code} {c : Call} {answer : ViewAnswer}

/-- The handler has not made its store call. -/
def Code.Asking (h : Handler) (code : Code) : Prop :=
  h.calls = [] ∧ h.sent = [] ∧ ∀ rest, code = .statements rest →
    rest = [] ∨ ∃ op reads, rest = reads ++ .call op :: op.answering ∧ ∀ s ∈ reads, s.isRead = true

/-- The handler has made the call `c`, and what it has sent and still sends is the
reply. -/
structure Handler.Answering (c : Call) (answer : ViewAnswer) (h : Handler)
    (rest : List Statement) : Prop where
  calls : h.calls = [c]
  result : h.result.Listed
  answers : ∀ s ∈ rest, s.isAnswer = true
  reply : h.sent ++ unsent h.result rest = answer.reply

def Code.Answering (c : Call) (answer : ViewAnswer) (h : Handler) (code : Code) : Prop :=
  ∃ rest, code = .statements rest ∧ h.Answering c answer rest

theorem Code.asking_nil (hcalls : h.calls = []) (hsent : h.sent = []) :
    (Code.statements []).Asking h :=
  ⟨hcalls, hsent, fun _ hrest => Or.inl (Code.statements.inj hrest).symm⟩

theorem Code.asking_branch (hcalls : h.calls = []) (hsent : h.sent = []) (op : Operation) :
    (Code.statements op.branch).Asking h := by
  refine ⟨hcalls, hsent, fun rest hrest => Or.inr ?_⟩
  refine ⟨op, op.branch.takeWhile Statement.isRead, ?_, fun s hs => List.mem_takeWhile_imp hs⟩
  exact (Code.statements.inj hrest).symm.trans op.branch_eq

/-- A statement before the store call. -/
theorem Statement.exec_read (hs : s.isRead = true)
    (hexec : s.exec conn g h = some (g', h', flow)) :
    g'.store = g.store ∧ h'.calls = h.calls ∧ h'.sent = h.sent := by
  cases s with
  | readLine =>
      cases hexec
      exact ⟨rfl, rfl, rfl⟩
  | sprintf dst =>
      cases hexec
      exact ⟨rfl, rfl, rfl⟩
  | memset =>
      cases hexec
      exact ⟨rfl, rfl, rfl⟩
  | _ => cases hs

/-- A part of the reply is sent. -/
theorem Handler.Answering.send (ha : h.Answering c answer (s :: rest)) {bytes : Bytes}
    (hunsent : unsent h.result (s :: rest) = bytes ++ unsent h.result rest) :
    Handler.Answering c answer { h with sent := h.sent ++ bytes } rest where
  calls := ha.calls
  result := ha.result
  answers := fun t ht => ha.answers t (List.mem_cons_of_mem s ht)
  reply := by rw [List.append_assoc, ← hunsent, ha.reply]

/-- Nothing is left to be sent. -/
theorem Handler.Answering.stop (ha : h.Answering c answer rest)
    (hunsent : unsent h.result rest = []) : h.Answering c answer [] where
  calls := ha.calls
  result := ha.result
  answers := by simp
  reply := by rw [← ha.reply, hunsent, unsent]

/-- A statement behind the store call sends its part of the reply. -/
theorem Handler.Answering.exec (ha : h.Answering c answer (s :: rest))
    (hexec : s.exec conn g h = some (g', h', flow)) :
    g'.store = g.store ∧ h'.Answering c answer (flow.remaining rest) := by
  have ⟨hcalls, hresult, hanswers, hreply⟩ := ha
  have hrest : ∀ t ∈ rest, t.isAnswer = true := fun t ht => hanswers t (List.mem_cons_of_mem s ht)
  cases s with
  | memset =>
      cases hexec
      exact ⟨rfl, hcalls, hresult, hrest, hreply⟩
  | rpcLlamada file =>
      cases hexec
      exact ⟨rfl, hcalls, hresult, hrest, hreply⟩
  | sendError =>
      cases hexec
      exact ⟨rfl, ha.send rfl⟩
  | sendUsers =>
      simp only [Statement.exec] at hexec
      split at hexec
      · next respuesta nUser hr =>
          split at hexec
          · obtain ⟨bytes, hbytes, hexec⟩ := Option.map_eq_some_iff.mp hexec
            cases hexec
            rw [hr, Result.Listed, hbytes, Option.some.injEq] at hresult
            refine ⟨rfl, ha.send ?_⟩
            rw [hr, hresult]
            rfl
          · cases hexec
      · next hr =>
          cases hexec
          refine ⟨rfl, ha.stop ?_⟩
          cases hresult' : h.result with
          | users respuesta nUser => exact absurd hresult' (hr respuesta nUser)
          | _ => rfl
  | sendContent =>
      simp only [Statement.exec] at hexec
      split at hexec
      · next respuesta hr =>
          split at hexec
          · obtain ⟨bytes, hbytes, hexec⟩ := Option.map_eq_some_iff.mp hexec
            cases hexec
            rw [hr, Result.Listed, hbytes, Option.some.injEq] at hresult
            refine ⟨rfl, ha.send ?_⟩
            rw [hr, hresult]
            rfl
          · cases hexec
      · next hr =>
          cases hexec
          refine ⟨rfl, ha.stop ?_⟩
          cases hresult' : h.result with
          | content respuesta => exact absurd hresult' (hr respuesta)
          | _ => rfl
  | _ => cases hanswers _ List.mem_cons_self

/-- A step that is no store call. -/
theorem Code.Asking.step (ha : code.Asking h)
    (hno : ∀ op rest, code ≠ .statements (.call op :: rest))
    (hstep : code.step conn g h = some (g', h', code')) :
    g'.store = g.store ∧ code'.Asking h' := by
  obtain ⟨hcalls, hsent, hrest⟩ := ha
  have hasking : ∀ {code : Code} {h' : Handler}, (∀ rest, code ≠ .statements rest) →
      h'.calls = h.calls → h'.sent = h.sent → code.Asking h' := by
    intro code h' hcode hc hs
    exact ⟨hc.trans hcalls, hs.trans hsent, fun rest heq => absurd heq (hcode rest)⟩
  cases code with
  | entry =>
      rw [Code.step] at hstep
      split at hstep
      · cases hstep
        refine ⟨rfl, ?_⟩
        split
        · exact Code.asking_nil hcalls hsent
        · exact hasking (by simp) rfl rfl
      · cases hstep
        exact ⟨rfl, Code.asking_nil hcalls hsent⟩
  | compare ops =>
      cases ops with
      | nil =>
          cases hstep
          exact ⟨rfl, Code.asking_nil hcalls hsent⟩
      | cons op ops =>
          cases hstep
          refine ⟨rfl, ?_⟩
          split
          · exact Code.asking_branch hcalls hsent op
          · exact hasking (by simp) rfl rfl
  | statements rest =>
      rcases hrest rest rfl with rfl | ⟨op, reads, rfl, hreads⟩
      · cases hstep
      · cases reads with
        | nil => exact absurd rfl (hno op op.answering)
        | cons s reads =>
            obtain ⟨⟨g₁, h₁, flow⟩, hexec, heq⟩ := Option.map_eq_some_iff.mp hstep
            cases heq
            obtain ⟨hstore, hc, hs⟩ := Statement.exec_read (hreads s List.mem_cons_self) hexec
            refine ⟨hstore, hc.trans hcalls, hs.trans hsent, fun rest heq => ?_⟩
            obtain rfl := Code.statements.inj heq
            cases flow with
            | exit => exact Or.inl rfl
            | next =>
                exact Or.inr ⟨op, reads, rfl, fun t ht => hreads t (List.mem_cons_of_mem s ht)⟩

/-- What follows the store call. -/
theorem Code.Asking.rest_eq {op : Operation}
    (ha : (Code.statements (.call op :: rest)).Asking h) : rest = op.answering := by
  rcases ha.2.2 _ rfl with hnil | ⟨op', reads, heq, hreads⟩
  · cases hnil
  · cases reads with
    | nil =>
        cases heq
        rfl
    | cons s reads =>
        obtain ⟨rfl, -⟩ := List.cons.inj heq
        cases hreads _ List.mem_cons_self

/-- The step that is the store call. -/
theorem Code.Asking.call {op : Operation} (ha : (Code.statements (.call op :: rest)).Asking h)
    (hstep : (Code.statements (.call op :: rest)).step conn g h = some (g', h', code')) :
    ∃ r, (op.storeCall g.buffer.str h.locals).perform conn.outcomes g.store = some (g'.store, r) ∧
      code'.Answering (op.storeCall g.buffer.str h.locals) r.answer h' := by
  have ⟨hcalls, hsent, _⟩ := ha
  obtain ⟨⟨g₁, h₁, flow⟩, hexec, heq⟩ := Option.map_eq_some_iff.mp hstep
  cases heq
  obtain ⟨⟨store, r⟩, hperform, hexec⟩ := Option.map_eq_some_iff.mp hexec
  cases hexec
  obtain rfl := ha.rest_eq
  refine ⟨r, hperform, op.answering, rfl, ?_, Call.listed_of_perform hperform,
    fun s hs => Operation.isAnswer_answering hs, ?_⟩
  · simp [hcalls]
  · rw [hsent, List.nil_append]
    exact op.unsent_answering hperform

theorem Code.Answering.step (ha : code.Answering c answer h)
    (hstep : code.step conn g h = some (g', h', code')) :
    g'.store = g.store ∧ code'.Answering c answer h' := by
  obtain ⟨rest, rfl, ha⟩ := ha
  cases rest with
  | nil => cases hstep
  | cons s rest =>
      obtain ⟨⟨g₁, h₁, flow⟩, hexec, heq⟩ := Option.map_eq_some_iff.mp hstep
      cases heq
      obtain ⟨hstore, ha'⟩ := ha.exec hexec
      exact ⟨hstore, _, rfl, ha'⟩

theorem Code.Answering.not_call (ha : code.Answering c answer h) (op : Operation)
    (rest : List Statement) : code ≠ .statements (.call op :: rest) := by
  rintro rfl
  obtain ⟨rest', heq, ha⟩ := ha
  cases heq
  cases ha.answers _ List.mem_cons_self

end Handler

/-! ## All handlers -/

/-- The calls of many callers, served one after another, each with its answer. -/
def View.serial {ι : Type} (outcomes : ι → Outcomes) (vs : List UserView) :
    List (ι × Call) → List UserView × List (ι × Call × ViewAnswer)
  | [] => (vs, [])
  | (i, c) :: calls =>
      let r := step (outcomes i) vs c
      let q := serial outcomes r.1 calls
      (q.1, (i, c, r.2) :: q.2)

theorem View.serial_append_singleton {ι : Type} (outcomes : ι → Outcomes) (vs : List UserView)
    (calls : List (ι × Call)) (i : ι) (c : Call) :
    serial outcomes vs (calls ++ [(i, c)]) =
      ((step (outcomes i) (serial outcomes vs calls).1 c).1,
        (serial outcomes vs calls).2 ++
          [(i, c, (step (outcomes i) (serial outcomes vs calls).1 c).2)]) := by
  induction calls generalizing vs with
  | nil => rfl
  | cons e calls ih =>
      obtain ⟨j, d⟩ := e
      simp only [List.cons_append, serial, ih]

theorem View.mem_of_mem_serial {ι : Type} {outcomes : ι → Outcomes} {vs : List UserView}
    {calls : List (ι × Call)} {e : ι × Call × ViewAnswer} (h : e ∈ (serial outcomes vs calls).2) :
    (e.1, e.2.1) ∈ calls := by
  induction calls generalizing vs with
  | nil => cases h
  | cons a calls ih =>
      obtain ⟨i, c⟩ := a
      rcases List.mem_cons.mp h with rfl | h
      · exact List.mem_cons_self
      · exact List.mem_cons_of_mem _ (ih h)

variable {ι : Type} [DecidableEq ι]

/-- The store call that the next step of handler `i` makes. -/
def HandlerSystem.storeCalls (s : HandlerSystem ι) (i : ι) : List (ι × Call) :=
  match s.code i with
  | .statements (.call op :: _) => [(i, op.storeCall s.shared.buffer.str (s.handlers i).locals)]
  | _ => []

/-- The store calls of a run, in the order in which they are made. -/
def HandlerSystem.history (conns : ι → Connection) (s : HandlerSystem ι) (order : List ι) :
    List (ι × Call) :=
  Run.emitted (HandlerSystem.step conns) HandlerSystem.storeCalls s order

/-- The handler has made no call, or it is answering its only one. -/
def HandlerSystem.Replies (s : HandlerSystem ι) (served : List (ι × Call × ViewAnswer)) (i : ι) :
    Prop :=
  (served.filter (fun e => e.1 = i) = [] ∧ (s.code i).Asking (s.handlers i)) ∨
    ∃ c answer, served.filter (fun e => e.1 = i) = [(i, c, answer)] ∧
      (s.code i).Answering c answer (s.handlers i)

/-- The calls so far, served one after another, leave what is in the store, and the
handlers answer as they were answered. -/
structure HandlerSystem.Serial (conns : ι → Connection) (s : HandlerSystem ι)
    (log : List (ι × Call)) : Prop where
  valid : s.shared.Valid
  fits : ∀ i, (s.handlers i).Fits
  calls : ∀ e ∈ log, e.2.Fits
  store : (View.serial (fun i => (conns i).outcomes) [] log).1 = view s.shared.store.messages
  replies : ∀ i, s.Replies (View.serial (fun i => (conns i).outcomes) [] log).2 i

theorem HandlerSystem.serial_init (conns : ι → Connection) :
    (HandlerSystem.init conns .init).Serial conns [] where
  valid := Shared.valid_init
  fits := fun i => Handler.fits_start _
  calls := by simp
  store := rfl
  replies := fun i => Or.inl ⟨rfl, rfl, rfl, by simp [HandlerSystem.init]⟩

section Step

variable {conns : ι → Connection} {s : HandlerSystem ι} {log : List (ι × Call)} {i : ι}
  {g' : Shared} {h' : Handler} {code' : Code}

/-- A step that is no store call. -/
theorem HandlerSystem.Serial.step_other (hs : s.Serial conns log)
    (hno : ∀ op rest, s.code i ≠ .statements (.call op :: rest))
    (hstep : (s.code i).step (conns i) s.shared (s.handlers i) = some (g', h', code')) :
    HandlerSystem.Serial conns
      { shared := g'
        handlers := Function.update s.handlers i h'
        code := Function.update s.code i code' } log := by
  obtain ⟨hvalid, hfits⟩ := keeps_valid.codeStep hs.valid (hs.fits i) hstep
  have hi : g'.store = s.shared.store ∧ HandlerSystem.Replies
      { shared := g'
        handlers := Function.update s.handlers i h'
        code := Function.update s.code i code' }
      (View.serial (fun i => (conns i).outcomes) [] log).2 i := by
    rcases hs.replies i with ⟨hnone, hasking⟩ | ⟨c, answer, hone, hanswering⟩
    · obtain ⟨hstore, hasking'⟩ := hasking.step hno hstep
      exact ⟨hstore, Or.inl ⟨hnone, by simpa using hasking'⟩⟩
    · obtain ⟨hstore, hanswering'⟩ := hanswering.step hstep
      exact ⟨hstore, Or.inr ⟨c, answer, hone, by simpa using hanswering'⟩⟩
  refine ⟨hvalid, fun j => ?_, hs.calls, ?_, fun j => ?_⟩
  · by_cases hj : j = i
    · subst hj
      simpa using hfits
    · simpa [Function.update_of_ne hj] using hs.fits j
  · rw [hs.store, hi.1]
  · by_cases hj : j = i
    · subst hj
      exact hi.2
    · simpa [HandlerSystem.Replies, Function.update_of_ne hj] using hs.replies j

/-- The step that is a store call serves it. -/
theorem HandlerSystem.Serial.step_call (hs : s.Serial conns log) {op : Operation}
    {rest : List Statement} (hcode : s.code i = .statements (.call op :: rest))
    (hstep : (s.code i).step (conns i) s.shared (s.handlers i) = some (g', h', code')) :
    HandlerSystem.Serial conns
      { shared := g'
        handlers := Function.update s.handlers i h'
        code := Function.update s.code i code' }
      (log ++ [(i, op.storeCall s.shared.buffer.str (s.handlers i).locals)]) := by
  obtain ⟨hvalid, hfits⟩ := keeps_valid.codeStep hs.valid (hs.fits i) hstep
  set c := op.storeCall s.shared.buffer.str (s.handlers i).locals with hc
  have hcfits : c.Fits := op.fits_storeCall (fitsField_str hs.valid.buffer) (hs.fits i)
  obtain ⟨hnone, hasking⟩ : ((View.serial (fun i => (conns i).outcomes) [] log).2.filter
      (fun e => e.1 = i) = []) ∧ (s.code i).Asking (s.handlers i) := by
    rcases hs.replies i with hasking | ⟨c, answer, -, hanswering⟩
    · exact hasking
    · exact absurd hcode (hanswering.not_call op rest)
  rw [hcode] at hasking hstep
  obtain ⟨r, hperform, hanswering⟩ := hasking.call hstep
  obtain ⟨hbody, -⟩ := Call.perform_eq_some hs.valid.store.lazy hperform
  have hview := Call.body_view hcfits hbody
  have hserial : View.serial (fun i => (conns i).outcomes) [] (log ++ [(i, c)]) =
      (view g'.store.messages,
        (View.serial (fun i => (conns i).outcomes) [] log).2 ++ [(i, c, r.answer)]) := by
    rw [View.serial_append_singleton, hs.store, hview]
  refine ⟨hvalid, fun j => ?_, ?_, ?_, fun j => ?_⟩
  · by_cases hj : j = i
    · subst hj
      simpa using hfits
    · simpa [Function.update_of_ne hj] using hs.fits j
  · intro e he
    rcases List.mem_append.mp he with he | he
    · exact hs.calls e he
    · rw [List.mem_singleton.mp he]
      exact hcfits
  · rw [hserial]
  · rw [hserial]
    by_cases hj : j = i
    · subst hj
      refine Or.inr ⟨c, r.answer, ?_, by simpa using hanswering⟩
      simp [List.filter_append, hnone]
    · have hij : i ≠ j := fun h => hj h.symm
      simpa [HandlerSystem.Replies, List.filter_append, hij, Function.update_of_ne hj] using
        hs.replies j

theorem HandlerSystem.Serial.step (hs : s.Serial conns log) {s' : HandlerSystem ι}
    (hstep : s.step conns i = some s') : s'.Serial conns (log ++ s.storeCalls i) := by
  obtain ⟨⟨g', h', code'⟩, hcode', rfl⟩ := Option.map_eq_some_iff.mp hstep
  by_cases hcall : ∃ op rest, s.code i = .statements (.call op :: rest)
  · obtain ⟨op, rest, hcode⟩ := hcall
    have hcalls : s.storeCalls i =
        [(i, op.storeCall s.shared.buffer.str (s.handlers i).locals)] := by
      simp only [HandlerSystem.storeCalls, hcode]
    rw [hcalls]
    exact hs.step_call hcode hcode'
  · simp only [not_exists] at hcall
    have hcalls : s.storeCalls i = [] := by
      unfold HandlerSystem.storeCalls
      split
      · next op rest hcode => exact absurd hcode (hcall op rest)
      · rfl
    rw [hcalls, List.append_nil]
    exact hs.step_other hcall hcode'

end Step

/-- What a handler has sent, from how its call was answered. -/
theorem HandlerSystem.Replies.sent {s : HandlerSystem ι} {served : List (ι × Call × ViewAnswer)}
    {i : ι} (h : s.Replies served i) :
    (served.filter (fun e => e.1 = i) = [] ∧ (s.handlers i).calls = [] ∧
        (s.handlers i).sent = []) ∨
      ∃ c answer, served.filter (fun e => e.1 = i) = [(i, c, answer)] ∧
        (s.handlers i).calls = [c] ∧ (s.handlers i).sent <+: answer.reply ∧
        (s.code i = .statements [] → (s.handlers i).sent = answer.reply) := by
  rcases h with ⟨hnone, hasking⟩ | ⟨c, answer, hone, rest, hcode, hanswering⟩
  · exact Or.inl ⟨hnone, hasking.1, hasking.2.1⟩
  · refine Or.inr ⟨c, answer, hone, hanswering.calls, ?_, fun hleft => ?_⟩
    · exact ⟨_, hanswering.reply⟩
    · rw [hcode] at hleft
      obtain rfl := Code.statements.inj hleft
      rw [← hanswering.reply, unsent, List.append_nil]

/-- The calls of a run, served in their order, give what the run has come to. -/
theorem HandlerSystem.serial_of_run {conns : ι → Connection} {order : List ι}
    {s : HandlerSystem ι}
    (hrun : Run.run (HandlerSystem.step conns) (.init conns .init) order = some s) :
    s.Serial conns (HandlerSystem.history conns (.init conns .init) order) := by
  have hstep : ∀ (s : HandlerSystem ι) (log : List (ι × Call)) (i : ι) (s' : HandlerSystem ι),
      s.Serial conns log → s.step conns i = some s' → s'.Serial conns (log ++ s.storeCalls i) :=
    fun _ _ _ _ hs hstep => hs.step hstep
  exact Run.invariant_emitted hstep (HandlerSystem.serial_init conns) hrun

/-- Handlers that run at the same time, in any order of their steps, answer as one
directory does that serves their calls one after another, in the order in which they
are made: it ends with what is in the store; a handler makes one call at most, and
sends nothing before it; what it has sent is the beginning of the reply to this call,
and, as no write fails, the whole reply when it has left. -/
theorem history_of_run {conns : ι → Connection} {order : List ι} {s : HandlerSystem ι}
    (hrun : Run.run (HandlerSystem.step conns) (.init conns .init) order = some s) :
    let served := View.serial (fun i => (conns i).outcomes) []
      (HandlerSystem.history conns (.init conns .init) order)
    view s.shared.store.messages = served.1 ∧
      (∀ e ∈ served.2, e.2.1.Fits) ∧
      ∀ i, (served.2.filter (fun e => e.1 = i) = [] ∧ (s.handlers i).calls = [] ∧
          (s.handlers i).sent = []) ∨
        ∃ c answer, served.2.filter (fun e => e.1 = i) = [(i, c, answer)] ∧
          (s.handlers i).calls = [c] ∧ (s.handlers i).sent <+: answer.reply ∧
          (s.code i = .statements [] → (s.handlers i).sent = answer.reply) := by
  have hs := HandlerSystem.serial_of_run hrun
  refine ⟨hs.store.symm, fun e he => ?_, fun i => (hs.replies i).sent⟩
  exact hs.calls _ (View.mem_of_mem_serial he)

/-- A user is registered and connects; it asks for the users on one connection and
disconnects on another one. -/
def fourClients : Fin 4 → Connection := fun i =>
  .ofStream (match i with
    | 0 => encodeRequest .register [[49], [97]]
    | 1 => encodeRequest .connect [[49], [97], [56]]
    | 2 => encodeRequest .listUsers [[49], [97]]
    | 3 => encodeRequest .disconnect [[49], [97]])
    (Outcomes.success ⟨10, 0, 0, 1⟩)

set_option synthInstance.maxSize 512 in
/-- The users are sent after the user has disconnected. -/
theorem history_of_run_fourClients :
    let order : List (Fin 4) := List.replicate 13 0 ++ List.replicate 18 1 ++
      List.replicate 16 2 ++ List.replicate 18 3 ++ List.replicate 4 2
    let served := View.serial (fun i => (fourClients i).outcomes) []
      (HandlerSystem.history fourClients (.init fourClients .init) order)
    ∃ s, Run.run (HandlerSystem.step fourClients) (.init fourClients .init) order = some s ∧
      s.shared.store.messages.map Node.connected = [false] ∧
      (s.handlers 2).sent = (ViewAnswer.users [([97], inetNtoa ⟨10, 0, 0, 1⟩, [56])]).reply ∧
      view s.shared.store.messages = served.1 := by
  intro order served
  have hrun : (Run.run (HandlerSystem.step fourClients) (.init fourClients .init) order).map
      (fun s => (s.shared.store.messages.map Node.connected, (s.handlers 2).sent)) =
      some ([false], (ViewAnswer.users [([97], inetNtoa ⟨10, 0, 0, 1⟩, [56])]).reply) := by
    decide +kernel
  obtain ⟨s, hs, heq⟩ := Option.map_eq_some_iff.mp hrun
  obtain ⟨hconnected, hsent⟩ := Prod.mk.inj heq
  exact ⟨s, hs, hconnected, hsent, (history_of_run hs).1⟩

end PeerDirectory
