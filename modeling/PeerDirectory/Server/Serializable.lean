import PeerDirectory.Server.Handlers
import PeerDirectory.Server.History

/-!
# Handlers one after another

Handlers of complete requests run at the same time, and each of them finds in `buffer`
what it needs. Then their connections could as well have been handled strictly one
after another: there is an order of the connections, in which a handler that has left
comes before one that starts later, and `treat_request` run alone on them in this order
sends the same replies, byte for byte, and leaves the same directory.
-/

namespace PeerDirectory

/-! ## A complete request, handled alone -/

section Alone

variable {conn : Connection} {op : Operation} {fields : List Bytes} {c : Call}

/-- What is received of a complete request is its call. -/
theorem requestCall_encodeRequest (hfits : ∀ f ∈ fields, FitsLine maxValueLength f)
    (h : op.namedCall fields = some c) : op.requestCall (encodeRequest op fields) = c := by
  have hall : ∀ f ∈ op.name :: fields, FitsLine maxValueLength f :=
    List.forall_mem_cons.mpr ⟨fitsLine_name op, hfits⟩
  have hreceived : ∀ k, ∀ hk : k < (op.name :: fields).length,
      received k (encodeRequest op fields) = (op.name :: fields)[k] :=
    fun k hk => received_frame hall hk
  unfold Operation.namedCall at h
  split at h <;> cases h <;> simp [Operation.requestCall, hreceived]

/-- The branch of a call sends its listing. -/
theorem Operation.listing_eq {s : Bytes} {o : Outcomes} {st st' : ListState} {r : Result}
    (h : (op.requestCall s).perform o st = some (st', r)) :
    op.listing true r = some r.answer.listing := by
  have hlisted := Call.listed_of_perform h
  obtain ⟨⟨messages, r⟩, hbody, hq⟩ := Option.map_eq_some_iff.mp h
  obtain ⟨-, rfl⟩ := Prod.mk.inj hq
  rcases Call.result_cases hbody with
    ⟨error, rfl⟩ | ⟨username, chain, n, hc, rfl⟩ | ⟨username, username2, chain, hc, rfl⟩
  · cases op <;> rfl
  · cases op <;> cases hc
    exact hlisted
  · cases op <;> cases hc
    exact hlisted

/-- A handler that runs alone on a complete request answers like the directory. -/
theorem treatRequest_of_requests (hreq : conn.Requests op fields c)
    (ho : conn.outcomes.Allocated) (hcount : conn.mallocCount = true) {g : Shared}
    (hvalid : g.Valid) :
    ∃ g' h, treatRequest conn g = some (g', h) ∧ g'.Valid ∧
      View.step conn.outcomes (view g.store.messages) c =
        (view g'.store.messages, (View.step conn.outcomes (view g.store.messages) c).2) ∧
      h.sent = (View.step conn.outcomes (view g.store.messages) c).2.reply := by
  have hall : ∀ f ∈ op.name :: fields, FitsLine maxValueLength f :=
    List.forall_mem_cons.mpr ⟨fitsLine_name op, hreq.fits⟩
  have hcommand : commandString g (encodeRequest op fields) = op.name := by
    have hne : encodeRequest op fields ≠ [] := by simp [encodeRequest, Delimited.frame_cons]
    rw [commandString, if_neg hne]
    exact received_frame hall (Nat.zero_lt_succ _)
  have htreat := treatRequest_eq conn (encodeRequest op fields) g hreq.input hreq.malloc
  rw [hcommand, command_name] at htreat
  obtain ⟨served, hserved⟩ := Option.isSome_iff_exists.mp
    (op.serve_isSome ho hcount (encodeRequest op fields) g.store)
  simp only [hserved] at htreat
  obtain ⟨⟨g', h⟩, hrun, hobserve⟩ := Option.map_eq_some_iff.mp htreat
  have hvalid' := hvalid.treatRequest hrun
  obtain ⟨⟨store, r⟩, hperform, hlisting⟩ := Option.bind_eq_some_iff.mp hserved
  obtain ⟨listing, hlist, heq⟩ := Option.map_eq_some_iff.mp hlisting
  rw [hcount, Operation.listing_eq hperform, Option.some.injEq] at hlist
  have hview := Call.body_view (op.fits_requestCall _)
    (Call.perform_eq_some hvalid.store.lazy hperform).1
  rw [requestCall_encodeRequest hreq.fits hreq.namesCall] at hview
  obtain rfl : g'.store = store := by
    have := congrArg Served.store (hobserve.trans heq.symm)
    exact this
  have hsent : h.sent = errorStr r.error ++ listing :=
    congrArg Served.reply (hobserve.trans heq.symm)
  refine ⟨g', h, hrun, hvalid', by rw [hview], ?_⟩
  rw [hview, hsent, ← hlist, ViewAnswer.reply, Result.error_answer]

end Alone

/-! ## Handlers in the order of their calls -/

section Serial

variable {ι : Type} {conns : ι → Connection} {calls : List (ι × Call)}

theorem View.map_fst_serial (outcomes : ι → Outcomes) (vs : List UserView)
    (calls : List (ι × Call)) :
    (serial outcomes vs calls).2.map (fun e => (e.1, e.2.1)) = calls := by
  induction calls generalizing vs with
  | nil => rfl
  | cons e calls ih =>
      obtain ⟨i, c⟩ := e
      rw [serial, List.map_cons, ih]

/-- Handlers of complete requests that run one after another serve their calls. -/
theorem answers_treatRequest
    (hgranted : ∀ i, (conns i).outcomes.Allocated ∧ (conns i).mallocCount = true)
    (hcalls : ∀ e ∈ calls, ∃ op fields, (conns e.1).Requests op fields e.2) {g : Shared}
    (hvalid : g.Valid) :
    let served := View.serial (fun i => (conns i).outcomes) (view g.store.messages) calls
    ∃ g' handlers, Run.answers (fun g i => treatRequest (conns i) g) g (calls.map Prod.fst) =
        some (g', handlers) ∧
      view g'.store.messages = served.1 ∧
      handlers.map Handler.sent = served.2.map fun e => e.2.2.reply := by
  induction calls generalizing g with
  | nil => exact ⟨g, [], rfl, rfl, rfl⟩
  | cons e calls ih =>
      obtain ⟨i, c⟩ := e
      obtain ⟨op, fields, hreq⟩ := hcalls (i, c) List.mem_cons_self
      obtain ⟨g₁, h, htreat, hvalid₁, hview, hsent⟩ :=
        treatRequest_of_requests hreq (hgranted i).1 (hgranted i).2 hvalid
      obtain ⟨g', handlers, hrun, hstore, hreplies⟩ :=
        ih (fun e he => hcalls e (List.mem_cons_of_mem _ he)) hvalid₁
      refine ⟨g', h :: handlers, ?_, ?_, ?_⟩
      · rw [List.map_cons, Run.answers_cons htreat, hrun]
        rfl
      · rw [hstore, View.serial, hview]
      · rw [List.map_cons, hreplies, hsent, View.serial, List.map_cons, hview]

end Serial

/-! ## Every run has such an order -/

section Runs

variable {ι : Type} [DecidableEq ι] {conns : ι → Connection} {order : List ι}
  {s : HandlerSystem ι} {i : ι}

/-- The calls that a run has served. -/
def HandlerSystem.served (conns : ι → Connection) (order : List ι) :
    List (ι × Call × ViewAnswer) :=
  (View.serial (fun i => (conns i).outcomes) []
    (HandlerSystem.history conns (.init conns .init) order)).2

theorem HandlerSystem.map_fst_served (conns : ι → Connection) (order : List ι) :
    (served conns order).map Prod.fst =
      (history conns (.init conns .init) order).map Prod.fst := by
  have h := View.map_fst_serial (fun i => (conns i).outcomes) []
    (history conns (.init conns .init) order)
  rw [← congrArg (List.map Prod.fst) h, List.map_map]
  rfl

/-- No handler is in the order twice. -/
theorem HandlerSystem.nodup_history
    (hrun : Run.run (HandlerSystem.step conns) (.init conns .init) order = some s) :
    ((history conns (.init conns .init) order).map Prod.fst).Nodup := by
  rw [← map_fst_served, List.nodup_iff_count_le_one]
  intro i
  rw [List.count, List.countP_map, List.countP_eq_length_filter]
  have hfilter : (served conns order).filter ((fun j => j == i) ∘ Prod.fst) =
      (served conns order).filter fun e => e.1 = i := by
    refine List.filter_congr fun e _ => ?_
    rw [Function.comp_apply, beq_eq_decide]
  rw [hfilter]
  rcases (serial_of_run hrun).replies i with ⟨hnone, -⟩ | ⟨c, answer, hone, -⟩
  · rw [served, hnone]
    exact Nat.zero_le 1
  · rw [served, hone, List.length_singleton]

/-- A handler is in the order from its call on. -/
theorem HandlerSystem.mem_history_iff
    (hrun : Run.run (HandlerSystem.step conns) (.init conns .init) order = some s) :
    i ∈ (history conns (.init conns .init) order).map Prod.fst ↔ (s.handlers i).calls ≠ [] := by
  rw [← map_fst_served, List.mem_map]
  rcases (serial_of_run hrun).replies i with
    ⟨hnone, hasking⟩ | ⟨c, answer, hone, rest, -, hanswering⟩
  · refine iff_of_false ?_ (not_not_intro hasking.1)
    rintro ⟨e, he, hi⟩
    have hmem : e ∈ (served conns order).filter fun e => e.1 = i :=
      List.mem_filter.mpr ⟨he, decide_eq_true hi⟩
    rw [served, hnone] at hmem
    cases hmem
  · refine iff_of_true ⟨(i, c, answer), ?_, rfl⟩ (by simp [hanswering.calls])
    have hmem : (i, c, answer) ∈ (served conns order).filter fun e => e.1 = i := by
      rw [served, hone]
      exact List.mem_cons_self
    exact (List.mem_filter.mp hmem).1

/-- The call of a handler in the order is the one it has made. -/
theorem HandlerSystem.calls_of_mem_served
    (hrun : Run.run (HandlerSystem.step conns) (.init conns .init) order = some s)
    {e : ι × Call × ViewAnswer} (he : e ∈ served conns order) :
    (s.handlers e.1).calls = [e.2.1] ∧ (s.handlers e.1).sent <+: e.2.2.reply ∧
      (s.code e.1 = .statements [] → (s.handlers e.1).sent = e.2.2.reply) := by
  have hmem : e ∈ (served conns order).filter fun e' => e'.1 = e.1 :=
    List.mem_filter.mpr ⟨he, decide_eq_true rfl⟩
  rcases ((serial_of_run hrun).replies e.1).sent with
    ⟨hnone, -⟩ | ⟨c, answer, hone, hcalls, hprefix, hwhole⟩
  · rw [served, hnone] at hmem
    cases hmem
  · rw [served, hone, List.mem_singleton] at hmem
    obtain ⟨rfl, rfl⟩ : e.2.1 = c ∧ e.2.2 = answer := by
      rw [hmem]
      exact ⟨rfl, rfl⟩
    exact ⟨hcalls, hprefix, hwhole⟩

/-- A handler on its way has made its call or none. -/
theorem OnTrack.calls {op : Operation} {fields : List Bytes} {c : Call} {g : Shared} {h : Handler}
    {code : Code} (hon : OnTrack op fields c g h code) : h.calls = [] ∨ h.calls = [c] := by
  cases code with
  | entry => exact Or.inl hon.1
  | compare ops => exact Or.inl hon.1
  | statements rest =>
      obtain ⟨-, fs, -, -, hcalls⟩ := hon
      exact hcalls.imp And.left And.left

theorem OnTrack.calls_of_left {op : Operation} {fields : List Bytes} {c : Call} {g : Shared}
    {h : Handler} (hon : OnTrack op fields c g h (.statements [])) : h.calls = [c] := by
  obtain ⟨-, fs, -, -, ⟨-, hnext⟩ | ⟨hdone, -⟩⟩ := hon
  · cases hnext
  · exact hdone

/-- Guarded steps keep all handlers of complete requests on their way. -/
theorem HandlerSystem.inv_of_run
    (hleaves : Run.Guarded (HandlerSystem.step conns) (HandlerSystem.LeavesBuffer conns)
      (.init conns .init) order)
    (hrun : Run.run (HandlerSystem.step conns) (.init conns .init) order = some s) :
    s.Inv conns :=
  Run.invariant_of_guarded
    (fun _ _ _ hinv hleaves hstep => HandlerSystem.Inv.step hinv hleaves hstep)
    (HandlerSystem.inv_init conns .init) hleaves hrun

/-- One that has left comes in the order before one that has not started. -/
theorem HandlerSystem.sublist_history
    (hreq : ∀ i, ∃ op fields c, (conns i).Requests op fields c)
    {before after : List ι} {t : HandlerSystem ι}
    (hleaves : Run.Guarded (HandlerSystem.step conns) (HandlerSystem.LeavesBuffer conns)
      (.init conns .init) before)
    (hbefore : Run.run (HandlerSystem.step conns) (.init conns .init) before = some t)
    {j : ι} (hi : t.code i = .statements []) (hj : t.code j = .entry)
    (hmem : j ∈ (history conns (.init conns .init) (before ++ after)).map Prod.fst) :
    [i, j].Sublist ((history conns (.init conns .init) (before ++ after)).map Prod.fst) := by
  have hinv := inv_of_run hleaves hbefore
  have hcalled : i ∈ (history conns (.init conns .init) before).map Prod.fst := by
    obtain ⟨op, fields, c, hreq⟩ := hreq i
    have hon := hinv.onTrack i op fields c hreq
    rw [hi] at hon
    rw [mem_history_iff hbefore, hon.calls_of_left]
    exact List.cons_ne_nil _ _
  have huncalled : j ∉ (history conns (.init conns .init) before).map Prod.fst := by
    obtain ⟨op, fields, c, hreq⟩ := hreq j
    have hon := hinv.onTrack j op fields c hreq
    rw [hj] at hon
    rw [mem_history_iff hbefore]
    exact not_not_intro hon.1
  rw [history, Run.emitted_append hbefore, List.map_append] at hmem ⊢
  have hlater := (List.mem_append.mp hmem).resolve_left huncalled
  exact (List.singleton_sublist.mpr hcalled).append (List.singleton_sublist.mpr hlater)

/-- `treat_request`, run alone on the connections of `serial`, one after another, does
what the handlers have done in a run: it leaves the same directory, and sends on each
connection what the handler has sent, and more only where the handler has not left. -/
structure HandlerSystem.Serialized (conns : ι → Connection) (order : List ι) (s : HandlerSystem ι)
    (serial : List ι) (g : Shared) (handlers : List Handler) : Prop where
  nodup : serial.Nodup
  answers : Run.answers (fun g i => treatRequest (conns i) g) .init serial = some (g, handlers)
  view : view g.store.messages = view s.shared.store.messages
  sent : ∀ i h, (i, h) ∈ serial.zip handlers → (s.handlers i).sent <+: h.sent ∧
    (s.code i = .statements [] → (s.handlers i).sent = h.sent)
  others : ∀ i ∉ serial, (s.handlers i).sent = [] ∧ s.code i ≠ .statements []
  /-- A handler that has left comes before one that starts later. -/
  inOrder : ∀ before after t i j, order = before ++ after →
    Run.run (HandlerSystem.step conns) (.init conns .init) before = some t →
      t.code i = .statements [] → t.code j = .entry → j ∈ serial → [i, j].Sublist serial

/-- The order of the store calls is such an order. -/
theorem HandlerSystem.serialized_of_run
    (hreq : ∀ i, ∃ op fields c, (conns i).Requests op fields c)
    (hgranted : ∀ i, (conns i).outcomes.Allocated ∧ (conns i).mallocCount = true)
    (hleaves : Run.Guarded (HandlerSystem.step conns) (HandlerSystem.LeavesBuffer conns)
      (.init conns .init) order)
    (hrun : Run.run (HandlerSystem.step conns) (.init conns .init) order = some s) :
    ∃ g handlers, s.Serialized conns order
      ((HandlerSystem.history conns (.init conns .init) order).map Prod.fst) g handlers := by
  have hs := HandlerSystem.serial_of_run hrun
  have hinv := HandlerSystem.inv_of_run hleaves hrun
  set calls := HandlerSystem.history conns (.init conns .init) order with hcalls
  have hnamed : ∀ e ∈ calls, ∃ op fields, (conns e.1).Requests op fields e.2 := by
    intro e he
    obtain ⟨op, fields, c, hreq⟩ := hreq e.1
    rw [← View.map_fst_serial (fun i => (conns i).outcomes) [] calls] at he
    obtain ⟨⟨i, c', answer⟩, hserved, rfl⟩ := List.mem_map.mp he
    have hcall := (HandlerSystem.calls_of_mem_served hrun hserved).1
    rcases (hinv.onTrack i op fields c hreq).calls with hnil | hone
    · rw [hcall] at hnil
      cases hnil
    · rw [hcall] at hone
      cases hone
      exact ⟨op, fields, hreq⟩
  obtain ⟨g, handlers, hanswers, hstore, hreplies⟩ :=
    answers_treatRequest hgranted hnamed Shared.valid_init
  refine ⟨g, handlers, HandlerSystem.nodup_history hrun, hanswers, hstore.trans hs.store,
    fun i h hmem => ?_, fun i hi => ?_, ?_⟩
  · have hzip : (i, h.sent) ∈ (HandlerSystem.served conns order).map fun e =>
        (e.1, e.2.2.reply) := by
      have hpair : (i, h.sent) ∈ (calls.map Prod.fst).zip (handlers.map Handler.sent) := by
        rw [List.zip_map_right]
        exact List.mem_map.mpr ⟨(i, h), hmem, rfl⟩
      rw [← HandlerSystem.map_fst_served, hreplies] at hpair
      rw [← List.zip_map']
      exact hpair
    obtain ⟨e, he, heq⟩ := List.mem_map.mp hzip
    obtain ⟨rfl, hsent⟩ := Prod.mk.inj heq
    rw [← hsent]
    exact (HandlerSystem.calls_of_mem_served hrun he).2
  · have hnone : (s.handlers i).calls = [] :=
      not_not.mp fun hne => hi ((HandlerSystem.mem_history_iff hrun).mpr hne)
    refine ⟨?_, fun hleft => ?_⟩
    · rcases (hs.replies i).sent with ⟨-, -, hsent⟩ | ⟨c, answer, -, hone, -⟩
      · exact hsent
      · rw [hnone] at hone
        cases hone
    · obtain ⟨op, fields, c, hreq⟩ := hreq i
      have hon := hinv.onTrack i op fields c hreq
      rw [hleft] at hon
      rw [hon.calls_of_left] at hnone
      cases hnone
  · rintro before after t i j rfl hbefore hi hj hmem
    exact HandlerSystem.sublist_history hreq hleaves.left hbefore hi hj hmem

/-- Handlers of complete requests run at the same time, and every step leaves `buffer`
as it is while another one still needs it. Then the handlers that have made their call
can be put in an order, after those that had left before they started, such that
`treat_request`, run alone on one connection after another, does what they have done. -/
theorem handlers_serializable
    (hreq : ∀ i, ∃ op fields c, (conns i).Requests op fields c)
    (hgranted : ∀ i, (conns i).outcomes.Allocated ∧ (conns i).mallocCount = true)
    (hleaves : Run.Guarded (HandlerSystem.step conns) (HandlerSystem.LeavesBuffer conns)
      (.init conns .init) order)
    (hrun : Run.run (HandlerSystem.step conns) (.init conns .init) order = some s) :
    ∃ serial g handlers, s.Serialized conns order serial g handlers :=
  ⟨_, HandlerSystem.serialized_of_run hreq hgranted hleaves hrun⟩

end Runs

/-- A user is registered on one connection while another one asks for the users. -/
def registerAndList : Bool → Connection := fun i =>
  .ofStream (if i then encodeRequest .register [[100], [97]]
    else encodeRequest .listUsers [[100], [97]]) (.success ⟨10, 0, 0, 1⟩)

/-- The first handler has made its call when the second one starts, and answers when
the second one has left. -/
theorem handlers_serializable_registerAndList :
    ∃ s, Run.run (HandlerSystem.step registerAndList) (.init registerAndList .init)
        (List.replicate 11 true ++ List.replicate 20 false ++ [true, true]) = some s ∧
      ∃ (serial : List Bool) (g : Shared) (handlers : List Handler),
        true ∈ serial ∧ false ∈ serial ∧
        Run.answers (fun g i => treatRequest (registerAndList i) g) .init serial =
          some (g, handlers) ∧
        view g.store.messages = view s.shared.store.messages := by
  have hend : (Run.run (HandlerSystem.step registerAndList) (.init registerAndList .init)
      (List.replicate 11 true ++ List.replicate 20 false ++ [true, true])).map
        (fun s => (s.code true, s.code false)) = some (.statements [], .statements []) := by
    decide +kernel
  have happart : Run.Guarded (HandlerSystem.step registerAndList) HandlerSystem.Apart
      (.init registerAndList .init)
      (List.replicate 11 true ++ List.replicate 20 false ++ [true, true]) := by
    decide +kernel
  have hfits : ∀ f ∈ [[100], [97]], FitsLine maxValueLength f := by decide +kernel
  have hreq : ∀ i, ∃ op fields c, (registerAndList i).Requests op fields c := by
    intro i
    cases i with
    | true => exact ⟨.register, [[100], [97]], .registerUser [97], rfl, hfits, rfl, rfl⟩
    | false => exact ⟨.listUsers, [[100], [97]], .listUsers [97], rfl, hfits, rfl, rfl⟩
  have hgranted : ∀ i, (registerAndList i).outcomes.Allocated ∧
      (registerAndList i).mallocCount = true :=
    fun i => ⟨Outcomes.allocated_success _, rfl⟩
  obtain ⟨s, hs, hcode⟩ := Option.map_eq_some_iff.mp hend
  obtain ⟨htrue, hfalse⟩ := Prod.mk.inj hcode
  obtain ⟨serial, g, handlers, h⟩ :=
    handlers_serializable hreq hgranted (happart.mono fun _ _ h => h.leavesBuffer) hs
  refine ⟨s, hs, serial, g, handlers, ?_, ?_, h.answers, h.view⟩
  · exact not_not.mp fun hnot => (h.others true hnot).2 htrue
  · exact not_not.mp fun hnot => (h.others false hnot).2 hfalse

end PeerDirectory
