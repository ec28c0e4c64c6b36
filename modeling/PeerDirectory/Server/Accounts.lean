import PeerDirectory.Server.Commute
import PeerDirectory.Server.History
import PeerDirectory.Server.Rpc

/-!
# Calls and reports

A handler makes its store call and reports it afterwards. Other handlers may write to
`buffer` meanwhile, but what is reported behind a call are the handler's own strings,
and six of the eight operations pass these to the store as well. REGISTER and
UNREGISTER pass `buffer`: only there the report may name another user than the one
that was stored or removed.
-/

namespace PeerDirectory

/-! ## What a report says of a call -/

/-- The operations that take the user name from `buffer`. -/
def Call.takesBuffer : Call → Bool
  | .registerUser _ => true
  | .unregisterUser _ => true
  | _ => false

/-- The file that is published or deleted. -/
def Call.file : Call → Bytes
  | .registerFileFromUser _ file _ => file
  | .unregisterFileFromUser _ file => file
  | _ => []

/-- The report names the user and the file of the call. -/
structure Call.ReportedBy (c : Call) (report : Bytes × Bytes × Bytes × Bytes) : Prop where
  username : c.takesBuffer = false → report.1 = c.username
  file : report.2.2.2 = c.file

/-- What `rpc_llamada` would report of a handler. -/
def Handler.nextReport (h : Handler) (file : Bool) : Bytes × Bytes × Bytes × Bytes :=
  (h.locals .print1Username, h.locals .print1Operation, h.locals .print1Date,
    if file then h.locals .print1File else [])

theorem Operation.reportedBy_storeCall (op : Operation) (buffer : Bytes) (h : Handler) :
    (op.storeCall buffer h.locals).ReportedBy (h.nextReport op.namesFile) := by
  constructor
  · intro hbuffer
    cases op <;> first | rfl | cases hbuffer
  · cases op <;> rfl

/-! ## The statements behind a store call -/

/-- The statements of a branch behind its report. -/
def Statement.isSend : Statement → Bool
  | .sendError => true
  | .sendUsers => true
  | .sendContent => true
  | _ => false

theorem Operation.answering_eq (op : Operation) :
    ∃ clears sends, op.answering = clears ++ .rpcLlamada op.namesFile :: sends ∧
      (∀ s ∈ clears, s = .memset) ∧ ∀ s ∈ sends, s.isSend = true := by
  cases op
  case listContent => exact ⟨[], [.sendError, .sendContent], rfl, by simp, by decide⟩
  case listUsers => exact ⟨[.memset], [.sendError, .sendUsers], rfl, by simp, by decide⟩
  all_goals exact ⟨[.memset], [.sendError], rfl, by simp, by decide⟩

section Handler

variable {conn : Connection} {g g' : Shared} {h h' : Handler} {s : Statement}
  {rest : List Statement} {flow : Flow} {code code' : Code} {c : Call}

/-- The call has been made, and its report is still to come. -/
def Handler.Reports (c : Call) (h : Handler) (rest : List Statement) : Prop :=
  h.printed = [] ∧ ∃ clears file sends, rest = clears ++ .rpcLlamada file :: sends ∧
    (∀ s ∈ clears, s = .memset) ∧ (∀ s ∈ sends, s.isSend = true) ∧
    c.ReportedBy (h.nextReport file)

/-- The call has been made and reported. -/
def Handler.Reported (c : Call) (h : Handler) (rest : List Statement) : Prop :=
  (∃ report, h.printed = [report] ∧ c.ReportedBy report) ∧ ∀ s ∈ rest, s.isSend = true

/-- No call and no report has been made, or one call, and its report is still to
come or has been made. -/
def Code.Accounts (h : Handler) (code : Code) : Prop :=
  (code.Asking h ∧ h.printed = []) ∨
    ∃ c rest, code = .statements rest ∧ h.calls = [c] ∧ (h.Reports c rest ∨ h.Reported c rest)

/-- A statement behind the report. -/
theorem Statement.exec_isSend (hs : s.isSend = true)
    (hexec : s.exec conn g h = some (g', h', flow)) :
    h'.calls = h.calls ∧ h'.printed = h.printed := by
  cases s with
  | sendError =>
      cases hexec
      exact ⟨rfl, rfl⟩
  | sendUsers =>
      obtain ⟨-, sent, rfl⟩ := Statement.exec_send (Or.inl rfl) hexec
      exact ⟨rfl, rfl⟩
  | sendContent =>
      obtain ⟨-, sent, rfl⟩ := Statement.exec_send (Or.inr rfl) hexec
      exact ⟨rfl, rfl⟩
  | _ => cases hs

/-- The store call. -/
theorem Code.Accounts.call {op : Operation} (ha : (Code.statements (.call op :: rest)).Asking h)
    (hprinted : h.printed = [])
    (hstep : (Code.statements (.call op :: rest)).step conn g h = some (g', h', code')) :
    code'.Accounts h' := by
  obtain ⟨⟨g₁, h₁, flow⟩, hexec, heq⟩ := Option.map_eq_some_iff.mp hstep
  cases heq
  obtain ⟨⟨store, r⟩, -, hexec⟩ := Option.map_eq_some_iff.mp hexec
  cases hexec
  obtain ⟨clears, sends, hparts, hclears, hsends⟩ := op.answering_eq
  refine Or.inr ⟨op.storeCall g.buffer.str h.locals, rest, rfl, by simp [ha.1], Or.inl ?_⟩
  exact ⟨hprinted, clears, op.namesFile, sends, ha.rest_eq.trans hparts, hclears, hsends,
    op.reportedBy_storeCall g.buffer.str h⟩

/-- A statement in front of the report, or the report itself. -/
theorem Handler.Reports.exec (hr : h.Reports c (s :: rest))
    (hexec : s.exec conn g h = some (g', h', flow)) :
    h'.calls = h.calls ∧
      (h'.Reports c (flow.remaining rest) ∨ h'.Reported c (flow.remaining rest)) := by
  obtain ⟨hprinted, clears, file, sends, heq, hclears, hsends, hreported⟩ := hr
  cases clears with
  | nil =>
      obtain ⟨rfl, rfl⟩ := List.cons.inj heq
      cases hexec
      refine ⟨rfl, Or.inr ⟨⟨h.nextReport file, ?_, hreported⟩, hsends⟩⟩
      simp only [hprinted, List.nil_append]
      rfl
  | cons t clears =>
      obtain ⟨rfl, rfl⟩ := List.cons.inj heq
      obtain rfl := hclears s List.mem_cons_self
      cases hexec
      refine ⟨rfl, Or.inl ⟨hprinted, clears, file, sends, rfl, ?_, hsends, hreported⟩⟩
      exact fun t ht => hclears t (List.mem_cons_of_mem _ ht)

theorem Handler.Reported.exec (hr : h.Reported c (s :: rest))
    (hexec : s.exec conn g h = some (g', h', flow)) :
    h'.calls = h.calls ∧ h'.Reported c (flow.remaining rest) := by
  obtain ⟨hreport, hsends⟩ := hr
  obtain ⟨hcalls, hprinted⟩ := Statement.exec_isSend (hsends s List.mem_cons_self) hexec
  refine ⟨hcalls, hprinted.symm ▸ hreport, fun t ht => ?_⟩
  cases flow with
  | exit => cases ht
  | next => exact hsends t (List.mem_cons_of_mem s ht)

end Handler

/-! ## All handlers -/

variable {ι : Type} [DecidableEq ι] {conns : ι → Connection} {s s' : HandlerSystem ι} {i : ι}

omit [DecidableEq ι] in
/-- A handler reports nothing before its call. -/
theorem HandlerSystem.reports_of_asking (ha : (s.code i).Asking (s.handlers i)) :
    s.reports i = [] := by
  unfold HandlerSystem.reports
  split
  · next file rest hcode =>
      rcases ha.2.2 _ hcode with hnil | ⟨op, reads, heq, hreads⟩
      · cases hnil
      · cases reads with
        | nil => cases heq
        | cons t reads =>
            obtain ⟨rfl, -⟩ := List.cons.inj heq
            cases hreads _ List.mem_cons_self
  · rfl

theorem HandlerSystem.accounts_step (ha : (s.code i).Accounts (s.handlers i))
    (hstep : s.step conns i = some s') : (s'.code i).Accounts (s'.handlers i) := by
  have hprinted := HandlerSystem.printed_step hstep i
  obtain ⟨⟨g, h, code⟩, hcode, rfl⟩ := Option.map_eq_some_iff.mp hstep
  simp only [Function.update_self, if_true] at hprinted ⊢
  rcases ha with ⟨hasking, hnone⟩ | ⟨c, rest, hrest, hcalls, hreports⟩
  · by_cases hcall : ∃ op rest, s.code i = .statements (.call op :: rest)
    · obtain ⟨op, rest, hcode'⟩ := hcall
      rw [hcode'] at hcode hasking
      exact Code.Accounts.call hasking hnone hcode
    · simp only [not_exists] at hcall
      refine Or.inl ⟨(hasking.step hcall hcode).2, ?_⟩
      rw [hprinted, hnone, HandlerSystem.reports_of_asking hasking, List.nil_append]
  · rw [hrest] at hcode
    cases rest with
    | nil => cases hcode
    | cons t rest =>
        obtain ⟨⟨g₁, h₁, flow⟩, hexec, heq⟩ := Option.map_eq_some_iff.mp hcode
        cases heq
        refine Or.inr ⟨c, _, rfl, ?_⟩
        rcases hreports with hreports | hreported
        · obtain ⟨hsame, hnext⟩ := hreports.exec hexec
          exact ⟨hsame.trans hcalls, hnext⟩
        · obtain ⟨hsame, hnext⟩ := hreported.exec hexec
          exact ⟨hsame.trans hcalls, Or.inr hnext⟩

/-- Along every run of the handlers, a handler that has made no call has reported
nothing. One that has made a call reports it once, before it leaves; the report has
the file of the call, and its user unless the operation takes this from `buffer`. -/
theorem calls_reported {order : List ι}
    (hrun : Run.run (HandlerSystem.step conns) (.init conns .init) order = some s) (i : ι) :
    ((s.handlers i).calls = [] ∧ (s.handlers i).printed = []) ∨
      ∃ c, (s.handlers i).calls = [c] ∧
        (((s.handlers i).printed = [] ∧ s.code i ≠ .statements []) ∨
          ∃ report, (s.handlers i).printed = [report] ∧ c.ReportedBy report) := by
  have hstep : ∀ (s : HandlerSystem ι) (j : ι) (s' : HandlerSystem ι),
      (∀ i, (s.code i).Accounts (s.handlers i)) → s.step conns j = some s' →
        ∀ i, (s'.code i).Accounts (s'.handlers i) := by
    intro s j s' ha hstep i
    by_cases hij : i = j
    · subst hij
      exact HandlerSystem.accounts_step (ha i) hstep
    · obtain ⟨r, -, rfl⟩ := Option.map_eq_some_iff.mp hstep
      simpa [Function.update_of_ne hij] using ha i
  have hinit : ∀ i, ((HandlerSystem.init conns .init).code i).Accounts
      ((HandlerSystem.init conns .init).handlers i) := by
    intro i
    refine Or.inl ⟨⟨rfl, rfl, fun rest hrest => ?_⟩, rfl⟩
    cases hrest
  rcases Run.invariant hstep hinit hrun i with
    ⟨hasking, hnone⟩ | ⟨c, rest, hrest, hcalls, hreports | hreported⟩
  · exact Or.inl ⟨hasking.1, hnone⟩
  · refine Or.inr ⟨c, hcalls, Or.inl ⟨hreports.1, fun hleft => ?_⟩⟩
    obtain ⟨-, clears, file, sends, heq, -⟩ := hreports
    rw [hrest, heq, Code.statements.injEq] at hleft
    simp at hleft
  · exact Or.inr ⟨c, hcalls, Or.inr hreported.1⟩

/-- The publication of the file `f` by `a` is reported. -/
theorem calls_reported_twoPublishers :
    ∃ s, Run.run (HandlerSystem.step twoPublishers) (.init twoPublishers .init)
        (List.replicate 22 0 ++ List.replicate 22 1) = some s ∧
      ∃ c, (s.handlers 0).calls = [c] ∧ c.ReportedBy (publishReport [102]) := by
  obtain ⟨s, hrun, hprinted, -⟩ := twoPublishers_run
  refine ⟨s, hrun, ?_⟩
  rcases calls_reported hrun 0 with ⟨-, hnone⟩ | ⟨c, hcalls, ⟨hnone, -⟩ | ⟨report, hone, hc⟩⟩
  · rw [hprinted] at hnone
    cases hnone
  · rw [hprinted] at hnone
    cases hnone
  · rw [hprinted] at hone
    cases hone
    exact ⟨c, hcalls, hc⟩

end PeerDirectory
