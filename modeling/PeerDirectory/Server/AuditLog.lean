import PeerDirectory.Server.StoredStrings

/-!
# The audit log

Every handler reports its request through `rpc_llamada`, and the remote
procedure `print_1_svc` prints a line for it. The handlers pass a file name only
for PUBLISH and DELETE; the remote procedure prints the file name only if it is
empty. So no line names a file, whatever the handlers do.

The four strings are taken to arrive as they were passed.
-/

namespace PeerDirectory

/-- The line that is printed and the result that is passed back. -/
structure Printed where
  line : Bytes
  result : Int
deriving DecidableEq

/-- `print_1_svc` -/
def print1Svc (username operation date file : Bytes) : Printed :=
  if file = [] then
    { line := username ++ 32 :: operation ++ 32 :: date ++ 32 :: file ++ [10]
      result := 1 }
  else
    { line := username ++ 32 :: operation ++ 32 :: date ++ [10]
      result := 0 }

/-- The line for what a handler has passed to `rpc_llamada`. -/
def reportLine (report : Bytes × Bytes × Bytes × Bytes) : Bytes :=
  (print1Svc report.1 report.2.1 report.2.2.1 report.2.2.2).line

/-! ## What the handlers report -/

/-- The statement reports the request. -/
def Statement.isReport : Statement → Bool
  | .rpcLlamada _ => true
  | _ => false

/-- The statement writes a string of the handler. -/
def Statement.isCopy : Statement → Bool
  | .sprintf _ => true
  | _ => false

/-- The strings a handler reports from. -/
def Handler.report (h : Handler) : Bytes × Bytes × Bytes × Bytes :=
  (h.locals .print1Username, h.locals .print1Operation, h.locals .print1Date,
    h.locals .print1File)

/-- The reports so far say what is in the strings of the handler, also where the
empty string is passed for the file name, and the statements that are left do
not change this. -/
structure Handler.Reporting (rest : List Statement) (h : Handler) : Prop where
  printed : ∀ r ∈ h.printed, r = h.report
  fixed : h.printed ≠ [] → ∀ s ∈ rest, s.isCopy = false
  order : rest.Pairwise fun s t => s.isReport = true → t.isCopy = false
  noFile : .rpcLlamada false ∈ rest →
    h.locals .print1File = [] ∧ .sprintf .print1File ∉ rest

theorem Operation.pairwise_branch (op : Operation) :
    op.branch.Pairwise fun s t => s.isReport = true → t.isCopy = false := by
  cases op <;> decide

theorem Operation.noFile_branch (op : Operation) :
    .rpcLlamada false ∈ op.branch → .sprintf .print1File ∉ op.branch := by
  cases op <;> decide

/-- A branch that has not begun. -/
theorem Handler.reporting_branch {h : Handler} (hprinted : h.printed = [])
    (hfile : h.locals .print1File = []) (op : Operation) : h.Reporting op.branch where
  printed := by simp [hprinted]
  fixed := fun hne => absurd hprinted hne
  order := op.pairwise_branch
  noFile := fun hmem => ⟨hfile, op.noFile_branch hmem⟩

/-- Statements are left out. -/
theorem Handler.Reporting.tail {s : Statement} {rest : List Statement} {h : Handler}
    (hr : h.Reporting (s :: rest)) : h.Reporting rest where
  printed := hr.printed
  fixed := fun hne t ht => hr.fixed hne t (List.mem_cons_of_mem s ht)
  order := (List.pairwise_cons.mp hr.order).2
  noFile := fun hmem =>
    ⟨(hr.noFile (List.mem_cons_of_mem s hmem)).1,
      fun ht => (hr.noFile (List.mem_cons_of_mem s hmem)).2 (List.mem_cons_of_mem s ht)⟩

/-- A handler that agrees in its strings and its reports. -/
theorem Handler.Reporting.congr {rest : List Statement} {h h' : Handler}
    (hr : h.Reporting rest) (hlocals : h'.locals = h.locals) (hprinted : h'.printed = h.printed) :
    h'.Reporting rest where
  printed := by
    rw [Handler.report, hlocals, hprinted]
    exact hr.printed
  fixed := hprinted ▸ hr.fixed
  order := hr.order
  noFile := hlocals ▸ hr.noFile

theorem Handler.Reporting.nil {rest : List Statement} {h : Handler} (hr : h.Reporting rest) :
    h.Reporting [] := by
  induction rest with
  | nil => exact hr
  | cons s rest ih => exact ih hr.tail

/-- One statement of a branch. -/
theorem Handler.Reporting.exec {s : Statement} {rest : List Statement} {conn : Connection}
    {g g' : Shared} {h h' : Handler} {flow : Flow} (hr : h.Reporting (s :: rest))
    (hexec : s.exec conn g h = some (g', h', flow)) : h'.Reporting rest := by
  cases s with
  | readLine =>
      cases hexec
      exact hr.tail.congr rfl rfl
  | sprintf dst =>
      cases hexec
      -- nothing has been reported yet, and a branch without a file name has no copy of one
      have hprinted : h.printed = [] := by
        by_contra hne
        have := hr.fixed hne (.sprintf dst) (by simp)
        cases this
      refine ⟨by simp [hprinted], fun hne => absurd hprinted hne, hr.tail.order, fun hmem => ?_⟩
      obtain ⟨hfile, hnot⟩ := hr.noFile (List.mem_cons_of_mem _ hmem)
      have hdst : Var.print1File ≠ dst := fun heq => hnot (heq ▸ List.mem_cons_self)
      exact ⟨(Function.update_of_ne hdst _ _).trans hfile, (hr.tail.noFile hmem).2⟩
  | memset =>
      cases hexec
      exact hr.tail
  | call op =>
      obtain ⟨⟨store, r⟩, -, hexec⟩ := Option.map_eq_some_iff.mp hexec
      cases hexec
      exact hr.tail.congr rfl rfl
  | rpcLlamada file =>
      cases hexec
      have hfile : (if file then h.locals .print1File else []) = h.locals .print1File := by
        cases file with
        | false => exact ((hr.noFile List.mem_cons_self).1).symm
        | true => rfl
      refine ⟨?_, fun _ t ht => ?_, hr.tail.order, hr.tail.noFile⟩
      · intro r hmem
        rcases List.mem_append.mp hmem with hmem | hmem
        · exact hr.printed r hmem
        · rw [List.mem_singleton.mp hmem, hfile]
          rfl
      · exact (List.pairwise_cons.mp hr.order).1 t ht rfl
  | sendError =>
      cases hexec
      exact hr.tail.congr rfl rfl
  | sendUsers =>
      obtain ⟨-, sent, rfl⟩ := Statement.exec_send (Or.inl rfl) hexec
      exact hr.tail.congr rfl rfl
  | sendContent =>
      obtain ⟨-, sent, rfl⟩ := Statement.exec_send (Or.inr rfl) hexec
      exact hr.tail.congr rfl rfl

/-- The same for every place of `treat_request`. -/
def Code.Reporting (h : Handler) : Code → Prop
  | .statements rest => h.Reporting rest
  | _ => h.printed = [] ∧ h.locals .print1File = []

theorem Handler.reporting_nil {h : Handler} (hprinted : h.printed = []) : h.Reporting [] where
  printed := by simp [hprinted]
  fixed := by simp
  order := .nil
  noFile := by simp

theorem Code.Reporting.step {conn : Connection} {g g' : Shared} {h h' : Handler}
    {code code' : Code} (hr : code.Reporting h)
    (hstep : code.step conn g h = some (g', h', code')) : code'.Reporting h' := by
  cases code with
  | entry =>
      rw [Code.step] at hstep
      split at hstep
      · cases hstep
        split
        · exact Handler.reporting_nil hr.1
        · exact hr
      · cases hstep
        exact Handler.reporting_nil hr.1
  | compare ops =>
      cases ops with
      | nil =>
          cases hstep
          exact Handler.reporting_nil hr.1
      | cons op ops =>
          cases hstep
          split
          · exact Handler.reporting_branch hr.1 hr.2 op
          · exact hr
  | statements rest =>
      cases rest with
      | nil => cases hstep
      | cons s rest =>
          obtain ⟨⟨g₁, h₁, flow⟩, hexec, heq⟩ := Option.map_eq_some_iff.mp hstep
          cases heq
          have hnext := Handler.Reporting.exec hr hexec
          cases flow with
          | exit => exact hnext.nil
          | next => exact hnext

/-- Whatever the order of the handlers is, what a handler reports is what its
strings hold, and no file name has a newline in it. -/
theorem report_of_mem_printed {ι : Type} [DecidableEq ι] {conns : ι → Connection}
    {order : List ι} {s : HandlerSystem ι}
    (hrun : Run.run (HandlerSystem.step conns) (.init conns .init) order = some s) {i : ι}
    {r : Bytes × Bytes × Bytes × Bytes} (hr : r ∈ (s.handlers i).printed) :
    r = (s.handlers i).report ∧ 10 ∉ (s.handlers i).locals .print1File := by
  have hstep : ∀ (s : HandlerSystem ι) (i : ι) (s' : HandlerSystem ι),
      (∀ j, (s.code j).Reporting (s.handlers j)) → HandlerSystem.step conns s i = some s' →
        ∀ j, (s'.code j).Reporting (s'.handlers j) := by
    intro s i s' hs hstep j
    obtain ⟨⟨g, h, code⟩, hcode, rfl⟩ := Option.map_eq_some_iff.mp hstep
    by_cases hj : j = i
    · subst hj
      simpa using (hs j).step hcode
    · simpa [Function.update_of_ne hj] using hs j
  have hlines := (keeps_holdsLines.run_handlers Handler.holdsLines_start
    Shared.holdsLines_init hrun).2 i
  refine ⟨?_, hlines.2 _⟩
  have hinit : ∀ j, ((HandlerSystem.init conns .init).code j).Reporting
      ((HandlerSystem.init conns .init).handlers j) := fun _ => ⟨rfl, rfl⟩
  have hreporting := Run.invariant hstep hinit hrun i
  cases hcode : s.code i with
  | statements rest =>
      rw [hcode] at hreporting
      exact hreporting.printed r hr
  | entry =>
      rw [hcode] at hreporting
      rw [hreporting.1] at hr
      exact absurd hr (List.not_mem_nil)
  | compare ops =>
      rw [hcode] at hreporting
      rw [hreporting.1] at hr
      exact absurd hr (List.not_mem_nil)

/-! ## The lines -/

/-- The request is a PUBLISH or DELETE of a file with a name. -/
def NamesFile (operation file : Bytes) : Prop :=
  (operation = Operation.publish.name ∨ operation = Operation.delete.name) ∧ file ≠ []

/-- The line holds the user name, the operation and the date, and behind them the
name of the file if the request has one. -/
def LineNames (username operation date file line : Bytes) : Prop :=
  ∃ tail, line = username ++ 32 :: operation ++ 32 :: date ++ tail ∧
    (NamesFile operation file → file <:+: tail)

/-- A line ends behind the date, except for an empty file name. -/
theorem line_print1Svc (username operation date file : Bytes) :
    (print1Svc username operation date file).line =
      username ++ 32 :: operation ++ 32 :: date ++ (if file = [] then [32, 10] else [10]) := by
  rw [print1Svc]
  split
  · next h => simp [h]
  · rfl

theorem lineNames_print1Svc_iff {username operation date file : Bytes} (hfile : 10 ∉ file) :
    LineNames username operation date file (print1Svc username operation date file).line ↔
      ¬ NamesFile operation file := by
  rw [line_print1Svc]
  constructor
  · rintro ⟨tail, hline, htail⟩ hnames
    rw [if_neg hnames.2] at hline
    have hsub := htail hnames
    rw [← List.append_cancel_left hline] at hsub
    have hmem : ∀ b ∈ file, b = 10 := fun b hb => List.mem_singleton.mp (hsub.subset hb)
    cases file with
    | nil => exact hnames.2 rfl
    | cons b file => exact hfile (hmem b (by simp) ▸ List.mem_cons_self)
  · intro hnot
    exact ⟨_, rfl, fun hnames => absurd hnames hnot⟩

/-- Two lines on files differ only in their operations. -/
theorem line_print1Svc_inj {username operation operation' date file file' : Bytes}
    (h : file ≠ []) (h' : file' ≠ []) :
    (print1Svc username operation date file).line =
        (print1Svc username operation' date file').line ↔
      operation = operation' := by
  rw [line_print1Svc, line_print1Svc, if_neg h, if_neg h']
  simp

/-- In every run of the handlers, the line for a report names what it should
exactly if the request is not on a file, and the lines for two requests on files
by the same user at the same time differ exactly if the operations do. -/
theorem auditLog_iff {ι : Type} [DecidableEq ι] {conns : ι → Connection} {order : List ι}
    {s : HandlerSystem ι}
    (hrun : Run.run (HandlerSystem.step conns) (.init conns .init) order = some s) :
    (∀ i, ∀ r ∈ (s.handlers i).printed,
      LineNames r.1 r.2.1 r.2.2.1 ((s.handlers i).locals .print1File) (reportLine r) ↔
        ¬ NamesFile r.2.1 ((s.handlers i).locals .print1File)) ∧
      ∀ i j, ∀ r ∈ (s.handlers i).printed, ∀ r' ∈ (s.handlers j).printed,
        NamesFile r.2.1 ((s.handlers i).locals .print1File) →
        NamesFile r'.2.1 ((s.handlers j).locals .print1File) →
        r.1 = r'.1 → r.2.2.1 = r'.2.2.1 →
        (s.handlers i).locals .print1File ≠ (s.handlers j).locals .print1File →
        (reportLine r ≠ reportLine r' ↔ r.2.1 ≠ r'.2.1) := by
  constructor
  · intro i r hr
    obtain ⟨rfl, hfile⟩ := report_of_mem_printed hrun hr
    exact lineNames_print1Svc_iff hfile
  · intro i j r hr r' hr' hnames hnames' huser hdate _
    obtain ⟨rfl, -⟩ := report_of_mem_printed hrun hr
    obtain ⟨rfl, -⟩ := report_of_mem_printed hrun hr'
    simp only [Handler.report] at huser hdate
    rw [reportLine, reportLine]
    simp only [Handler.report]
    rw [huser, hdate]
    exact not_congr (line_print1Svc_inj hnames.2 hnames'.2)

/-- Two clients of the same name that publish a file at the same time. -/
def twoPublishers : Fin 2 → Connection := fun i =>
  .ofStream (encodeRequest .publish [[49], [97], if i = 0 then [102] else [103], [100]])
    (Outcomes.success ⟨10, 0, 0, 1⟩)

/-- The report for the file `file`. -/
def publishReport (file : Bytes) : Bytes × Bytes × Bytes × Bytes :=
  ([97], Operation.publish.name, [49], file)

set_option synthInstance.maxSize 512 in
/-- One of them is served after the other. -/
theorem twoPublishers_run :
    ∃ s, Run.run (HandlerSystem.step twoPublishers) (.init twoPublishers .init)
        (List.replicate 22 0 ++ List.replicate 22 1) = some s ∧
      (s.handlers 0).printed = [publishReport [102]] ∧
      (s.handlers 1).printed = [publishReport [103]] := by
  have hrun : (Run.run (HandlerSystem.step twoPublishers) (.init twoPublishers .init)
      (List.replicate 22 0 ++ List.replicate 22 1)).map (fun s =>
        [(s.handlers 0).printed, (s.handlers 1).printed]) =
      some [[publishReport [102]], [publishReport [103]]] := by decide +kernel
  obtain ⟨s, hs, heq⟩ := Option.map_eq_some_iff.mp hrun
  simp only [List.cons.injEq, and_true] at heq
  exact ⟨s, hs, heq⟩

theorem auditLog_twoPublishers :
    ∃ s, Run.run (HandlerSystem.step twoPublishers) (.init twoPublishers .init)
        (List.replicate 22 0 ++ List.replicate 22 1) = some s ∧
      (∀ i, ∀ r ∈ (s.handlers i).printed,
        LineNames r.1 r.2.1 r.2.2.1 ((s.handlers i).locals .print1File) (reportLine r) ↔
          ¬ NamesFile r.2.1 ((s.handlers i).locals .print1File)) ∧
      ∀ i j, ∀ r ∈ (s.handlers i).printed, ∀ r' ∈ (s.handlers j).printed,
        NamesFile r.2.1 ((s.handlers i).locals .print1File) →
        NamesFile r'.2.1 ((s.handlers j).locals .print1File) →
        r.1 = r'.1 → r.2.2.1 = r'.2.2.1 →
        (s.handlers i).locals .print1File ≠ (s.handlers j).locals .print1File →
        (reportLine r ≠ reportLine r' ↔ r.2.1 ≠ r'.2.1) := by
  obtain ⟨s, hrun, -⟩ := twoPublishers_run
  exact ⟨s, hrun, auditLog_iff hrun⟩

/-- The line for the first of them does not name the file, and the second one has
the same line. -/
theorem twoPublishers_sameLine :
    ∃ s, Run.run (HandlerSystem.step twoPublishers) (.init twoPublishers .init)
        (List.replicate 22 0 ++ List.replicate 22 1) = some s ∧
      ∃ r ∈ (s.handlers 0).printed, ∃ r' ∈ (s.handlers 1).printed,
        (s.handlers 0).locals .print1File ≠ (s.handlers 1).locals .print1File ∧
        ¬ LineNames r.1 r.2.1 r.2.2.1 ((s.handlers 0).locals .print1File) (reportLine r) ∧
        reportLine r = reportLine r' := by
  obtain ⟨s, hrun, hprinted, hprinted'⟩ := twoPublishers_run
  have hr : publishReport [102] ∈ (s.handlers 0).printed := by simp [hprinted]
  have hr' : publishReport [103] ∈ (s.handlers 1).printed := by simp [hprinted']
  have hfile : (s.handlers 0).locals .print1File = [102] :=
    (congrArg (fun r => r.2.2.2) (report_of_mem_printed hrun hr).1).symm
  have hfile' : (s.handlers 1).locals .print1File = [103] :=
    (congrArg (fun r => r.2.2.2) (report_of_mem_printed hrun hr').1).symm
  refine ⟨s, hrun, publishReport [102], hr, publishReport [103], hr', ?_, ?_, by decide⟩
  · rw [hfile, hfile']
    decide
  · rw [hfile]
    intro hline
    exact (lineNames_print1Svc_iff (by decide)).mp hline ⟨Or.inl rfl, by decide⟩

end PeerDirectory
