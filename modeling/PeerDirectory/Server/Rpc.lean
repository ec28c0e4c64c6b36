import PeerDirectory.Lib.Xdr
import PeerDirectory.Server.AuditLog

/-!
# The remote procedure

`print_1` sends the four strings of a report as one request, which `list_service_1`
takes apart again, hands to `print_1_svc`, and answers with the result. The requests
are datagrams: they may arrive late, in another order, several times or never. The
routines of the library that write and read strings and numbers are parameters.

The handle `clnt` does not occur here: each call of `rpc_llamada` is one step, so that
no two of them overlap, and `clnt_create` succeeds.
-/

namespace PeerDirectory

/-! ## The request -/

/-- `print_1_argument` -/
structure Print1Argument where
  username : Xdr.CString
  operation : Xdr.CString
  date : Xdr.CString
  file : Xdr.CString
deriving DecidableEq

/-- The members in their order. -/
def Print1Argument.members :
    Xdr.CString × Xdr.CString × Xdr.CString × Xdr.CString ≃ Print1Argument where
  toFun := fun m => ⟨m.1, m.2.1, m.2.2.1, m.2.2.2⟩
  invFun := fun a => (a.username, a.operation, a.date, a.file)
  left_inv := fun _ => rfl
  right_inv := fun _ => rfl

section Request

variable (xdr : Xdr.Primitives)

/-- `xdr_print_1_argument` -/
def xdrPrint1Argument : Xdr.Filter Print1Argument :=
  Xdr.Filter.equiv
    ((xdr.string 256).andThen ((xdr.string 256).andThen
      ((xdr.string 256).andThen (xdr.string 256)))) Print1Argument.members

/-- Every string of the argument is at most 256 bytes long. -/
def Print1Argument.Fits (a : Print1Argument) : Prop :=
  a.username.bytes.length ≤ 256 ∧ a.operation.bytes.length ≤ 256 ∧ a.date.bytes.length ≤ 256 ∧
    a.file.bytes.length ≤ 256

theorem isSome_encode_print1Argument (a : Print1Argument) :
    ((xdrPrint1Argument xdr).encode a).isSome ↔ a.Fits := by
  have hmembers : (xdrPrint1Argument xdr).encode a =
      ((xdr.string 256).andThen ((xdr.string 256).andThen
        ((xdr.string 256).andThen (xdr.string 256)))).encode
          (a.username, a.operation, a.date, a.file) := rfl
  rw [hmembers]
  simp only [Xdr.Filter.isSome_encode_andThen, xdr.isSome_string]
  exact Iff.rfl

theorem within_print1Argument : (xdrPrint1Argument xdr).Within 1040 := by
  have hstring : (xdr.string 256).Within (4 + 4 * 64) := xdr.within_string 256 64 (le_refl _)
  exact (hstring.andThen (hstring.andThen (hstring.andThen hstring))).equiv _

/-- Exactly the arguments with strings of at most 256 bytes are encoded, in whole
blocks and at most 1040 bytes. They are decoded to the same strings whatever follows,
nothing is decoded from a part of them, and all that is decoded is such an
argument. -/
theorem xdrPrint1Argument_round_trip (a : Print1Argument) :
    (a.Fits ↔ ∃ request, (xdrPrint1Argument xdr).encode a = some request) ∧
      (∀ request, (xdrPrint1Argument xdr).encode a = some request →
        4 ∣ request.length ∧ request.length ≤ 1040 ∧
        (∀ rest, (xdrPrint1Argument xdr).decode (request ++ rest) = some (a, rest)) ∧
        ∀ part, part <+: request → part ≠ request → (xdrPrint1Argument xdr).decode part = none) ∧
      ∀ bytes rest, (xdrPrint1Argument xdr).decode bytes = some (a, rest) → a.Fits := by
  refine ⟨?_, fun request h => ?_, fun bytes rest h => ?_⟩
  · rw [← isSome_encode_print1Argument xdr, Option.isSome_iff_exists]
  · obtain ⟨hdvd, hle⟩ := within_print1Argument xdr a request h
    exact ⟨hdvd, hle, fun rest => (xdrPrint1Argument xdr).decode_encode a request rest h,
      fun part hpart hne => Xdr.Filter.decode_of_prefix h hpart hne⟩
  · exact (isSome_encode_print1Argument xdr a).mp
      ((xdrPrint1Argument xdr).isSome_encode bytes a rest h)

/-- The argument of a report, as the standard has it: five blocks and the four
lengths. -/
theorem xdrPrint1Argument_round_trip_publish :
    let a : Print1Argument := ⟨.ofBytes [97], .ofBytes [80, 85, 66, 76, 73, 83, 72],
      .ofBytes [49], .ofBytes [102]⟩
    ∃ request, (xdrPrint1Argument .standard).encode a = some request ∧ request.length = 36 ∧
      (xdrPrint1Argument .standard).decode (request ++ [1, 2]) = some (a, [1, 2]) := by
  intro a
  obtain ⟨request, hrequest⟩ :=
    (xdrPrint1Argument_round_trip .standard a).1.mp ⟨by decide, by decide, by decide, by decide⟩
  have hlength : ((xdrPrint1Argument .standard).encode a).map List.length = some 36 := by
    decide +kernel
  rw [hrequest, Option.map_some, Option.some.injEq] at hlength
  exact ⟨request, hrequest, hlength,
    ((xdrPrint1Argument_round_trip .standard a).2.1 request hrequest).2.2.1 [1, 2]⟩

/-! ## The service -/

/-- The answer of the service: what `svc_sendreply` sends, or the error of
`svcerr_noproc`, `svcerr_decode` or `svcerr_systemerr`. -/
inductive SvcReply where
  | success (results : Bytes)
  | noproc
  | decode
  | systemerr
deriving DecidableEq

/-- The number of the procedure `print`. -/
def printProc : UInt32 := 0

/-- `list_service_1`: what it prints, and its answer. -/
def listService1 (rqProc : UInt32) (request : Bytes) : Bytes × SvcReply :=
  if rqProc = printProc then
    match (xdrPrint1Argument xdr).decode request with
    | some (argument, _) =>
        let printed := print1Svc argument.username.bytes argument.operation.bytes
          argument.date.bytes argument.file.bytes
        (printed.line,
          match xdr.int.encode (.ofInt printed.result) with
          | some results => .success results
          | none => .systemerr)
    | none => ([], .decode)
  else
    ([], .noproc)

/-! ## The client -/

/-- What a handler passes to `print_1`. -/
def Print1Argument.ofReport (report : Bytes × Bytes × Bytes × Bytes) : Print1Argument where
  username := .ofBytes report.1
  operation := .ofBytes report.2.1
  date := .ofBytes report.2.2.1
  file := .ofBytes report.2.2.2

/-- The request for a report, if it can be encoded. -/
def print1Request (report : Bytes × Bytes × Bytes × Bytes) : Option Bytes :=
  (xdrPrint1Argument xdr).encode (.ofReport report)

/-- The values of `enum clnt_stat` that a call can have. -/
inductive ClntStat where
  | success
  | cantencodeargs
  | cantdecoderes
  | cantsend
  | cantrecv
  | timedout
  | procunavail
  | cantdecodeargs
  | systemerror
deriving DecidableEq

/-- `print_1`: the status, and the result behind a success. The transport brings the
answer to a request, or gives up with a status of its own. -/
def print1 (transport : Bytes → Except ClntStat SvcReply)
    (report : Bytes × Bytes × Bytes × Bytes) : ClntStat × Option Int32 :=
  match print1Request xdr report with
  | none => (.cantencodeargs, none)
  | some request =>
      match transport request with
      | .error status => (status, none)
      | .ok .noproc => (.procunavail, none)
      | .ok .decode => (.cantdecodeargs, none)
      | .ok .systemerr => (.systemerror, none)
      | .ok (.success results) =>
          match xdr.int.decode results with
          | none => (.cantdecoderes, none)
          | some (result, _) => (.success, some result)

/-- The strings of the report are those that a handler can have. -/
def FitsReport (report : Bytes × Bytes × Bytes × Bytes) : Prop :=
  FitsField report.1 ∧ FitsField report.2.1 ∧ FitsField report.2.2.1 ∧ FitsField report.2.2.2

theorem bytes_ofBytes {s : Bytes} (h : FitsField s) : (Xdr.CString.ofBytes s).bytes = s :=
  congrArg Xdr.CString.bytes (Xdr.CString.ofBytes_bytes ⟨s, h.1⟩)

/-- What the service prints for a report, and passes back. -/
def printReport (report : Bytes × Bytes × Bytes × Bytes) : Printed :=
  print1Svc report.1 report.2.1 report.2.2.1 report.2.2.2

/-- The request carries the report: it is what `print_1` sends, the service prints the
line of the report for it, and `print_1` gets the result of this. -/
structure Carries (request : Bytes) (report : Bytes × Bytes × Bytes × Bytes) : Prop where
  sent : print1Request xdr report = some request
  served : (listService1 xdr printProc request).1 = reportLine report
  answered : ∀ transport : Bytes → Except ClntStat SvcReply,
    transport request = .ok (listService1 xdr printProc request).2 →
      print1 xdr transport report = (.success, some (.ofInt (printReport report).result))

/-- Every report of strings that fit is carried. -/
theorem exists_carries {report : Bytes × Bytes × Bytes × Bytes} (h : FitsReport report) :
    ∃ request, Carries xdr request report := by
  obtain ⟨husername, hoperation, hdate, hfile⟩ := h
  have hfits : (Print1Argument.ofReport report).Fits := by
    have hle : ∀ {s : Bytes}, FitsField s → (Xdr.CString.ofBytes s).bytes.length ≤ 256 := by
      intro s hs
      rw [bytes_ofBytes hs]
      exact hs.2.le
    exact ⟨hle husername, hle hoperation, hle hdate, hle hfile⟩
  obtain ⟨request, hrequest⟩ :=
    Option.isSome_iff_exists.mp ((isSome_encode_print1Argument xdr _).mpr hfits)
  obtain ⟨results, hresults⟩ :=
    Option.isSome_iff_exists.mp (xdr.isSome_int (.ofInt (printReport report).result))
  have hdecode : (xdrPrint1Argument xdr).decode request = some (.ofReport report, []) :=
    Xdr.Filter.decode_of_encode hrequest
  have hserved : listService1 xdr printProc request = (reportLine report, .success results) := by
    have hresults' : xdr.int.encode (.ofInt (print1Svc report.1 report.2.1 report.2.2.1
        report.2.2.2).result) = some results := hresults
    rw [listService1, if_pos rfl, hdecode]
    simp only [Print1Argument.ofReport, bytes_ofBytes husername, bytes_ofBytes hoperation,
      bytes_ofBytes hdate, bytes_ofBytes hfile, hresults']
    rfl
  refine ⟨request, hrequest, by rw [hserved], fun transport htransport => ?_⟩
  have hrequest' : print1Request xdr report = some request := hrequest
  rw [hserved] at htransport
  simp only [print1, hrequest', htransport, Xdr.Filter.decode_of_encode hresults]

end Request

/-! ## The handlers and the service -/

variable {ι : Type} [DecidableEq ι]

/-- The report that the next step of handler `i` makes. -/
def HandlerSystem.reports (s : HandlerSystem ι) (i : ι) : List (Bytes × Bytes × Bytes × Bytes) :=
  match s.code i with
  | .statements (.rpcLlamada file :: _) =>
      [((s.handlers i).locals .print1Username, (s.handlers i).locals .print1Operation,
        (s.handlers i).locals .print1Date, if file then (s.handlers i).locals .print1File else [])]
  | _ => []

/-- A step adds the report it makes to those of its handler. -/
theorem HandlerSystem.printed_step {conns : ι → Connection} {s t : HandlerSystem ι} {i : ι}
    (hstep : s.step conns i = some t) (j : ι) :
    (t.handlers j).printed =
      (s.handlers j).printed ++ if j = i then s.reports i else [] := by
  obtain ⟨⟨g, h, code⟩, hcode, rfl⟩ := Option.map_eq_some_iff.mp hstep
  by_cases hj : j = i
  · subst hj
    simp only [Function.update_self, if_true]
    cases hs : s.code j with
    | entry =>
        rw [hs, Code.step] at hcode
        split at hcode <;> cases hcode <;> simp [HandlerSystem.reports, hs]
    | compare ops =>
        cases ops <;> rw [hs] at hcode <;> cases hcode <;> simp [HandlerSystem.reports, hs]
    | statements rest =>
        cases rest with
        | nil =>
            rw [hs] at hcode
            cases hcode
        | cons statement rest =>
            rw [hs] at hcode
            obtain ⟨⟨g₁, h₁, flow⟩, hexec, heq⟩ := Option.map_eq_some_iff.mp hcode
            cases heq
            cases statement with
            | rpcLlamada file =>
                cases hexec
                simp only [HandlerSystem.reports, hs]
            | call op =>
                obtain ⟨r, -, hexec⟩ := Option.map_eq_some_iff.mp hexec
                cases hexec
                simp [HandlerSystem.reports, hs]
            | sendUsers =>
                obtain ⟨-, sent, rfl⟩ := Statement.exec_send (Or.inl rfl) hexec
                simp [HandlerSystem.reports, hs]
            | sendContent =>
                obtain ⟨-, sent, rfl⟩ := Statement.exec_send (Or.inr rfl) hexec
                simp [HandlerSystem.reports, hs]
            | _ =>
                cases hexec
                simp [HandlerSystem.reports, hs]
  · simp [hj]

omit [DecidableEq ι] in
/-- The strings of a report are those of its handler, or empty. -/
theorem HandlerSystem.fitsReport_of_mem {s : HandlerSystem ι} {i : ι}
    (hfits : (s.handlers i).Fits) {report : Bytes × Bytes × Bytes × Bytes}
    (hreport : report ∈ s.reports i) : FitsReport report := by
  unfold HandlerSystem.reports at hreport
  split at hreport
  · next file rest hcode =>
      rw [List.mem_singleton.mp hreport]
      refine ⟨hfits _, hfits _, hfits _, ?_⟩
      cases file with
      | true => exact hfits _
      | false => exact ⟨List.not_mem_nil, Nat.zero_lt_succ _⟩
  · exact absurd hreport List.not_mem_nil

/-- The handlers, the requests they have sent, and the lines the service has
printed. -/
structure ReportSystem (ι : Type) where
  handlers : HandlerSystem ι
  requests : List Bytes
  lines : List Bytes

/-- A step of a handler, or the arrival of a request, which may not be its first. -/
inductive ReportEvent (ι : Type) where
  | handler (i : ι)
  | arrives (request : Bytes)

namespace ReportSystem

variable (xdr : Xdr.Primitives)

def init (conns : ι → Connection) : ReportSystem ι where
  handlers := .init conns .init
  requests := []
  lines := []

/-- A handler does not look at the result of `print_1`, and may go on before its
request has arrived: `clnt_call` gives up after a time. -/
def step (conns : ι → Connection) (s : ReportSystem ι) : ReportEvent ι → Option (ReportSystem ι)
  | .handler i => (s.handlers.step conns i).map fun t =>
      { s with
        handlers := t
        requests := s.requests ++ (s.handlers.reports i).filterMap (print1Request xdr) }
  | .arrives request =>
      if request ∈ s.requests then
        some { s with lines := s.lines ++ [(listService1 xdr printProc request).1] }
      else
        none

/-- The report is one that some handler has made. -/
def Made (s : ReportSystem ι) (report : Bytes × Bytes × Bytes × Bytes) : Prop :=
  ∃ i, report ∈ (s.handlers.handlers i).printed

/-- The requests are those of the reports, and nothing else is printed. -/
structure Inv (s : ReportSystem ι) : Prop where
  valid : s.handlers.shared.Valid
  fits : ∀ i, (s.handlers.handlers i).Fits
  sent : ∀ report, s.Made report → ∃ request ∈ s.requests, Carries xdr request report
  made : ∀ request ∈ s.requests, ∃ report, s.Made report ∧ Carries xdr request report
  lines : ∀ line ∈ s.lines, ∃ report, s.Made report ∧ line = reportLine report

omit [DecidableEq ι] in
theorem inv_init (conns : ι → Connection) : (init conns).Inv xdr where
  valid := Shared.valid_init
  fits := fun _ => Handler.fits_start _
  sent := fun _ ⟨_, hreport⟩ => absurd hreport List.not_mem_nil
  made := fun _ hrequest => absurd hrequest List.not_mem_nil
  lines := fun _ hline => absurd hline List.not_mem_nil

variable {xdr} {conns : ι → Connection} {s t : ReportSystem ι}

/-- What a step of a handler adds to the reports. -/
theorem made_handler {i : ι} (hstep : s.step xdr conns (.handler i) = some t)
    (report : Bytes × Bytes × Bytes × Bytes) :
    t.Made report ↔ s.Made report ∨ report ∈ s.handlers.reports i := by
  obtain ⟨handlers, hhandlers, rfl⟩ := Option.map_eq_some_iff.mp hstep
  have hprinted := HandlerSystem.printed_step hhandlers
  simp only [Made, hprinted, List.mem_append]
  constructor
  · rintro ⟨j, hj | hj⟩
    · exact Or.inl ⟨j, hj⟩
    · split at hj
      · exact Or.inr hj
      · exact absurd hj List.not_mem_nil
  · rintro (⟨j, hj⟩ | hreport)
    · exact ⟨j, Or.inl hj⟩
    · exact ⟨i, Or.inr (by rwa [if_pos rfl])⟩

theorem Inv.handler (h : s.Inv xdr) {i : ι} (hstep : s.step xdr conns (.handler i) = some t) :
    t.Inv xdr := by
  have hmade := made_handler hstep
  obtain ⟨handlers, hhandlers, rfl⟩ := Option.map_eq_some_iff.mp hstep
  have hold : ∀ report, s.Made report →
      Made { s with
        handlers := handlers
        requests := s.requests ++ (s.handlers.reports i).filterMap (print1Request xdr) } report :=
    fun report hreport => (hmade report).mpr (Or.inl hreport)
  obtain ⟨⟨g, handler, code⟩, hcode, rfl⟩ := Option.map_eq_some_iff.mp hhandlers
  obtain ⟨hvalid, hfits⟩ := keeps_valid.codeStep h.valid (h.fits i) hcode
  refine ⟨hvalid, fun j => ?_, fun report hreport => ?_, fun request hrequest => ?_,
    fun line hline => ?_⟩
  · by_cases hj : j = i
    · subst hj
      simpa using hfits
    · simpa [Function.update_of_ne hj] using h.fits j
  · rcases (hmade report).mp hreport with hreport | hreport
    · obtain ⟨request, hrequest, hcarries⟩ := h.sent report hreport
      exact ⟨request, List.mem_append_left _ hrequest, hcarries⟩
    · obtain ⟨request, hcarries⟩ :=
        exists_carries xdr (HandlerSystem.fitsReport_of_mem (h.fits i) hreport)
      refine ⟨request, List.mem_append_right _ ?_, hcarries⟩
      exact List.mem_filterMap.mpr ⟨report, hreport, hcarries.sent⟩
  · rcases List.mem_append.mp hrequest with hrequest | hrequest
    · obtain ⟨report, hreport, hcarries⟩ := h.made request hrequest
      exact ⟨report, hold report hreport, hcarries⟩
    · obtain ⟨report, hreport, hsent⟩ := List.mem_filterMap.mp hrequest
      obtain ⟨request', hcarries⟩ :=
        exists_carries xdr (HandlerSystem.fitsReport_of_mem (h.fits i) hreport)
      obtain rfl : request' = request := Option.some.inj (hcarries.sent.symm.trans hsent)
      exact ⟨report, (hmade report).mpr (Or.inr hreport), hcarries⟩
  · obtain ⟨report, hreport, hline⟩ := h.lines line hline
    exact ⟨report, hold report hreport, hline⟩

theorem Inv.arrives (h : s.Inv xdr) {request : Bytes}
    (hstep : s.step xdr conns (.arrives request) = some t) : t.Inv xdr := by
  rw [step] at hstep
  split at hstep
  · next hrequest =>
      cases hstep
      refine ⟨h.valid, h.fits, h.sent, h.made, fun line hline => ?_⟩
      rcases List.mem_append.mp hline with hline | hline
      · exact h.lines line hline
      · obtain ⟨report, hreport, hcarries⟩ := h.made request hrequest
        exact ⟨report, hreport, (List.mem_singleton.mp hline).trans hcarries.served⟩
  · cases hstep

end ReportSystem

end PeerDirectory
