import PeerDirectory.Client.GetFile

/-!
# The listener thread and its peers

`listen_requests` serves one peer after another inside one `try` block. A peer
whose request is whole and ASCII, and that takes its answer, gets the answer that
its request and the file it names call for, and the next peer is accepted. A peer
that ends its stream before the NUL keeps the thread in `read_response` for ever,
and so does one that does not read its answer, in `sendall`. A byte that is not
ASCII ends the loop and closes the listening socket, and so does a peer that has
gone when its answer is sent.
-/

namespace PeerDirectory

namespace Client

/-! ## The loop -/

/-- A connection of another client: all it sends before the end of its stream, and
what `leer_archivo` finds while it is served. -/
structure PeerConnection where
  stream : Bytes
  files : Files
  /-- `open` or `read` of this name waits for ever, as on a FIFO or a device. -/
  endless : Str → Bool
  /-- `sendall` raises when the peer has gone, and waits while it does not read. -/
  sendall : Outcome Unit

/-- The message has gone to the peer. -/
def PeerConnection.send (conn : PeerConnection) (message : Bytes) : Outcome Bytes :=
  conn.sendall.bind fun _ => .returns message

/-- The loop body of `listen_requests`. -/
def PeerConnection.serve (conn : PeerConnection) : Outcome Bytes :=
  (readResponse conn.stream).bind fun op =>
    if op.1 = getFileOp then
      (readResponse op.2).bind fun fileName =>
        if conn.endless fileName.1 then
          .hangs
        else
          conn.send (fileMessage (leerArchivo conn.files fileName.1))
    else
      conn.send (cstring [50])

/-- Where the listener thread stands. -/
inductive ListenerEnd where
  /-- In `accept`. -/
  | accepting
  /-- In the loop body, for ever. -/
  | stuck
  /-- Out of the loop by an exception, with the listening socket closed. -/
  | closed
deriving DecidableEq

/-- `listen_requests` on the connections it is offered while the stop flag is not
set: the messages it sends, in order, and where it stands then. -/
def listenRequests : List PeerConnection → List Bytes × ListenerEnd
  | [] => ([], .accepting)
  | conn :: conns =>
      match conn.serve with
      | .returns message => (message :: (listenRequests conns).1, (listenRequests conns).2)
      | .raises => ([], .closed)
      | .hangs => ([], .stuck)

/-- Without such names, and to a peer that takes its answer, the loop body is the one
that was described before. -/
theorem PeerConnection.serve_eq_serveRequest {conn : PeerConnection}
    (h : ∀ fileName, conn.endless fileName = false) (hsend : conn.sendall = .returns ()) :
    conn.serve = serveRequest conn.files conn.stream := by
  simp only [serve, serveRequest, send, h, hsend, Bool.false_eq_true, if_false,
    Outcome.bind_returns]

/-! ## Requests and answers -/

/-- The peer asks for this file. -/
structure PeerConnection.Asks (conn : PeerConnection) (fileName : Str) : Prop where
  nul : Char.ofNat 0 ∉ fileName
  ascii : ∀ c ∈ fileName, c.toNat < 128
  stream : getFileMessage fileName <+: conn.stream

/-- The peer asks for another operation. -/
structure PeerConnection.AsksOther (conn : PeerConnection) (op : Str) : Prop where
  nul : Char.ofNat 0 ∉ op
  ascii : ∀ c ∈ op, c.toNat < 128
  other : op ≠ getFileOp
  stream : cstring (Text.encode op) <+: conn.stream

/-- The request is whole, the file it names can be read to its end, and the peer takes
its answer. -/
def PeerConnection.Complete (conn : PeerConnection) : Prop :=
  conn.sendall = .returns () ∧
    ((∃ fileName, conn.Asks fileName ∧ conn.endless fileName = false) ∨ ∃ op, conn.AsksOther op)

/-- The answer to a request for a file. -/
def Archivo.answer : Archivo → Bytes
  | .notFound => cstring [49]
  | .unreadable => cstring [50]
  | .text content => cstring [48] ++ Text.encode (Text.universalNewlines content) ++ [0]

/-- The message is the answer to the request of the peer, whatever the other peers
do. -/
def PeerConnection.Answers (conn : PeerConnection) (message : Bytes) : Prop :=
  (∀ fileName, conn.Asks fileName → message = (conn.files fileName).answer) ∧
    ((∀ fileName, ¬ conn.Asks fileName) → message = cstring [50])

theorem fileMessage_leerArchivo {files : Files} {fileName : Str}
    (hnul : Char.ofNat 0 ∉ fileName) :
    fileMessage (leerArchivo files fileName) = (files fileName).answer := by
  rw [leerArchivo, if_neg hnul]
  cases files fileName <;> rfl

/-! ## One connection -/

namespace PeerConnection

variable {conn : PeerConnection} {fileName op : Str} {message : Bytes}

theorem Asks.readResponse (h : conn.Asks fileName) :
    ∃ socket rest, Client.readResponse conn.stream = .returns (getFileOp, socket) ∧
      Client.readResponse socket = .returns (fileName, rest) := by
  obtain ⟨rest, hstream⟩ := h.stream
  have hmessage : getFileMessage fileName =
      cstring (Text.encode getFileOp) ++ cstring (Text.encode fileName) := by
    simp [getFileMessage, encodeMessage, Delimited.frame, cstring]
  refine ⟨cstring (Text.encode fileName) ++ rest, rest, ?_, ?_⟩
  · rw [readResponse_eq_returns_iff, ← hstream, hmessage, List.append_assoc]
    exact ⟨by decide, by decide, rfl⟩
  · exact readResponse_eq_returns_iff.mpr ⟨h.nul, Text.isAscii_encode_iff.mpr h.ascii, rfl⟩

theorem AsksOther.readResponse (h : conn.AsksOther op) :
    ∃ socket, Client.readResponse conn.stream = .returns (op, socket) := by
  obtain ⟨rest, hstream⟩ := h.stream
  exact ⟨rest, readResponse_eq_returns_iff.mpr
    ⟨h.nul, Text.isAscii_encode_iff.mpr h.ascii, hstream.symm⟩⟩

/-- What the two calls of `read_response` give is a request for that file. -/
theorem asks_of_readResponse {socket rest : Bytes}
    (hop : Client.readResponse conn.stream = .returns (getFileOp, socket))
    (hname : Client.readResponse socket = .returns (fileName, rest)) : conn.Asks fileName := by
  obtain ⟨-, -, hstream⟩ := readResponse_eq_returns_iff.mp hop
  obtain ⟨hnul, hascii, hsocket⟩ := readResponse_eq_returns_iff.mp hname
  refine ⟨hnul, Text.isAscii_encode_iff.mp hascii, rest, ?_⟩
  rw [hstream, hsocket]
  simp [getFileMessage, encodeMessage, Delimited.frame, cstring]

/-- A peer that asks for a file asks for no other one, and for nothing else. -/
theorem Asks.unique {fileName' : Str} (h : conn.Asks fileName) (h' : conn.Asks fileName') :
    fileName = fileName' := by
  obtain ⟨socket, rest, hop, hname⟩ := h.readResponse
  obtain ⟨socket', rest', hop', hname'⟩ := h'.readResponse
  obtain ⟨-, rfl⟩ := Prod.mk.inj (Outcome.returns.inj (hop.symm.trans hop'))
  exact (Prod.mk.inj (Outcome.returns.inj (hname.symm.trans hname'))).1

theorem AsksOther.not_asks (h : conn.AsksOther op) (fileName : Str) : ¬ conn.Asks fileName := by
  intro h'
  obtain ⟨socket, hop⟩ := h.readResponse
  obtain ⟨socket', rest, hop', -⟩ := h'.readResponse
  exact h.other (Prod.mk.inj (Outcome.returns.inj (hop.symm.trans hop'))).1

/-- A whole request is answered. -/
theorem serve_of_complete (h : conn.Complete) :
    ∃ message, conn.serve = .returns message ∧ conn.Answers message := by
  obtain ⟨hsend, ⟨fileName, hasks, hend⟩ | ⟨op, hother⟩⟩ := h
  · obtain ⟨socket, rest, hop, hname⟩ := hasks.readResponse
    refine ⟨(conn.files fileName).answer, ?_, fun fileName' hasks' => ?_, fun hnot => ?_⟩
    · rw [serve, hop, Outcome.bind_returns, if_pos rfl, hname, Outcome.bind_returns, hend,
        if_neg (by decide), fileMessage_leerArchivo hasks.nul, send, hsend, Outcome.bind_returns]
    · rw [hasks.unique hasks']
    · exact absurd hasks (hnot fileName)
  · obtain ⟨socket, hop⟩ := hother.readResponse
    refine ⟨cstring [50], ?_, fun fileName hasks => ?_, fun _ => rfl⟩
    · rw [serve, hop, Outcome.bind_returns, if_neg hother.other, send, hsend, Outcome.bind_returns]
    · exact absurd hasks (hother.not_asks fileName)

theorem sendall_of_send {answer : Bytes} (h : conn.send answer = .returns message) :
    conn.sendall = .returns () := by
  unfold send at h
  cases hsend : conn.sendall with
  | returns _ => rfl
  | raises => simp [hsend] at h
  | hangs => simp [hsend] at h

/-- Only a whole request is answered, and the answer is taken. -/
theorem complete_of_serve (h : conn.serve = .returns message) : conn.Complete := by
  unfold serve at h
  cases hop : Client.readResponse conn.stream with
  | raises => simp [hop] at h
  | hangs => simp [hop] at h
  | returns op =>
      rw [hop, Outcome.bind_returns] at h
      split at h
      · next heq =>
          cases hname : Client.readResponse op.2 with
          | raises => simp [hname] at h
          | hangs => simp [hname] at h
          | returns fileName =>
              rw [hname, Outcome.bind_returns] at h
              split at h
              · cases h
              · next hend =>
                  have hasks : conn.Asks fileName.1 :=
                    asks_of_readResponse (by rw [hop, ← heq]) hname
                  exact ⟨sendall_of_send h, Or.inl ⟨fileName.1, hasks, by simpa using hend⟩⟩
      · next hne =>
          obtain ⟨hnul, hascii, hstream⟩ := readResponse_eq_returns_iff.mp hop
          exact ⟨sendall_of_send h, Or.inr
            ⟨op.1, hnul, Text.isAscii_encode_iff.mp hascii, hne, op.2, hstream.symm⟩⟩

end PeerConnection

/-! ## Every sequence of connections -/

/-- All peers are answered and the next one is accepted. -/
def Survives (conns : List PeerConnection) : Prop :=
  (listenRequests conns).2 = .accepting ∧
    List.Forall₂ PeerConnection.Answers conns (listenRequests conns).1

theorem survives_cons_iff {conn : PeerConnection} {conns : List PeerConnection} :
    Survives (conn :: conns) ↔ conn.Complete ∧ Survives conns := by
  constructor
  · rintro ⟨hend, hall⟩
    cases hserve : conn.serve with
    | returns message =>
        simp only [listenRequests, hserve, List.forall₂_cons] at hend hall
        exact ⟨PeerConnection.complete_of_serve hserve, hend, hall.2⟩
    | raises => simp [listenRequests, hserve] at hend
    | hangs => simp [listenRequests, hserve] at hend
  · rintro ⟨hcomplete, hend, hall⟩
    obtain ⟨message, hserve, hanswers⟩ := PeerConnection.serve_of_complete hcomplete
    simp only [Survives, listenRequests, hserve, List.forall₂_cons]
    exact ⟨hend, hanswers, hall⟩

/-- At every point of every sequence of connections all peers so far have their
own answer and the listener accepts the next one, exactly if all requests are
whole and all answers are taken. -/
theorem survives_iff_complete (conns : List PeerConnection) :
    (∀ served, served <+: conns → Survives served) ↔ ∀ conn ∈ conns, conn.Complete := by
  have hsurvives : ∀ served, Survives served ↔ ∀ conn ∈ served, conn.Complete := by
    intro served
    induction served with
    | nil => exact iff_of_true ⟨rfl, .nil⟩ (by simp)
    | cons conn served ih => rw [survives_cons_iff, ih, List.forall_mem_cons]
  constructor
  · intro h
    exact (hsurvives conns).mp (h conns List.prefix_rfl)
  · intro h served hserved
    exact (hsurvives served).mpr fun conn hconn => h conn (hserved.subset hconn)

/-- A peer that sends `GET` without a NUL keeps the listener for ever, and one that
sends a byte that is not ASCII, or has gone when it is answered, closes it: a later
request for a file that is there is not answered. -/
theorem unfinished_request_stops_listener :
    let files : Files := fun fileName => if fileName = ['f'] then .text ['x'] else .notFound
    let unfinished : PeerConnection := ⟨[71, 69, 84], files, fun _ => false, .returns ()⟩
    let notAscii : PeerConnection := ⟨[255], files, fun _ => false, .returns ()⟩
    let gone : PeerConnection := ⟨getFileMessage ['f'], files, fun _ => false, .raises⟩
    let request : PeerConnection := ⟨getFileMessage ['f'], files, fun _ => false, .returns ()⟩
    listenRequests [request] = ([[48, 0, 120, 0]], .accepting) ∧
      listenRequests [unfinished, request] = ([], .stuck) ∧
      listenRequests [notAscii, request] = ([], .closed) ∧
      listenRequests [gone, request] = ([], .closed) ∧
      ¬ Survives [unfinished] ∧ ¬ Survives [notAscii] ∧ ¬ Survives [gone] := by
  intro files unfinished notAscii gone request
  refine ⟨by decide +kernel, by decide +kernel, by decide +kernel, by decide +kernel, ?_, ?_, ?_⟩
  · exact fun h => absurd h.1 (by decide +kernel)
  · exact fun h => absurd h.1 (by decide +kernel)
  · exact fun h => absurd h.1 (by decide +kernel)

end Client

end PeerDirectory
