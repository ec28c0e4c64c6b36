import PeerDirectory.Client.Response
import PeerDirectory.Client.Requests

/-!
# GET_FILE

`getfile` asks the server for the address of a user, connects to the listener
thread of its client, and saves the text it is sent. Both ends open the file in
text mode, the text is ended by a NUL, and it is decoded byte by byte.
-/

namespace PeerDirectory

namespace Client

/-! ## The listener thread -/

/-- What `open(file_name, "r")` and `read` find under a name: nothing, something
that cannot be read, or the text of a UTF-8 file. -/
inductive Archivo where
  | notFound
  | unreadable
  | text (content : Str)
deriving DecidableEq

/-- The files of the working directory of a client. -/
abbrev Files := Str → Archivo

/-- A file that `open` and `read` can read, with its text. No file has a NUL in
its name. -/
def Files.Readable (files : Files) (fileName content : Str) : Prop :=
  Char.ofNat 0 ∉ fileName ∧ files fileName = .text content

/-- `leer_archivo`: the text of the file, or an error code. -/
def leerArchivo (files : Files) (fileName : Str) : Except ℕ Str :=
  if Char.ofNat 0 ∈ fileName then
    .error 2
  else
    match files fileName with
    | .notFound => .error 1
    | .unreadable => .error 2
    | .text content => .ok (Text.universalNewlines content)

/-- The message of `listen_requests` for what `leer_archivo` returns. -/
def fileMessage : Except ℕ Str → Bytes
  | .error 1 => cstring [49]
  | .error _ => cstring [50]
  | .ok fileContent => cstring [48] ++ Text.encode fileContent ++ [0]

def getFileOp : Str := ['G', 'E', 'T', '_', 'F', 'I', 'L', 'E']

/-- The loop body of `listen_requests`: the message it sends to what it is
sent. -/
def serveRequest (files : Files) (socket : Bytes) : Outcome Bytes :=
  (readResponse socket).bind fun op =>
    if op.1 = getFileOp then
      (readResponse op.2).bind fun fileName =>
        .returns (fileMessage (leerArchivo files fileName.1))
    else
      .returns (cstring [50])

/-! ## The method -/

/-- The outside of `getfile`: that of the other methods, the clients behind the
addresses, and the local files. -/
structure FileEnvironment (σ : Type) extends Environment σ where
  /-- `connect_socket(port, server)` reaches the listener thread of a client with
  these files. -/
  connectPeer : Str → Int → Option Files
  /-- A connection that the listener thread drops is reset, and not closed. -/
  reset : Bool
  /-- The local file can be opened and written. -/
  writable : Str → Bool

/-- The loop of `get_data_by_user`. -/
def findUser (maxStrDigits : StrDigits) (user : Str) :
    ℕ → Bytes → Outcome (Option (Str × Int))
  | 0, _ => .returns none
  | turns + 1, socket =>
      (readResponse socket).bind fun username =>
        (readResponse username.2).bind fun ip =>
          (readResponse ip.2).bind fun port =>
            if username.1 = user then
              (int maxStrDigits port.1).bind fun number => .returns (some (ip.1, number))
            else
              findUser maxStrDigits user turns port.2

/-- `get_data_by_user`; `none` is its 2. -/
def getDataByUser (maxStrDigits : StrDigits) (socket : Bytes) (user : Str) :
    Outcome (Option (Str × Int)) :=
  (readResponse socket).bind fun number =>
    (int maxStrDigits number.1).bind fun numberOfUsers =>
      findUser maxStrDigits user numberOfUsers.toNat number.2

/-- `save_content`: the text the file then has, and the code. Text mode writes a
newline as it is. -/
def saveContent (writable : Str → Bool) (localFileName contenido : Str) : Option Str × ℕ :=
  if writable localFileName then (some contenido, 0) else (none, 1)

section

variable {σ : Type}

/-- The first half of the `try` block: the address of the user. -/
def findPeer (env : Environment σ) (user : Str) (st : ClientState) (peer : σ) :
    Outcome (Option (Str × Int)) × σ :=
  let r := send env (fun time => st.user.map fun u => listUsersMessage time u) peer
  (r.1.bind fun response =>
    if response.1 = ['0'] then getDataByUser env.maxStrDigits response.2 user
    else .returns none, r.2)

/-- The message to the other client. -/
def getFileMessage (remoteFileName : Str) : Bytes :=
  encodeMessage [getFileOp, remoteFileName]

/-- What `read_response(socketC)` reads first, of the message of the listener
thread or of a connection that it drops. -/
def askPeer (env : FileEnvironment σ) (files : Files) (remoteFileName : Str) :
    Outcome (Str × Bytes) :=
  match serveRequest files (getFileMessage remoteFileName) with
  | .returns message => readResponse message
  | .raises => if env.reset then .raises else readResponse []
  | .hangs => .hangs

/-- The second half of the `try` block: the code, and the text saved to the local
file. -/
def copyFile (env : FileEnvironment σ) (files : Files) (remoteFileName localFileName : Str) :
    Outcome (RC × Option Str) :=
  (askPeer env files remoteFileName).bind fun responseC =>
    if responseC.1 = ['0'] then
      (readResponse responseC.2).bind fun fileContent =>
        let result := saveContent env.writable localFileName fileContent.1
        if result.2 = 1 then .returns (.userError, result.1) else .returns (.ok, result.1)
    else if responseC.1 = ['1'] then .returns (.error, none)
    else .returns (.userError, none)

/-- `getfile`, with the text it saves to the local file. The `finally` raises
where `socketC` has no socket. -/
def getfile (env : FileEnvironment σ) (user remoteFileName localFileName : Str)
    (st : ClientState) (peer : σ) : Outcome (RC × Option Str) × σ :=
  if !st.connected then
    (.returns (.userError, none), peer)
  else if env.connectSocket then
    let r := findPeer env.toEnvironment user st peer
    let answer := (r.1.bind fun data =>
      match data.bind fun address => env.connectPeer address.1 address.2 with
      | none => .raises
      | some files =>
          (copyFile env files remoteFileName localFileName).catching (.userError, none))
    (answer, r.2)
  else
    (.returns (.userError, none), peer)

/-! ## What arrives -/

/-- The call gets to the listener thread of a client with these files. -/
def Reaches (env : FileEnvironment σ) (user : Str) (st : ClientState) (peer : σ)
    (files : Files) : Prop :=
  st.connected = true ∧ env.connectSocket = true ∧
    ∃ address, (findPeer env.toEnvironment user st peer).1 = .returns (some address) ∧
      env.connectPeer address.1 address.2 = some files

variable {env : FileEnvironment σ} {user remoteFileName localFileName : Str} {st : ClientState}
  {peer : σ} {files : Files} {content : Str}

theorem getfile_of_reaches (h : Reaches env user st peer files) :
    (getfile env user remoteFileName localFileName st peer).1 =
      (copyFile env files remoteFileName localFileName).catching (.userError, none) := by
  obtain ⟨hconnected, hsocket, address, hfind, hpeer⟩ := h
  simp only [getfile, hconnected, hsocket, Bool.not_true, Bool.false_eq_true, if_false, if_true,
    hfind, Outcome.bind_returns, Option.bind_some, hpeer]

/-- A copy has come from the listener thread of a client. -/
theorem reaches_of_ok {saved : Option Str}
    (h : (getfile env user remoteFileName localFileName st peer).1 = .returns (.ok, saved)) :
    ∃ files, Reaches env user st peer files := by
  cases hconnected : st.connected with
  | false => simp [getfile, hconnected] at h
  | true =>
      cases hsocket : env.connectSocket with
      | false => simp [getfile, hconnected, hsocket] at h
      | true =>
          simp only [getfile, hconnected, hsocket, Bool.not_true, Bool.false_eq_true, if_false,
            if_true] at h
          cases hfind : (findPeer env.toEnvironment user st peer).1 with
          | raises => simp [hfind] at h
          | hangs => simp [hfind] at h
          | returns data =>
              cases data with
              | none => simp [hfind] at h
              | some address =>
                  cases hpeer : env.connectPeer address.1 address.2 with
                  | none => simp [hfind, hpeer] at h
                  | some files =>
                      exact ⟨files, hconnected, hsocket, address, hfind, hpeer⟩

/-- A text that is sent and ended by a NUL is read up to its first NUL, if that
part is ASCII. -/
theorem readResponse_encode {s : Str} (hascii : ∀ c ∈ Text.untilNul s, c.toNat < 128)
    (t : Bytes) :
    ∃ rest, readResponse (Text.encode s ++ 0 :: t) = .returns (Text.untilNul s, rest) := by
  obtain ⟨rest, hrest⟩ := Text.encode_append_nul s t
  have hbytes : Text.IsAscii (Text.encode (Text.untilNul s)) := Text.isAscii_encode_iff.mpr hascii
  have hnul : 0 ∉ Text.encode (Text.untilNul s) := fun h =>
    Text.nul_notMem_untilNul s ((Text.mem_encode_iff (by decide)).mp h)
  have hread := readResponse_cstring hnul hbytes rest
  rw [cstring, List.append_assoc, List.singleton_append, ← hrest, Text.ofAscii_encode hbytes]
    at hread
  exact ⟨rest, hread⟩

theorem readResponse_encode_of_not_ascii {s : Str}
    (hascii : ¬ ∀ c ∈ Text.untilNul s, c.toNat < 128) (t : Bytes) :
    readResponse (Text.encode s ++ 0 :: t) = .raises := by
  obtain ⟨rest, hrest⟩ := Text.encode_append_nul s t
  have hbytes : ¬ Text.IsAscii (Text.encode (Text.untilNul s)) :=
    fun h => hascii (Text.isAscii_encode_iff.mp h)
  have hnul : 0 ∉ Text.encode (Text.untilNul s) := fun h =>
    Text.nul_notMem_untilNul s ((Text.mem_encode_iff (by decide)).mp h)
  have hread := readResponse_cstring_of_not_ascii hnul hbytes rest
  rw [cstring, List.append_assoc, List.singleton_append, ← hrest] at hread
  exact hread

theorem readResponse_getFileMessage (remoteFileName : Str) :
    readResponse (getFileMessage remoteFileName) =
      .returns (getFileOp, Text.encode remoteFileName ++ [0]) := by
  have hmessage : getFileMessage remoteFileName =
      cstring (Text.encode getFileOp) ++ (Text.encode remoteFileName ++ [0]) := by
    simp [getFileMessage, encodeMessage, Delimited.frame, cstring]
  rw [hmessage, readResponse_cstring (by decide) (by decide), Text.ofAscii_encode (by decide)]

/-- The listener thread reads a file name that is ASCII. -/
theorem serveRequest_getFileMessage (hnul : Char.ofNat 0 ∉ remoteFileName)
    (hascii : ∀ c ∈ remoteFileName, c.toNat < 128) :
    serveRequest files (getFileMessage remoteFileName) =
      .returns (fileMessage (leerArchivo files remoteFileName)) := by
  have hname : Text.untilNul remoteFileName = remoteFileName :=
    Text.untilNul_eq_self_iff.mpr hnul
  obtain ⟨rest, hread⟩ := readResponse_encode (s := remoteFileName)
    (by rw [hname]; exact hascii) []
  rw [serveRequest, readResponse_getFileMessage, Outcome.bind_returns, if_pos rfl, hread,
    Outcome.bind_returns, hname]

/-- It raises on any other file name. -/
theorem serveRequest_of_not_ascii (hnul : Char.ofNat 0 ∉ remoteFileName)
    (hascii : ¬ ∀ c ∈ remoteFileName, c.toNat < 128) :
    serveRequest files (getFileMessage remoteFileName) = .raises := by
  have hname : Text.untilNul remoteFileName = remoteFileName :=
    Text.untilNul_eq_self_iff.mpr hnul
  rw [serveRequest, readResponse_getFileMessage, Outcome.bind_returns, if_pos rfl,
    readResponse_encode_of_not_ascii (by rw [hname]; exact hascii), Outcome.bind_raises]

/-- A file that can be read is sent in text mode. -/
theorem askPeer_of_ascii (hreadable : files.Readable remoteFileName content)
    (hname : ∀ c ∈ remoteFileName, c.toNat < 128) :
    askPeer env files remoteFileName =
      .returns (['0'], Text.encode (Text.universalNewlines content) ++ [0]) := by
  obtain ⟨hnul, hfile⟩ := hreadable
  rw [askPeer, serveRequest_getFileMessage hnul hname, leerArchivo, if_neg hnul, hfile]
  simp only [fileMessage, List.append_assoc]
  exact readResponse_cstring (f := [48]) (by decide) (by decide) _

/-- What is saved of a file that is sent. -/
theorem copyFile_of_ascii (hreadable : files.Readable remoteFileName content)
    (hname : ∀ c ∈ remoteFileName, c.toNat < 128)
    (hcontent : ∀ c ∈ Text.untilNul content, c.toNat < 128) :
    copyFile env files remoteFileName localFileName =
      if env.writable localFileName then
        .returns (.ok, some (Text.untilNul (Text.universalNewlines content)))
      else .returns (.userError, none) := by
  obtain ⟨rest, hread⟩ := readResponse_encode (s := Text.universalNewlines content)
    ((Text.ascii_untilNul_universalNewlines content).mpr hcontent) []
  simp only [copyFile, askPeer_of_ascii hreadable hname, Outcome.bind_returns, if_true, hread,
    saveContent]
  cases env.writable localFileName <;> rfl

/-- A file name or a text that cannot be decoded byte by byte is not copied. -/
theorem copyFile_of_not_ascii (hreadable : files.Readable remoteFileName content)
    (h : ¬ ((∀ c ∈ remoteFileName, c.toNat < 128) ∧
      ∀ c ∈ Text.untilNul content, c.toNat < 128)) (result : RC × Option Str) :
    copyFile env files remoteFileName localFileName ≠ .returns result := by
  by_cases hname : ∀ c ∈ remoteFileName, c.toNat < 128
  · have hread := readResponse_encode_of_not_ascii (s := Text.universalNewlines content)
      (fun hascii => h ⟨hname, (Text.ascii_untilNul_universalNewlines content).mp hascii⟩) []
    simp only [copyFile, askPeer_of_ascii hreadable hname, Outcome.bind_returns, if_true, hread,
      Outcome.bind_raises]
    nofun
  · rw [copyFile, askPeer, serveRequest_of_not_ascii hreadable.1 hname]
    cases env.reset with
    | true => nofun
    | false => nofun

/-- With `GET_FILE OK` the local file has the text of the remote one exactly when
that has no carriage return and no NUL; where the file cannot be saved, or the
name or the text before its first NUL is not ASCII, it is not `OK`. -/
theorem getfile_copies_iff (hreaches : Reaches env user st peer files)
    (hreadable : files.Readable remoteFileName content) :
    (∀ saved, (getfile env user remoteFileName localFileName st peer).1 =
        .returns (.ok, saved) → saved = some content) ↔
      env.writable localFileName = false ∨ (∃ c ∈ remoteFileName, 128 ≤ c.toNat) ∨
        (∃ c ∈ Text.untilNul content, 128 ≤ c.toNat) ∨
          Char.ofNat 13 ∉ content ∧ Char.ofNat 0 ∉ content := by
  rw [getfile_of_reaches hreaches]
  by_cases hascii : (∀ c ∈ remoteFileName, c.toNat < 128) ∧
      ∀ c ∈ Text.untilNul content, c.toNat < 128
  · obtain ⟨hname, hcontent⟩ := hascii
    have hname' : ¬ ∃ c ∈ remoteFileName, 128 ≤ c.toNat := by simpa using hname
    have hcontent' : ¬ ∃ c ∈ Text.untilNul content, 128 ≤ c.toNat := by simpa using hcontent
    rw [copyFile_of_ascii hreadable hname hcontent, or_iff_right hname', or_iff_right hcontent']
    cases hwritable : env.writable localFileName with
    | false => simp
    | true =>
        rw [← Text.untilNul_universalNewlines_eq_self_iff]
        simp
  · refine iff_of_true ?_ ?_
    · intro saved hok
      cases hcopy : copyFile env files remoteFileName localFileName with
      | returns result => exact absurd hcopy (copyFile_of_not_ascii hreadable hascii result)
      | raises => simp [hcopy] at hok
      | hangs => simp [hcopy] at hok
    · simp only [not_and_or, not_forall, not_lt, exists_prop] at hascii
      exact Or.inr (hascii.imp_right Or.inl)

end

/-- A client whose only file is `f`. -/
def ownFiles (content : Str) : Files := fun fileName =>
  if fileName = ['f'] then .text content else .notFound

/-- The client of `a` at its address, which the server knows. -/
def ownFile (content : Str) : FileEnvironment Shared :=
  { Environment.server ⟨2023, 12, 1, 10, 0, 0⟩ 80 (.success ⟨10, 0, 0, 1⟩) with
    connectPeer := fun server port =>
      if server = ['1', '0', '.', '0', '.', '0', '.', '1'] ∧ port = 80 then some (ownFiles content)
      else none
    reset := true
    writable := fun _ => true }

/-- The server with `a` connected. -/
def ownServer : Shared :=
  let env := Environment.server ⟨2023, 12, 1, 10, 0, 0⟩ 80 (.success ⟨10, 0, 0, 1⟩)
  let registered := (Command.register ['a']).run env .init .init
  ((Command.connect ['a']).run env registered.2.1 registered.2.2).2.2

/-- The client with `a` connected. -/
def ownClient : ClientState :=
  { ClientState.init with connected := true, user := some ['a'], serverSocket := some .listening }

theorem getfile_copies_iff_own_file :
    (∀ saved, (getfile (ownFile ['h', 'i']) ['a'] ['f'] ['g'] ownClient ownServer).1 =
        .returns (.ok, saved) → saved = some ['h', 'i']) ↔
      (ownFile ['h', 'i']).writable ['g'] = false ∨ (∃ c ∈ ['f'], 128 ≤ c.toNat) ∨
        (∃ c ∈ Text.untilNul ['h', 'i'], 128 ≤ c.toNat) ∨
          Char.ofNat 13 ∉ ['h', 'i'] ∧ Char.ofNat 0 ∉ ['h', 'i'] :=
  @getfile_copies_iff Shared (ownFile ['h', 'i']) ['a'] ['f'] ['g'] ownClient ownServer
    (ownFiles ['h', 'i']) ['h', 'i']
    ⟨rfl, rfl, (['1', '0', '.', '0', '.', '0', '.', '1'], 80), by decide +kernel, rfl⟩
    ⟨by decide, rfl⟩

/-- `GET_FILE OK`, but the carriage return of a DOS line end is gone, and so is
all that stands behind a NUL. -/
theorem getfile_ok_not_copied :
    (getfile (ownFile ['a', Char.ofNat 13, Char.ofNat 10, 'b']) ['a'] ['f'] ['g'] ownClient
        ownServer).1 = .returns (.ok, some ['a', Char.ofNat 10, 'b']) ∧
      (getfile (ownFile ['a', Char.ofNat 0, 'b']) ['a'] ['f'] ['g'] ownClient ownServer).1 =
        .returns (.ok, some ['a']) := by
  decide +kernel

end Client

end PeerDirectory
