import PeerDirectory.Client.ListUsers

/-!
# The sockets of GET_FILE

`getfile` opens a socket to the server and one to the other client, and closes
both in its `finally` block. The second one is assigned to `socketC` in the
middle of the `try` block, so on every way out in front of this place
`socketC.close()` raises, and the socket to the server is not closed. Here the
call is followed with the variable `socketC` and with the sockets it opens and
closes.
-/

namespace PeerDirectory

namespace Client

/-! ## The method -/

/-- The outside of one call. A connection is refused, or it gives an answer to a
message and is closed, or it raises. -/
structure GetFileOutside where
  getTime : Option StructTime
  /-- The longest numeral that `int` takes, if it has a limit. -/
  maxStrDigits : StrDigits
  /-- `connect_socket()` -/
  server : Option (Bytes → Option Bytes)
  /-- `connect_socket(port, server)` -/
  peer : Str → Int → Option (Bytes → Option Bytes)
  writable : Str → Bool

/-- The sockets of a call. -/
inductive GetFileSocket where
  | socketS
  | socketC
deriving DecidableEq

/-- What the variable `socketC` holds. -/
inductive SocketC where
  | unassigned
  | none
  | socket
deriving DecidableEq

/-- How a call ends: with which code and saved text, and which sockets it has
opened and closed. -/
structure GetFileEnd where
  outcome : Outcome (RC × Option Str)
  opened : List GetFileSocket
  closed : List GetFileSocket
deriving DecidableEq

/-- `sendall(message)` and the first `read_response`. -/
def ask (connection : Bytes → Option Bytes) (message : Bytes) : Outcome (Str × Bytes) :=
  match connection message with
  | none => .raises
  | some reply => readResponse reply

/-- The `try` block up to the place where the address is known; `none` is a
`return client.RC.USER_ERROR`. -/
def requestAddress (o : GetFileOutside) (server : Bytes → Option Bytes) (user : Str)
    (st : ClientState) : Outcome (Option (Str × Int)) :=
  match o.getTime.bind fun time => st.user.map fun u => listUsersMessage (strftime time) u with
  | none => .raises
  | some message =>
      (ask server (encodeMessage message)).bind fun response =>
        if response.1 = ['0'] then getDataByUser o.maxStrDigits response.2 user
        else .returns none

/-- The rest of the `try` block, once `socketC` is a socket. -/
def requestFile (writable : Str → Bool) (peer : Bytes → Option Bytes)
    (remoteFileName localFileName : Str) : Outcome (RC × Option Str) :=
  (ask peer (getFileMessage remoteFileName)).bind fun responseC =>
    if responseC.1 = ['0'] then
      (readResponse responseC.2).bind fun fileContent =>
        let result := saveContent writable localFileName fileContent.1
        if result.2 = 1 then .returns (.userError, result.1) else .returns (.ok, result.1)
    else if responseC.1 = ['1'] then .returns (.error, none)
    else .returns (.userError, none)

/-- The `try` block, with what `socketC` holds at its end. -/
def getfileTry (o : GetFileOutside) (server : Bytes → Option Bytes)
    (user remoteFileName localFileName : Str) (st : ClientState) :
    Outcome (RC × Option Str) × SocketC :=
  match requestAddress o server user st with
  | .raises => (.raises, .unassigned)
  | .hangs => (.hangs, .unassigned)
  | .returns none => (.returns (.userError, none), .unassigned)
  | .returns (some (ip, port)) =>
      match o.peer ip port with
      | none => (.returns (.userError, none), .none)
      | some peer => (requestFile o.writable peer remoteFileName localFileName, .socket)

/-- The sockets that have been opened. -/
def SocketC.opened : SocketC → List GetFileSocket
  | .socket => [.socketS, .socketC]
  | _ => [.socketS]

/-- The `finally` block after a `try` block that has come to its end:
`socketC.close()` and `socketS.close()`. -/
def getfileFinally (outcome : Outcome (RC × Option Str)) (socketC : SocketC) : GetFileEnd :=
  match socketC with
  | .socket => ⟨outcome, socketC.opened, [.socketC, .socketS]⟩
  | _ => ⟨.raises, socketC.opened, []⟩

/-- `getfile` -/
def getfileSockets (o : GetFileOutside) (user remoteFileName localFileName : Str)
    (st : ClientState) : GetFileEnd :=
  if !st.connected then
    ⟨.returns (.userError, none), [], []⟩
  else
    match o.server with
    | none => ⟨.returns (.userError, none), [], []⟩
    | some server =>
        let r := getfileTry o server user remoteFileName localFileName st
        match r.1 with
        | .hangs => ⟨.hangs, r.2.opened, []⟩
        | outcome => getfileFinally (outcome.catching (.userError, none)) r.2

/-! ## The same outcome as `getfile` -/

section

variable {σ : Type}

/-- The outside of a call among the other clients and the server. -/
def FileEnvironment.outside (env : FileEnvironment σ) (peer : σ) : GetFileOutside where
  getTime := env.getTime
  maxStrDigits := env.maxStrDigits
  server :=
    if env.connectSocket then some fun m => (env.exchange m peer).map Prod.fst else none
  peer := fun ip port =>
    (env.connectPeer ip port).map fun files m =>
      match serveRequest files m with
      | .returns message => some message
      | .raises => if env.reset then none else some []
      | .hangs => some []
  writable := env.writable

variable (env : FileEnvironment σ) (user remoteFileName localFileName : Str) (st : ClientState)
  (peer : σ)

theorem requestAddress_outside :
    requestAddress (env.outside peer) (fun m => (env.exchange m peer).map Prod.fst) user st =
      (findPeer env.toEnvironment user st peer).1 := by
  rw [requestAddress, findPeer, send]
  simp only [FileEnvironment.outside]
  cases env.getTime.bind fun time => st.user.map fun u => listUsersMessage (strftime time) u with
  | none => rfl
  | some message =>
      simp only [ask]
      cases env.exchange (encodeMessage message) peer <;> rfl

theorem requestFile_outside (files : Files) :
    requestFile env.writable
        (fun m =>
          match serveRequest files m with
          | .returns message => some message
          | .raises => if env.reset then none else some []
          | .hangs => some [])
        remoteFileName localFileName =
      copyFile env files remoteFileName localFileName := by
  rw [requestFile, copyFile, ask, askPeer]
  cases serveRequest files (getFileMessage remoteFileName) with
  | returns message => rfl
  | raises => cases env.reset <;> rfl
  | hangs => rfl

/-- Following the sockets does not change what a call gives. -/
theorem outcome_getfileSockets :
    (getfileSockets (env.outside peer) user remoteFileName localFileName st).outcome =
      (getfile env user remoteFileName localFileName st peer).1 := by
  rw [getfileSockets, getfile]
  cases st.connected with
  | false => rfl
  | true =>
      cases hsocket : env.connectSocket with
      | false => simp [FileEnvironment.outside, hsocket]
      | true =>
          have hserver : (env.outside peer).server =
              some fun m => (env.exchange m peer).map Prod.fst := by
            simp [FileEnvironment.outside, hsocket]
          simp only [hserver, Bool.not_true, Bool.false_eq_true, if_false, if_true, getfileTry,
            requestAddress_outside]
          cases (findPeer env.toEnvironment user st peer).1 with
          | raises => rfl
          | hangs => rfl
          | returns data =>
              cases data with
              | none => rfl
              | some address =>
                  simp only [Outcome.bind_returns, Option.bind_some]
                  simp only [FileEnvironment.outside]
                  cases env.connectPeer address.1 address.2 with
                  | none => rfl
                  | some files =>
                      simp only [Option.map_some, requestFile_outside]
                      cases copyFile env files remoteFileName localFileName <;> rfl

end

/-! ## Complete replies -/

/-- A complete reply to LIST_USERS: a result code, and behind the code 0 the number
of users and the users. -/
structure UsersReply where
  code : Bytes
  users : List (Bytes × Bytes × Bytes)
  code_nul : 0 ∉ code
  users_nul : ∀ row ∈ users, NulFreeRow row

def UsersReply.bytes (reply : UsersReply) : Bytes :=
  cstring reply.code ++
    if reply.code = [48] then
      cstring (decimal reply.users.length) ++ reply.users.flatMap sentUser
    else []

/-- A complete reply to GET_FILE: a result code, and behind the code 0 the text. -/
structure FileReply where
  code : Bytes
  content : Bytes
  code_nul : 0 ∉ code
  content_nul : 0 ∉ content

def FileReply.bytes (reply : FileReply) : Bytes :=
  cstring reply.code ++ if reply.code = [48] then cstring reply.content else []

/-- An outside that answers completely: the server is there, and each of the other
clients refuses the connection or is there too. -/
structure CompleteOutside where
  getTime : Option StructTime
  maxStrDigits : StrDigits
  server : UsersReply
  peer : Str → Int → Option FileReply
  writable : Str → Bool

def CompleteOutside.outside (o : CompleteOutside) : GetFileOutside where
  getTime := o.getTime
  maxStrDigits := o.maxStrDigits
  server := some fun _ => some o.server.bytes
  peer := fun ip port => (o.peer ip port).map fun reply _ => some reply.bytes
  writable := o.writable

/-- The first user of the list with the name `user` has this address. The strings
in front of it and its own are ASCII, and its port is a number that the interpreter
takes. -/
inductive Lists (maxStrDigits : StrDigits) (user : Str) :
    List (Bytes × Bytes × Bytes) → Str → Int → Prop where
  | here {row : Bytes × Bytes × Bytes} {rows : List (Bytes × Bytes × Bytes)} {port : Int} :
      AsciiUserRow row → Text.ofAscii row.1 = user →
      int maxStrDigits (Text.ofAscii row.2.2) = .returns port →
      Lists maxStrDigits user (row :: rows) (Text.ofAscii row.2.1) port
  | there {row : Bytes × Bytes × Bytes} {rows : List (Bytes × Bytes × Bytes)} {ip : Str}
      {port : Int} :
      AsciiUserRow row → Text.ofAscii row.1 ≠ user → Lists maxStrDigits user rows ip port →
      Lists maxStrDigits user (row :: rows) ip port

/-- A row that is not ASCII ends the search. -/
theorem findUser_of_not_ascii (maxStrDigits : StrDigits) (user : Str)
    {row : Bytes × Bytes × Bytes} (hnul : NulFreeRow row) (hascii : ¬ AsciiUserRow row)
    (turns : ℕ) (s : Bytes) :
    findUser maxStrDigits user (turns + 1) (sentUser row ++ s) = .raises := by
  obtain ⟨hname, hip, hport⟩ := hnul
  rw [findUser, sentUser, List.append_assoc, List.append_assoc]
  by_cases hname' : Text.IsAscii row.1
  · rw [readResponse_cstring hname hname', Outcome.bind_returns]
    by_cases hip' : Text.IsAscii row.2.1
    · rw [readResponse_cstring hip hip', Outcome.bind_returns]
      have hport' : ¬ Text.IsAscii row.2.2 := fun h => hascii ⟨hname', hip', h⟩
      rw [readResponse_cstring_of_not_ascii hport hport', Outcome.bind_raises]
    · rw [readResponse_cstring_of_not_ascii hip hip', Outcome.bind_raises]
  · rw [readResponse_cstring_of_not_ascii hname hname', Outcome.bind_raises]

/-- The loop of `get_data_by_user` on the rows of a reply. -/
theorem findUser_eq_some_iff {maxStrDigits : StrDigits} {user : Str}
    {rows : List (Bytes × Bytes × Bytes)} (hnul : ∀ row ∈ rows, NulFreeRow row) {ip : Str}
    {port : Int} :
    findUser maxStrDigits user rows.length (rows.flatMap sentUser) =
        .returns (some (ip, port)) ↔
      Lists maxStrDigits user rows ip port := by
  induction rows with
  | nil => exact iff_of_false (by simp [findUser]) (fun h => by cases h)
  | cons row rows ih =>
      rw [List.flatMap_cons, List.length_cons]
      by_cases hascii : AsciiUserRow row
      · obtain ⟨hfirst, hsecond, hthird⟩ :=
          readResponse_sentUser (hnul row (by simp)) hascii (rows.flatMap sentUser)
        rw [findUser, hfirst, Outcome.bind_returns, hsecond, Outcome.bind_returns, hthird,
          Outcome.bind_returns]
        by_cases hname : Text.ofAscii row.1 = user
        · rw [if_pos hname]
          constructor
          · intro h
            obtain ⟨number, hint, h⟩ := Outcome.bind_eq_returns_iff.mp h
            obtain ⟨rfl, rfl⟩ := Prod.mk.inj (Option.some.inj (Outcome.returns.inj h))
            exact .here hascii hname hint
          · intro h
            cases h with
            | here _ _ hint => rw [hint, Outcome.bind_returns]
            | there _ hne _ => exact absurd hname hne
        · rw [if_neg hname, ih fun q hq => hnul q (by simp [hq])]
          constructor
          · exact .there hascii hname
          · intro h
            cases h with
            | here _ heq _ => exact absurd heq hname
            | there _ _ h => exact h
      · rw [findUser_of_not_ascii maxStrDigits user (hnul row (by simp)) hascii]
        refine iff_of_false (by simp) fun h => ?_
        cases h with
        | here hrow _ _ => exact hascii hrow
        | there hrow _ _ => exact hascii hrow

/-- The text of a code is `0` only for the code 0. -/
theorem ofAscii_code_iff {code : Bytes} (hascii : Text.IsAscii code) :
    Text.ofAscii code = ['0'] ↔ code = [48] := by
  rw [ofAscii_eq_iff ['0'] hascii]
  rfl

section Complete

variable (o : CompleteOutside) (user remoteFileName localFileName : Str) (st : ClientState)

/-- The number of users that the reply announces is a numeral that the interpreter
takes. -/
def CompleteOutside.TakesCount (o : CompleteOutside) : Prop :=
  Takes o.maxStrDigits (decimal o.server.users.length).length

/-- `get_data_by_user` on a complete listing. -/
theorem getDataByUser_eq_some_iff {ip : Str} {port : Int} :
    getDataByUser o.maxStrDigits
        (cstring (decimal o.server.users.length) ++ o.server.users.flatMap sentUser) user =
          .returns (some (ip, port)) ↔
      o.TakesCount ∧ Lists o.maxStrDigits user o.server.users ip port := by
  rw [getDataByUser, readResponse_decimal, Outcome.bind_returns, CompleteOutside.TakesCount,
    length_decimal]
  by_cases hcount : Takes o.maxStrDigits (Nat.toDigits 10 o.server.users.length).length
  · rw [int_toDigits hcount, Outcome.bind_returns, Int.toNat_natCast,
      findUser_eq_some_iff o.server.users_nul, and_iff_right hcount]
  · rw [int_toDigits_of_not_takes hcount, Outcome.bind_raises]
    exact iff_of_false (by simp) fun h => hcount h.1

/-- The address is found exactly if the message can be built, the code is 0, and
the list has the user. -/
theorem requestAddress_eq_some_iff {ip : Str} {port : Int} :
    requestAddress o.outside (fun _ => some o.server.bytes) user st =
        .returns (some (ip, port)) ↔
      o.getTime.isSome ∧ st.user.isSome ∧ o.server.code = [48] ∧ o.TakesCount ∧
        Lists o.maxStrDigits user o.server.users ip port := by
  rw [requestAddress]
  simp only [CompleteOutside.outside]
  cases o.getTime with
  | none => simp
  | some time =>
      cases st.user with
      | none => simp
      | some u =>
          simp only [Option.bind_some, Option.map_some, ask, UsersReply.bytes, Option.isSome_some,
            true_and]
          rcases readResponse_cstring_cases o.server.code_nul
            (if o.server.code = [48] then
              cstring (decimal o.server.users.length) ++ o.server.users.flatMap sentUser
            else []) with ⟨hascii, hread⟩ | ⟨hascii, hread⟩
          · have hzero := ofAscii_code_iff hascii
            rw [hread, Outcome.bind_returns]
            by_cases hcode : o.server.code = [48]
            · rw [if_pos (hzero.mpr hcode), if_pos hcode, getDataByUser_eq_some_iff,
                and_iff_right hcode]
            · rw [if_neg (mt hzero.mp hcode)]
              exact iff_of_false (by simp) fun h => hcode h.1
          · rw [hread, Outcome.bind_raises]
            refine iff_of_false (by simp) fun h => hascii ?_
            rw [h.1]
            decide

/-- The other client answers completely, so nothing is waited for. -/
theorem requestFile_ne_hangs (writable : Str → Bool) (reply : FileReply) :
    requestFile writable (fun _ => some reply.bytes) remoteFileName localFileName ≠ .hangs := by
  rw [requestFile, ask]
  simp only [FileReply.bytes]
  rcases readResponse_cstring_cases reply.code_nul
    (if reply.code = [48] then cstring reply.content else []) with
    ⟨hascii, hread⟩ | ⟨-, hread⟩
  · have hzero := ofAscii_code_iff hascii
    rw [hread, Outcome.bind_returns]
    by_cases hcode : reply.code = [48]
    · rw [if_pos (hzero.mpr hcode), if_pos hcode]
      rcases readResponse_cstring_cases reply.content_nul [] with ⟨-, hcontent⟩ | ⟨-, hcontent⟩
      · rw [List.append_nil] at hcontent
        rw [hcontent, Outcome.bind_returns]
        cases h : writable localFileName <;> simp [saveContent, h]
      · rw [List.append_nil] at hcontent
        rw [hcontent, Outcome.bind_raises]
        simp
    · rw [if_neg (mt hzero.mp hcode)]
      by_cases hone : Text.ofAscii reply.code = ['1']
      · rw [if_pos hone]
        simp
      · rw [if_neg hone]
        simp
  · rw [hread, Outcome.bind_raises]
    simp

/-- The call comes back with a code, and all the sockets it has opened are
closed. -/
def GetFileEnd.Clean (e : GetFileEnd) : Prop :=
  (∃ rc saved, e.outcome = .returns (rc, saved)) ∧ ∀ s ∈ e.opened, s ∈ e.closed

/-- Without a socket in `socketC` the `finally` block raises. -/
theorem not_clean_getfileFinally (outcome : Outcome (RC × Option Str)) {socketC : SocketC}
    (h : socketC ≠ .socket) : ¬ (getfileFinally outcome socketC).Clean := by
  rintro ⟨⟨rc, saved, hreturns⟩, -⟩
  cases socketC with
  | unassigned => cases hreturns
  | none => cases hreturns
  | socket => exact h rfl

/-- With a socket in `socketC` both sockets are closed, and an exception has been
caught by the `except` block. -/
theorem clean_getfileFinally (rc : RC) (saved : Option Str) :
    (getfileFinally (.returns (rc, saved)) .socket).Clean :=
  ⟨⟨rc, saved, rfl⟩, by simp [getfileFinally, SocketC.opened]⟩

/-- Without an address `socketC` is never assigned. -/
theorem not_clean_of_no_address (hconnected : st.connected = true)
    (h : ∀ ip port, requestAddress o.outside (fun _ => some o.server.bytes) user st ≠
      .returns (some (ip, port))) :
    ¬ (getfileSockets o.outside user remoteFileName localFileName st).Clean := by
  have hserver : o.outside.server = some fun _ => some o.server.bytes := rfl
  simp only [getfileSockets, hconnected, hserver, getfileTry, Bool.not_true,
    Bool.false_eq_true, if_false]
  cases hrequest : requestAddress o.outside (fun _ => some o.server.bytes) user st with
  | raises => exact not_clean_getfileFinally _ (by simp)
  | hangs =>
      rintro ⟨⟨rc, saved, hreturns⟩, -⟩
      cases hreturns
  | returns data =>
      cases data with
      | none => exact not_clean_getfileFinally _ (by simp)
      | some address => exact absurd hrequest (h address.1 address.2)

/-- With an address it is the other client that decides. -/
theorem clean_iff_of_address (hconnected : st.connected = true) {ip : Str} {port : Int}
    (h : requestAddress o.outside (fun _ => some o.server.bytes) user st =
      .returns (some (ip, port))) :
    (getfileSockets o.outside user remoteFileName localFileName st).Clean ↔
      (o.peer ip port).isSome := by
  have hserver : o.outside.server = some fun _ => some o.server.bytes := rfl
  have hpeer : o.outside.peer ip port = (o.peer ip port).map fun reply _ => some reply.bytes := rfl
  simp only [getfileSockets, hconnected, hserver, hpeer, getfileTry, h, Bool.not_true,
    Bool.false_eq_true, if_false]
  cases o.peer ip port with
  | none => exact iff_of_false (not_clean_getfileFinally _ (by simp)) (by simp)
  | some reply =>
      refine iff_of_true ?_ rfl
      have hends := requestFile_ne_hangs remoteFileName localFileName o.outside.writable reply
      simp only [Option.map_some]
      cases hfile : requestFile o.outside.writable (fun _ => some reply.bytes) remoteFileName
          localFileName with
      | raises => exact clean_getfileFinally _ _
      | hangs => exact absurd hfile hends
      | returns result => exact clean_getfileFinally _ _

/-- `getfile` comes back cleanly exactly if it gets to the other client. -/
theorem getfile_clean_iff (hconnected : st.connected = true) :
    (getfileSockets o.outside user remoteFileName localFileName st).Clean ↔
      o.getTime.isSome ∧ st.user.isSome ∧ o.server.code = [48] ∧ o.TakesCount ∧
        ∃ ip port, Lists o.maxStrDigits user o.server.users ip port ∧
          (o.peer ip port).isSome := by
  have haddress := @requestAddress_eq_some_iff o user st
  constructor
  · intro hclean
    by_contra hno
    refine not_clean_of_no_address o user remoteFileName localFileName st hconnected ?_ hclean
    intro ip port hrequest
    obtain ⟨htime, huser, hcode, hcount, hlists⟩ := haddress.mp hrequest
    have hpeer := (clean_iff_of_address o user remoteFileName localFileName st hconnected
      hrequest).mp hclean
    exact hno ⟨htime, huser, hcode, hcount, ip, port, hlists, hpeer⟩
  · rintro ⟨htime, huser, hcode, hcount, ip, port, hlists, hpeer⟩
    have hrequest := haddress.mpr ⟨htime, huser, hcode, hcount, hlists⟩
    exact (clean_iff_of_address o user remoteFileName localFileName st hconnected
      hrequest).mpr hpeer

end Complete

/-- The strings of the replies below. -/
theorem nul_notMem_zero : 0 ∉ ([48] : Bytes) := by decide

theorem nul_notMem_hi : 0 ∉ ([104, 105] : Bytes) := by decide

theorem nulFreeRow_onlyUser :
    ∀ row ∈ [(([97], [49, 48, 46, 48, 46, 48, 46, 49], [56, 48]) : Bytes × Bytes × Bytes)],
      NulFreeRow row := by
  simp [NulFreeRow]

/-- The server lists the user `a` alone, whose client sends the file `hi`. -/
def onlyUser (time : StructTime) : CompleteOutside where
  getTime := some time
  maxStrDigits := .default
  server :=
    { code := [48]
      users := [([97], [49, 48, 46, 48, 46, 48, 46, 49], [56, 48])]
      code_nul := nul_notMem_zero
      users_nul := nulFreeRow_onlyUser }
  peer := fun _ _ =>
    some
      { code := [48]
        content := [104, 105]
        code_nul := nul_notMem_zero
        content_nul := nul_notMem_hi }
  writable := fun _ => true

theorem getfile_clean_iff_onlyUser :
    (getfileSockets (onlyUser ⟨2023, 12, 1, 10, 0, 0⟩).outside ['a'] ['f'] ['g']
        ownClient).Clean ↔
      (onlyUser ⟨2023, 12, 1, 10, 0, 0⟩).getTime.isSome ∧ ownClient.user.isSome ∧
        (onlyUser ⟨2023, 12, 1, 10, 0, 0⟩).server.code = [48] ∧
        (onlyUser ⟨2023, 12, 1, 10, 0, 0⟩).TakesCount ∧
        ∃ ip port, Lists .default ['a'] (onlyUser ⟨2023, 12, 1, 10, 0, 0⟩).server.users ip port ∧
          ((onlyUser ⟨2023, 12, 1, 10, 0, 0⟩).peer ip port).isSome :=
  getfile_clean_iff (onlyUser ⟨2023, 12, 1, 10, 0, 0⟩) ['a'] ['f'] ['g'] ownClient rfl

/-- Nobody is listed as `b`, and instead of the code of `GET_FILE FAIL` the call
gives an exception and leaves the socket to the server open. -/
theorem getfile_not_clean :
    getfileSockets (onlyUser ⟨2023, 12, 1, 10, 0, 0⟩).outside ['b'] ['f'] ['g'] ownClient =
        ⟨.raises, [.socketS], []⟩ ∧
      ¬ (getfileSockets (onlyUser ⟨2023, 12, 1, 10, 0, 0⟩).outside ['b'] ['f'] ['g']
        ownClient).Clean := by
  have hraises : getfileSockets (onlyUser ⟨2023, 12, 1, 10, 0, 0⟩).outside ['b'] ['f'] ['g']
      ownClient = ⟨.raises, [.socketS], []⟩ := by decide +kernel
  refine ⟨hraises, ?_⟩
  rw [hraises]
  rintro ⟨⟨rc, saved, hreturns⟩, -⟩
  cases hreturns

end Client

end PeerDirectory
