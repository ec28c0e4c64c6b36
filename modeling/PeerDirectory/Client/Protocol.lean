import PeerDirectory.Server.List
import PeerDirectory.Lib.Delimited

/-!
# The client of `client.py`

A Python string is the list of its characters, and code that may raise an
exception or wait for ever gives an `Outcome`. The methods talk to the outside
through an `Environment`: the time service, the sockets, and the other end of a
connection, whose state has an arbitrary type and changes with each message it
answers. What the methods print is left out, except for the rows of a listing.
-/

namespace PeerDirectory

/-- A Python string that `encode` takes: without lone surrogates. -/
abbrev Str := List Char

/-- How a piece of Python code ends. -/
inductive Outcome (α : Type) where
  | returns (value : α)
  | raises
  | hangs
deriving DecidableEq

namespace Outcome

variable {α β : Type}

/-- One piece of code after another. -/
def bind (o : Outcome α) (next : α → Outcome β) : Outcome β :=
  match o with
  | .returns value => next value
  | .raises => .raises
  | .hangs => .hangs

/-- `try: ... except Exception: return value` -/
def catching (o : Outcome α) (value : α) : Outcome α :=
  match o with
  | .raises => .returns value
  | _ => o

@[simp] theorem bind_returns (value : α) (next : α → Outcome β) :
    (Outcome.returns value).bind next = next value := rfl

@[simp] theorem bind_raises (next : α → Outcome β) :
    (Outcome.raises : Outcome α).bind next = .raises := rfl

@[simp] theorem bind_hangs (next : α → Outcome β) :
    (Outcome.hangs : Outcome α).bind next = .hangs := rfl

theorem bind_eq_returns_iff {o : Outcome α} {next : α → Outcome β} {value : β} :
    o.bind next = .returns value ↔ ∃ a, o = .returns a ∧ next a = .returns value := by
  cases o <;> simp

@[simp] theorem catching_returns (value value' : α) :
    (Outcome.returns value).catching value' = .returns value := rfl

@[simp] theorem catching_raises (value : α) :
    (Outcome.raises : Outcome α).catching value = .returns value := rfl

@[simp] theorem catching_hangs (value : α) :
    (Outcome.hangs : Outcome α).catching value = .hangs := rfl

end Outcome

namespace Client

/-- `client.RC`. -/
inductive RC where
  | ok
  | error
  | userError
  | otherCases
  | anotherCases
deriving DecidableEq

/-! ## Reading an answer -/

/-- `read_response` on what the other side sends before it closes: the string
before the first NUL, and what is left behind it. Every byte is decoded by
itself. At the end of the stream `recv` gives no byte for ever. -/
def readResponse : Bytes → Outcome (Str × Bytes)
  | [] => .hangs
  | serverResponse :: socket =>
      if serverResponse = 0 then
        .returns ([], socket)
      else
        match Text.decodeByte serverResponse with
        | none => .raises
        | some c => (readResponse socket).bind fun r => .returns (c :: r.1, r.2)

/-- What `read_response` leaves of the stream where it raises: all behind the
first byte that is not ASCII. -/
def undecoded : Bytes → Bytes
  | [] => []
  | serverResponse :: socket =>
      if (Text.decodeByte serverResponse).isSome then undecoded socket else socket

/-- The ASCII characters that `int` strips. -/
def isSpace (c : Char) : Bool :=
  c = ' ' || (9 ≤ c.toNat && c.toNat ≤ 13)

def strip (s : Str) : Str :=
  ((s.dropWhile isSpace).reverse.dropWhile isSpace).reverse

/-- Digits, with single underscores between them. -/
def isNumeral : Str → Bool
  | [] => false
  | [c] => c.isDigit
  | c :: d :: s =>
      c.isDigit && if d = '_' then isNumeral s else isNumeral (d :: s)

/-- The digits of a numeral. -/
def digits (s : Str) : Str :=
  s.filter fun c => c ≠ '_'

/-- How many digits of a numeral the interpreter takes: all of them, or a limit, which
cannot be set below 640. -/
structure StrDigits where
  limit : Option ℕ
  le_limit : ∀ max ∈ limit, 640 ≤ max

def StrDigits.unlimited : StrDigits where
  limit := none
  le_limit := fun _ h => nomatch h

/-- The limit when nobody sets another one. -/
def StrDigits.default : StrDigits where
  limit := some 4300
  le_limit := fun _ h => Option.some.inj h ▸ by decide

/-- The interpreter takes numerals with this many digits. -/
def Takes (maxStrDigits : StrDigits) (length : ℕ) : Prop :=
  ∀ max ∈ maxStrDigits.limit, length ≤ max

instance (maxStrDigits : StrDigits) (length : ℕ) : Decidable (Takes maxStrDigits length) :=
  match h : maxStrDigits.limit with
  | none => isTrue (by simp [Takes, h])
  | some max => decidable_of_iff (length ≤ max) (by simp [Takes, h])

/-- The value of a numeral. -/
def numeralValue (maxStrDigits : StrDigits) (s : Str) : Outcome ℕ :=
  if isNumeral s ∧ Takes maxStrDigits (digits s).length then
    .returns (Nat.ofDigitChars 10 (digits s) 0)
  else
    .raises

/-- `int(s)` for an ASCII string. -/
def int (maxStrDigits : StrDigits) (s : Str) : Outcome Int :=
  match strip s with
  | '-' :: t => (numeralValue maxStrDigits t).bind fun n => .returns (-n)
  | '+' :: t => (numeralValue maxStrDigits t).bind fun n => .returns n
  | t => (numeralValue maxStrDigits t).bind fun n => .returns n

/-! ## Requests -/

/-- `excede_tamano`. -/
def excedeTamano (cadena : Str) : Bool :=
  255 < (Text.encode cadena).length

/-- What the time service finds on its clock. -/
structure StructTime where
  year : Fin 10000
  mon : Fin 13
  mday : Fin 32
  hour : Fin 24
  min : Fin 60
  sec : Fin 62
deriving DecidableEq

/-- A number with at least two digits. -/
def twoDigits (n : ℕ) : Str :=
  if n < 10 then '0' :: Nat.toDigits 10 n else Nat.toDigits 10 n

/-- `time.strftime("%d/%m/%Y %H:%M:%S")`, the answer of the time service. -/
def strftime (t : StructTime) : Str :=
  twoDigits t.mday ++ '/' :: twoDigits t.mon ++ '/' :: Nat.toDigits 10 t.year ++
    ' ' :: twoDigits t.hour ++ ':' :: twoDigits t.min ++ ':' :: twoDigits t.sec

/-- `fileName.replace(" ", "")` -/
def removeSpaces (fileName : Str) : Str :=
  fileName.filter fun c => c ≠ ' '

/-- The bytes of a message: each of its strings in UTF-8, and a NUL behind
it. -/
def encodeMessage (message : List Str) : Bytes :=
  Delimited.frame 0 (message.map Text.encode)

def registerMessage (time user : Str) : List Str :=
  [['R', 'E', 'G', 'I', 'S', 'T', 'E', 'R'], time, user]

def unregisterMessage (time user : Str) : List Str :=
  [['U', 'N', 'R', 'E', 'G', 'I', 'S', 'T', 'E', 'R'], time, user]

def connectMessage (time user : Str) (port : UInt16) : List Str :=
  [['C', 'O', 'N', 'N', 'E', 'C', 'T'], time, user, Nat.toDigits 10 port.toNat]

def disconnectMessage (time user : Str) : List Str :=
  [['D', 'I', 'S', 'C', 'O', 'N', 'N', 'E', 'C', 'T'], time, user]

def publishMessage (time user fileName description : Str) : List Str :=
  [['P', 'U', 'B', 'L', 'I', 'S', 'H'], time, user, removeSpaces fileName, description]

def deleteMessage (time user fileName : Str) : List Str :=
  [['D', 'E', 'L', 'E', 'T', 'E'], time, user, removeSpaces fileName]

def listUsersMessage (time user : Str) : List Str :=
  [['L', 'I', 'S', 'T', '_', 'U', 'S', 'E', 'R', 'S'], time, user]

def listContentMessage (time user target : Str) : List Str :=
  [['L', 'I', 'S', 'T', '_', 'C', 'O', 'N', 'T', 'E', 'N', 'T'], time, user, target]

/-! ## The methods -/

/-- What has become of a listening socket. -/
inductive ServerSocket where
  | bound
  | listening
  | shutDown
  | closed
deriving DecidableEq

/-- `shutdown(SHUT_RDWR)`, which raises unless the socket is listening. -/
def ServerSocket.shutdown : ServerSocket → Option ServerSocket
  | .listening => some .shutDown
  | _ => none

/-- The attributes of the class. -/
structure ClientState where
  connected : Bool
  user : Option Str
  stopFlag : Bool
  serverSocket : Option ServerSocket
deriving DecidableEq

/-- The attributes when the program starts. -/
def ClientState.init : ClientState where
  connected := false
  user := none
  stopFlag := false
  serverSocket := none

/-- How the outside answers one call of a method. -/
structure Environment (σ : Type) where
  /-- `connect_socket` gives a socket. -/
  connectSocket : Bool
  /-- `get_time` gives the time, or raises. -/
  getTime : Option StructTime
  /-- `socket` gives a socket to listen on, or raises. -/
  socket : Bool
  /-- `bind` finds a free port, or raises. -/
  bind : Option UInt16
  /-- `start` starts the listener thread, or raises. -/
  start : Bool
  /-- The longest numeral that `int` takes, if it has a limit. -/
  maxStrDigits : StrDigits
  /-- A message is sent and the other side answers and closes, or it raises. -/
  exchange : Bytes → σ → Option (Bytes × σ)

/-- The same outside, as far as the client gets a socket to listen on and a
listener thread. -/
def Environment.granting {σ : Type} (env : Environment σ) (socket start : Bool) :
    Environment σ :=
  { env with socket := socket, start := start }

section Methods

variable {σ : Type}

/-- The start of every `try` block: build the message, send it, and read the
first response. A message that cannot be built raises. -/
def send (env : Environment σ) (message : Str → Option (List Str)) (peer : σ) :
    Outcome (Str × Bytes) × σ :=
  match env.getTime.bind fun time => message (strftime time) with
  | none => (.raises, peer)
  | some m =>
      match env.exchange (encodeMessage m) peer with
      | none => (.raises, peer)
      | some (reply, peer') => (readResponse reply, peer')

def register (env : Environment σ) (user : Str) (peer : σ) : Outcome RC × σ :=
  if excedeTamano user then
    (.returns .userError, peer)
  else if env.connectSocket then
    let r := send env (fun time => some (registerMessage time user)) peer
    let answer := r.1.bind fun response =>
      if response.1 = ['0'] then .returns .ok
      else if response.1 = ['1'] then .returns .error
      else .returns .userError
    (answer.catching .userError, r.2)
  else
    (.returns .userError, peer)

def unregister (env : Environment σ) (user : Str) (peer : σ) : Outcome RC × σ :=
  if env.connectSocket then
    let r := send env (fun time => some (unregisterMessage time user)) peer
    let answer := r.1.bind fun response =>
      if response.1 = ['0'] then .returns .ok
      else if response.1 = ['1'] then .returns .error
      else .returns .userError
    (answer.catching .userError, r.2)
  else
    (.returns .error, peer)

/-- The listener thread is started on the answer `0`; what it does is not part
of the method. Whatever raises, the `except` block closes the socket in
`_server_socket`, and where there is none this raises once more. -/
def connect (env : Environment σ) (user : Str) (st : ClientState) (peer : σ) :
    Outcome RC × ClientState × σ :=
  let bound := { st with serverSocket := some .bound }
  let closed := { st with serverSocket := some .closed }
  if st.connected then
    (.returns .userError, st, peer)
  else if env.connectSocket then
    if env.socket then
      match env.bind with
      | none => (.returns .otherCases, closed, peer)
      | some port =>
          let r := send env (fun time => some (connectMessage time user port)) peer
          match r.1 with
          | .returns (response, _) =>
              if response = ['0'] then
                if env.start then
                  (.returns .ok, { bound with connected := true, user := some user }, r.2)
                else
                  (.returns .otherCases, closed, r.2)
              else if response = ['1'] then (.returns .error, closed, r.2)
              else if response = ['2'] then (.returns .userError, closed, r.2)
              else (.returns .otherCases, closed, r.2)
          | .raises => (.returns .otherCases, closed, r.2)
          | .hangs => (.hangs, bound, r.2)
    else
      match st.serverSocket with
      | none => (.raises, st, peer)
      | some _ => (.returns .otherCases, closed, peer)
  else
    (.returns .otherCases, st, peer)

/-- The attributes are reset before the response is looked at. -/
def disconnect (env : Environment σ) (user : Str) (st : ClientState) (peer : σ) :
    Outcome RC × ClientState × σ :=
  if env.connectSocket then
    let r := send env (fun time => some (disconnectMessage time user)) peer
    let st' := { st with connected := false, user := none, stopFlag := true }
    match r.1 with
    | .returns (response, _) =>
        if response = ['0'] then
          match st.serverSocket.bind ServerSocket.shutdown with
          | some socket => (.returns .ok, { st' with serverSocket := some socket }, r.2)
          | none => (.returns .otherCases, st', r.2)
        else if response = ['1'] then (.returns .error, st', r.2)
        else if response = ['2'] then (.returns .userError, st', r.2)
        else (.returns .otherCases, st', r.2)
    | .raises => (.returns .otherCases, st, r.2)
    | .hangs => (.hangs, st, r.2)
  else
    (.returns .otherCases, st, peer)

def publish (env : Environment σ) (fileName description : Str) (st : ClientState)
    (peer : σ) : Outcome RC × σ :=
  if excedeTamano fileName then
    (.returns .anotherCases, peer)
  else if !st.connected then
    (.returns .userError, peer)
  else if env.connectSocket then
    let r := send env
      (fun time => st.user.map fun user => publishMessage time user fileName description) peer
    let answer := r.1.bind fun response =>
      if response.1 = ['0'] then .returns .ok
      else if response.1 = ['1'] then .returns .error
      else if response.1 = ['2'] then .returns .userError
      else if response.1 = ['3'] then .returns .otherCases
      else .returns .anotherCases
    (answer.catching .anotherCases, r.2)
  else
    (.returns .anotherCases, peer)

def delete (env : Environment σ) (fileName : Str) (st : ClientState) (peer : σ) :
    Outcome RC × σ :=
  if excedeTamano fileName then
    (.returns .anotherCases, peer)
  else if !st.connected then
    (.returns .userError, peer)
  else if env.connectSocket then
    let r := send env
      (fun time => st.user.map fun user => deleteMessage time user fileName) peer
    let answer := r.1.bind fun response =>
      if response.1 = ['0'] then .returns .ok
      else if response.1 = ['1'] then .returns .error
      else if response.1 = ['2'] then .returns .userError
      else if response.1 = ['3'] then .returns .otherCases
      else .returns .anotherCases
    (answer.catching .anotherCases, r.2)
  else
    (.returns .anotherCases, peer)

/-- How the loop of a listing method ends, with the rows it has printed, the
strings printed of a row that it could not finish, and what it leaves of the
answer. -/
structure Reading (ρ : Type) where
  ends : Outcome Unit
  rows : List ρ
  begun : List Str
  unread : Bytes
deriving DecidableEq

/-- A `read_response` inside a row, behind the strings `begun` of that row. -/
def Reading.response {ρ : Type} (begun : List Str) (socket : Bytes)
    (next : Str × Bytes → Reading ρ) : Reading ρ :=
  match readResponse socket with
  | .returns r => next r
  | .raises => ⟨.raises, [], begun, undecoded socket⟩
  | .hangs => ⟨.hangs, [], begun, []⟩

/-- The rest of a loop behind a row. -/
def Reading.behind {ρ : Type} (row : ρ) (r : Reading ρ) : Reading ρ :=
  { r with rows := row :: r.rows }

/-- The loop of `listusers`. -/
def readUsers : ℕ → Bytes → Reading (Str × Str × Str)
  | 0, socket => ⟨.returns (), [], [], socket⟩
  | turns + 1, socket =>
      .response [] socket fun username =>
        .response [username.1] username.2 fun ip =>
          .response [username.1, ip.1] ip.2 fun port =>
            (readUsers turns port.2).behind (username.1, ip.1, port.1)

/-- The loop of `listcontent`. -/
def readFiles : ℕ → Bytes → Reading (Str × Str)
  | 0, socket => ⟨.returns (), [], [], socket⟩
  | turns + 1, socket =>
      .response [] socket fun fileName =>
        .response [fileName.1] fileName.2 fun description =>
          (readFiles turns description.2).behind (fileName.1, description.1)

/-- What a listing method gives: its code, what it prints, and the bytes behind
the result code that it leaves unread. -/
structure Listing (ρ : Type) where
  rc : RC
  rows : List ρ
  begun : List Str
  unread : Bytes
deriving DecidableEq

/-- A listing method that prints nothing. -/
def Listing.failed {ρ : Type} (rc : RC) (unread : Bytes) : Listing ρ where
  rc := rc
  rows := []
  begun := []
  unread := unread

@[simp] theorem Listing.rc_failed {ρ : Type} (rc : RC) (unread : Bytes) :
    (Listing.failed rc unread : Listing ρ).rc = rc := rfl

/-- The end of a listing method behind its loop: `OK`, or the code of the `except`
block. -/
def Reading.listing {ρ : Type} (rc : RC) (r : Reading ρ) : Outcome (Listing ρ) :=
  match r.ends with
  | .returns () => .returns ⟨.ok, r.rows, r.begun, r.unread⟩
  | .raises => .returns ⟨rc, r.rows, r.begun, r.unread⟩
  | .hangs => .hangs

/-- A listing method behind the code `0`: it reads the number and then the rows;
what raises ends in its `except` block. -/
def readListing {ρ : Type} (maxStrDigits : StrDigits) (loop : ℕ → Bytes → Reading ρ) (rc : RC)
    (socket : Bytes) : Outcome (Listing ρ) :=
  match readResponse socket with
  | .returns (number, rest) =>
      match int maxStrDigits number with
      | .returns turns => (loop turns.toNat rest).listing rc
      | .raises => .returns (.failed rc rest)
      | .hangs => .hangs
  | .raises => .returns (.failed rc (undecoded socket))
  | .hangs => .hangs

def listusers (env : Environment σ) (st : ClientState) (peer : σ) :
    Outcome (Listing (Str × Str × Str)) × σ :=
  if !st.connected then
    (.returns (.failed .userError []), peer)
  else if env.connectSocket then
    let r := send env (fun time => st.user.map fun user => listUsersMessage time user) peer
    let answer := r.1.bind fun response =>
      if response.1 = ['0'] then
        readListing env.maxStrDigits readUsers .otherCases response.2
      else if response.1 = ['1'] then .returns (.failed .error response.2)
      else if response.1 = ['2'] then .returns (.failed .userError response.2)
      else .returns (.failed .otherCases response.2)
    (answer.catching (.failed .otherCases []), r.2)
  else
    (.returns (.failed .otherCases []), peer)

def listcontent (env : Environment σ) (user : Str) (st : ClientState) (peer : σ) :
    Outcome (Listing (Str × Str)) × σ :=
  if !st.connected then
    (.returns (.failed .userError []), peer)
  else if env.connectSocket then
    let r := send env
      (fun time => st.user.map fun u => listContentMessage time u user) peer
    let answer := r.1.bind fun response =>
      if response.1 = ['0'] then
        readListing env.maxStrDigits readFiles .anotherCases response.2
      else if response.1 = ['1'] then .returns (.failed .error response.2)
      else if response.1 = ['2'] then .returns (.failed .userError response.2)
      else if response.1 = ['3'] then .returns (.failed .otherCases response.2)
      else .returns (.failed .anotherCases response.2)
    (answer.catching (.failed .anotherCases []), r.2)
  else
    (.returns (.failed .anotherCases []), peer)

end Methods

/-! ## Commands -/

/-- A call of one of the methods that send a request to the server. -/
inductive Command where
  | register (user : Str)
  | unregister (user : Str)
  | connect (user : Str)
  | disconnect (user : Str)
  | publish (fileName description : Str)
  | delete (fileName : Str)
  | listusers
  | listcontent (user : Str)
deriving DecidableEq

/-- The call of the method. -/
def Command.run {σ : Type} (env : Environment σ) (c : Command) (st : ClientState)
    (peer : σ) : Outcome RC × ClientState × σ :=
  match c with
  | .register user =>
      let r := Client.register env user peer
      (r.1, st, r.2)
  | .unregister user =>
      let r := Client.unregister env user peer
      (r.1, st, r.2)
  | .connect user => Client.connect env user st peer
  | .disconnect user => Client.disconnect env user st peer
  | .publish fileName description =>
      let r := Client.publish env fileName description st peer
      (r.1, st, r.2)
  | .delete fileName =>
      let r := Client.delete env fileName st peer
      (r.1, st, r.2)
  | .listusers =>
      let r := Client.listusers env st peer
      (r.1.bind fun listing => .returns listing.rc, st, r.2)
  | .listcontent user =>
      let r := Client.listcontent env user st peer
      (r.1.bind fun listing => .returns listing.rc, st, r.2)

end Client

end PeerDirectory
