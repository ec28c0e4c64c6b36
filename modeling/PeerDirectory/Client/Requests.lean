import PeerDirectory.Client.Response
import PeerDirectory.Server.Request

/-!
# Requests of the client as the server receives them

A message of the client is a list of strings, each in UTF-8 and ended by a NUL.
The server reads it back with one `readLine` for each string. This gives every
string back exactly when each argument has at most 255 bytes and no newline; the
client itself checks the length of a user name in `register` and of a file name
only, and the newline nowhere.
-/

namespace PeerDirectory

namespace Client

/-! ## Strings that fit -/

/-- A string the server receives as it was sent, given that it has no NUL. -/
def ReceivedWhole (a : Str) : Prop :=
  (Text.encode a).length ≤ 255 ∧ Char.ofNat 10 ∉ a

instance (a : Str) : Decidable (ReceivedWhole a) :=
  inferInstanceAs (Decidable ((Text.encode a).length ≤ 255 ∧ Char.ofNat 10 ∉ a))

theorem fitsLine_encode_iff {a : Str} (hnul : Char.ofNat 0 ∉ a) :
    FitsLine maxValueLength (Text.encode a) ↔ ReceivedWhole a := by
  have h0 : (0 : UInt8) ∉ Text.encode a := fun h =>
    hnul ((Text.mem_encode_iff (by decide)).mp h)
  have h10 : (10 : UInt8) ∈ Text.encode a ↔ Char.ofNat 10 ∈ a :=
    Text.mem_encode_iff (by decide)
  refine and_congr_right fun _ => ?_
  rw [← h10]
  constructor
  · intro h hb
    exact absurd (h 10 hb) (by decide)
  · intro h b hb
    rw [isEndOfLine_eq_false_iff]
    exact ⟨fun hb10 => h (hb10 ▸ hb), fun hb0 => h0 (hb0 ▸ hb)⟩

/-- Printable ASCII text of at most 255 characters fits. -/
theorem fitsLine_encode_of_ascii {a : Str} (hlen : a.length ≤ 255)
    (ha : ∀ c ∈ a, 32 ≤ c.toNat ∧ c.toNat < 128) :
    FitsLine maxValueLength (Text.encode a) := by
  have hnot : ∀ n < 32, Char.ofNat n ∉ a := by
    intro n hn h
    have := (ha _ h).1
    rw [Text.toNat_ofNat_of_lt (by omega)] at this
    omega
  rw [fitsLine_encode_iff (hnot 0 (by decide)), ReceivedWhole,
    Text.length_encode fun c hc => (ha c hc).2]
  exact ⟨hlen, hnot 10 (by decide)⟩

/-- The characters of the numerals and separators of a time. -/
theorem mem_strftime {t : StructTime} {c : Char} (hc : c ∈ strftime t) :
    32 ≤ c.toNat ∧ c.toNat < 128 := by
  have hdigits : ∀ n, c ∈ Nat.toDigits 10 n → 32 ≤ c.toNat ∧ c.toNat < 128 := by
    intro n hn
    have := toNat_lt_of_mem_toDigits hn
    omega
  have htwo : ∀ n, c ∈ twoDigits n → 32 ≤ c.toNat ∧ c.toNat < 128 := by
    intro n hn
    unfold twoDigits at hn
    split at hn
    · rcases List.mem_cons.mp hn with rfl | hn
      · decide
      · exact hdigits n hn
    · exact hdigits n hn
  simp only [strftime, List.mem_append, List.mem_cons, List.cons_append,
    List.append_assoc] at hc
  rcases hc with h | rfl | h | rfl | h | rfl | h | rfl | h | rfl | h
  all_goals first
    | exact htwo _ h
    | exact hdigits _ h
    | decide

theorem length_twoDigits_le {n : ℕ} (hn : n < 100) : (twoDigits n).length ≤ 2 := by
  unfold twoDigits
  split
  · next h =>
      have := (Nat.length_toDigits_le_iff (b := 10) (k := 1) (n := n) (by decide) (by decide)).mpr
        (by omega)
      simpa using this
  · exact (Nat.length_toDigits_le_iff (by decide) (by decide)).mpr (by omega)

theorem length_strftime_le (t : StructTime) : (strftime t).length ≤ 19 := by
  have hyear : (Nat.toDigits 10 t.year).length ≤ 4 :=
    (Nat.length_toDigits_le_iff (by decide) (by decide)).mpr t.year.isLt
  have hmon := length_twoDigits_le (n := t.mon) (by omega)
  have hmday := length_twoDigits_le (n := t.mday) (by omega)
  have hhour := length_twoDigits_le (n := t.hour) (by omega)
  have hmin := length_twoDigits_le (n := t.min) (by omega)
  have hsec := length_twoDigits_le (n := t.sec) (by omega)
  simp only [strftime, List.cons_append, List.append_assoc, List.length_append,
    List.length_cons]
  omega

theorem fitsLine_strftime (t : StructTime) :
    FitsLine maxValueLength (Text.encode (strftime t)) :=
  fitsLine_encode_of_ascii ((length_strftime_le t).trans (by decide)) fun _ => mem_strftime

theorem fitsLine_toDigits (port : UInt16) :
    FitsLine maxValueLength (Text.encode (Nat.toDigits 10 port.toNat)) := by
  refine fitsLine_encode_of_ascii ?_ fun c hc => ?_
  · have hlen : (Nat.toDigits 10 port.toNat).length ≤ 5 :=
      (Nat.length_toDigits_le_iff (by decide) (by decide)).mpr
        (port.toNat_lt.trans (by decide))
    omega
  · have := toNat_lt_of_mem_toDigits hc
    omega

/-! ## Messages -/

namespace Command

/-- The message of a call, for a client whose user is `user`. -/
def message (time user : Str) (port : UInt16) : Command → List Str
  | .register u => registerMessage time u
  | .unregister u => unregisterMessage time u
  | .connect u => connectMessage time u port
  | .disconnect u => disconnectMessage time u
  | .publish fileName description => publishMessage time user fileName description
  | .delete fileName => deleteMessage time user fileName
  | .listusers => listUsersMessage time user
  | .listcontent target => listContentMessage time user target

/-- The strings of the message that come from the caller or from an earlier
`connect`. -/
def arguments (user : Str) : Command → List Str
  | .register u => [u]
  | .unregister u => [u]
  | .connect u => [u]
  | .disconnect u => [u]
  | .publish fileName description => [user, removeSpaces fileName, description]
  | .delete fileName => [user, removeSpaces fileName]
  | .listusers => [user]
  | .listcontent target => [user, target]

/-- The user in whose name the message asks. -/
def userName (user : Str) : Command → Str
  | .register u => u
  | .unregister u => u
  | .connect u => u
  | .disconnect u => u
  | _ => user

/-- The operation the message asks for. -/
def operation : Command → Operation
  | .register _ => .register
  | .unregister _ => .unregister
  | .connect _ => .connect
  | .disconnect _ => .disconnect
  | .publish _ _ => .publish
  | .delete _ => .delete
  | .listusers => .listUsers
  | .listcontent _ => .listContent

/-- The port that closes the message of `connect`. -/
def portField (port : UInt16) : Command → List Str
  | .connect _ => [Nat.toDigits 10 port.toNat]
  | _ => []

theorem userName_mem_arguments (c : Command) (user : Str) :
    c.userName user ∈ c.arguments user := by
  cases c <;> simp [userName, arguments]

/-- The user name is the first field behind the time. -/
theorem map_encode_message_userName (c : Command) (time user : Str) (port : UInt16) :
    ∃ fs, (c.message time user port).map Text.encode =
      c.operation.name :: Text.encode time :: Text.encode (c.userName user) :: fs := by
  cases c <;> exact ⟨_, rfl⟩

theorem map_encode_message (c : Command) (time user : Str) (port : UInt16) :
    (c.message time user port).map Text.encode =
      c.operation.name :: Text.encode time ::
        ((c.arguments user).map Text.encode ++ (c.portField port).map Text.encode) := by
  cases c <;> rfl

end Command

/-- The server as the other side: it handles each message alone. That it dies of a
listing without memory is not seen here. No numeral of the server is long: a count
is an `int`, and a port has 255 bytes at most. -/
def Environment.server (time : StructTime) (port : UInt16) (o : Outcomes) :
    Environment Shared where
  connectSocket := true
  getTime := some time
  socket := true
  bind := some port
  start := true
  maxStrDigits := .unlimited
  exchange := fun m g => (treatRequest (.ofStream m o) g).map fun r => (r.2.sent, r.1)

/-- An environment that keeps the messages and never answers. -/
def Environment.recording (time : StructTime) (port : UInt16) : Environment (List Bytes) where
  connectSocket := true
  getTime := some time
  socket := true
  bind := some port
  start := true
  maxStrDigits := .unlimited
  exchange := fun m log => some ([], log ++ [m])

/-- The messages a call sends; a call that fails the checks of the client sends
none. -/
def Command.sent (c : Command) (time : StructTime) (port : UInt16) (st : ClientState) :
    List Bytes :=
  (c.run (.recording time port) st []).2.2

theorem send_recording (time : StructTime) (port : UInt16)
    (message : Str → Option (List Str)) :
    (send (.recording time port) message []).2 =
      (message (strftime time)).toList.map encodeMessage := by
  simp only [send, Environment.recording, Option.bind_some]
  cases message (strftime time) <;> rfl

theorem eq_getD_of_map_eq_some {α β : Type} {user : Option α} {f : α → β} {default : α} {m : β}
    (h : user.map f = some m) : m = f (user.getD default) := by
  obtain ⟨a, rfl, rfl⟩ := Option.map_eq_some_iff.mp h
  rfl

/-- A call leaves the other side alone or sends it the message of the call. -/
theorem Command.run_peer {σ : Type} (env : Environment σ) (c : Command) (st : ClientState)
    (peer : σ) :
    (c.run env st peer).2.2 = peer ∨
      ∃ request : Str → Option (List Str),
        (c.run env st peer).2.2 = (send env request peer).2 ∧
          ∀ time m, request time = some m →
            m = c.message time (st.user.getD []) (env.bind.getD 0) := by
  cases c with
  | register user =>
      simp only [run, Client.register]
      split
      · exact Or.inl rfl
      · split
        · exact Or.inr ⟨_, rfl, fun time m h => (Option.some.inj h).symm⟩
        · exact Or.inl rfl
  | unregister user =>
      simp only [run, Client.unregister]
      split
      · exact Or.inr ⟨_, rfl, fun time m h => (Option.some.inj h).symm⟩
      · exact Or.inl rfl
  | connect user =>
      simp only [run, Client.connect]
      split
      · exact Or.inl rfl
      · split
        · split
          · cases hport : env.bind with
            | none => exact Or.inl rfl
            | some port =>
                refine Or.inr ⟨_, ?_, fun time m h => (Option.some.inj h).symm⟩
                dsimp only
                split <;> (repeat' split) <;> rfl
          · split <;> exact Or.inl rfl
        · exact Or.inl rfl
  | disconnect user =>
      simp only [run, Client.disconnect]
      split
      · refine Or.inr ⟨_, ?_, fun time m h => (Option.some.inj h).symm⟩
        split <;> (repeat' split) <;> rfl
      · exact Or.inl rfl
  | publish fileName description =>
      simp only [run, Client.publish]
      split
      · exact Or.inl rfl
      · split
        · exact Or.inl rfl
        · split
          · exact Or.inr ⟨_, rfl, fun time m h => eq_getD_of_map_eq_some h⟩
          · exact Or.inl rfl
  | delete fileName =>
      simp only [run, Client.delete]
      split
      · exact Or.inl rfl
      · split
        · exact Or.inl rfl
        · split
          · exact Or.inr ⟨_, rfl, fun time m h => eq_getD_of_map_eq_some h⟩
          · exact Or.inl rfl
  | listusers =>
      simp only [run, Client.listusers]
      split
      · exact Or.inl rfl
      · split
        · exact Or.inr ⟨_, rfl, fun time m h => eq_getD_of_map_eq_some h⟩
        · exact Or.inl rfl
  | listcontent target =>
      simp only [run, Client.listcontent]
      split
      · exact Or.inl rfl
      · split
        · exact Or.inr ⟨_, rfl, fun time m h => eq_getD_of_map_eq_some h⟩
        · exact Or.inl rfl

/-- Only `connect` needs a socket to listen on and a listener thread. -/
theorem Command.run_granting {σ : Type} (env : Environment σ) (socket start : Bool) {c : Command}
    (hc : ∀ user, c ≠ .connect user) (st : ClientState) (peer : σ) :
    c.run (env.granting socket start) st peer = c.run env st peer := by
  cases c with
  | connect user => exact absurd rfl (hc user)
  | _ => rfl

theorem Command.sent_eq {c : Command} {time : StructTime} {port : UInt16}
    {st : ClientState} {m : Bytes} (h : c.sent time port st = [m]) :
    m = encodeMessage (c.message (strftime time) (st.user.getD []) port) := by
  rcases c.run_peer (.recording time port) st [] with hp | ⟨request, hp, hm⟩
  · rw [sent, hp] at h
    cases h
  · rw [sent, hp, send_recording] at h
    cases hr : request (strftime time) with
    | none => simp [hr] at h
    | some message =>
        simp only [hr, Option.toList_some, List.map_cons, List.map_nil, List.cons.injEq,
          and_true] at h
        rw [← h, hm _ _ hr]
        rfl

/-! ## Received as sent -/

/-- The strings of a message that do not come from the caller always fit. -/
theorem Command.fitsLine_message_iff (c : Command) (time : StructTime) (user : Str)
    (port : UInt16) :
    (∀ f ∈ (c.message (strftime time) user port).map Text.encode, FitsLine maxValueLength f) ↔
      ∀ a ∈ c.arguments user, FitsLine maxValueLength (Text.encode a) := by
  have hport : ∀ f ∈ (c.portField port).map Text.encode, FitsLine maxValueLength f := by
    cases c with
    | connect u => simpa [portField] using fitsLine_toDigits port
    | _ => simp [portField]
  rw [map_encode_message]
  constructor
  · intro h a ha
    apply h
    simp only [List.mem_cons, List.mem_append]
    exact Or.inr (Or.inr (Or.inl (List.mem_map_of_mem ha)))
  · intro h f hf
    simp only [List.mem_cons, List.mem_append] at hf
    rcases hf with rfl | rfl | hf | hf
    · exact fitsLine_name _
    · exact fitsLine_strftime time
    · obtain ⟨a, ha, rfl⟩ := List.mem_map.mp hf
      exact h a ha
    · exact hport f hf

/-- The directory entry the server looks up for a user name in a message. -/
def entryName (user : Str) : Bytes :=
  (lineOf (Text.encode user)).take (maxValueLength - 1)

theorem entryName_eq {user : Str} (hnul : Char.ofNat 0 ∉ user) (h : ReceivedWhole user) :
    entryName user = Text.encode user := by
  obtain ⟨hlen, hline⟩ := (fitsLine_encode_iff hnul).mpr h
  rw [entryName, lineOf, Delimited.line_eq_self hline, List.take_of_length_le hlen]

/-- The entry a request of the client addresses, for any user name. -/
theorem Command.received_userName (c : Command) (time : StructTime) (user : Str)
    (port : UInt16) :
    received 2 (encodeMessage (c.message (strftime time) user port)) =
      entryName (c.userName user) := by
  obtain ⟨fs, hfs⟩ := c.map_encode_message_userName (strftime time) user port
  have hname : ∀ b ∈ c.operation.name, isEndOfLine b = false := (fitsLine_name _).2
  have htime : ∀ b ∈ Text.encode (strftime time), isEndOfLine b = false :=
    (fitsLine_strftime time).2
  rw [encodeMessage, hfs, received, Delimited.frame_cons, Delimited.frame_cons,
    Delimited.frame_cons, Delimited.field_succ, Delimited.rest_append_cons hname isEndOfLine_zero,
    Delimited.field_succ, Delimited.rest_append_cons htime isEndOfLine_zero,
    Delimited.field_zero, Delimited.line_append_stop isEndOfLine_zero]
  rfl

/-- The handler takes a message for the operation it asks for. -/
theorem Command.command_commandString (c : Command) (time : StructTime) (user : Str)
    (port : UInt16) (g : Shared) :
    command (commandString g (encodeMessage (c.message (strftime time) user port))) =
      some c.operation := by
  obtain ⟨fs, hfs⟩ := c.map_encode_message_userName (strftime time) user port
  obtain ⟨hlen, hname⟩ := fitsLine_name c.operation
  rw [encodeMessage, hfs, Delimited.frame_cons, commandString, if_neg (by simp), received,
    Delimited.field_zero, Delimited.line_append_cons hname isEndOfLine_zero,
    List.take_of_length_le hlen, command_name]

/-- What the server answers to a message of the client, and what it keeps. -/
theorem exchange_server {c : Command} {time : StructTime} {user : Str} {port : UInt16}
    {o : Outcomes} {g : Shared} {served : Served}
    (h : let s := encodeMessage (c.message (strftime time) user port)
      c.operation.serve (.ofStream s o) s g.store = some served) :
    ∃ g' : Shared, g'.store = served.store ∧
      (Environment.server time port o).exchange
        (encodeMessage (c.message (strftime time) user port)) g = some (served.reply, g') := by
  set s := encodeMessage (c.message (strftime time) user port)
  have hspec := treatRequest_eq (.ofStream s o) s g rfl rfl
  rw [c.command_commandString] at hspec
  obtain ⟨⟨g', handler⟩, hrun, rfl⟩ := Option.map_eq_some_iff.mp (hspec.trans h)
  exact ⟨g', rfl, Option.map_eq_some_iff.mpr ⟨(g', handler), hrun, rfl⟩⟩

/-- A message of the client is received as it was sent, field by field and to
its end, exactly when every argument has at most 255 bytes and no newline; and
two messages that meet this address one entry of the directory only if they name
one user. -/
theorem received_as_sent_iff (c : Command) (st : ClientState) (time : StructTime)
    (port : UInt16) {m : Bytes} (hsent : c.sent time port st = [m])
    (hnul : ∀ a ∈ c.arguments (st.user.getD []), Char.ofNat 0 ∉ a) :
    let user := st.user.getD []
    let message := c.message (strftime time) user port
    (readLines maxValueLength message.length (ofBytes m) = (message.map Text.encode, []) ↔
        ∀ a ∈ c.arguments user, ReceivedWhole a) ∧
      ∀ (c' : Command) (st' : ClientState) (time' : StructTime) (port' : UInt16) (m' : Bytes),
        c'.sent time' port' st' = [m'] →
        (∀ a ∈ c'.arguments (st'.user.getD []), Char.ofNat 0 ∉ a ∧ ReceivedWhole a) →
        (∀ a ∈ c.arguments user, ReceivedWhole a) → received 2 m = received 2 m' →
          c.userName user = c'.userName (st'.user.getD []) := by
  constructor
  · rw [c.sent_eq hsent, encodeMessage, ← List.length_map (f := Text.encode),
      readLines_frame_iff (by decide), c.fitsLine_message_iff]
    exact forall₂_congr fun a ha => fitsLine_encode_iff (hnul a ha)
  · intro c' st' time' port' m' hsent' h' h heq
    have hmem := c.userName_mem_arguments (st.user.getD [])
    have hmem' := c'.userName_mem_arguments (st'.user.getD [])
    rw [c.sent_eq hsent, c'.sent_eq hsent', Command.received_userName,
      Command.received_userName, entryName_eq (hnul _ hmem) (h _ hmem),
      entryName_eq (h' _ hmem').1 (h' _ hmem').2] at heq
    exact Text.encode_injective heq

theorem received_as_sent_iff_register :
    let user := ClientState.init.user.getD []
    let message := (Command.register ['a']).message (strftime ⟨2023, 12, 1, 10, 0, 0⟩) user 80
    (readLines maxValueLength message.length (ofBytes (encodeMessage message)) =
        (message.map Text.encode, []) ↔
        ∀ a ∈ (Command.register ['a']).arguments user, ReceivedWhole a) ∧
      ∀ (c' : Command) (st' : ClientState) (time' : StructTime) (port' : UInt16) (m' : Bytes),
        c'.sent time' port' st' = [m'] →
        (∀ a ∈ c'.arguments (st'.user.getD []), Char.ofNat 0 ∉ a ∧ ReceivedWhole a) →
        (∀ a ∈ (Command.register ['a']).arguments user, ReceivedWhole a) →
        received 2 (encodeMessage message) = received 2 m' →
          (Command.register ['a']).userName user = c'.userName (st'.user.getD []) :=
  received_as_sent_iff (.register ['a']) .init ⟨2023, 12, 1, 10, 0, 0⟩ 80
    (by decide +kernel) (by decide +kernel)

/-- A newline ends the user name: `a` and `ab` with a newline between them are
accepted by the client and registered as one user. -/
theorem newline_not_received_as_sent :
    let time : StructTime := ⟨2023, 12, 1, 10, 0, 0⟩
    let message := registerMessage (strftime time) ['a', Char.ofNat 10, 'b']
    (Command.register ['a', Char.ofNat 10, 'b']).sent time 80 .init = [encodeMessage message] ∧
      (readLines maxValueLength message.length (ofBytes (encodeMessage message))).1 ≠
        message.map Text.encode ∧
      received 2 (encodeMessage message) =
        received 2 (encodeMessage (registerMessage (strftime time) ['a'])) := by
  decide +kernel

end Client

end PeerDirectory
