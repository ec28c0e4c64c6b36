import PeerDirectory.Client.GetFile
import PeerDirectory.Server.Connections

/-!
# Listings of users as the client reads them

LIST_USERS sends the connected users in list order, whichever users the list has
in between and at its end. `get_data_by_user` goes through what is sent up to the
user it looks for; names are unique in the store, so it finds the user exactly
when it is connected.
-/

namespace PeerDirectory

/-! ## What the client reads -/

/-- Every string of a row is ASCII. -/
def AsciiUserRow (row : Bytes × Bytes × Bytes) : Prop :=
  Text.IsAscii row.1 ∧ Text.IsAscii row.2.1 ∧ Text.IsAscii row.2.2

/-- A decimal number. -/
def IsDecimal (s : Bytes) : Prop :=
  s ≠ [] ∧ ∀ b ∈ s, 48 ≤ b.toNat ∧ b.toNat ≤ 57

/-- The number a string of digits stands for. -/
def decimalValue (s : Bytes) : ℕ :=
  Nat.ofDigitChars 10 (Text.ofAscii s) 0

/-- No string of the row has a NUL. -/
def NulFreeRow (row : Bytes × Bytes × Bytes) : Prop :=
  0 ∉ row.1 ∧ 0 ∉ row.2.1 ∧ 0 ∉ row.2.2

theorem nulFreeRow_row (n : Node) : NulFreeRow n.row :=
  ⟨n.username.nul_notMem_str, n.ip.nul_notMem_str, n.port.nul_notMem_str⟩

namespace Client

theorem int_ofAscii {maxStrDigits : StrDigits} {s : Bytes} (h : IsDecimal s)
    (hlength : Takes maxStrDigits s.length) :
    int maxStrDigits (Text.ofAscii s) = .returns (decimalValue s : ℕ) := by
  refine int_of_isDigit (by simpa [Text.ofAscii] using h.1) ?_
    (by simpa [Text.ofAscii] using hlength)
  intro c hc
  obtain ⟨b, hb, rfl⟩ := List.mem_map.mp hc
  obtain ⟨hlow, hhigh⟩ := h.2 b hb
  have hval : (Char.ofNat b.toNat).toNat = b.toNat := Text.toNat_ofNat_of_lt (by omega)
  simp only [Char.isDigit, Bool.and_eq_true, decide_eq_true_eq, ge_iff_le]
  constructor
  · change 48 ≤ (Char.ofNat b.toNat).toNat
    omega
  · change (Char.ofNat b.toNat).toNat ≤ 57
    omega

/-- The three strings of a user in front of what follows. -/
theorem readResponse_sentUser {row : Bytes × Bytes × Bytes} (hnul : NulFreeRow row)
    (hascii : AsciiUserRow row) (s : Bytes) :
    readResponse (sentUser row ++ s) =
        .returns (Text.ofAscii row.1, cstring row.2.1 ++ (cstring row.2.2 ++ s)) ∧
      readResponse (cstring row.2.1 ++ (cstring row.2.2 ++ s)) =
        .returns (Text.ofAscii row.2.1, cstring row.2.2 ++ s) ∧
      readResponse (cstring row.2.2 ++ s) = .returns (Text.ofAscii row.2.2, s) := by
  obtain ⟨hname, hip, hport⟩ := hnul
  obtain ⟨hname', hip', hport'⟩ := hascii
  refine ⟨?_, readResponse_cstring hip hip' _, readResponse_cstring hport hport' s⟩
  rw [sentUser, List.append_assoc, List.append_assoc]
  exact readResponse_cstring hname hname' _

/-- The loop of `get_data_by_user` finds the first row with the name of the
user. -/
theorem findUser_sent {maxStrDigits : StrDigits} (user : Str)
    {rows : List (Bytes × Bytes × Bytes)} (hnul : ∀ r ∈ rows, NulFreeRow r)
    (hascii : ∀ r ∈ rows, AsciiUserRow r)
    (hport : ∀ r ∈ rows, IsDecimal r.2.2 ∧ Takes maxStrDigits r.2.2.length) :
    findUser maxStrDigits user rows.length (rows.flatMap sentUser) =
      .returns ((rows.find? fun r => Text.ofAscii r.1 = user).map fun r =>
        (Text.ofAscii r.2.1, (decimalValue r.2.2 : Int))) := by
  induction rows with
  | nil => rfl
  | cons r rows ih =>
      obtain ⟨hfirst, hsecond, hthird⟩ :=
        readResponse_sentUser (hnul r (by simp)) (hascii r (by simp)) (rows.flatMap sentUser)
      rw [List.flatMap_cons, List.length_cons, findUser, hfirst, Outcome.bind_returns, hsecond,
        Outcome.bind_returns, hthird, Outcome.bind_returns, List.find?_cons]
      by_cases hname : Text.ofAscii r.1 = user
      · obtain ⟨hdecimal, htakes⟩ := hport r (by simp)
        rw [if_pos hname, int_ofAscii hdecimal htakes, Outcome.bind_returns]
        simp [hname]
      · rw [if_neg hname, ih (fun q hq => hnul q (by simp [hq]))
          (fun q hq => hascii q (by simp [hq])) fun q hq => hport q (by simp [hq])]
        simp [hname]

/-- What `get_data_by_user` makes of a listing. -/
theorem getDataByUser_usersListing {maxStrDigits : StrDigits} (user : Str)
    {messages : List Node} (hascii : ∀ n ∈ messages, n.connected = true → AsciiUserRow n.row)
    (hport : ∀ n ∈ messages, n.connected = true → IsDecimal n.port.str)
    (hcount : Takes maxStrDigits (decimal (messages.filter Node.connected).length).length) :
    getDataByUser maxStrDigits (usersListing messages) user =
      .returns (((messages.filter Node.connected).find? fun n => Text.ofAscii n.name = user).map
        fun n => (Text.ofAscii n.ip.str, (decimalValue n.port.str : Int))) := by
  set users := messages.filter Node.connected with husers
  have hmem : ∀ n ∈ users, n ∈ messages ∧ n.connected = true := fun n hn =>
    List.mem_filter.mp hn
  have hnul : ∀ r ∈ users.map Node.row, NulFreeRow r :=
    List.forall_mem_map.mpr fun n _ => nulFreeRow_row n
  have htakes : ∀ n ∈ users, Takes maxStrDigits n.port.str.length := fun n _ =>
    takes_of_le (n.port.length_str_le.trans (by decide))
  have hfind := findUser_sent user hnul
    (List.forall_mem_map.mpr fun n hn => hascii n (hmem n hn).1 (hmem n hn).2)
    (List.forall_mem_map.mpr fun n hn => ⟨hport n (hmem n hn).1 (hmem n hn).2, htakes n hn⟩)
  rw [length_decimal] at hcount
  rw [getDataByUser, usersListing, ← husers, readResponse_decimal, Outcome.bind_returns,
    int_toDigits hcount, Outcome.bind_returns, Int.toNat_natCast]
  rw [List.length_map, List.flatMap_map, List.find?_map, Option.map_map] at hfind
  exact hfind

end Client

/-! ## The listing of one requester -/

/-- A decoded name is the user exactly when the user has that name. -/
theorem ofAscii_eq_iff (user : Str) {bs : Bytes} (h : Text.IsAscii bs) :
    Text.ofAscii bs = user ↔ bs = Text.encode user := by
  constructor
  · rintro rfl
    exact (Text.encode_ofAscii h).symm
  · rintro rfl
    exact Text.ofAscii_encode h

/-- Among unique ASCII names a user is found by its decoded name. -/
theorem find?_ofAscii (user : Str) {users : List Node}
    (hunique : KeyedList.NodupKeys Node.name users)
    (hascii : ∀ n ∈ users, Text.IsAscii n.name) {n : Node} :
    users.find? (fun n => Text.ofAscii n.name = user) = some n ↔
      n ∈ users ∧ n.name = Text.encode user := by
  have hcongr : users.find? (fun n => decide (Text.ofAscii n.name = user)) =
      KeyedList.lookup Node.name (Text.encode user) users := by
    rw [KeyedList.lookup]
    induction users with
    | nil => rfl
    | cons m users ih =>
        have hm := ofAscii_eq_iff user (hascii m (by simp))
        rw [List.find?_cons, List.find?_cons, ih (KeyedList.nodupKeys_cons.mp hunique).2
          fun n hn => hascii n (by simp [hn])]
        simp only [hm]
  rw [hcongr, KeyedList.lookup_eq_some_iff hunique]

/-- The strings of a user in the answer. -/
def Node.frames (n : Node) : List Bytes :=
  [n.name, n.ip.str, n.port.str]

/-- The answer as a sequence of NUL-terminated strings. -/
theorem usersListing_eq_frame (messages : List Node) :
    errorStr 0 ++ usersListing messages =
      Delimited.frame 0 ([48] :: decimal (messages.filter Node.connected).length ::
        (messages.filter Node.connected).flatMap Node.frames) := by
  have hrow : ∀ n : Node, sentUser n.row = Delimited.frame 0 n.frames := by
    intro n
    simp [sentUser, Node.row, Node.frames, Delimited.frame, cstring]
  simp only [usersListing, hrow, Delimited.frame, List.flatMap_cons, List.flatMap_assoc]
  rfl

/-- LIST_USERS of a connected user, after any connections: the answer is the
code, the number of connected users and these users in the order of the store,
and nothing that nobody has set is read to send it. `get_data_by_user` finds in
what follows the code the address of a connected user, and that any other user is
not there, if its interpreter takes a numeral as long as this number. -/
theorem listUsers_answered {conns : List Connection} {g : Shared}
    (hserve : serve .init conns = some g) {s : Bytes} {o : Outcomes} (ho : o.Allocated)
    (hcommand : command (commandString g s) = some .listUsers) {requester : Node}
    (hrequester : KeyedList.lookup Node.name (received 2 s) g.store.messages = some requester)
    (hconnected : requester.connected = true) :
    let users := g.store.messages.filter Node.connected
    ∃ chain g' h rest,
      (Call.listUsers (received 2 s)).perform o g.store =
          some (g.store, .users chain users.length) ∧
        (sendUsersLoop users.length chain).isSome ∧
      treatRequest (.ofStream s o) g = some (g', h) ∧
      h.sent = Delimited.frame 0 ([48] :: decimal users.length :: users.flatMap Node.frames) ∧
      Client.readResponse h.sent = .returns (['0'], rest) ∧
      ((∀ n ∈ users, AsciiUserRow n.row ∧ IsDecimal n.port.str) →
        ∀ (maxStrDigits : Client.StrDigits) (user : Str),
          Client.Takes maxStrDigits (decimal users.length).length →
            (∀ n ∈ users, n.name = Text.encode user →
              Client.getDataByUser maxStrDigits rest user =
                .returns (some (Text.ofAscii n.ip.str, (decimalValue n.port.str : Int)))) ∧
            ((∀ n ∈ users, n.name ≠ Text.encode user) →
              Client.getDataByUser maxStrDigits rest user = .returns none)) := by
  intro users
  have hvalid : g.Valid := Shared.valid_init.serve hserve
  obtain ⟨chain, hresult, hsend⟩ := listUsers_of_lookup ho hrequester hconnected
  obtain ⟨served, hserved, hreply⟩ := serve_listUsers ho hrequester hconnected
  have hspec := treatRequest_eq (.ofStream s o) s g rfl rfl
  rw [hcommand] at hspec
  obtain ⟨⟨g', h⟩, hrun, heq⟩ := Option.map_eq_some_iff.mp (hspec.trans hserved)
  have hsent : h.sent = errorStr 0 ++ usersListing g.store.messages := by
    rw [← hreply, ← heq]
    rfl
  refine ⟨chain, g', h, usersListing g.store.messages, perform_listUsers hresult,
    by simp [hsend, users], hrun, by rw [hsent, usersListing_eq_frame], by simp [hsent], ?_⟩
  intro hrows maxStrDigits user hcount
  have hmem : ∀ n ∈ g.store.messages, n.connected = true → n ∈ users := fun n hn hc =>
    List.mem_filter.mpr ⟨hn, hc⟩
  have hdata := Client.getDataByUser_usersListing user
    (fun n hn hc => (hrows n (hmem n hn hc)).1) (fun n hn hc => (hrows n (hmem n hn hc)).2)
    hcount
  have hunique : KeyedList.NodupKeys Node.name users :=
    List.Nodup.sublist (List.filter_sublist.map _) hvalid.store.unique.users
  have hfind : ∀ n, users.find? (fun n => Text.ofAscii n.name = user) = some n ↔
      n ∈ users ∧ n.name = Text.encode user :=
    fun _ => find?_ofAscii user hunique fun m hm => (hrows m hm).1.1
  constructor
  · intro n hn hname
    rw [hdata, (hfind n).mpr ⟨hn, hname⟩]
    rfl
  · intro hnot
    have hnone : users.find? (fun n => Text.ofAscii n.name = user) = none := by
      cases h : users.find? fun n => Text.ofAscii n.name = user with
      | none => rfl
      | some n =>
          obtain ⟨hn, hname⟩ := (hfind n).mp h
          exact absurd hname (hnot n hn)
    rw [hdata, hnone]
    rfl

/-- The user `a` is connected. The newest user stands first in the list: `b`, which
is not connected, in front of `a`, and `c` behind it. -/
theorem listUsers_answered_between :
    let o := Outcomes.success ⟨10, 0, 0, 1⟩
    let conns : List Connection :=
      [.ofStream (encodeRequest .register [[100], [99]]) o,
        .ofStream (encodeRequest .register [[100], [97]]) o,
        .ofStream (encodeRequest .connect [[100], [97], [56, 48]]) o,
        .ofStream (encodeRequest .register [[100], [98]]) o]
    let s := encodeRequest .listUsers [[100], [97]]
    ∃ g, serve .init conns = some g ∧
      let users := g.store.messages.filter Node.connected
      ∃ chain g' h rest,
        (Call.listUsers (received 2 s)).perform o g.store =
            some (g.store, .users chain users.length) ∧
          (sendUsersLoop users.length chain).isSome ∧
        treatRequest (.ofStream s o) g = some (g', h) ∧
        h.sent = Delimited.frame 0 ([48] :: decimal users.length :: users.flatMap Node.frames) ∧
        Client.readResponse h.sent = .returns (['0'], rest) ∧
        ((∀ n ∈ users, AsciiUserRow n.row ∧ IsDecimal n.port.str) →
          ∀ (maxStrDigits : Client.StrDigits) (user : Str),
            Client.Takes maxStrDigits (decimal users.length).length →
              (∀ n ∈ users, n.name = Text.encode user →
                Client.getDataByUser maxStrDigits rest user =
                  .returns (some (Text.ofAscii n.ip.str, (decimalValue n.port.str : Int)))) ∧
              ((∀ n ∈ users, n.name ≠ Text.encode user) →
                Client.getDataByUser maxStrDigits rest user = .returns none)) := by
  intro o conns s
  have hsome : ((serve .init conns).bind fun g =>
      (KeyedList.lookup Node.name (received 2 s) g.store.messages).map Node.connected) =
      some true := by decide +kernel
  obtain ⟨g, hserve, hlookup⟩ := Option.bind_eq_some_iff.mp hsome
  obtain ⟨requester, hrequester, hconnected⟩ := Option.map_eq_some_iff.mp hlookup
  have hcommand : command (commandString g s) = some .listUsers := by
    rw [commandString, if_neg (by decide +kernel)]
    decide +kernel
  exact ⟨g, hserve,
    listUsers_answered hserve (Outcomes.allocated_success _) hcommand hrequester hconnected⟩

end PeerDirectory
