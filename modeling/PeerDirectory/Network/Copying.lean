import PeerDirectory.Client.ListUsers
import PeerDirectory.Network.Agreement

/-!
# A file gets from its client to another

`GET_FILE` asks the server for the address of a user and connects to it. In the
network of considerate users this is the listening socket of the one client that
holds the user: the names at the server can be read by everyone, and no two open
sockets share an address and a port.
-/

namespace PeerDirectory

open Client

/-! ## Addresses as texts -/

theorem decimal_injective : Function.Injective decimal := by
  intro a b h
  have hdigits : Nat.toDigits 10 a = Nat.toDigits 10 b := Text.encode_injective h
  rw [← Nat.ofDigitChars_ten_toDigits (n := a), hdigits, Nat.ofDigitChars_ten_toDigits]

theorem isDecimal_decimal (n : ℕ) : IsDecimal (decimal n) := by
  constructor
  · intro h
    have hdigits : Nat.toDigits 10 n = [] := Text.encode_injective (h.trans Text.encode_nil.symm)
    exact Nat.toDigits_ne_nil hdigits
  · intro b hb
    exact digit_of_mem_decimal hb

theorem decimalValue_decimal (n : ℕ) : decimalValue (decimal n) = n := by
  rw [decimalValue, decimal, Text.ofAscii_encode (isAscii_decimal n), Nat.ofDigitChars_ten_toDigits]

/-- A number in front of a dot. -/
theorem decimal_append_dot_inj {a b : ℕ} {s t : Bytes}
    (h : decimal a ++ 46 :: s = decimal b ++ 46 :: t) : a = b ∧ s = t := by
  have hdigits : ∀ n : ℕ, ∀ c ∈ decimal n, (fun c : UInt8 => decide (c = 46)) c = false := by
    intro n c hc
    have := digit_of_mem_decimal hc
    rw [decide_eq_false_iff_not]
    rintro rfl
    simp at this
  have hline := congrArg (Delimited.line fun c : UInt8 => decide (c = 46)) h
  have hrest := congrArg (Delimited.rest fun c : UInt8 => decide (c = 46)) h
  rw [Delimited.line_append_cons (hdigits a) (by simp),
    Delimited.line_append_cons (hdigits b) (by simp)] at hline
  rw [Delimited.rest_append_cons (hdigits a) (by simp),
    Delimited.rest_append_cons (hdigits b) (by simp)] at hrest
  exact ⟨decimal_injective hline, hrest⟩

theorem inetNtoa_injective : Function.Injective inetNtoa := by
  intro x y h
  simp only [inetNtoa, List.append_assoc, List.cons_append] at h
  obtain ⟨ha, h⟩ := decimal_append_dot_inj h
  obtain ⟨hb, h⟩ := decimal_append_dot_inj h
  obtain ⟨hc, h⟩ := decimal_append_dot_inj h
  have hd := decimal_injective h
  cases x
  cases y
  simp only [InAddr.mk.injEq]
  exact ⟨UInt8.toNat_inj.mp ha, UInt8.toNat_inj.mp hb, UInt8.toNat_inj.mp hc, UInt8.toNat_inj.mp hd⟩

theorem isAscii_inetNtoa (addr : InAddr) : Text.IsAscii (inetNtoa addr) := by
  have hdot : ∀ bs : Bytes, Text.IsAscii bs → Text.IsAscii (46 :: bs) :=
    fun bs h => Text.isAscii_cons.mpr ⟨by decide, h⟩
  simp only [inetNtoa, Text.isAscii_append]
  exact ⟨⟨⟨isAscii_decimal _, hdot _ (isAscii_decimal _)⟩, hdot _ (isAscii_decimal _)⟩,
    hdot _ (isAscii_decimal _)⟩

theorem ofAscii_injective {a b : Bytes} (ha : Text.IsAscii a) (hb : Text.IsAscii b)
    (h : Text.ofAscii a = Text.ofAscii b) : a = b := by
  rw [← Text.encode_ofAscii ha, h, Text.encode_ofAscii hb]

/-! ## Users at the server -/

/-- An address at the server is that of a connected node. -/
theorem Shared.exists_node {g : Shared} {name ip port : Bytes}
    (h : g.address name = some (ip, port)) :
    ∃ node, KeyedList.lookup Node.name name g.store.messages = some node ∧
      node.connected = true ∧ node.ip.str = ip ∧ node.port.str = port := by
  obtain ⟨e, he, haddress⟩ := Option.bind_eq_some_iff.mp h
  obtain ⟨node, hnode, rfl⟩ := Option.map_eq_some_iff.mp he
  cases hc : node.connected with
  | false => simp [Node.entry, hc] at haddress
  | true =>
      rw [Node.entry_of_connected hc, Option.some.injEq, Prod.mk.injEq] at haddress
      exact ⟨node, hnode, hc, haddress.1, haddress.2⟩

/-- A connected node has its address at the server. -/
theorem Shared.address_of_mem {g : Shared} (hvalid : g.Valid) {node : Node}
    (hmem : node ∈ g.store.messages) (hc : node.connected = true) :
    g.address node.name = some (node.ip.str, node.port.str) := by
  have hlookup := (KeyedList.lookup_eq_some_iff hvalid.store.unique.users).mpr ⟨hmem, rfl⟩
  rw [Shared.address, Directory.address, abstract_eq_some hlookup, Option.bind_some,
    Node.entry_of_connected hc]

/-- The client with a text in its working directory. -/
def Peer.withFile (p : Peer) (localFileName contenido : Str) : Peer :=
  { p with files := saved p.files localFileName (some contenido) }

namespace Network

variable {n : ℕ} {m : CaseMapping} {addrs : Fin n → InAddr} {net : Network n} {i j : Fin n}
  {outside : Outside} {user : Str}

/-- The client holds this user. -/
def HoldsUser (net : Network n) (i : Fin n) (user : Str) : Prop :=
  (net.peers i).client.connected = true ∧ (net.peers i).client.user = some user

theorem HoldsUser.holds (h : net.HoldsUser i user) :
    (net.peers i).client.holds = some (entryName user) := by
  simp [ClientState.holds, h.1, h.2]

theorem Inv.plain (h : net.Inv addrs) (huser : net.HoldsUser i user) : IsPlain user := by
  obtain ⟨user', huser', hplain⟩ := h.hasUser i huser.1
  rw [huser.2, Option.some.injEq] at huser'
  exact huser' ▸ hplain

/-- What the server has of a user that a client holds. -/
theorem Inv.address_of_holds (h : net.Inv addrs) (huser : net.HoldsUser i user) :
    net.server.address (Text.encode user) =
      some (inetNtoa (addrs i), decimal (net.peers i).port.toNat) := by
  rw [← (h.plain huser).entryName]
  exact h.agrees.held i _ huser.holds

/-- Every connected user is held by a client, and the row of a listing shows where
that is. -/
theorem Inv.exists_holder (h : net.Inv addrs) {node : Node}
    (hmem : node ∈ net.server.store.messages) (hc : node.connected = true) :
    ∃ k user, net.HoldsUser k user ∧ node.name = Text.encode user ∧
      node.ip.str = inetNtoa (addrs k) ∧ node.port.str = decimal (net.peers k).port.toNat := by
  have haddress := Shared.address_of_mem h.valid hmem hc
  obtain ⟨k, hk, hplace⟩ := h.agrees.entry_eq_some_iff.mp haddress
  have hconnected : (net.peers k).client.connected = true := by
    by_contra hnot
    rw [Bool.not_eq_true] at hnot
    have hnone : (net.peers k).client.holds = some node.name := hk
    rw [holds_of_not_connected hnot] at hnone
    cases hnone
  obtain ⟨user, huser, hplain, hholds⟩ := (h.hasUser k).holds hconnected
  have hname : entryName user = node.name := Option.some.inj (hholds.symm.trans hk)
  obtain ⟨hip, hport⟩ := Prod.mk.inj hplace
  exact ⟨k, user, ⟨hconnected, huser⟩, by rw [← hname, hplain.entryName], hip.symm, hport.symm⟩

theorem Inv.asciiUserRow (h : net.Inv addrs) {node : Node}
    (hmem : node ∈ net.server.store.messages) (hc : node.connected = true) :
    AsciiUserRow node.row ∧ IsDecimal node.port.str := by
  obtain ⟨k, user, huser, hname, hip, hport⟩ := h.exists_holder hmem hc
  refine ⟨⟨?_, ?_, ?_⟩, hport ▸ isDecimal_decimal _⟩
  · rw [Node.row, hname]
    exact Text.isAscii_encode_iff.mpr (h.plain huser).2.2
  · rw [Node.row, hip]
    exact isAscii_inetNtoa _
  · rw [Node.row, hport]
    exact isAscii_decimal _

/-! ## Where `GET_FILE` gets to -/

/-- The address that `getfile` finds for a user, for a client that is connected. -/
theorem Inv.findPeer_eq (h : net.Inv addrs) {outside : Outside} (ho : outside.o.Allocated)
    {own : Str} (hown : net.HoldsUser i own) (user : Str) :
    (findPeer (net.environment addrs outside).toEnvironment user (net.peers i).client
      net.server).1 = .returns
        (((net.server.store.messages.filter Node.connected).find? fun node =>
          Text.ofAscii node.name = user).map fun node =>
            (Text.ofAscii node.ip.str, (decimalValue node.port.str : Int))) := by
  obtain ⟨requester, hrequester, hconnected, -, -⟩ :=
    Shared.exists_node (h.agrees.held i _ hown.holds)
  set s := encodeMessage (Command.listusers.message (strftime outside.time) own outside.port)
    with hs
  have hname : received 2 s = entryName own :=
    Command.listusers.received_userName outside.time own outside.port
  rw [← hname] at hrequester
  obtain ⟨served, hserved, hreply⟩ := serve_listUsers ho hrequester hconnected
  obtain ⟨g', -, hx⟩ :=
    @exchange_server .listusers outside.time own outside.port outside.o net.server served hserved
  rw [hreply] at hx
  have hmessage : (net.peers i).client.user.map (fun u => listUsersMessage
      (strftime outside.time) u) = some (listUsersMessage (strftime outside.time) own) := by
    rw [hown.2]
    rfl
  have hsend : send (net.environment addrs outside).toEnvironment
      (fun time => (net.peers i).client.user.map fun u => listUsersMessage time u) net.server =
      (readResponse (errorStr 0 ++ usersListing net.server.store.messages), g') :=
    send_of_exchange rfl hmessage hx
  rw [findPeer]
  dsimp only
  rw [hsend, readResponse_errorStr_zero, Outcome.bind_returns, if_pos rfl]
  exact getDataByUser_usersListing user (fun node hn hc => (h.asciiUserRow hn hc).1)
    (fun node hn hc => (h.asciiUserRow hn hc).2) (takes_unlimited _)

/-- A connection to the address of an open listening socket reaches its client. -/
theorem Inv.route_eq (h : net.Inv addrs)
    (hlistening : (net.peers j).client.serverSocket = some .listening)
    (elsewhere : Str → Int → Option Files) :
    net.route addrs elsewhere (Text.ofAscii (inetNtoa (addrs j))) ((net.peers j).port.toNat : Int) =
      some (net.peers j).files := by
  have hopen : ∀ k, (net.peers k).client.serverSocket = some .listening →
      (net.peers k).client.isOpen = true := fun k hk => by simp [ClientState.isOpen, hk]
  have hunique : ∀ k, ((net.peers k).client.serverSocket = some .listening ∧
      Text.ofAscii (inetNtoa (addrs k)) = Text.ofAscii (inetNtoa (addrs j)) ∧
        ((net.peers k).port.toNat : Int) = (net.peers j).port.toNat) → k = j := by
    rintro k ⟨hk, haddr, hport⟩
    by_contra hne
    have haddr' : addrs k = addrs j := inetNtoa_injective
      (ofAscii_injective (isAscii_inetNtoa _) (isAscii_inetNtoa _) haddr)
    have hport' : (net.peers k).port = (net.peers j).port :=
      UInt16.toNat_inj.mp (Int.ofNat_inj.mp hport)
    exact h.ports k j hne haddr' (hopen k hk) (hopen j hlistening) hport'
  unfold route
  split
  · next k hk =>
      have hfound := List.find?_some hk
      rw [decide_eq_true_eq] at hfound
      rw [hunique k hfound]
  · next hnone =>
      have hnot := List.find?_eq_none.mp hnone j (List.mem_finRange j)
      simp [hlistening] at hnot

/-- `getfile` for a user that a client holds reaches the listener thread of that
client. -/
theorem Inv.reaches (h : net.Inv addrs) (ho : outside.o.Allocated) {own : Str}
    (hown : net.HoldsUser i own) (huser : net.HoldsUser j user)
    (hlistening : (net.peers j).client.serverSocket = some .listening) :
    Reaches (net.environment addrs outside) user (net.peers i).client net.server
      (net.peers j).files := by
  have hplain := h.plain huser
  obtain ⟨node, hlookup, hc, hip, hport⟩ := Shared.exists_node (h.address_of_holds huser)
  have hmem : node ∈ net.server.store.messages.filter Node.connected :=
    List.mem_filter.mpr ⟨KeyedList.mem_of_lookup hlookup, hc⟩
  have hunique : KeyedList.NodupKeys Node.name
      (net.server.store.messages.filter Node.connected) :=
    List.Nodup.sublist (List.filter_sublist.map _) h.valid.store.unique.users
  have hfind := (find?_ofAscii user hunique fun node' hnode' =>
    (h.asciiUserRow (List.mem_filter.mp hnode').1 (List.mem_filter.mp hnode').2).1.1).mpr
      ⟨hmem, KeyedList.key_of_lookup hlookup⟩
  refine ⟨hown.1, rfl, (Text.ofAscii node.ip.str, (decimalValue node.port.str : Int)), ?_, ?_⟩
  · rw [h.findPeer_eq ho hown user, hfind]
    rfl
  · rw [hip, hport, decimalValue_decimal]
    exact h.route_eq hlistening _

/-- `getfile` for a user that no client holds raises an exception. -/
theorem Inv.getfile_of_not_held (h : net.Inv addrs) (ho : outside.o.Allocated) {own : Str}
    (hown : net.HoldsUser i own) (hnot : ∀ k, ¬ net.HoldsUser k user)
    (remoteFileName localFileName : Str) :
    (Client.getfile (net.environment addrs outside) user remoteFileName localFileName
      (net.peers i).client net.server).1 = .raises := by
  have hunique : KeyedList.NodupKeys Node.name
      (net.server.store.messages.filter Node.connected) :=
    List.Nodup.sublist (List.filter_sublist.map _) h.valid.store.unique.users
  have hnone : (net.server.store.messages.filter Node.connected).find?
      (fun node => Text.ofAscii node.name = user) = none := by
    rw [List.find?_eq_none]
    intro node hnode
    obtain ⟨hmem, hc⟩ := List.mem_filter.mp hnode
    obtain ⟨k, user', huser', hname, -, -⟩ := h.exists_holder hmem hc
    rw [decide_eq_true_eq, hname, Text.ofAscii_encode
      (Text.isAscii_encode_iff.mpr (h.plain huser').2.2)]
    rintro rfl
    exact hnot k huser'
  have hfind := h.findPeer_eq ho hown user
  rw [hnone, Option.map_none] at hfind
  have hsocket : (net.environment addrs outside).connectSocket = true := rfl
  simp only [Client.getfile, hown.1, hsocket, Bool.not_true, Bool.false_eq_true, if_false, if_true,
    hfind, Outcome.bind_returns, Option.bind_none]

theorem step_line (outside : Outside) (command : Str)
    (hprompt : (net.peers i).status = .waits .prompt) :
    let r := turnOrWait m (net.environment addrs outside) (.line command)
      (net.peers i).toClientProcess net.server
    net.step m addrs (.turn i (.line command) outside) = some
      { server := r.2.peer
        peers := Function.update net.peers i
          (Peer.ofTurn r.1 r.2 ((net.peers i).boundBy m outside.port (.line command))) } := by
  simp only [Network.step, hprompt]
  rfl

/-- A turn with a `GET_FILE` for a file that can be read and sent: the client has the
text, and nothing else has changed. -/
theorem Inv.step_getfile (h : net.Inv addrs) (ho : outside.o.Allocated) {own : Str}
    (hown : net.HoldsUser i own) (huser : net.HoldsUser j user)
    (hlistening : (net.peers j).client.serverSocket = some .listening)
    {command remoteFileName localFileName content : Str}
    (hparse : parse m command = .ok (.getfile user remoteFileName localFileName))
    (hprompting : (net.peers i).status = .waits .prompt)
    (hreadable : (net.peers j).files.Readable remoteFileName content)
    (hname : ∀ c ∈ remoteFileName, c.toNat < 128)
    (hcontent : ∀ c ∈ Text.untilNul content, c.toNat < 128)
    (hwritable : outside.writable localFileName = true) :
    ∃ net', net.step m addrs (.turn i (.line command) outside) = some net' ∧
      net'.peers = Function.update net.peers i ((net.peers i).withFile localFileName
        (Text.untilNul (Text.universalNewlines content))) ∧
      net'.server.address = net.server.address := by
  set env := net.environment addrs outside with henv
  have hreach : (Client.getfile env user remoteFileName localFileName (net.peers i).client
      net.server).1 = .returns (.ok, some (Text.untilNul (Text.universalNewlines content))) := by
    have hwrite : env.writable localFileName = true := hwritable
    rw [getfile_of_reaches (h.reaches ho hown huser hlistening),
      copyFile_of_ascii hreadable hname hcontent, if_pos hwrite, Outcome.catching_returns]
  obtain ⟨answer, g', hrun, -, haddress⟩ :=
    @run_of_keeps outside.o net.server outside.time outside.port .listusers trivial
      (net.peers i).client h.valid ho
  have hserver : (Command.listusers.run env.toEnvironment (net.peers i).client net.server).2.2 =
      g' := congrArg (fun r => r.2.2) hrun
  have hturn : turnOrWait m env (.line command) (net.peers i).toClientProcess net.server =
      (.returns false, ⟨.prompt, ⟨(net.peers i).client, saved (net.peers i).files localFileName
        (some (Text.untilNul (Text.universalNewlines content)))⟩, g'⟩) := by
    rw [turnOrWait, turn_of_ok hparse]
    simp only [ShellCommand.run, hreach, Outcome.bind_returns, Outcome.catching_returns,
      getfile_snd, hserver]
  have hport : (net.peers i).boundBy m outside.port (.line command) = (net.peers i).port := by
    simp only [Peer.boundBy, hparse]
  refine ⟨_, step_line outside command hprompting, ?_, ?_⟩
  · rw [← henv, hturn, hport]
    simp only [Peer.ofTurn, Peer.withFile, hprompting]
  · rw [← henv, hturn]
    exact haddress

end Network

end PeerDirectory
