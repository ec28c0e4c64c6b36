import PeerDirectory.Client.Requests
import PeerDirectory.Server.Replies

/-!
# Listings of files as the client reads them

The server announces how many files it lists and sends them. It counts only the
files whose name is not empty but sends them all, and the client decodes what it
receives byte by byte. So the listing arrives whole exactly when no file of the
target has an empty name and all its names and descriptions are ASCII.
-/

namespace PeerDirectory

/-! ## What the client reads -/

/-- Both strings of a row are ASCII. -/
def AsciiRow (row : Bytes × Bytes) : Prop :=
  Text.IsAscii row.1 ∧ Text.IsAscii row.2

/-- The texts a row spells. -/
def rowText (row : Bytes × Bytes) : Str × Str :=
  (Text.ofAscii row.1, Text.ofAscii row.2)

namespace Client

/-- The loop of the client on the files the server sends gets through on
ASCII. -/
theorem readFiles_sent {rows : List (Bytes × Bytes)} (hnul : ∀ r ∈ rows, 0 ∉ r.1 ∧ 0 ∉ r.2)
    {n : ℕ} (hn : n ≤ rows.length) (hascii : ∀ r ∈ rows.take n, AsciiRow r) :
    readFiles n (rows.flatMap sentFile) =
      ⟨.returns (), (rows.take n).map rowText, [], (rows.drop n).flatMap sentFile⟩ := by
  induction n generalizing rows with
  | zero => simp [readFiles]
  | succ n ih =>
      cases rows with
      | nil => simp at hn
      | cons r rows =>
          obtain ⟨hname, hdescription⟩ := hnul r (by simp)
          obtain ⟨hname', hdescription'⟩ := hascii r (by simp)
          have hrest := ih (fun q hq => hnul q (List.mem_cons_of_mem r hq)) (by simpa using hn)
            fun q hq => hascii q (List.mem_cons_of_mem r hq)
          rw [List.flatMap_cons, sentFile, List.append_assoc, readFiles,
            Reading.response_cstring hname hname',
            Reading.response_cstring hdescription hdescription', hrest]
          rfl

/-- It raises on the first string that is not ASCII. -/
theorem readFiles_sent_of_not_ascii {rows : List (Bytes × Bytes)}
    (hnul : ∀ r ∈ rows, 0 ∉ r.1 ∧ 0 ∉ r.2) {n : ℕ} (hn : n ≤ rows.length)
    (hascii : ¬ ∀ r ∈ rows.take n, AsciiRow r) :
    (readFiles n (rows.flatMap sentFile)).ends = .raises := by
  induction n generalizing rows with
  | zero => simp at hascii
  | succ n ih =>
      cases rows with
      | nil => simp at hn
      | cons r rows =>
          obtain ⟨hname, hdescription⟩ := hnul r (by simp)
          rw [List.flatMap_cons, sentFile, List.append_assoc, readFiles]
          by_cases hname' : Text.IsAscii r.1
          · rw [Reading.response_cstring hname hname']
            by_cases hdescription' : Text.IsAscii r.2
            · have hrows : ¬ ∀ q ∈ rows.take n, AsciiRow q := by
                intro h
                apply hascii
                rw [List.take_succ_cons, List.forall_mem_cons]
                exact ⟨⟨hname', hdescription'⟩, h⟩
              have hrest := ih (fun q hq => hnul q (List.mem_cons_of_mem r hq))
                (by simpa using hn) hrows
              rw [Reading.response_cstring hdescription hdescription']
              exact hrest
            · rw [Reading.response_cstring_of_not_ascii hdescription hdescription']
          · rw [Reading.response_cstring_of_not_ascii hname hname']

theorem flatMap_sentFile_eq_nil {rows : List (Bytes × Bytes)}
    (h : rows.flatMap sentFile = []) : rows = [] := by
  cases rows with
  | nil => rfl
  | cons r rows => simp [sentFile, cstring] at h

/-! ## The listing of one user -/

/-- The client gets exactly these files, in this order, and has read the whole
answer. -/
def GetsFiles (answer : Outcome (Listing (Str × Str))) (files : List FileNode) : Prop :=
  ∃ rows, answer = .returns ⟨.ok, rows, [], []⟩ ∧
    rows.map (fun r => (Text.encode r.1, Text.encode r.2)) = files.map FileNode.row

/-- The answer announces as many files as it sends. -/
def AnnouncesWhole (reply : Bytes) : Prop :=
  ∃ rows : List (Bytes × Bytes), (∀ r ∈ rows, 0 ∉ r.1 ∧ 0 ∉ r.2) ∧
    reply = errorStr 0 ++ (cstring (decimal rows.length) ++ rows.flatMap sentFile)

/-- Every string sent for a file is ended by one NUL. -/
theorem count_nul_flatMap_sentFile {rows : List (Bytes × Bytes)}
    (hnul : ∀ r ∈ rows, 0 ∉ r.1 ∧ 0 ∉ r.2) :
    (rows.flatMap sentFile).count 0 = 2 * rows.length := by
  induction rows with
  | nil => rfl
  | cons r rows ih =>
      obtain ⟨h1, h2⟩ := hnul r (by simp)
      rw [List.flatMap_cons, List.count_append,
        ih fun q hq => hnul q (List.mem_cons_of_mem r hq)]
      simp only [sentFile, cstring, List.count_append, List.count_eq_zero_of_not_mem h1,
        List.count_eq_zero_of_not_mem h2, List.count_singleton_self, List.length_cons]
      ring

/-- The number the server announces is right exactly when every file has a
name. -/
theorem announcesWhole_iff (files : List FileNode) :
    AnnouncesWhole (errorStr 0 ++ contentListing files) ↔ ∀ f ∈ files, f.name ≠ [] := by
  have hcount : (files.countP fun f => f.name ≠ []) = files.length ↔
      ∀ f ∈ files, f.name ≠ [] := by
    rw [List.countP_eq_length]
    simp
  have hnul : ∀ r ∈ files.map FileNode.row, 0 ∉ r.1 ∧ 0 ∉ r.2 := by
    intro r hr
    obtain ⟨f, -, rfl⟩ := List.mem_map.mp hr
    exact nul_notMem_row f
  rw [← hcount, contentListing]
  constructor
  · rintro ⟨rows, hrows, h⟩
    have hlisting := congrArg readResponse (List.append_cancel_left h)
    rw [readResponse_decimal, readResponse_decimal, Outcome.returns.injEq,
      Prod.mk.injEq] at hlisting
    obtain ⟨hdigits, hsent⟩ := hlisting
    have hnumber : (files.countP fun f => f.name ≠ []) = rows.length := by
      have := congrArg (int .unlimited) hdigits
      rw [int_toDigits (takes_unlimited _), int_toDigits (takes_unlimited _),
        Outcome.returns.injEq] at this
      exact_mod_cast this
    have hlength := congrArg (List.count 0) hsent
    rw [← List.flatMap_map, count_nul_flatMap_sentFile hnul, count_nul_flatMap_sentFile hrows,
      List.length_map] at hlength
    omega
  · intro h
    refine ⟨files.map FileNode.row, hnul, ?_⟩
    rw [h, List.length_map, List.flatMap_map]

/-- The method on the answer of the server about a list of files. -/
theorem listcontent_of_exchange {σ : Type} {env : Environment σ} {time : StructTime}
    {st : ClientState} {user target : Str} {peer peer' : σ} {files : List FileNode}
    (hsocket : env.connectSocket = true) (htime : env.getTime = some time)
    (hconnected : st.connected = true) (huser : st.user = some user)
    (hlimit : env.maxStrDigits = .unlimited)
    (hreply : env.exchange (encodeMessage (listContentMessage (strftime time) user target)) peer =
      some (errorStr 0 ++ contentListing files, peer')) :
    (listcontent env target st peer).1 =
      (readFiles (files.countP fun f => f.name ≠ [])
        ((files.map FileNode.row).flatMap sentFile)).listing .anotherCases := by
  simp only [listcontent, send, hconnected, hsocket, htime, huser, hreply, contentListing, hlimit,
    Option.bind_some, Option.map_some, readResponse_errorStr_zero,
    readListing_decimal (takes_unlimited _), Outcome.bind_returns, Reading.catching_listing,
    List.flatMap_map, Bool.not_true, Bool.false_eq_true, if_false, if_true]

/-- The client gets the files whole exactly when the number is right and it can
decode them. -/
theorem getsFiles_iff (files : List FileNode) :
    GetsFiles
        ((readFiles (files.countP fun f => f.name ≠ [])
          ((files.map FileNode.row).flatMap sentFile)).listing .anotherCases) files ↔
      ∀ f ∈ files, f.name ≠ [] ∧ AsciiRow f.row := by
  set rows := files.map FileNode.row with hrows
  set n := files.countP fun f => f.name ≠ [] with hn
  have hnul : ∀ r ∈ rows, 0 ∉ r.1 ∧ 0 ∉ r.2 := by
    intro r hr
    obtain ⟨f, -, rfl⟩ := List.mem_map.mp hr
    exact nul_notMem_row f
  have hle : n ≤ rows.length := by
    rw [hrows, List.length_map]
    exact List.countP_le_length
  have hnames : n = rows.length ↔ ∀ f ∈ files, f.name ≠ [] := by
    rw [hrows, List.length_map, hn, List.countP_eq_length]
    simp
  by_cases hascii : ∀ r ∈ rows.take n, AsciiRow r
  · rw [readFiles_sent hnul hle hascii]
    constructor
    · rintro ⟨texts, htexts, hall⟩
      simp only [Reading.listing, Outcome.returns.injEq, Listing.mk.injEq, true_and] at htexts
      have hdrop : rows.drop n = [] := flatMap_sentFile_eq_nil htexts.2
      have hlength : n = rows.length := le_antisymm hle (List.drop_eq_nil_iff.mp hdrop)
      rw [hlength, List.take_length] at hascii
      intro f hf
      exact ⟨hnames.mp hlength f hf, hascii _ (List.mem_map_of_mem hf)⟩
    · intro h
      have hlength : n = rows.length := hnames.mpr fun f hf => (h f hf).1
      refine ⟨rows.map rowText, ?_, ?_⟩
      · simp [Reading.listing, hlength]
      · rw [List.map_map, ← hrows]
        refine (List.map_congr_left fun r hr => ?_).trans (List.map_id rows)
        obtain ⟨f, hf, rfl⟩ := List.mem_map.mp hr
        obtain ⟨h1, h2⟩ := (h f hf).2
        simp only [Function.comp_apply, rowText, Text.encode_ofAscii h1, Text.encode_ofAscii h2]
        rfl
  · have hends := readFiles_sent_of_not_ascii hnul hle hascii
    refine iff_of_false ?_ ?_
    · rintro ⟨texts, htexts, -⟩
      simp [Reading.listing, hends] at htexts
    · intro h
      apply hascii
      intro r hr
      obtain ⟨f, hf, rfl⟩ := List.mem_map.mp (List.mem_of_mem_take hr)
      exact (h f hf).2

/-- A connected user lists the files of a registered one. The server announces
the right number exactly when no file name is empty, and the listing arrives
whole at the client exactly when moreover all names and descriptions are
ASCII. -/
theorem listcontent_whole_iff {o : Outcomes} (ho : o.Allocated) {g : Shared}
    {st : ClientState} {time : StructTime} {port : UInt16} {user target : Str}
    (hconnected : st.connected = true) (huser : st.user = some user)
    (hwhole : ∀ a ∈ [user, target], Char.ofNat 0 ∉ a ∧ ReceivedWhole a)
    {requester node : Node}
    (hrequester : KeyedList.lookup Node.name (Text.encode user) g.store.messages =
      some requester)
    (hrequester' : requester.connected = true)
    (htarget : KeyedList.lookup Node.name (Text.encode target) g.store.messages = some node) :
    let env := Environment.server time port o
    ∃ reply g', env.exchange
        (encodeMessage (listContentMessage (strftime time) user target)) g = some (reply, g') ∧
      (AnnouncesWhole reply ↔ ∀ f ∈ node.listFiles, f.name ≠ []) ∧
      (AnnouncesWhole reply ∧ GetsFiles (listcontent env target st g).1 node.listFiles ↔
        ∀ f ∈ node.listFiles, f.name ≠ [] ∧ AsciiRow f.row) := by
  intro env
  have hfits : ∀ f ∈ (listContentMessage (strftime time) user target).map Text.encode,
      FitsLine maxValueLength f :=
    ((Command.listcontent target).fitsLine_message_iff time user port).mpr fun a ha =>
      (fitsLine_encode_iff (hwhole a ha).1).mpr (hwhole a ha).2
  have hreceived : ∀ k, (hk : k < 4) →
      received k (encodeMessage (listContentMessage (strftime time) user target)) =
        ((listContentMessage (strftime time) user target).map Text.encode)[k] :=
    fun k hk => received_frame hfits hk
  obtain ⟨served, hserve, hreply⟩ := serve_listContent
    (s := encodeMessage (listContentMessage (strftime time) user target)) ho
    (by rw [hreceived 2 (by decide)]; exact hrequester) hrequester'
    (by rw [hreceived 3 (by decide)]; exact htarget)
  obtain ⟨g', -, hexchange⟩ :=
    @exchange_server (.listcontent target) time user port o g served hserve
  rw [hreply] at hexchange
  refine ⟨_, g', hexchange, announcesWhole_iff node.listFiles, ?_⟩
  rw [listcontent_of_exchange rfl rfl hconnected huser rfl hexchange, getsFiles_iff,
    announcesWhole_iff]
  exact ⟨fun h => h.2, fun h => ⟨fun f hf => (h f hf).1, h⟩⟩

/-- The user `a` lists its own two files. -/
theorem listcontent_whole_iff_own_files :
    let env := Environment.server ⟨2023, 12, 1, 10, 0, 0⟩ 80 (.success ⟨10, 0, 0, 1⟩)
    let files : List FileNode :=
      [⟨.strncpy _ [102], .strncpy _ [100]⟩, ⟨.strncpy _ [103], .strncpy _ []⟩]
    let node : Node := ⟨.strncpy _ [97], .strncpy _ [49], .strncpy _ [56], files⟩
    let g : Shared := ⟨.memset _, ⟨true, [node]⟩⟩
    let st : ClientState := ⟨true, some ['a'], false, some .listening⟩
    ∃ reply g', env.exchange
        (encodeMessage (listContentMessage (strftime ⟨2023, 12, 1, 10, 0, 0⟩) ['a'] ['a'])) g =
          some (reply, g') ∧
      (AnnouncesWhole reply ↔ ∀ f ∈ files, f.name ≠ []) ∧
      (AnnouncesWhole reply ∧ GetsFiles (listcontent env ['a'] st g).1 files ↔
        ∀ f ∈ files, f.name ≠ [] ∧ AsciiRow f.row) := by
  intro env files node g st
  exact @listcontent_whole_iff (.success ⟨10, 0, 0, 1⟩) (Outcomes.allocated_success _) g st
    ⟨2023, 12, 1, 10, 0, 0⟩ 80 ['a'] ['a'] rfl rfl (by decide +kernel) node node
    (by decide +kernel) (by decide +kernel) (by decide +kernel)

/-- A client publishes a file whose name is empty. The server announces no file,
sends one, and the client leaves its name and description unread. -/
theorem listcontent_empty_name :
    let env := Environment.server ⟨2023, 12, 1, 10, 0, 0⟩ 80 (.success ⟨10, 0, 0, 1⟩)
    let registered := (Command.register ['a']).run env .init .init
    let connected := (Command.connect ['a']).run env registered.2.1 registered.2.2
    let published := (Command.publish [] ['d']).run env connected.2.1 connected.2.2
    published.1 = .returns .ok ∧
      published.2.2.store.messages.map (fun n => n.listFiles.map FileNode.row) =
        [[([], [100])]] ∧
      (listcontent env ['a'] published.2.1 published.2.2).1 =
        .returns ⟨.ok, [], [], [0, 100, 0]⟩ := by
  decide +kernel

end Client

end PeerDirectory
