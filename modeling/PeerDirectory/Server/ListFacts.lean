import PeerDirectory.Server.List

/-!
# Facts about the operations of `list.c`

Small lemmas about the data of `Server/List.lean`: when a user is connected,
what the bodies of the search loops keep, what address text is stored, and what
the response chain of a listing holds.
-/

namespace PeerDirectory

/-! ## Decimal numerals and addresses -/

theorem toNat_lt_of_mem_toDigits {n : ℕ} {c : Char} (h : c ∈ Nat.toDigits 10 n) :
    48 ≤ c.toNat ∧ c.toNat ≤ 57 := by
  have hdigit := Nat.isDigit_of_mem_toDigits (by decide) (by decide) h
  simp only [Char.isDigit, Bool.and_eq_true, decide_eq_true_eq, ge_iff_le] at hdigit
  exact ⟨hdigit.1, hdigit.2⟩

/-- Every byte of a numeral is an ASCII digit. -/
theorem digit_of_mem_decimal {n : ℕ} {b : UInt8} (h : b ∈ decimal n) :
    48 ≤ b.toNat ∧ b.toNat ≤ 57 := by
  obtain ⟨c, hc, hb⟩ := List.mem_flatMap.mp h
  have hdigit := toNat_lt_of_mem_toDigits hc
  rw [Text.utf8EncodeChar_of_lt (by omega), List.mem_singleton] at hb
  rw [hb, UInt8.toNat_ofNat']
  omega

theorem length_decimal (n : ℕ) : (decimal n).length = (Nat.toDigits 10 n).length :=
  Text.length_encode fun c hc => by have := toNat_lt_of_mem_toDigits hc; omega

theorem length_decimal_byte (b : UInt8) : (decimal b.toNat).length ≤ 3 := by
  rw [length_decimal, Nat.length_toDigits_le_iff (by decide) (by decide)]
  have := b.toNat_lt
  omega

/-- Every byte of an address text is a digit or a dot. -/
theorem byte_of_mem_inetNtoa {addr : InAddr} {b : UInt8} (h : b ∈ inetNtoa addr) :
    46 ≤ b.toNat ∧ b.toNat ≤ 57 := by
  have hdot : (46 : UInt8).toNat = 46 := rfl
  simp only [inetNtoa, List.cons_append, List.append_assoc, List.mem_append,
    List.mem_cons] at h
  rcases h with h | h | h | h | h | h | h
  all_goals first
    | (have hd := digit_of_mem_decimal h; omega)
    | (rw [h, hdot]; omega)

theorem nul_notMem_inetNtoa (addr : InAddr) : 0 ∉ inetNtoa addr := by
  intro h
  have := byte_of_mem_inetNtoa h
  simp at this

theorem inetNtoa_ne_nil (addr : InAddr) : inetNtoa addr ≠ [] := by
  simp [inetNtoa]

theorem length_inetNtoa_le (addr : InAddr) : (inetNtoa addr).length ≤ 15 := by
  have ha := length_decimal_byte addr.a
  have hb := length_decimal_byte addr.b
  have hc := length_decimal_byte addr.c
  have hd := length_decimal_byte addr.d
  simp only [inetNtoa, List.cons_append, List.append_assoc, List.length_append,
    List.length_cons]
  omega

/-- The address text is stored whole. -/
@[simp] theorem str_strncpy_inetNtoa (addr : InAddr) :
    (CharArray.strncpy maxValueLength (inetNtoa addr)).str = inetNtoa addr := by
  have hlen : (inetNtoa addr).length ≤ maxValueLength :=
    (length_inetNtoa_le addr).trans (by decide)
  exact CharArray.str_strncpy_of_length_le (nul_notMem_inetNtoa addr) hlen

/-! ## Connected users -/

theorem Node.connected_iff {n : Node} : n.connected = true ↔ n.ip.str ≠ [] := by
  rw [Node.connected, decide_eq_true_iff, List.length_pos_iff]

theorem Node.not_connected_of_str_eq_nil {n : Node} (h : n.ip.str = []) :
    n.connected = false := by
  rw [← Bool.not_eq_true, Node.connected_iff, not_not]
  exact h

/-! ## What the bodies of the search loops write -/

section Bodies

variable {n n' : Node}

theorem connectNode_cases {getpeername : Option InAddr} {port : Bytes}
    (h : (connectNode getpeername port n).1 = some n') :
    n' = n ∨ n.connected = false ∧ ∃ addr, getpeername = some addr ∧
      n' = { n with
        ip := CharArray.strncpy maxValueLength (inetNtoa addr)
        port := CharArray.strncpy maxValueLength port } := by
  unfold connectNode at h
  split at h
  · cases h
    exact Or.inl rfl
  · next hc =>
      split at h
      · next addr =>
          cases h
          exact Or.inr ⟨by simpa using hc, addr, rfl, rfl⟩
      · cases h
        exact Or.inl rfl

theorem disconnectNode_cases (h : (disconnectNode n).1 = some n') :
    n' = n ∨ n.connected = true ∧ n' = { n with ip := n.ip.set 0 0, port := n.port.set 0 0 } := by
  unfold disconnectNode at h
  split at h
  · next hc =>
      cases h
      exact Or.inr ⟨hc, rfl⟩
  · cases h
    exact Or.inl rfl

theorem registerFileNode_cases {malloc : Bool} {file description : Bytes}
    (h : (registerFileNode malloc file description n).1 = some n') :
    n' = n ∨ n.connected = true ∧ KeyedList.lookup FileNode.name file n.listFiles = none ∧
      malloc = true ∧ n' = { n with
        listFiles :=
          { filename := CharArray.strncpy maxValueLength file
            description := CharArray.strncpy maxValueLength description } :: n.listFiles } := by
  unfold registerFileNode at h
  split at h
  · next hc =>
      split at h
      · cases h
        exact Or.inl rfl
      · next hlookup =>
          split at h
          · next hmalloc =>
              cases h
              exact Or.inr ⟨hc, hlookup, hmalloc, rfl⟩
          · cases h
            exact Or.inl rfl
  · cases h
    exact Or.inl rfl

theorem unregisterFileNode_cases {file : Bytes} (h : (unregisterFileNode file n).1 = some n') :
    n' = n ∨ n.connected = true ∧ n' = { n with
      listFiles :=
        (KeyedList.visit FileNode.name file (fun _ => (none, (0 : Int))) 3 n.listFiles).1 } := by
  unfold unregisterFileNode at h
  split at h
  · next hc =>
      cases h
      exact Or.inr ⟨hc, rfl⟩
  · cases h
    exact Or.inl rfl

end Bodies

/-! ## The bodies of the search loops keep the name -/

theorem keepsKey_unregisterUser :
    KeyedList.KeepsKey Node.name (fun _ : Node => (none, (0 : Int))) := by
  intro a b h
  cases h

theorem keepsKey_unlinkFile :
    KeyedList.KeepsKey FileNode.name (fun _ : FileNode => (none, (0 : Int))) := by
  intro a b h
  cases h

theorem keepsKey_connectNode (getpeername : Option InAddr) (port : Bytes) :
    KeyedList.KeepsKey Node.name (connectNode getpeername port) := by
  intro a b h
  rcases connectNode_cases h with rfl | ⟨-, addr, -, rfl⟩ <;> rfl

theorem keepsKey_disconnectNode : KeyedList.KeepsKey Node.name disconnectNode := by
  intro a b h
  rcases disconnectNode_cases h with rfl | ⟨-, rfl⟩ <;> rfl

theorem keepsKey_registerFileNode (malloc : Bool) (file description : Bytes) :
    KeyedList.KeepsKey Node.name (registerFileNode malloc file description) := by
  intro a b h
  rcases registerFileNode_cases h with rfl | ⟨-, -, -, rfl⟩ <;> rfl

theorem keepsKey_unregisterFileNode (file : Bytes) :
    KeyedList.KeepsKey Node.name (unregisterFileNode file) := by
  intro a b h
  rcases unregisterFileNode_cases h with rfl | ⟨-, rfl⟩ <;> rfl

/-! ## Response chains -/

namespace Chain

/-- The filled nodes met from the head of the chain. -/
def rows {α : Type} : Chain α → List α
  | .node (some fields) next => fields :: rows next
  | _ => []

@[simp] theorem rows_null {α : Type} : (Chain.null : Chain α).rows = [] := rfl

@[simp] theorem rows_unfilled {α : Type} (next : Chain α) :
    (Chain.node none next).rows = [] := rfl

@[simp] theorem rows_node {α : Type} (fields : α) (next : Chain α) :
    (Chain.node (some fields) next).rows = fields :: next.rows := rfl

end Chain

namespace Chain

/-- Every node is filled and the last one points to `NULL`. -/
inductive Complete {α : Type} : Chain α → Prop where
  | null : Complete .null
  | node (fields : α) {next : Chain α} : Complete next → Complete (.node (some fields) next)

end Chain

/-- One turn of the loop of `list_users`, when it gets through: a user that is not
connected is passed over, the last one ends the chain, and another one is put in
front of what the rest of the loop builds. -/
theorem fillUsers_cons {malloc : ℕ → Bool} {response : Bool} {k : ℕ} {user : Node}
    {next : List Node} {c : Chain UserFields} {n : ℕ}
    (h : fillUsers malloc response k (user :: next) = some (c, n)) :
    (user.connected = false ∧ fillUsers malloc response k next = some (c, n)) ∨
      (user.connected = true ∧ next = [] ∧ c = .node (some user.userFields) .null ∧ n = 1) ∨
      ∃ c' n', user.connected = true ∧ next ≠ [] ∧ c = .node (some user.userFields) c' ∧
        n = n' + 1 ∧ fillUsers malloc (malloc k) (k + 1) next = some (c', n') := by
  rw [fillUsers.eq_def] at h
  cases hu : user.connected with
  | false =>
      simp only [hu, Bool.false_eq_true, if_false] at h
      exact Or.inl ⟨rfl, h⟩
  | true =>
      simp only [hu, if_true] at h
      cases response with
      | false => cases h
      | true =>
          cases next with
          | nil =>
              cases h
              exact Or.inr (Or.inl ⟨rfl, rfl, rfl, rfl⟩)
          | cons user' next =>
              obtain ⟨⟨c', n'⟩, hr, hrc⟩ := Option.map_eq_some_iff.mp h
              cases hrc
              exact Or.inr (Or.inr ⟨c', n', rfl, by simp, rfl, rfl, hr⟩)

/-- When the loop of `list_users` gets through, the filled nodes are the
connected users in list order, and they are counted right. -/
theorem rows_fillUsers {malloc : ℕ → Bool} {response : Bool} {k : ℕ}
    {messages : List Node} {c : Chain UserFields} {n : ℕ}
    (h : fillUsers malloc response k messages = some (c, n)) :
    c.rows = (messages.filter Node.connected).map Node.userFields ∧
      n = (messages.filter Node.connected).length := by
  induction messages generalizing response k c n with
  | nil => cases response <;> cases h <;> simp
  | cons user next ih =>
      rcases fillUsers_cons h with
        ⟨hu, hr⟩ | ⟨hu, rfl, rfl, rfl⟩ | ⟨c', n', hu, -, rfl, rfl, hr⟩
      · simpa [hu] using ih hr
      · simp [hu]
      · obtain ⟨hrows, hcount⟩ := ih hr
        simp [hu, hrows, hcount]

/-- The number of response nodes that `list_users` allocates for the users from
here on, when it gets them. -/
def userMallocs : List Node → ℕ
  | [] => 0
  | user :: next =>
      if user.connected && !next.isEmpty then userMallocs next + 1 else userMallocs next

/-- With these nodes the loop of `list_users` gets through. -/
theorem fillUsers_isSome {malloc : ℕ → Bool} (k : ℕ) (messages : List Node)
    (hm : ∀ j, k ≤ j → j < k + userMallocs messages → malloc j = true) :
    (fillUsers malloc true k messages).isSome := by
  induction messages generalizing k with
  | nil => rfl
  | cons user next ih =>
      rw [fillUsers.eq_def]
      rw [userMallocs] at hm
      cases hu : user.connected with
      | false =>
          simp only [hu, Bool.false_and, Bool.false_eq_true, if_false] at hm
          simpa [hu] using ih k hm
      | true =>
          cases next with
          | nil => simp [hu]
          | cons user' next =>
              simp only [hu, Bool.true_and, List.isEmpty_cons, Bool.not_false, if_true] at hm
              have hrest := ih (k + 1) fun j hj hlt => hm j (by omega) (by omega)
              simpa [hu, hm k (le_refl k) (by omega)] using hrest

/-- Without the node of the caller it does not, if there is a connected user. -/
theorem fillUsers_eq_none {malloc : ℕ → Bool} (k : ℕ) {messages : List Node} {user : Node}
    (hmem : user ∈ messages) (hconnected : user.connected = true) :
    fillUsers malloc false k messages = none := by
  induction messages with
  | nil => exact absurd hmem List.not_mem_nil
  | cons user' next ih =>
      rw [fillUsers.eq_def]
      cases hu : user'.connected with
      | true => simp [hu]
      | false =>
          have hne : user ≠ user' := by
            rintro rfl
            rw [hconnected] at hu
            cases hu
          simpa [hu] using ih ((List.mem_cons.mp hmem).resolve_left hne)

/-- When the loop of `list_content` gets through, the chain holds the files in
list order. -/
theorem rows_fillContent {malloc : ℕ → Bool} {response : Bool} {k : ℕ}
    {files : List FileNode} {c : Chain ContentFields}
    (h : fillContent malloc response k files = some c) :
    c.rows = files.map FileNode.contentFields := by
  induction files generalizing response k c with
  | nil =>
      rw [fillContent.eq_def] at h
      cases h
      rfl
  | cons file next ih =>
      cases response with
      | false => cases h
      | true =>
          rw [fillContent.eq_def] at h
          cases next with
          | nil =>
              cases h
              rfl
          | cons file' next =>
              obtain ⟨r, hr, rfl⟩ := Option.map_eq_some_iff.mp h
              simpa using ih hr

/-- The chain of `list_content` is complete. -/
theorem complete_fillContent {malloc : ℕ → Bool} {response : Bool} {k : ℕ}
    {files : List FileNode} {c : Chain ContentFields}
    (h : fillContent malloc response k files = some c) : c.Complete := by
  induction files generalizing response k c with
  | nil =>
      rw [fillContent.eq_def] at h
      cases h
      exact .null
  | cons file next ih =>
      cases response with
      | false => cases h
      | true =>
          rw [fillContent.eq_def] at h
          cases next with
          | nil =>
              cases h
              exact .node _ .null
          | cons file' next =>
              obtain ⟨r, hr, rfl⟩ := Option.map_eq_some_iff.mp h
              exact .node _ (ih hr)

/-- The same for `list_content`. -/
def fileMallocs (files : List FileNode) : ℕ :=
  files.length - 1

theorem fillContent_isSome {malloc : ℕ → Bool} (k : ℕ) (files : List FileNode)
    (hm : ∀ j, k ≤ j → j < k + fileMallocs files → malloc j = true) :
    (fillContent malloc true k files).isSome := by
  induction files generalizing k with
  | nil => rfl
  | cons file next ih =>
      rw [fillContent.eq_def]
      cases next with
      | nil => rfl
      | cons file' next =>
          simp only [fileMallocs, List.length_cons, Nat.add_sub_cancel] at hm ih
          have hrest := ih (k + 1) fun j hj hlt => hm j (by omega) (by omega)
          simpa [hm k (le_refl k) (by omega)] using hrest

/-- The strings of the stored fields are copied whole into the response. -/
theorem str_strncpy_str (a : CharArray maxValueLength) :
    (CharArray.strncpy maxValueLength a.str).str = a.str :=
  CharArray.str_strncpy_of_length_le a.nul_notMem_str a.length_str_le

end PeerDirectory
