import PeerDirectory.Server.ListFacts
import PeerDirectory.Directory.Basic

/-!
# The lists as an abstract directory

`abstract messages` reads the abstract directory off the list of users: a name
stands for its first match. No two users have one name and no two files of a
user have one name (`Unique`), so the first match is the only one. Every
critical section of `list.c` computes the step of the abstract directory, gives
the same answer, and keeps the names unique.
-/

namespace PeerDirectory

/-- The published files of a user with their descriptions. -/
def Node.files (n : Node) (file : Bytes) : Option Bytes :=
  (KeyedList.lookup FileNode.name file n.listFiles).map fun f => f.description.str

/-- What the node says of its user. -/
def Node.entry (n : Node) : Entry where
  address := if n.connected then some (n.ip.str, n.port.str) else none
  files := n.files

/-- The directory the list stands for. -/
def abstract (messages : List Node) : Directory := fun username =>
  (KeyedList.lookup Node.name username messages).map Node.entry

/-- No two users have the same name, and no two files of one user do. -/
structure Unique (messages : List Node) : Prop where
  users : KeyedList.NodupKeys Node.name messages
  files : ∀ n ∈ messages, KeyedList.NodupKeys FileNode.name n.listFiles

theorem Unique.nil : Unique [] where
  users := KeyedList.nodupKeys_nil
  files := by simp

theorem abstract_eq_none {messages : List Node} {username : Bytes}
    (h : KeyedList.lookup Node.name username messages = none) :
    abstract messages username = none := by
  rw [abstract, h]
  rfl

theorem abstract_eq_some {messages : List Node} {username : Bytes} {n : Node}
    (h : KeyedList.lookup Node.name username messages = some n) :
    abstract messages username = some n.entry := by
  rw [abstract, h]
  rfl

theorem abstract_cons (n : Node) (messages : List Node) :
    abstract (n :: messages) = (abstract messages).set n.name (some n.entry) := by
  funext username
  rw [Directory.set, Function.update_apply, abstract, KeyedList.lookup_cons]
  by_cases hu : n.name = username
  · simp [hu]
  · rw [if_neg hu, if_neg fun h => hu h.symm, abstract]

theorem Node.entry_of_connected {n : Node} (h : n.connected = true) :
    n.entry.address = some (n.ip.str, n.port.str) := by
  simp [Node.entry, h]

theorem Node.entry_of_not_connected {n : Node} (h : n.connected = false) :
    n.entry.address = none := by
  simp [Node.entry, h]

/-! ## One search loop, one update -/

section Visit

variable {messages : List Node} {username : Bytes} {body : Node → Option Node × Int}
  {notFound : Int}

/-- A search loop over the users updates the directory at the name it searches
for. -/
theorem abstract_visit (hm : Unique messages) (hb : KeyedList.KeepsKey Node.name body) :
    abstract (KeyedList.visit Node.name username body notFound messages).1 =
      (abstract messages).set username
        ((KeyedList.lookup Node.name username messages).bind fun n =>
          (body n).1.map Node.entry) := by
  funext name
  rw [Directory.set, Function.update_apply, abstract]
  by_cases hn : name = username
  · rw [if_pos hn, hn, KeyedList.lookup_visit_self hm.users hb]
    cases KeyedList.lookup Node.name username messages <;> rfl
  · rw [if_neg hn, KeyedList.lookup_visit_of_ne hb hn, abstract]

theorem Unique.visit (hm : Unique messages) (hb : KeyedList.KeepsKey Node.name body)
    (hf : ∀ a b, KeyedList.NodupKeys FileNode.name a.listFiles → (body a).1 = some b →
      KeyedList.NodupKeys FileNode.name b.listFiles) :
    Unique (KeyedList.visit Node.name username body notFound messages).1 where
  users := hm.users.visit hb
  files := by
    intro n hn
    rcases KeyedList.mem_visit hn with h | ⟨a, ha, -, hab⟩
    · exact hm.files n h
    · exact hf a n (hm.files a ha) hab

end Visit

/-! ## What it means that a critical section refines the directory -/

/-- A string that fits into an array of `MAX_VALUE_LENGTH` bytes with its NUL. -/
def FitsField (s : Bytes) : Prop :=
  0 ∉ s ∧ s.length < maxValueLength

/-- The string arguments of a call. -/
def Call.args : Call → List Bytes
  | .registerUser username => [username]
  | .unregisterUser username => [username]
  | .connectUser port username => [port, username]
  | .disconnectUser username => [username]
  | .registerFileFromUser username file description => [username, file, description]
  | .unregisterFileFromUser username file => [username, file]
  | .listUsers username => [username]
  | .listContent username username2 => [username, username2]

/-- Every string argument fits into a field of a node. -/
def Call.Fits (c : Call) : Prop :=
  ∀ s ∈ c.args, FitsField s

instance (s : Bytes) : Decidable (FitsField s) :=
  inferInstanceAs (Decidable (0 ∉ s ∧ s.length < maxValueLength))

instance (c : Call) : Decidable c.Fits :=
  inferInstanceAs (Decidable (∀ s ∈ c.args, FitsField s))

/-- The row a response node shows. -/
def UserFields.row (f : UserFields) : Bytes × Bytes × Bytes :=
  (f.username.str, f.ip.str, f.port.str)

/-- The row a response node shows. -/
def ContentFields.row (f : ContentFields) : Bytes × Bytes :=
  (f.filename.str, f.description.str)

/-- The list shows exactly the rows of the set, each once. -/
def Lists {α : Type} (l : List α) (rows : Set α) : Prop :=
  l.Nodup ∧ ∀ row, row ∈ l ↔ row ∈ rows

/-- The operation gives the answer of the directory: the same code, or a
response that shows each row of the answer once. -/
def Result.Matches : Result → Answer → Prop
  | .code error, .code error' => error = error'
  | .users respuesta nUser, .users rows =>
      nUser = respuesta.rows.length ∧ Lists (respuesta.rows.map UserFields.row) rows
  | .content respuesta, .content rows =>
      Lists (respuesta.rows.map ContentFields.row) rows
  | _, _ => False

/-- A critical section that leaves `messages'` and gives back `r` computes the
step of the directory; a refused call leaves the very same list. -/
structure BodyRefines (o : Outcomes) (messages : List Node) (c : Call)
    (messages' : List Node) (r : Result) : Prop where
  directory : abstract messages' = ((abstract messages).step o c).1
  answer : r.Matches ((abstract messages).step o c).2
  unique : Unique messages'
  unchanged : r.error ≠ 0 → messages' = messages

namespace FitsField

variable {s : Bytes}

theorem str_strncpy (h : FitsField s) : (CharArray.strncpy maxValueLength s).str = s :=
  CharArray.str_strncpy_of_length_le h.1 h.2.le

end FitsField

theorem abstract_set_self {messages : List Node} {username : Bytes} {n : Node}
    (h : KeyedList.lookup Node.name username messages = some n) :
    (abstract messages).set username (some n.entry) = abstract messages := by
  rw [← abstract_eq_some h]
  exact Function.update_eq_self username (abstract messages)

/-- The operations that search for one user. Their body must answer as the
directory does for the node found, and must leave the node as it was when it
refuses. -/
theorem refines_of_visit {o : Outcomes} {messages : List Node} {c : Call}
    {username : Bytes} {body : Node → Option Node × Int}
    (hm : Unique messages) (hb : KeyedList.KeepsKey Node.name body)
    (hf : ∀ a b, KeyedList.NodupKeys FileNode.name a.listFiles → (body a).1 = some b →
      KeyedList.NodupKeys FileNode.name b.listFiles)
    (hrefuse : ∀ n, (body n).2 ≠ 0 → (body n).1 = some n)
    (hnone : abstract messages username = none →
      (abstract messages).step o c = (abstract messages, .code 1))
    (hsome : ∀ n, KeyedList.lookup Node.name username messages = some n →
      abstract messages username = some n.entry →
      (abstract messages).step o c =
        ((abstract messages).set username ((body n).1.map Node.entry), .code (body n).2)) :
    BodyRefines o messages c (KeyedList.visit Node.name username body 1 messages).1
      (.code (KeyedList.visit Node.name username body 1 messages).2) := by
  cases h : KeyedList.lookup Node.name username messages with
  | none =>
      have hstep := hnone (abstract_eq_none h)
      rw [KeyedList.visit_of_lookup_eq_none h]
      exact ⟨by rw [hstep], by rw [hstep]; rfl, hm, fun _ => rfl⟩
  | some n =>
      have hstep := hsome n h (abstract_eq_some h)
      refine ⟨?_, ?_, hm.visit hb hf, ?_⟩
      · rw [abstract_visit hm hb, h, hstep]
        rfl
      · rw [hstep, KeyedList.visit_snd_of_lookup_eq_some h]
        rfl
      · intro hne
        rw [KeyedList.visit_fst_eq_self_iff]
        intro a ha
        rw [h, Option.some.injEq] at ha
        subst ha
        apply hrefuse
        simpa [Result.error, KeyedList.visit_snd_of_lookup_eq_some h] using hne

end PeerDirectory
