import PeerDirectory.Client.GetFile

/-!
# The command interpreter

`shell` splits a typed line at its spaces, puts the first word into upper case,
and calls the method of that name if the number of words is right. A description
is what is left of the line, with its spaces. A line that is not understood is
answered with a text. `QUIT` and Ctrl+C disconnect the client and leave the loop: at
the end of the input `input` raises `EOFError`, and the loop goes on. Ctrl+C is no
`Exception`, so it also ends a method that waits, with two reservations. `getfile`
that waits for the server has no `socketC` to close, and the exception of its
`finally` takes the place of Ctrl+C. And a second Ctrl+C, in the `disconnect` that
the first one has called, leaves the loop as an exception.
-/

namespace PeerDirectory

namespace Client

/-- What `str.upper` makes of a single character. -/
structure CaseMapping where
  upper : Char → Str
  ascii : ∀ c, c.toNat < 128 → upper c = [c.toUpper]

/-- `str.upper` -/
def CaseMapping.upperStr (m : CaseMapping) (s : Str) : Str :=
  s.flatMap m.upper

/-- A mapping that knows the ASCII letters only. -/
def CaseMapping.letters : CaseMapping where
  upper := fun c => [c.toUpper]
  ascii := fun _ _ => rfl

/-! ## Lines -/

/-- The words the shell compares the first word with. -/
inductive Keyword where
  | register
  | unregister
  | connect
  | publish
  | delete
  | listUsers
  | listContent
  | disconnect
  | getFile
  | quit
deriving DecidableEq

namespace Keyword

def word : Keyword → Str
  | .register => ['R', 'E', 'G', 'I', 'S', 'T', 'E', 'R']
  | .unregister => ['U', 'N', 'R', 'E', 'G', 'I', 'S', 'T', 'E', 'R']
  | .connect => ['C', 'O', 'N', 'N', 'E', 'C', 'T']
  | .publish => ['P', 'U', 'B', 'L', 'I', 'S', 'H']
  | .delete => ['D', 'E', 'L', 'E', 'T', 'E']
  | .listUsers => ['L', 'I', 'S', 'T', '_', 'U', 'S', 'E', 'R', 'S']
  | .listContent => ['L', 'I', 'S', 'T', '_', 'C', 'O', 'N', 'T', 'E', 'N', 'T']
  | .disconnect => ['D', 'I', 'S', 'C', 'O', 'N', 'N', 'E', 'C', 'T']
  | .getFile => ['G', 'E', 'T', '_', 'F', 'I', 'L', 'E']
  | .quit => ['Q', 'U', 'I', 'T']

/-- The text for a wrong number of words. -/
def usage : Keyword → String
  | .register => "Syntax error. Usage: REGISTER <userName>"
  | .unregister => "Syntax error. Usage: UNREGISTER <userName>"
  | .connect => "Syntax error. Usage: CONNECT <userName>"
  | .publish => "Syntax error. Usage: PUBLISH <fileName> <description>"
  | .delete => "Syntax error. Usage: DELETE <fileName>"
  | .listUsers => "Syntax error. Use: LIST_USERS"
  | .listContent => "Syntax error. Usage: LIST_CONTENT <userName>"
  | .disconnect => "Syntax error. Usage: DISCONNECT <userName>"
  | .getFile => "Syntax error. Usage: GET_FILE <userName> <remote_fileName> <local_fileName>"
  | .quit => "Syntax error. Use: QUIT"

/-- In the order of the comparisons. -/
def all : List Keyword :=
  [.register, .unregister, .connect, .publish, .delete, .listUsers, .listContent, .disconnect,
    .getFile, .quit]

/-- The first comparison that holds. -/
def find (word : Str) : Option Keyword :=
  all.find? fun k => k.word = word

theorem find_eq_some_iff {word : Str} {k : Keyword} : find word = some k ↔ k.word = word := by
  constructor
  · intro h
    simpa using List.find?_some h
  · rintro rfl
    cases k <;> decide

end Keyword

/-- What a line makes the shell do. -/
inductive ShellCommand where
  | call (c : Command)
  | getfile (user remoteFileName localFileName : Str)
  | quit
deriving DecidableEq

/-- The branch of a keyword, with the words behind it, if their number is
right. -/
def Keyword.command : Keyword → List Str → Option ShellCommand
  | .register, [user] => some (.call (.register user))
  | .unregister, [user] => some (.call (.unregister user))
  | .connect, [user] => some (.call (.connect user))
  | .publish, fileName :: word :: words =>
      some (.call (.publish fileName ([' '].intercalate (word :: words))))
  | .delete, [fileName] => some (.call (.delete fileName))
  | .listUsers, [] => some (.call .listusers)
  | .listContent, [user] => some (.call (.listcontent user))
  | .disconnect, [user] => some (.call (.disconnect user))
  | .getFile, [user, remoteFileName, localFileName] =>
      some (.getfile user remoteFileName localFileName)
  | .quit, [] => some .quit
  | _, _ => none

/-- What the shell does with a line, or the text it prints instead. -/
def parse (m : CaseMapping) (line : Str) : Except String ShellCommand :=
  match line.splitOn ' ' with
  | [] => .error ""
  | word :: words =>
      match Keyword.find (m.upperStr word) with
      | none => .error ("Error: command " ++ String.ofList (m.upperStr word) ++ " not valid.")
      | some k =>
          match k.command words with
          | none => .error k.usage
          | some c => .ok c

namespace ShellCommand

/-- The keyword a command is typed with. -/
def keyword : ShellCommand → Keyword
  | .call (.register _) => .register
  | .call (.unregister _) => .unregister
  | .call (.connect _) => .connect
  | .call (.disconnect _) => .disconnect
  | .call (.publish _ _) => .publish
  | .call (.delete _) => .delete
  | .call .listusers => .listUsers
  | .call (.listcontent _) => .listContent
  | .getfile _ _ _ => .getFile
  | .quit => .quit

/-- The arguments that are a single word. -/
def words : ShellCommand → List Str
  | .call (.register user) => [user]
  | .call (.unregister user) => [user]
  | .call (.connect user) => [user]
  | .call (.disconnect user) => [user]
  | .call (.publish fileName _) => [fileName]
  | .call (.delete fileName) => [fileName]
  | .call .listusers => []
  | .call (.listcontent user) => [user]
  | .getfile user remoteFileName localFileName => [user, remoteFileName, localFileName]
  | .quit => []

/-- The argument that takes what is left of the line. -/
def description : ShellCommand → List Str
  | .call (.publish _ description) => [description]
  | _ => []

/-- The line of a command whose keyword is spelled `word`. -/
def line (word : Str) (c : ShellCommand) : Str :=
  [' '].intercalate (word :: (c.words ++ c.description))

end ShellCommand

/-! ## What a line is parsed to -/

theorem notMem_of_mem_splitOn {line word : Str} (h : word ∈ line.splitOn ' ') : ' ' ∉ word := by
  induction line generalizing word with
  | nil => simp_all
  | cons c line ih =>
      rw [List.splitOn_cons_eq_if_modifyHead] at h
      split at h
      · rcases List.mem_cons.mp h with rfl | h
        · simp
        · exact ih h
      · next hc =>
          cases hsplit : line.splitOn ' ' with
          | nil => simp [hsplit] at h
          | cons first words =>
              rw [hsplit] at ih h
              rcases List.mem_cons.mp h with rfl | h
              · rw [List.mem_cons, not_or]
                exact ⟨fun heq => hc (beq_iff_eq.mpr heq.symm), ih List.mem_cons_self⟩
              · exact ih (List.mem_cons_of_mem _ h)

/-- The branch of a keyword gives a command that is written with that keyword and
these words. -/
theorem Keyword.command_eq_some {k : Keyword} {words : List Str} {c : ShellCommand}
    (hwords : ∀ w ∈ words, ' ' ∉ w) (h : k.command words = some c) (word : Str) :
    k = c.keyword ∧ (∀ w ∈ c.words, ' ' ∉ w) ∧ [' '].intercalate (word :: words) = c.line word := by
  unfold Keyword.command at h
  split at h
  case h_4 fileName first rest =>
      cases h
      refine ⟨rfl, fun w hw => hwords w ?_, ?_⟩
      · rw [List.mem_singleton.mp hw]
        exact List.mem_cons_self
      · simp [ShellCommand.line, ShellCommand.words, ShellCommand.description,
          List.intercalate_cons_cons]
  case h_11 => cases h
  all_goals
    cases h
    exact ⟨rfl, hwords, rfl⟩

/-- The line of a command splits into its words, and those of the description. -/
theorem ShellCommand.splitOn_line {word : Str} (hword : ' ' ∉ word) {c : ShellCommand}
    (hwords : ∀ w ∈ c.words, ' ' ∉ w) :
    ∃ words, (c.line word).splitOn ' ' = word :: words ∧ c.keyword.command words = some c := by
  have hplain : c.description = [] → (c.line word).splitOn ' ' = word :: c.words := by
    intro hnone
    rw [line, hnone, List.append_nil]
    exact List.splitOn_intercalate ' ' (List.forall_mem_cons.mpr ⟨hword, hwords⟩) (by simp)
  cases c with
  | call c =>
      cases c with
      | publish fileName description =>
          have hname : ' ' ∉ fileName := hwords fileName List.mem_cons_self
          refine ⟨fileName :: description.splitOn ' ', ?_, ?_⟩
          · simp [line, words, ShellCommand.description, List.intercalate_cons_cons,
              List.splitOn_append_cons_self_of_not_mem hword,
              List.splitOn_append_cons_self_of_not_mem hname]
          · have hdescription : [' '].intercalate (description.splitOn ' ') = description :=
              List.intercalate_splitOn ' '
            cases hsplit : description.splitOn ' ' with
            | nil => exact absurd hsplit (List.splitOn_ne_nil _ _)
            | cons first rest =>
                rw [hsplit] at hdescription
                simp only [keyword, Keyword.command, hdescription]
      | _ => exact ⟨_, hplain rfl, rfl⟩
  | getfile user remoteFileName localFileName => exact ⟨_, hplain rfl, rfl⟩
  | quit => exact ⟨_, hplain rfl, rfl⟩

/-- A line is understood as a command exactly when it is that command written
out, with the keyword in any spelling that `upper` maps to it. -/
theorem parse_eq_ok_iff (m : CaseMapping) (line : Str) (c : ShellCommand) :
    parse m line = .ok c ↔
      ∃ word, ' ' ∉ word ∧ m.upperStr word = c.keyword.word ∧ (∀ w ∈ c.words, ' ' ∉ w) ∧
        line = c.line word := by
  constructor
  · intro h
    unfold parse at h
    split at h
    · cases h
    · next word words hsplit =>
        have hmem : ∀ w ∈ word :: words, ' ' ∉ w := fun w hw =>
          notMem_of_mem_splitOn (hsplit ▸ hw)
        obtain ⟨hword, hwords⟩ := List.forall_mem_cons.mp hmem
        split at h
        · cases h
        · next k hk =>
            split at h
            · cases h
            · next c' hc =>
                cases h
                obtain ⟨rfl, hspaceless, hline⟩ := Keyword.command_eq_some hwords hc word
                refine ⟨word, hword, (Keyword.find_eq_some_iff.mp hk).symm, hspaceless, ?_⟩
                rw [← hline, ← hsplit, List.intercalate_splitOn]
  · rintro ⟨word, hword, hupper, hwords, rfl⟩
    obtain ⟨words, hsplit, hcommand⟩ := ShellCommand.splitOn_line hword hwords
    simp only [parse, hsplit, Keyword.find_eq_some_iff.mpr hupper.symm, hcommand]

/-! ## The loop -/

/-- What `input` gives: a line, or Ctrl+C while it waits for one. -/
inductive Input where
  | line (command : Str)
  | interrupt
deriving DecidableEq

/-- What a client keeps: the attributes of the class, and the files of its working
directory. -/
structure ClientProcess where
  client : ClientState
  files : Files

/-- The working directory after `save_content` has written this text, if it
has. -/
def saved (files : Files) (localFileName : Str) : Option Str → Files
  | none => files
  | some contenido => Function.update files localFileName (.text contenido)

section Turns

variable {σ : Type}

/-- `if client._connected: client.disconnect(client._user)`. Without a user
`disconnect` catches the exception. -/
def leave (env : Environment σ) (st : ClientState) (peer : σ) : Outcome Bool × ClientState × σ :=
  if st.connected then
    match st.user with
    | some user =>
        let r := disconnect env user st peer
        (r.1.bind fun _ => .returns true, r.2)
    | none => (.returns true, st, peer)
  else
    (.returns true, st, peer)

/-- The call of a line; `true` says that the loop is left. -/
def ShellCommand.run (env : FileEnvironment σ) (c : ShellCommand) (p : ClientProcess) (peer : σ) :
    Outcome Bool × ClientProcess × σ :=
  match c with
  | .call c =>
      let r := c.run env.toEnvironment p.client peer
      (r.1.bind fun _ => .returns false, { p with client := r.2.1 }, r.2.2)
  | .getfile user remoteFileName localFileName =>
      let r := Client.getfile env user remoteFileName localFileName p.client peer
      let files := match r.1 with
        | .returns result => saved p.files localFileName result.2
        | _ => p.files
      (r.1.bind fun _ => .returns false, { p with files := files }, r.2)
  | .quit =>
      let r := leave env.toEnvironment p.client peer
      (r.1, { p with client := r.2.1 }, r.2.2)

/-- One turn of the loop; `true` says that it is left. -/
def turn (m : CaseMapping) (env : FileEnvironment σ) (input : Input) (p : ClientProcess)
    (peer : σ) : Outcome Bool × ClientProcess × σ :=
  match input with
  | .line command =>
      match parse m command with
      | .error _ => (.returns false, p, peer)
      | .ok c =>
          let r := c.run env p peer
          (r.1.catching false, r.2)
  | .interrupt =>
      let r := leave env.toEnvironment p.client peer
      (r.1, { p with client := r.2.1 }, r.2.2)

/-- Where the main thread waits. -/
inductive Waiting where
  /-- For a line. -/
  | prompt
  /-- In a method that the `try` block of the loop has called. -/
  | method
  /-- In `getfile`, in front of the place where `socketC` is assigned. -/
  | unassigned
  /-- In the `disconnect` that Ctrl+C has called. -/
  | leaving
deriving DecidableEq

/-- Where a turn waits that does not come back. -/
def waitsIn (m : CaseMapping) (env : FileEnvironment σ) (input : Input) (p : ClientProcess)
    (peer : σ) : Waiting :=
  match input with
  | .interrupt => .leaving
  | .line command =>
      match parse m command with
      | .ok (.getfile user _ _) =>
          match (findPeer env.toEnvironment user p.client peer).1 with
          | .hangs => .unassigned
          | _ => .method
      | _ => .method

/-- The shell between two things that its user does. -/
@[ext]
structure ShellState (σ : Type) where
  waiting : Waiting
  process : ClientProcess
  peer : σ

/-- A turn, in which the main thread may come to wait. -/
def turnOrWait (m : CaseMapping) (env : FileEnvironment σ) (input : Input) (p : ClientProcess)
    (peer : σ) : Outcome Bool × ShellState σ :=
  let r := turn m env input p peer
  match r.1 with
  | .hangs => (.returns false, ⟨waitsIn m env input p peer, r.2.1, r.2.2⟩)
  | answer => (answer, ⟨.prompt, r.2.1, r.2.2⟩)

/-- What becomes of a line or Ctrl+C; `true` says that the loop is left. While a
method waits, a line is not read and Ctrl+C is raised in the method: it passes
`except Exception`, but not the `finally` of a `getfile` without `socketC`. -/
def ShellState.take (m : CaseMapping) (s : ShellState σ) (event : Input × FileEnvironment σ) :
    Outcome Bool × ShellState σ :=
  match s.waiting, event.1 with
  | .prompt, input => turnOrWait m event.2 input s.process s.peer
  | .method, .interrupt => turnOrWait m event.2 .interrupt s.process s.peer
  | .unassigned, .interrupt => (.returns false, { s with waiting := .prompt })
  | .leaving, .interrupt => (.raises, s)
  | _, .line _ => (.returns false, s)

/-- `shell` over what its user does. At the end of the input `input` raises
`EOFError` for ever. -/
def shell (m : CaseMapping) :
    List (Input × FileEnvironment σ) → ShellState σ → Outcome Unit × ClientProcess × σ
  | [], s => (.hangs, s.process, s.peer)
  | event :: events, s =>
      let r := s.take m event
      match r.1 with
      | .returns true => (.returns (), r.2.process, r.2.peer)
      | .returns false => shell m events r.2
      | .raises => (.raises, r.2.process, r.2.peer)
      | .hangs => (.hangs, r.2.process, r.2.peer)

end Turns

/-- The shell leaves its loop on this input. -/
def CaseMapping.Ends (m : CaseMapping) : Input → Bool
  | .interrupt => true
  | .line command =>
      match parse m command with
      | .ok .quit => true
      | _ => false

section Loop

variable {σ : Type} {m : CaseMapping}

theorem turn_of_error {env : FileEnvironment σ} {command : Str} {text : String}
    (h : parse m command = .error text) (p : ClientProcess) (peer : σ) :
    turn m env (.line command) p peer = (.returns false, p, peer) := by
  simp only [turn, h]

theorem turn_of_ok {env : FileEnvironment σ} {command : Str} {c : ShellCommand}
    (h : parse m command = .ok c) (p : ClientProcess) (peer : σ) :
    turn m env (.line command) p peer =
      ((c.run env p peer).1.catching false, (c.run env p peer).2) := by
  simp only [turn, h]

theorem leave_cases (env : Environment σ) (st : ClientState) (peer : σ) :
    (leave env st peer).1 = .returns true ∨ (leave env st peer).1 = .hangs := by
  unfold leave
  split
  · split
    · next user _ =>
        dsimp only
        cases hanswer : (disconnect env user st peer).1 with
        | returns rc => exact Or.inl rfl
        | hangs => exact Or.inr rfl
        | raises =>
            exfalso
            unfold disconnect at hanswer
            split at hanswer
            · dsimp only at hanswer
              (repeat' split at hanswer) <;> cases hanswer
            · cases hanswer
    · exact Or.inl rfl
  · exact Or.inl rfl

/-- No exception leaves a turn, and the loop is left only by the end of the
session. -/
theorem turn_cases (env : FileEnvironment σ) (input : Input) (p : ClientProcess) (peer : σ) :
    (turn m env input p peer).1 = .returns (m.Ends input) ∨
      (turn m env input p peer).1 = .hangs := by
  cases input with
  | interrupt => exact leave_cases env.toEnvironment p.client peer
  | line command =>
      simp only [CaseMapping.Ends]
      cases hparse : parse m command with
      | error text => exact Or.inl (by rw [turn_of_error hparse])
      | ok c =>
          rw [turn_of_ok hparse]
          cases c with
          | call c =>
              simp only [ShellCommand.run]
              cases (c.run env.toEnvironment p.client peer).1 <;> simp
          | getfile user remoteFileName localFileName =>
              simp only [ShellCommand.run]
              cases (getfile env user remoteFileName localFileName p.client peer).1 <;> simp
          | quit =>
              rcases leave_cases env.toEnvironment p.client peer with h | h <;>
                simp [ShellCommand.run, h]

/-- A turn that ends the session is its `disconnect`. -/
theorem turn_of_ends {env : FileEnvironment σ} {input : Input} (h : m.Ends input = true)
    (p : ClientProcess) (peer : σ) :
    turn m env input p peer =
      ((leave env.toEnvironment p.client peer).1,
        { p with client := (leave env.toEnvironment p.client peer).2.1 },
        (leave env.toEnvironment p.client peer).2.2) := by
  cases input with
  | interrupt => rfl
  | line command =>
      simp only [CaseMapping.Ends] at h
      cases hparse : parse m command with
      | error text => simp [hparse] at h
      | ok c =>
          cases c with
          | quit =>
              rw [turn_of_ok hparse]
              have hanswer : (leave env.toEnvironment p.client peer).1.catching false =
                  (leave env.toEnvironment p.client peer).1 := by
                rcases leave_cases env.toEnvironment p.client peer with h | h <;> rw [h] <;> rfl
              simp only [ShellCommand.run, hanswer]
          | call c => simp [hparse] at h
          | getfile user remoteFileName localFileName => simp [hparse] at h

/-- The loop is to be left: `QUIT` or Ctrl+C for a shell that waits for a line, or
Ctrl+C for one that waits in a method. -/
def ShellState.Asked (m : CaseMapping) (s : ShellState σ) (input : Input) : Bool :=
  match s.waiting, input with
  | .prompt, input => m.Ends input
  | .method, .interrupt => true
  | _, _ => false

/-- The shell is still in its loop behind a line or Ctrl+C. -/
def ShellState.step (m : CaseMapping) (s : ShellState σ) (event : Input × FileEnvironment σ) :
    Option (ShellState σ) :=
  match (s.take m event).1 with
  | .returns false => some (s.take m event).2
  | _ => none

/-- The client is disconnected if it is connected, this comes back, and the process
and the other side are then `s'`. -/
def ShellState.LeavesWith (s : ShellState σ) (env : FileEnvironment σ) (s' : ClientProcess × σ) :
    Prop :=
  leave env.toEnvironment s.process.client s.peer = (.returns true, s'.1.client, s'.2) ∧
    s'.1.files = s.process.files

variable {s : ShellState σ} {event : Input × FileEnvironment σ}

/-- What a turn makes of the loop. -/
theorem turnOrWait_cases (env : FileEnvironment σ) (input : Input) (p : ClientProcess) (peer : σ) :
    ((turn m env input p peer).1 = .returns (m.Ends input) ∧
        turnOrWait m env input p peer = (.returns (m.Ends input),
          ⟨.prompt, (turn m env input p peer).2.1, (turn m env input p peer).2.2⟩)) ∨
      ((turn m env input p peer).1 = .hangs ∧
        (turnOrWait m env input p peer).1 = .returns false) := by
  rcases turn_cases (m := m) env input p peer with h | h
  · exact Or.inl ⟨h, by simp only [turnOrWait, h]⟩
  · exact Or.inr ⟨h, by simp only [turnOrWait, h]⟩

/-- Only Ctrl+C makes the shell wait in its `disconnect`. -/
theorem waitsIn_line (env : FileEnvironment σ) (command : Str) (p : ClientProcess) (peer : σ) :
    waitsIn m env (.line command) p peer ≠ .leaving := by
  unfold waitsIn
  repeat' split
  all_goals simp_all

/-- A turn leaves the process and the other side as they are when it waits, too. -/
theorem turnOrWait_snd (env : FileEnvironment σ) (input : Input) (p : ClientProcess) (peer : σ) :
    (turnOrWait m env input p peer).2.process = (turn m env input p peer).2.1 ∧
      (turnOrWait m env input p peer).2.peer = (turn m env input p peer).2.2 := by
  unfold turnOrWait
  dsimp only
  split <;> exact ⟨rfl, rfl⟩

/-- The loop is left on an input that ends the session and whose `disconnect` comes
back. -/
theorem turnOrWait_eq_true_iff {env : FileEnvironment σ} {input : Input} {s' : ShellState σ} :
    turnOrWait m env input s.process s.peer = (.returns true, s') ↔
      m.Ends input = true ∧ s.LeavesWith env (s'.process, s'.peer) ∧ s'.waiting = .prompt := by
  constructor
  · intro h
    rcases turnOrWait_cases (m := m) env input s.process s.peer with ⟨hturn, heq⟩ | ⟨-, hfalse⟩
    · rw [heq, Prod.mk.injEq, Outcome.returns.injEq] at h
      obtain ⟨hends, rfl⟩ := h
      rw [turn_of_ends hends] at hturn ⊢
      rw [hends] at hturn
      exact ⟨hends, ⟨Prod.ext hturn rfl, rfl⟩, rfl⟩
    · rw [h] at hfalse
      cases hfalse
  · rintro ⟨hends, ⟨hleave, hfiles⟩, hwaiting⟩
    obtain ⟨waiting, ⟨client, files⟩, peer⟩ := s'
    obtain rfl : waiting = .prompt := hwaiting
    obtain rfl : files = s.process.files := hfiles
    simp only [turnOrWait, turn_of_ends hends, hleave]

/-- The loop is left exactly when it is to be left and the `disconnect` comes back. -/
theorem take_eq_true_iff {s' : ShellState σ} :
    s.take m event = (.returns true, s') ↔
      s.Asked m event.1 = true ∧ s.LeavesWith event.2 (s'.process, s'.peer) ∧
        s'.waiting = .prompt := by
  obtain ⟨waiting, process, peer⟩ := s
  obtain ⟨input, env⟩ := event
  cases waiting with
  | prompt => exact turnOrWait_eq_true_iff
  | method =>
      cases input with
      | interrupt => exact turnOrWait_eq_true_iff
      | line command => simp [ShellState.take, ShellState.Asked]
  | unassigned => cases input <;> simp [ShellState.take, ShellState.Asked]
  | leaving => cases input <;> simp [ShellState.take, ShellState.Asked]

/-- An exception leaves the loop only where Ctrl+C interrupts the `disconnect` that
Ctrl+C has called. -/
theorem take_raises_iff {s' : ShellState σ} :
    s.take m event = (.raises, s') ↔ s.waiting = .leaving ∧ event.1 = .interrupt ∧ s' = s := by
  have hturn : ∀ env input (p : ClientProcess) (peer : σ),
      turnOrWait m env input p peer ≠ (.raises, s') := by
    intro env input p peer h
    rcases turnOrWait_cases (m := m) env input p peer with ⟨-, heq⟩ | ⟨-, hfalse⟩
    · rw [heq] at h
      cases h
    · rw [h] at hfalse
      cases hfalse
  obtain ⟨waiting, process, peer⟩ := s
  obtain ⟨input, env⟩ := event
  cases waiting with
  | prompt => exact iff_of_false (hturn _ _ _ _) (by simp)
  | method =>
      cases input with
      | interrupt => exact iff_of_false (hturn _ _ _ _) (by simp)
      | line command => simp [ShellState.take]
  | unassigned => cases input <;> simp [ShellState.take]
  | leaving =>
      cases input with
      | interrupt => simp [ShellState.take, eq_comm]
      | line command => simp [ShellState.take]

theorem take_ne_hangs (s' : ShellState σ) : s.take m event ≠ (.hangs, s') := by
  have hturn : ∀ env input (p : ClientProcess) (peer : σ),
      turnOrWait m env input p peer ≠ (.hangs, s') := by
    intro env input p peer h
    rcases turnOrWait_cases (m := m) env input p peer with ⟨-, heq⟩ | ⟨-, hfalse⟩
    · rw [heq] at h
      cases h
    · rw [h] at hfalse
      cases hfalse
  obtain ⟨waiting, process, peer⟩ := s
  obtain ⟨input, env⟩ := event
  cases waiting with
  | prompt => exact hturn _ _ _ _
  | method =>
      cases input with
      | interrupt => exact hturn _ _ _ _
      | line command => simp [ShellState.take]
  | unassigned => cases input <;> simp [ShellState.take]
  | leaving => cases input <;> simp [ShellState.take]

/-- The shell goes on to a state in which the next event decides. -/
def Decides (m : CaseMapping) (events : List (Input × FileEnvironment σ)) (s : ShellState σ)
    (decides : ShellState σ → Input × FileEnvironment σ → Prop) : Prop :=
  ∃ before last after t, events = before ++ last :: after ∧
    Run.run (ShellState.step m) s before = some t ∧ decides t last

variable {events : List (Input × FileEnvironment σ)}
  {decides : ShellState σ → Input × FileEnvironment σ → Prop}

theorem decides_nil : ¬ Decides m [] s decides := by
  rintro ⟨before, last, after, t, h, -⟩
  simp at h

/-- An event decides itself, or the shell goes on behind it. -/
theorem decides_cons :
    Decides m (event :: events) s decides ↔
      decides s event ∨ ∃ s', s.step m event = some s' ∧ Decides m events s' decides := by
  constructor
  · rintro ⟨before, last, after, t, hevents, hrun, hdecides⟩
    cases before with
    | nil =>
        obtain ⟨rfl, rfl⟩ := List.cons.inj hevents
        obtain rfl : s = t := by simpa using hrun
        exact Or.inl hdecides
    | cons first before =>
        obtain ⟨rfl, rfl⟩ := List.cons.inj hevents
        obtain ⟨s', hstep, hrun⟩ := Run.run_cons_eq_some.mp hrun
        exact Or.inr ⟨s', hstep, before, last, after, t, rfl, hrun, hdecides⟩
  · rintro (hdecides | ⟨s', hstep, before, last, after, t, rfl, hrun, hdecides⟩)
    · exact ⟨[], event, events, s, rfl, rfl, hdecides⟩
    · exact ⟨event :: before, last, after, t, rfl,
        Run.run_cons_eq_some.mpr ⟨s', hstep, hrun⟩, hdecides⟩

theorem decides_congr {decides' : ShellState σ → Input × FileEnvironment σ → Prop}
    (h : ∀ t event, decides t event ↔ decides' t event) :
    Decides m events s decides ↔ Decides m events s decides' := by
  simp only [Decides, h]

variable {p' : ClientProcess} {peer' : σ}

/-- The loop comes back with the first event that leaves it. -/
theorem shell_returns_iff_decides :
    shell m events s = (.returns (), p', peer') ↔
      Decides m events s fun t event =>
        ∃ waiting, t.take m event = (.returns true, ⟨waiting, p', peer'⟩) := by
  induction events generalizing s with
  | nil => simp [shell, decides_nil]
  | cons event events ih =>
      rw [decides_cons]
      rcases htake : s.take m event with ⟨answer, s'⟩
      cases answer with
      | returns left =>
          cases left with
          | true => simp [shell, ShellState.step, htake, ShellState.ext_iff]
          | false => simp [shell, ShellState.step, htake, ih]
      | raises => simp [shell, ShellState.step, htake]
      | hangs => simp [shell, ShellState.step, htake]

/-- An exception leaves the loop with the first event that makes it. -/
theorem shell_raises_iff_decides :
    shell m events s = (.raises, p', peer') ↔
      Decides m events s fun t event =>
        ∃ waiting, t.take m event = (.raises, ⟨waiting, p', peer'⟩) := by
  induction events generalizing s with
  | nil => simp [shell, decides_nil]
  | cons event events ih =>
      rw [decides_cons]
      rcases htake : s.take m event with ⟨answer, s'⟩
      cases answer with
      | returns left =>
          cases left with
          | true => simp [shell, ShellState.step, htake]
          | false => simp [shell, ShellState.step, htake, ih]
      | raises => simp [shell, ShellState.step, htake, ShellState.ext_iff]
      | hangs => simp [shell, ShellState.step, htake]

variable (m events s p' peer')

end Loop

end Client

end PeerDirectory
