import PeerDirectory.Server.Servidor
import PeerDirectory.Lib.Run

/-!
# What a handler makes of a byte stream

A handler that runs alone on a stream of bytes is a function of the lines of the
stream: the first one is the operation name, the next ones are the fields, each
cut to what fits into `buffer`, and a line past the end of the stream is empty.
`treatRequest_eq` says which store call this is, what is answered and what is
left in `buffer`. The only trace of earlier connections is the string in
`buffer` when the stream is empty from the start.
-/

namespace PeerDirectory

/-- The bytes of a connection. -/
def Connection.bytes (conn : Connection) : Bytes :=
  conn.input.filterMap fun
    | .byte ch => some ch
    | _ => none

/-- Every read of the connection gives a byte or the end of the stream. -/
def Connection.Clean (conn : Connection) : Prop :=
  conn.input = ofBytes conn.bytes

instance (conn : Connection) : Decidable conn.Clean :=
  inferInstanceAs (Decidable (conn.input = ofBytes conn.bytes))

/-- A request on the wire: the operation name and the fields, each with its
NUL. -/
def encodeRequest (op : Operation) (fields : List Bytes) : Bytes :=
  Delimited.frame 0 (op.name :: fields)

/-- The `k`-th line of the stream as it fits into `buffer`. -/
def received (k : ℕ) (s : Bytes) : Bytes :=
  (Delimited.field isEndOfLine k s).take (maxValueLength - 1)

/-- The operation a name is taken for: the first match of the chain of
`strcmp`. -/
def command (name : Bytes) : Option Operation :=
  Operation.all.find? fun op => name = op.name

/-- The store call a branch makes on a stream of bytes. -/
def Operation.requestCall (s : Bytes) : Operation → Call
  | .register => .registerUser (received 2 s)
  | .unregister => .unregisterUser (received 2 s)
  | .connect => .connectUser (received 3 s) (received 2 s)
  | .publish => .registerFileFromUser (received 2 s) (received 3 s) (received 4 s)
  | .delete => .unregisterFileFromUser (received 2 s) (received 3 s)
  | .disconnect => .disconnectUser (received 2 s)
  | .listUsers => .listUsers (received 2 s)
  | .listContent => .listContent (received 2 s) (received 3 s)

/-- The branch reports a file name. -/
def Operation.namesFile : Operation → Bool
  | .publish => true
  | .delete => true
  | _ => false

/-- What follows the result code in the answer of a branch. -/
def Operation.listing (mallocCount : Bool) : Operation → Result → Option Bytes
  | .listUsers, .users respuesta nUser =>
      if mallocCount then usersReply respuesta nUser else none
  | .listContent, .content respuesta =>
      if mallocCount then contentReply respuesta else none
  | _, _ => some []

/-- What a connection does that others can see: the store and the string it
leaves in `buffer`, its store calls, its answer and its reports. -/
structure Served where
  store : ListState
  left : Bytes
  calls : List Call
  reply : Bytes
  printed : List (Bytes × Bytes × Bytes × Bytes)

def observe (r : Shared × Handler) : Served where
  store := r.1.store
  left := r.1.buffer.str
  calls := r.2.calls
  reply := r.2.sent
  printed := r.2.printed

/-- What the branch of `op` does on a stream of bytes. -/
def Operation.serve (op : Operation) (conn : Connection) (s : Bytes) (store : ListState) :
    Option Served :=
  ((op.requestCall s).perform conn.outcomes store).bind fun r =>
    (op.listing conn.mallocCount r.2).map fun listing =>
      { store := r.1
        left := if op = .listContent then received 3 s else []
        calls := [op.requestCall s]
        reply := errorStr r.2.error ++ listing
        printed :=
          [(received 2 s, op.name, received 1 s, if op.namesFile then received 3 s else [])] }

/-- A connection that does nothing. -/
def Served.idle (store : ListState) (left : Bytes) : Served where
  store := store
  left := left
  calls := []
  reply := []
  printed := []

/-! ## Operation names -/

theorem command_name (op : Operation) : command op.name = some op := by
  cases op <;> decide +kernel

theorem not_endOfLine_of_mem_name {op : Operation} {b : UInt8} (h : b ∈ op.name) :
    isEndOfLine b = false := by
  have hall : ∀ b ∈ op.name, isEndOfLine b = false := by
    cases op <;> decide +kernel
  exact hall b h

theorem length_name_lt (op : Operation) : op.name.length < maxValueLength := by
  cases op <;> decide +kernel

theorem fitsLine_name (op : Operation) : FitsLine maxValueLength op.name :=
  ⟨by have := length_name_lt op; omega, fun _ => not_endOfLine_of_mem_name⟩

/-! ## One field -/

/-- A request of fields that fit gives them back. -/
theorem received_frame {fs : List Bytes} (hfs : ∀ f ∈ fs, FitsLine maxValueLength f) {k : ℕ}
    (hk : k < fs.length) : received k (Delimited.frame 0 fs) = fs[k] := by
  have hfield := Delimited.field_frame isEndOfLine_zero (fun f hf => (hfs f hf).2) [] hk
  rw [List.append_nil] at hfield
  rw [received, hfield, List.take_of_length_le (hfs _ (List.getElem_mem hk)).1]

/-- `buffer` after it was cleared and the next line was read into it. -/
def lineBuffer (s : Bytes) : CharArray maxValueLength :=
  (readLine (CharArray.memset maxValueLength) (ofBytes s)).buffer

@[simp] theorem str_lineBuffer (s : Bytes) : (lineBuffer s).str = received 0 s :=
  str_readLine_ofBytes_of_nil (by decide) _ s CharArray.str_memset

theorem received_succ (k : ℕ) (s : Bytes) :
    received (k + 1) s = received k (afterLine s) := rfl

theorem not_ret_readLine_neg (buffer : CharArray maxValueLength) (s : Bytes) :
    ¬ (readLine buffer (ofBytes s)).ret < 0 := by
  rw [ret_readLine_ofBytes (by decide)]
  omega

section Branch

variable (conn : Connection) (statements : List Statement) (g : Shared) (h : Handler)

@[simp] theorem runBranch_nil : runBranch conn [] g h = some (g, h) := rfl

theorem runBranch_sprintf (dst : Var) :
    runBranch conn (.sprintf dst :: statements) g h =
      runBranch conn statements g
        { h with locals := Function.update h.locals dst g.buffer.str } := by
  rw [runBranch, Statement.exec, Option.bind_some]

theorem runBranch_memset :
    runBranch conn (.memset :: statements) g h =
      runBranch conn statements { g with buffer := CharArray.memset maxValueLength } h := by
  rw [runBranch, Statement.exec, Option.bind_some]

theorem runBranch_call (op : Operation) :
    runBranch conn (.call op :: statements) g h =
      ((op.storeCall g.buffer.str h.locals).perform conn.outcomes g.store).bind fun r =>
        runBranch conn statements { g with store := r.1 }
          { h with
            result := r.2
            calls := h.calls ++ [op.storeCall g.buffer.str h.locals] } := by
  rw [runBranch, Statement.exec]
  cases (op.storeCall g.buffer.str h.locals).perform conn.outcomes g.store <;> rfl

theorem runBranch_rpcLlamada (file : Bool) :
    runBranch conn (.rpcLlamada file :: statements) g h =
      runBranch conn statements g
        { h with
          printed := h.printed ++
            [(h.locals .print1Username, h.locals .print1Operation, h.locals .print1Date,
              if file then h.locals .print1File else [])] } := by
  rw [runBranch, Statement.exec, Option.bind_some]

theorem runBranch_sendError :
    runBranch conn (.sendError :: statements) g h =
      runBranch conn statements g { h with sent := h.sent ++ errorStr h.result.error } := by
  rw [runBranch, Statement.exec, Option.bind_some]

/-- The statements that clear `buffer`, read a line and copy it out. -/
theorem runBranch_field (dst : Var) (s : Bytes) (locals : Var → Bytes) (result : Result)
    (calls : List Call) (printed : List (Bytes × Bytes × Bytes × Bytes)) (sent : Bytes) :
    runBranch conn (.memset :: .readLine :: .sprintf dst :: statements) g
        ⟨ofBytes s, locals, result, calls, printed, sent⟩ =
      runBranch conn statements { g with buffer := lineBuffer s }
        ⟨ofBytes (afterLine s), Function.update locals dst (received 0 s), result, calls,
          printed, sent⟩ := by
  have hinput := input_readLine_ofBytes (n := maxValueLength) (by decide)
    (CharArray.memset maxValueLength) s
  rw [runBranch_memset, runBranch]
  simp only [Statement.exec, if_neg (not_ret_readLine_neg _ s), hinput, Option.bind_some]
  rw [runBranch_sprintf, ← str_lineBuffer]
  rfl

/-- The last statement of LIST_USERS and of LIST_CONTENT. -/
theorem runBranch_sendUsers :
    runBranch conn [.sendUsers] g h =
      (Operation.listing conn.mallocCount .listUsers h.result).map fun listing =>
        (g, { h with sent := h.sent ++ listing }) := by
  obtain ⟨input, locals, result, calls, printed, sent⟩ := h
  rw [runBranch, Statement.exec]
  cases result with
  | users respuesta nUser =>
      cases hm : conn.mallocCount with
      | false => simp [Operation.listing]
      | true => cases hu : usersReply respuesta nUser <;> simp [Operation.listing, hu]
  | _ => simp [Operation.listing]

theorem runBranch_sendContent :
    runBranch conn [.sendContent] g h =
      (Operation.listing conn.mallocCount .listContent h.result).map fun listing =>
        (g, { h with sent := h.sent ++ listing }) := by
  obtain ⟨input, locals, result, calls, printed, sent⟩ := h
  rw [runBranch, Statement.exec]
  cases result with
  | content respuesta =>
      cases hm : conn.mallocCount with
      | false => simp [Operation.listing]
      | true => cases hc : contentReply respuesta <;> simp [Operation.listing, hc]
  | _ => simp [Operation.listing]

end Branch

/-! ## Branches -/

/-- Every branch, run on the rest of the stream when `buffer` holds its name. -/
theorem observe_runBranch (conn : Connection) (s : Bytes) (op : Operation) (g : Shared)
    (hname : g.buffer.str = op.name) (input : List ReadEvent) :
    (runBranch conn op.branch g
        { Handler.start input with input := ofBytes (afterLine s) }).map observe =
      op.serve conn s g.store := by
  cases op
  all_goals
    -- read the fields up to the store call
    simp only [Operation.branch, registerBranch, unregisterBranch, connectBranch,
      publishBranch, deleteBranch, disconnectBranch, listUsersBranch, listContentBranch,
      Handler.start, runBranch_sprintf, hname, runBranch_field, runBranch_call]
    -- and answer
    simp [runBranch_memset, runBranch_rpcLlamada, runBranch_sendError, runBranch_sendUsers,
      runBranch_sendContent, Operation.serve, Operation.requestCall, Operation.storeCall,
      Operation.listing, Operation.namesFile, observe, received_succ, Option.map_bind,
      Function.comp_def]

theorem dispatch_eq (conn : Connection) (ops : List Operation) (g : Shared) (h : Handler) :
    dispatch conn ops g h =
      match ops.find? fun op => g.buffer.str = op.name with
      | none => some (g, h)
      | some op => runBranch conn op.branch g h := by
  induction ops with
  | nil => rfl
  | cons op ops ih =>
      rw [dispatch, List.find?_cons]
      by_cases hop : g.buffer.str = op.name
      · simp [hop]
      · rw [if_neg hop, ih]
        simp [hop]

theorem name_of_command {name : Bytes} {op : Operation} (h : command name = some op) :
    name = op.name := by
  have := List.find?_some h
  simpa using this

/-- The string `buffer` holds when the handler compares it with the operation
names: the first line, or what was there before if the stream is empty. -/
def commandString (g : Shared) (s : Bytes) : Bytes :=
  if s = [] then g.buffer.str else received 0 s

/-- A handler that runs alone on a stream of bytes. -/
theorem treatRequest_eq (conn : Connection) (s : Bytes) (g : Shared)
    (hin : conn.input = ofBytes s) (hmalloc : conn.mallocStrings = true) :
    (treatRequest conn g).map observe =
      match command (commandString g s) with
      | none => some (Served.idle g.store (commandString g s))
      | some op => op.serve conn s g.store := by
  have hstr : (readLine g.buffer (ofBytes s)).buffer.str = commandString g s :=
    str_readLine_ofBytes (by decide) g.buffer s
  have hinput : (readLine g.buffer (ofBytes s)).input = ofBytes (afterLine s) :=
    input_readLine_ofBytes (by decide) g.buffer s
  rw [treatRequest, if_pos hmalloc]
  simp only [hin, if_neg (not_ret_readLine_neg g.buffer s), dispatch_eq, hstr]
  rw [command]
  cases hc : Operation.all.find? fun op => commandString g s = op.name with
  | none => simp [observe, Served.idle, hstr, Handler.start]
  | some op =>
      have hname : commandString g s = op.name := name_of_command hc
      simp only [hinput]
      exact observe_runBranch conn s op _ (hstr.trans hname) (ofBytes s)

/-- A handler without its strings leaves at once. -/
theorem treatRequest_of_not_malloc (conn : Connection) (g : Shared)
    (hmalloc : conn.mallocStrings = false) :
    treatRequest conn g = some (g, Handler.start conn.input) := by
  simp [treatRequest, hmalloc]

end PeerDirectory
