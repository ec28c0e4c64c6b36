import PeerDirectory.Server.Replies

/-!
# What one connection leaves for the next

The global `buffer` survives between connections, and a handler whose stream is
empty compares with the operation names whatever is left there. Seven of the
branches clear `buffer` after their store call; LIST_CONTENT leaves its second
user name. So connections handled one after another are independent, except
that an empty one performs the operation whose name came as second user of a
LIST_CONTENT just before it.
-/

namespace PeerDirectory

/-- What a connection does to the directory and answers: the store it leaves,
its store calls with their arguments, its reply and its reports. -/
def treated (r : Shared × Handler) :
    ListState × List Call × Bytes × List (Bytes × Bytes × Bytes × Bytes) :=
  (r.1.store, r.2.calls, r.2.sent, r.2.printed)

/-- The operation whose name a connection leaves in `buffer`. -/
def leftoverStep (previous : Option Operation) (conn : Connection) : Option Operation :=
  if conn.mallocStrings = false then previous
  else if conn.bytes = [] then none
  else if command (received 0 conn.bytes) = some .listContent then
    command (received 3 conn.bytes)
  else none

/-- The operation whose name a sequence of connections leaves in `buffer`. -/
def leftover (conns : List Connection) : Option Operation :=
  conns.foldl leftoverStep none

theorem command_nil : command [] = none := by decide +kernel

theorem received_nil (k : ℕ) : received k [] = [] := by
  simp [received]

theorem Operation.left_of_serve {op : Operation} {conn : Connection} {s : Bytes}
    {store : ListState} {served : Served} (h : op.serve conn s store = some served) :
    served.left = if op = .listContent then received 3 s else [] := by
  obtain ⟨r, -, h⟩ := Option.bind_eq_some_iff.mp h
  obtain ⟨listing, -, rfl⟩ := Option.map_eq_some_iff.mp h
  rfl

theorem Operation.calls_of_serve {op : Operation} {conn : Connection} {s : Bytes}
    {store : ListState} {served : Served} (h : op.serve conn s store = some served) :
    served.calls = [op.requestCall s] := by
  obtain ⟨r, -, h⟩ := Option.bind_eq_some_iff.mp h
  obtain ⟨listing, -, rfl⟩ := Option.map_eq_some_iff.mp h
  rfl

/-- Different operations make different calls. -/
theorem Operation.requestCall_injective (s : Bytes) :
    Function.Injective fun op : Operation => op.requestCall s := by
  intro op op' h
  cases op <;> cases op' <;> first | rfl | cases h

/-! ## The content of `buffer` along a run -/

/-- One connection leaves the operation name it should. -/
theorem command_left {conn : Connection} (hclean : conn.Clean) {g g' : Shared} {h : Handler}
    (hrun : treatRequest conn g = some (g', h)) :
    command g'.buffer.str = leftoverStep (command g.buffer.str) conn := by
  unfold leftoverStep
  split
  · next hmalloc =>
      rw [treatRequest_of_not_malloc conn g hmalloc, Option.some.injEq, Prod.mk.injEq] at hrun
      rw [hrun.1]
  · next hmalloc =>
      have hspec := treatRequest_eq conn conn.bytes g hclean (by simpa using hmalloc)
      rw [hrun, Option.map_some] at hspec
      have hleft : g'.buffer.str = (observe (g', h)).left := rfl
      cases hc : command (commandString g conn.bytes) with
      | none =>
          rw [hc] at hspec
          rw [hleft, Option.some.inj hspec, Served.idle, hc]
          split
          · rfl
          · next hne =>
              rw [commandString, if_neg hne] at hc
              simp [hc]
      | some op =>
          rw [hc] at hspec
          rw [hleft, Operation.left_of_serve hspec.symm]
          by_cases hnil : conn.bytes = []
          · simp [hnil, received_nil, command_nil]
          · rw [commandString, if_neg hnil] at hc
            simp only [if_neg hnil, hc, Option.some.injEq]
            split
            · rfl
            · exact command_nil

/-- A run leaves the operation name its connections should. -/
theorem command_leftover {conns : List Connection} (hclean : ∀ conn ∈ conns, conn.Clean)
    {g g' : Shared} (hserve : serve g conns = some g') :
    command g'.buffer.str = conns.foldl leftoverStep (command g.buffer.str) := by
  induction conns generalizing g with
  | nil =>
      cases hserve
      rfl
  | cons conn conns ih =>
      obtain ⟨g1, h1, hrest⟩ := Run.run_cons_eq_some.mp hserve
      obtain ⟨⟨g2, h⟩, hrun, rfl⟩ := Option.map_eq_some_iff.mp h1
      rw [List.foldl_cons, ← command_left (hclean conn (by simp)) hrun]
      exact ih (fun c hc => hclean c (by simp [hc])) hrest

/-! ## Two histories -/

section TwoRuns

variable {conn : Connection} {g g' : Shared}

/-- On equal stores a connection is treated by what it is taken for. -/
theorem treated_eq_of_command (hclean : conn.Clean) (hmalloc : conn.mallocStrings = true)
    (hstore : g.store = g'.store)
    (hcommand : command (commandString g conn.bytes) = command (commandString g' conn.bytes)) :
    (treatRequest conn g).map treated = (treatRequest conn g').map treated := by
  have hspec := treatRequest_eq conn conn.bytes g hclean hmalloc
  have hspec' := treatRequest_eq conn conn.bytes g' hclean hmalloc
  have htreated : ∀ r : Option (Shared × Handler), r.map treated =
      (r.map observe).map fun s => (s.store, s.calls, s.reply, s.printed) := by
    intro r
    cases r <;> rfl
  rw [htreated, htreated, hspec, hspec', hcommand, hstore]
  cases command (commandString g' conn.bytes) <;> rfl

/-- With its memory a handler makes the one store call of the operation it takes
its connection for. -/
theorem calls_treatRequest (hclean : conn.Clean) (hmalloc : conn.mallocStrings = true)
    (ho : conn.outcomes.Allocated) (hcount : conn.mallocCount = true) (g : Shared) :
    ∃ r, treatRequest conn g = some r ∧
      r.2.calls = (command (commandString g conn.bytes)).toList.map fun op =>
        op.requestCall conn.bytes := by
  have hspec := treatRequest_eq conn conn.bytes g hclean hmalloc
  cases hc : command (commandString g conn.bytes) with
  | none =>
      rw [hc] at hspec
      obtain ⟨r, hr, hobs⟩ := Option.map_eq_some_iff.mp hspec
      exact ⟨r, hr, congrArg Served.calls hobs⟩
  | some op =>
      rw [hc] at hspec
      obtain ⟨served, hserved⟩ :=
        Option.isSome_iff_exists.mp (op.serve_isSome ho hcount conn.bytes g.store)
      obtain ⟨r, hr, hobs⟩ := Option.map_eq_some_iff.mp (hspec.trans hserved)
      exact ⟨r, hr, (congrArg Served.calls hobs).trans (Operation.calls_of_serve hserved)⟩

/-- A connection that is treated the same way is taken for the same operation. -/
theorem command_eq_of_treated (hclean : conn.Clean) (hmalloc : conn.mallocStrings = true)
    (ho : conn.outcomes.Allocated) (hcount : conn.mallocCount = true)
    (h : (treatRequest conn g).map treated = (treatRequest conn g').map treated) :
    command (commandString g conn.bytes) = command (commandString g' conn.bytes) := by
  obtain ⟨r, hr, hcalls⟩ := calls_treatRequest hclean hmalloc ho hcount g
  obtain ⟨r', hr', hcalls'⟩ := calls_treatRequest hclean hmalloc ho hcount g'
  rw [hr, hr', Option.map_some, Option.map_some, Option.some.injEq] at h
  have hlist : r.2.calls = r'.2.calls := congrArg (fun t => t.2.1) h
  rw [hcalls, hcalls'] at hlist
  have hinj := List.map_injective_iff.mpr (Operation.requestCall_injective conn.bytes) hlist
  cases hc : command (commandString g conn.bytes) <;>
    cases hc' : command (commandString g' conn.bytes) <;> simp_all

end TwoRuns

/-- Two sequences of connections end in the same store. The next connection is
treated the same way after both exactly when it is not empty, or gets no memory,
or both sequences have left the same operation name behind; without its memory
for a listing, the same condition is enough. -/
theorem treated_eq_iff {conns conns' : List Connection} {g g' : Shared}
    (hconns : ∀ conn ∈ conns, conn.Clean) (hconns' : ∀ conn ∈ conns', conn.Clean)
    (hserve : serve .init conns = some g) (hserve' : serve .init conns' = some g')
    (hstore : g.store = g'.store) {conn : Connection} (hclean : conn.Clean) :
    let independent := conn.bytes ≠ [] ∨ conn.mallocStrings = false ∨
      leftover conns = leftover conns'
    (independent → (treatRequest conn g).map treated = (treatRequest conn g').map treated) ∧
      (conn.outcomes.Allocated → conn.mallocCount = true →
        ((treatRequest conn g).map treated = (treatRequest conn g').map treated ↔
          independent)) := by
  intro independent
  have hleft : command g.buffer.str = leftover conns := by
    rw [command_leftover hconns hserve, leftover, Shared.init, CharArray.str_memset, command_nil]
  have hleft' : command g'.buffer.str = leftover conns' := by
    rw [command_leftover hconns' hserve', leftover, Shared.init, CharArray.str_memset,
      command_nil]
  have hsame : independent →
      (treatRequest conn g).map treated = (treatRequest conn g').map treated := by
    intro h
    by_cases hmalloc : conn.mallocStrings = true
    · apply treated_eq_of_command hclean hmalloc hstore
      unfold commandString
      by_cases hnil : conn.bytes = []
      · rw [if_pos hnil, if_pos hnil, hleft, hleft']
        rcases h with h | h | h
        · exact absurd hnil h
        · simp [hmalloc] at h
        · exact h
      · rw [if_neg hnil, if_neg hnil]
    · rw [treatRequest_of_not_malloc conn g (by simpa using hmalloc),
        treatRequest_of_not_malloc conn g' (by simpa using hmalloc)]
      simp [treated, hstore]
  refine ⟨hsame, fun ho hcount => ⟨fun h => ?_, hsame⟩⟩
  by_cases hnil : conn.bytes = []
  · by_cases hmalloc : conn.mallocStrings = true
    · have hcommand := command_eq_of_treated hclean hmalloc ho hcount h
      rw [commandString, commandString, if_pos hnil, if_pos hnil, hleft, hleft'] at hcommand
      exact Or.inr (Or.inr hcommand)
    · exact Or.inr (Or.inl (by simpa using hmalloc))
  · exact Or.inl hnil

/-- A LIST_CONTENT that is refused leaves an operation name behind. A request that
comes in is treated as if it had not been there. -/
theorem treated_eq_iff_register :
    let listing := Connection.ofStream
      (encodeRequest .listContent [[100], [97], Operation.register.name]) (.success ⟨10, 0, 0, 1⟩)
    let conn := Connection.ofStream (encodeRequest .register [[100], [97]])
      (.success ⟨10, 0, 0, 1⟩)
    let independent := conn.bytes ≠ [] ∨ conn.mallocStrings = false ∨
      leftover [listing] = leftover []
    leftover [listing] ≠ leftover [] ∧
      ∃ g, serve .init [listing] = some g ∧
        (independent → (treatRequest conn g).map treated = (treatRequest conn .init).map treated) ∧
        (conn.outcomes.Allocated → conn.mallocCount = true →
          ((treatRequest conn g).map treated = (treatRequest conn .init).map treated ↔
            independent)) := by
  intro listing conn independent
  have hstore : (serve .init [listing]).map Shared.store = some Shared.init.store := by
    decide +kernel
  obtain ⟨g, hserve, hg⟩ := Option.map_eq_some_iff.mp hstore
  have hclean : ∀ c ∈ [listing], c.Clean := by
    intro c hc
    rw [List.mem_singleton.mp hc]
    rfl
  exact ⟨by decide +kernel, g, hserve, treated_eq_iff hclean (by simp) hserve rfl hg rfl⟩

/-- A LIST_CONTENT with the second user REGISTER is refused and changes nothing.
An empty connection after it registers the empty user name; without it, it does
nothing. -/
theorem treated_after_listContent :
    let listing := Connection.ofStream
      (encodeRequest .listContent [[100], [97], Operation.register.name]) (.success ⟨10, 0, 0, 1⟩)
    let empty := Connection.ofStream [] (.success ⟨10, 0, 0, 1⟩)
    (serve .init [listing]).map Shared.store = some Shared.init.store ∧
      ((serve .init [listing]).bind fun g => treatRequest empty g).map
        (fun r => (r.2.calls, r.2.sent)) = some ([.registerUser []], [48, 0]) ∧
      (treatRequest empty .init).map (fun r => (r.2.calls, r.2.sent)) = some ([], []) := by
  decide +kernel

end PeerDirectory
