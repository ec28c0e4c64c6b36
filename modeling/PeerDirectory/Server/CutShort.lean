import PeerDirectory.Server.Request
import PeerDirectory.Server.ListFacts
import PeerDirectory.Directory.Refinement

/-!
# Requests cut short

A client may close the connection before it has sent its whole request. The
handler does not notice: `readLine` gives what has arrived of a field, and the
fields that are missing are empty. `Call.Refused` says when a store call leaves
the list of users as it is, and a request cut short leaves it exactly when the
call made from the delivered fields is refused.
-/

namespace PeerDirectory

/-- The operations that change the list. -/
def Operation.mutates : Operation → Bool
  | .listUsers => false
  | .listContent => false
  | _ => true

/-- The call leaves the list of users as it is. -/
def Call.Refused (o : Outcomes) (messages : List Node) : Call → Prop
  | .registerUser username =>
      (KeyedList.lookup Node.name username messages).isSome ∨ o.mallocNode = none
  | .unregisterUser username => KeyedList.lookup Node.name username messages = none
  | .connectUser _ username =>
      ∀ n, KeyedList.lookup Node.name username messages = some n →
        n.connected ∨ o.getpeername = none
  | .disconnectUser username =>
      ∀ n, KeyedList.lookup Node.name username messages = some n → n.connected = false
  | .registerFileFromUser username file _ =>
      ∀ n, KeyedList.lookup Node.name username messages = some n →
        n.connected = false ∨ (KeyedList.lookup FileNode.name file n.listFiles).isSome ∨
          o.mallocFile = false
  | .unregisterFileFromUser username file =>
      ∀ n, KeyedList.lookup Node.name username messages = some n →
        n.connected = false ∨ KeyedList.lookup FileNode.name file n.listFiles = none
  | .listUsers _ => True
  | .listContent _ _ => True

section Refused

variable (o : Outcomes) (messages : List Node)

theorem registerUser_eq_self_iff (username : Bytes) :
    (registerUser o.mallocNode username messages).1 = messages ↔
      (Call.registerUser username).Refused o messages := by
  unfold registerUser Call.Refused
  cases h : KeyedList.lookup Node.name username messages with
  | some n => simp [h]
  | none => cases o.mallocNode <;> simp [h]

theorem unregisterUser_eq_self_iff (username : Bytes) :
    (unregisterUser username messages).1 = messages ↔
      (Call.unregisterUser username).Refused o messages := by
  rw [unregisterUser, KeyedList.visit_fst_eq_self_iff]
  simp [Call.Refused, Option.eq_none_iff_forall_ne_some]

/-- Rewriting the address changes a node that was not connected. -/
theorem connectNode_eq_self_iff (port : Bytes) (n : Node) :
    (connectNode o.getpeername port n).1 = some n ↔
      n.connected = true ∨ o.getpeername = none := by
  unfold connectNode
  cases hc : n.connected with
  | true => simp
  | false =>
      cases o.getpeername with
      | none => simp
      | some addr =>
          simp only [Bool.false_eq_true, if_false, Option.some.injEq, reduceCtorEq,
            or_self, iff_false]
          intro h
          have hip := congrArg (fun m : Node => m.ip.str) h
          simp only [str_strncpy_inetNtoa] at hip
          have hne := inetNtoa_ne_nil addr
          rw [hip] at hne
          have := Node.connected_iff.mpr hne
          simp [hc] at this

theorem connectUser_eq_self_iff (port username : Bytes) :
    (connectUser o.getpeername port username messages).1 = messages ↔
      (Call.connectUser port username).Refused o messages := by
  rw [connectUser, KeyedList.visit_fst_eq_self_iff]
  simp only [connectNode_eq_self_iff]
  rfl

theorem disconnectNode_eq_self_iff (n : Node) :
    (disconnectNode n).1 = some n ↔ n.connected = false := by
  unfold disconnectNode
  cases hc : n.connected with
  | false => simp
  | true =>
      simp only [if_true, Option.some.injEq, reduceCtorEq, iff_false]
      intro h
      have hip := congrArg (fun m : Node => m.ip.str) h
      simp only [CharArray.str_set_zero_nul] at hip
      exact Node.connected_iff.mp hc hip.symm

theorem disconnectUser_eq_self_iff (username : Bytes) :
    (disconnectUser username messages).1 = messages ↔
      (Call.disconnectUser username).Refused o messages := by
  rw [disconnectUser, KeyedList.visit_fst_eq_self_iff]
  simp only [disconnectNode_eq_self_iff]
  rfl

theorem registerFileNode_eq_self_iff (file description : Bytes) (n : Node) :
    (registerFileNode o.mallocFile file description n).1 = some n ↔
      n.connected = false ∨ (KeyedList.lookup FileNode.name file n.listFiles).isSome ∨
        o.mallocFile = false := by
  unfold registerFileNode
  cases hc : n.connected with
  | false => simp
  | true =>
      cases hl : KeyedList.lookup FileNode.name file n.listFiles with
      | some f => simp
      | none =>
          cases o.mallocFile with
          | false => simp
          | true =>
              simp only [if_true, Option.some.injEq, reduceCtorEq, Option.isSome_none,
                Bool.false_eq_true, or_self, iff_false]
              intro h
              have hlen := congrArg (fun m : Node => m.listFiles.length) h
              simp at hlen

theorem registerFileFromUser_eq_self_iff (username file description : Bytes) :
    (registerFileFromUser o.mallocFile username file description messages).1 = messages ↔
      (Call.registerFileFromUser username file description).Refused o messages := by
  rw [registerFileFromUser, KeyedList.visit_fst_eq_self_iff]
  simp only [registerFileNode_eq_self_iff]
  rfl

theorem unregisterFileNode_eq_self_iff (file : Bytes) (n : Node) :
    (unregisterFileNode file n).1 = some n ↔
      n.connected = false ∨ KeyedList.lookup FileNode.name file n.listFiles = none := by
  unfold unregisterFileNode
  cases hc : n.connected with
  | false => simp
  | true =>
      have hfiles : (KeyedList.visit FileNode.name file
          (fun _ => ((none : Option FileNode), (0 : Int))) 3 n.listFiles).1 = n.listFiles ↔
          KeyedList.lookup FileNode.name file n.listFiles = none := by
        rw [KeyedList.visit_fst_eq_self_iff]
        simp [Option.eq_none_iff_forall_ne_some]
      simp only [if_true, Option.some.injEq, reduceCtorEq, false_or]
      rw [← hfiles]
      constructor
      · intro h
        exact congrArg Node.listFiles h
      · intro h
        rw [h]

theorem unregisterFileFromUser_eq_self_iff (username file : Bytes) :
    (unregisterFileFromUser username file messages).1 = messages ↔
      (Call.unregisterFileFromUser username file).Refused o messages := by
  rw [unregisterFileFromUser, KeyedList.visit_fst_eq_self_iff]
  simp only [unregisterFileNode_eq_self_iff]
  rfl

/-- A call leaves the list as it is exactly when it is refused. -/
theorem Call.body_eq_self_iff {c : Call} {messages' : List Node} {r : Result}
    (h : c.body o messages = some (messages', r)) :
    messages' = messages ↔ c.Refused o messages := by
  cases c with
  | registerUser username =>
      cases h
      exact registerUser_eq_self_iff o messages username
  | unregisterUser username =>
      cases h
      exact unregisterUser_eq_self_iff o messages username
  | connectUser port username =>
      cases h
      exact connectUser_eq_self_iff o messages port username
  | disconnectUser username =>
      cases h
      exact disconnectUser_eq_self_iff o messages username
  | registerFileFromUser username file description =>
      cases h
      exact registerFileFromUser_eq_self_iff o messages username file description
  | unregisterFileFromUser username file =>
      cases h
      exact unregisterFileFromUser_eq_self_iff o messages username file
  | listUsers username =>
      exact iff_of_true (Call.body_of_not_initialises rfl h) trivial
  | listContent username username2 =>
      exact iff_of_true (Call.body_of_not_initialises rfl h) trivial

end Refused

/-! ## Streams that end early -/

/-- No operation is requested by a proper beginning of another's name. -/
theorem command_of_prefix_name {op : Operation} {p : Bytes} (hp : p <+: op.name)
    (hne : p ≠ op.name) : command p = none := by
  have hall : ∀ q ∈ op.name.inits, q ≠ op.name → command q = none := by
    cases op <;> decide +kernel
  exact hall p ((List.mem_inits p op.name).mpr hp) hne

/-- The operation the handler takes the cut stream for: the one that was meant
as soon as its name has arrived, and none before. -/
theorem command_commandString_cut {op : Operation} {fields : List Bytes} {p : Bytes}
    (hp : p <+: encodeRequest op fields) {g : Shared} (hbuf : g.buffer.str = []) :
    command (commandString g p) = if op.name.length ≤ p.length then some op else none := by
  have hline : ∀ {s : Bytes}, s <+: op.name → ∀ b ∈ s, isEndOfLine b = false :=
    fun hs b hb => not_endOfLine_of_mem_name (hs.subset hb)
  have htake : ∀ {s : Bytes}, s <+: op.name → s.take (maxValueLength - 1) = s := fun hs =>
    List.take_of_length_le (by have := hs.length_le; have := length_name_lt op; omega)
  rw [encodeRequest, Delimited.frame_cons] at hp
  split
  · next hlen =>
      -- the whole name has arrived, and perhaps its NUL
      obtain ⟨q, rfl⟩ : op.name <+: p :=
        List.prefix_of_prefix_length_le (List.prefix_append _ _) hp hlen
      have hq : q <+: 0 :: Delimited.frame 0 fields := (List.prefix_append_right_inj _).mp hp
      have hfirst : Delimited.line isEndOfLine (op.name ++ q) = op.name := by
        cases q with
        | nil =>
            rw [List.append_nil]
            exact Delimited.line_eq_self (hline (List.prefix_refl _))
        | cons b q =>
            obtain ⟨rfl, -⟩ := List.cons_prefix_cons.mp hq
            exact Delimited.line_append_cons (hline (List.prefix_refl _)) isEndOfLine_zero q
      have hne : op.name ++ q ≠ [] := by
        intro h
        have : op.name = [] := (List.append_eq_nil_iff.mp h).1
        revert this
        cases op <;> decide +kernel
      rw [commandString, if_neg hne, received, Delimited.field_zero, hfirst,
        htake (List.prefix_refl _), command_name]
  · next hlen =>
      have hpn : p <+: op.name :=
        List.prefix_of_prefix_length_le hp (List.prefix_append _ _) (by omega)
      have hpne : p ≠ op.name := fun h => hlen (by rw [h])
      have hstring : commandString g p = p := by
        rw [commandString]
        split
        · next h => rw [hbuf, h]
        · rw [received, Delimited.field_zero, Delimited.line_eq_self (hline hpn), htake hpn]
      rw [hstring, command_of_prefix_name hpn hpne]

/-- A mutating branch leaves the store its call leaves. -/
theorem Operation.serve_of_mutates {op : Operation} (hop : op.mutates = true)
    (conn : Connection) (s : Bytes) (store : ListState) :
    ∃ store' r served, (op.requestCall s).perform conn.outcomes store = some (store', r) ∧
      op.serve conn s store = some served ∧ served.store = store' := by
  cases op with
  | listUsers => cases hop
  | listContent => cases hop
  | _ => exact ⟨_, _, _, rfl, rfl, rfl⟩

/-- What the handler does to the directory when only a beginning `p` of a
mutating request arrives: nothing while the operation name is incomplete, and
otherwise the call with the fields as far as they have arrived. So the users are
left as they were exactly when that call is refused. -/
theorem treatRequest_cut_short_iff {op : Operation} (hop : op.mutates = true)
    {fields : List Bytes} {p : Bytes} (hp : p <+: encodeRequest op fields)
    {conn : Connection} (hin : conn.input = ofBytes p) {g : Shared}
    (hbuf : g.buffer = CharArray.memset maxValueLength) (hlazy : g.store.Lazy) :
    ∃ g' h, treatRequest conn g = some (g', h) ∧
      (g'.store.messages = g.store.messages ↔
        (conn.mallocStrings = true → op.name.length ≤ p.length →
          (op.requestCall p).Refused conn.outcomes g.store.messages)) := by
  cases hmalloc : conn.mallocStrings with
  | false => exact ⟨g, _, treatRequest_of_not_malloc conn g hmalloc, by simp⟩
  | true =>
      have hspec := treatRequest_eq conn p g hin hmalloc
      rw [command_commandString_cut hp (by rw [hbuf, CharArray.str_memset])] at hspec
      by_cases hname : op.name.length ≤ p.length
      · rw [if_pos hname] at hspec
        obtain ⟨store', r, served, hperform, hserve, hstore⟩ :=
          Operation.serve_of_mutates hop conn p g.store
        obtain ⟨⟨g', h⟩, hrun, hobs⟩ := Option.map_eq_some_iff.mp (hspec.trans hserve)
        have hg' : g'.store = store' := by rw [← hstore, ← hobs]; rfl
        have hbody := (Call.perform_eq_some hlazy hperform).1
        refine ⟨g', h, hrun, ?_⟩
        rw [hg', Call.body_eq_self_iff conn.outcomes g.store.messages hbody]
        simp [hname]
      · rw [if_neg hname] at hspec
        obtain ⟨⟨g', h⟩, hrun, hobs⟩ := Option.map_eq_some_iff.mp hspec
        have hg' : g'.store = g.store := congrArg Served.store hobs
        exact ⟨g', h, hrun, by simp [hg', hname]⟩

/-- A client that wanted to unregister `abc` and got through with two bytes of it has
unregistered `ab`. -/
theorem treatRequest_cut_short_iff_unregister :
    let p := encodeRequest .unregister [[100]] ++ [97, 98]
    let o : Outcomes := .success ⟨10, 0, 0, 1⟩
    let g : Shared :=
      { Shared.init with store := ⟨true, (registerUser o.mallocNode [97, 98] []).1⟩ }
    ∃ g' h, treatRequest (.ofStream p o) g = some (g', h) ∧
      g'.store.messages = [] ∧
      (g'.store.messages = g.store.messages ↔
        (true = true → Operation.unregister.name.length ≤ p.length →
          (Operation.unregister.requestCall p).Refused o g.store.messages)) := by
  intro p o g
  obtain ⟨g', h, hrun, hiff⟩ := @treatRequest_cut_short_iff .unregister rfl [[100], [97, 98, 99]] p
    (by decide +kernel) (.ofStream p o) rfl g rfl (by simp [ListState.Lazy, g])
  have hend : (treatRequest (.ofStream p o) g).map (fun r => r.1.store.messages) = some [] := by
    decide +kernel
  rw [hrun, Option.map_some, Option.some.injEq] at hend
  exact ⟨g', h, hrun, hend, hiff⟩

/-- A client that wanted to register `ab` and got through with one byte of it
has registered `a`. -/
theorem treatRequest_cut_short_registers :
    let p := encodeRequest .register [[100]] ++ [97]
    p <+: encodeRequest .register [[100], [97, 98]] ∧
      p ≠ encodeRequest .register [[100], [97, 98]] ∧
      Shared.init.store.messages = [] ∧
      (treatRequest (.ofStream p (.success ⟨10, 0, 0, 1⟩)) .init).map
        (fun r => r.1.store.messages.map Node.name) = some [[97]] := by
  decide +kernel

end PeerDirectory
