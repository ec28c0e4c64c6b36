import PeerDirectory.Server.HandlerSystem

/-!
# Handlers that run at the same time

Between the read of a field and its last use the field exists in `buffer` only.
As long as no other handler changes `buffer` in that time, every complete
request makes its own store call, once and with its own fields; the code has no
lock that ensures this.
-/

namespace PeerDirectory

variable {ι : Type} [DecidableEq ι]

/-! ## Complete requests -/

/-- The store call that an operation and its fields name, if their number is
right. -/
def Operation.namedCall : Operation → List Bytes → Option Call
  | .register, [_, username] => some (.registerUser username)
  | .unregister, [_, username] => some (.unregisterUser username)
  | .connect, [_, username, port] => some (.connectUser port username)
  | .publish, [_, username, file, description] =>
      some (.registerFileFromUser username file description)
  | .delete, [_, username, file] => some (.unregisterFileFromUser username file)
  | .disconnect, [_, username] => some (.disconnectUser username)
  | .listUsers, [_, username] => some (.listUsers username)
  | .listContent, [_, username, username2] => some (.listContent username username2)
  | _, _ => none

/-- The client has sent a complete and well-formed request for the call `c`. -/
structure Connection.Requests (conn : Connection) (op : Operation) (fields : List Bytes)
    (c : Call) : Prop where
  input : conn.input = ofBytes (encodeRequest op fields)
  fits : ∀ f ∈ fields, FitsLine maxValueLength f
  namesCall : op.namedCall fields = some c
  malloc : conn.mallocStrings = true

/-! ## What a handler still takes from `buffer` -/

/-- The strings a store call is made of. -/
def Operation.argumentVars : Operation → List Var
  | .register => []
  | .unregister => []
  | .connect => [.port, .print1Username]
  | .publish => [.print1Username, .print1File, .description]
  | .delete => [.print1Username, .print1File]
  | .disconnect => [.print1Username]
  | .listUsers => [.print1Username]
  | .listContent => [.print1Username, .username2]

/-- The store call passes `buffer` itself. -/
def Operation.passesBuffer : Operation → Bool
  | .register => true
  | .unregister => true
  | _ => false

/-- The store call that lies ahead. -/
def callAhead : List Statement → Option Operation
  | [] => none
  | .call op :: _ => some op
  | _ :: rest => callAhead rest

/-- The content of `buffer` still goes into the store call that lies ahead:
copied into one of its strings, or passed itself. -/
def needsBuffer : List Statement → Bool
  | [] => false
  | .readLine :: _ => false
  | .memset :: _ => false
  | .call op :: _ => op.passesBuffer
  | .sprintf dst :: rest =>
      ((callAhead rest).any fun op => dst ∈ op.argumentVars) || needsBuffer rest
  | _ :: rest => needsBuffer rest

/-- The handler still needs what is in `buffer`. -/
def Code.needsBuffer : Code → Bool
  | .entry => false
  | .compare _ => true
  | .statements rest => PeerDirectory.needsBuffer rest

/-- The step of `j` leaves the string in `buffer` as it is, or no other handler of
a complete request still needs it. -/
def HandlerSystem.LeavesBuffer (conns : ι → Connection) (s : HandlerSystem ι) (j : ι) : Prop :=
  ∀ s', s.step conns j = some s' → s'.shared.buffer.str ≠ s.shared.buffer.str →
    ∀ i ≠ j, ∀ op fields c, (conns i).Requests op fields c → (s.code i).needsBuffer = false

/-! ## The call a branch will make -/

/-- The call the statements make, when `buffer` holds `b`, the fields `fs` are
still to be read, and nobody interferes. -/
def nextCall : List Statement → Bytes → List Bytes → (Var → Bytes) → Option Call
  | [], _, _, _ => none
  | .call op :: _, b, _, l => some (op.storeCall b l)
  | .readLine :: rest, _, f :: fs, l => nextCall rest f fs l
  | .readLine :: _, _, [], _ => none
  | .memset :: rest, _, fs, l => nextCall rest [] fs l
  | .sprintf dst :: rest, b, fs, l => nextCall rest b fs (Function.update l dst b)
  | _ :: rest, b, fs, l => nextCall rest b fs l

/-- A call depends on `buffer` and on its own strings only. -/
theorem Operation.storeCall_congr {op : Operation} {b b' : Bytes} {l l' : Var → Bytes}
    (hb : op.passesBuffer = true → b = b') (hl : ∀ v ∈ op.argumentVars, l v = l' v) :
    op.storeCall b l = op.storeCall b' l' := by
  cases op with
  | register => exact congrArg Call.registerUser (hb rfl)
  | unregister => exact congrArg Call.unregisterUser (hb rfl)
  | _ => simp_all [Operation.storeCall, Operation.argumentVars]

/-- Statements that do not need `buffer` make the same call whatever it holds. -/
theorem nextCall_congr {rest : List Statement} {b b' : Bytes} {fs : List Bytes}
    {l l' : Var → Bytes} (hb : needsBuffer rest = true → b = b')
    (hl : ∀ op, callAhead rest = some op → ∀ v ∈ op.argumentVars, l v = l' v) :
    nextCall rest b fs l = nextCall rest b' fs l' := by
  induction rest generalizing b b' fs l l' with
  | nil => rfl
  | cons s rest ih =>
      cases s with
      | call op =>
          simp only [nextCall, Option.some.injEq]
          exact Operation.storeCall_congr hb (hl op rfl)
      | readLine =>
          cases fs with
          | nil => rfl
          | cons f fs => exact ih (fun _ => rfl) hl
      | memset => exact ih (fun _ => rfl) hl
      | sprintf dst =>
          simp only [needsBuffer, Bool.or_eq_true] at hb
          refine ih (fun h => hb (Or.inr h)) ?_
          intro op hop v hv
          by_cases hdst : v = dst
          · subst hdst
            rw [Function.update_self, Function.update_self]
            exact hb (Or.inl (by simp [hop, hv]))
          · rw [Function.update_of_ne hdst, Function.update_of_ne hdst]
            exact hl op hop v hv
      | _ => exact ih hb hl

/-- A complete request, read from the start of its branch, makes its call. -/
theorem nextCall_branch {op : Operation} {fields : List Bytes} {c : Call}
    (h : op.namedCall fields = some c) (b : Bytes) (l : Var → Bytes) :
    nextCall op.branch b fields l = some c := by
  unfold Operation.namedCall at h
  split at h <;> cases h <;> rfl

/-! ## The shape of the branches -/

/-- No second call follows a call, and a listing comes last. -/
def closesBranch : List Statement → Bool
  | .call _ :: rest => callAhead rest = none
  | .sendUsers :: rest => rest = []
  | .sendContent :: rest => rest = []
  | _ => true

theorem closesBranch_of_suffix {op : Operation} {rest : List Statement}
    (h : rest <:+ op.branch) : closesBranch rest = true := by
  have hall : ∀ r ∈ op.branch.tails, closesBranch r = true := by
    cases op <;> decide +kernel
  exact hall rest ((List.mem_tails rest op.branch).mpr h)

/-! ## A handler on its way -/

/-- The handler of a complete request for the call `c` is on its way to make it,
or has made it. -/
def OnTrack (op : Operation) (fields : List Bytes) (c : Call) (g : Shared) (h : Handler) :
    Code → Prop
  | .entry => h.calls = [] ∧ h.input = ofBytes (encodeRequest op fields)
  | .compare ops =>
      h.calls = [] ∧ h.input = ofBytes (Delimited.frame 0 fields) ∧
        g.buffer.str = op.name ∧ (ops.find? fun op' => op.name = op'.name) = some op
  | .statements rest =>
      rest <:+ op.branch ∧ ∃ fs, h.input = ofBytes (Delimited.frame 0 fs) ∧
        (∀ f ∈ fs, FitsLine maxValueLength f) ∧
          (h.calls = [] ∧ nextCall rest g.buffer.str fs h.locals = some c ∨
            h.calls = [c] ∧ callAhead rest = none)

section OnTrack

variable {op : Operation} {fields : List Bytes} {c : Call} {conn : Connection}
  {g g' : Shared} {h h' : Handler} {code code' : Code}

/-- A step of another handler leaves it on its way, if it leaves `buffer` as it
is or `buffer` is not needed. -/
theorem OnTrack.frame (hon : OnTrack op fields c g h code)
    (hbuf : code.needsBuffer = true → g'.buffer.str = g.buffer.str) :
    OnTrack op fields c g' h code := by
  cases code with
  | entry => exact hon
  | compare ops =>
      obtain ⟨hcalls, hinput, hname, hfind⟩ := hon
      exact ⟨hcalls, hinput, (hbuf rfl).trans hname, hfind⟩
  | statements rest =>
      obtain ⟨hsuffix, fs, hinput, hfits, hcalls⟩ := hon
      refine ⟨hsuffix, fs, hinput, hfits, hcalls.imp_left fun ⟨hnil, hnext⟩ => ⟨hnil, ?_⟩⟩
      rw [← hnext]
      exact nextCall_congr hbuf fun _ _ _ _ => rfl

/-- What a `readLine` on whole fields gives. -/
theorem readLine_frame (b : CharArray maxValueLength) {fs : List Bytes}
    (hfits : ∀ f ∈ fs, FitsLine maxValueLength f) :
    ¬ (readLine b (ofBytes (Delimited.frame 0 fs))).ret < 0 ∧
      (readLine b (ofBytes (Delimited.frame 0 fs))).input =
        ofBytes (Delimited.frame 0 fs.tail) ∧
      ∀ f fs', fs = f :: fs' →
        (readLine b (ofBytes (Delimited.frame 0 fs))).buffer.str = f := by
  refine ⟨not_ret_readLine_neg b _, ?_, ?_⟩
  · rw [input_readLine_ofBytes (by decide)]
    cases fs with
    | nil => rfl
    | cons f fs =>
        rw [Delimited.frame_cons]
        exact congrArg ofBytes (Delimited.rest_append_cons (hfits f (by simp)).2 rfl _)
  · rintro f fs' rfl
    obtain ⟨hlen, hline⟩ := hfits f (by simp)
    have hfirst : lineOf (f ++ 0 :: Delimited.frame 0 fs') = f :=
      Delimited.line_append_cons hline rfl _
    rw [str_readLine_ofBytes (by decide), Delimited.frame_cons, if_neg (by simp), hfirst,
      List.take_of_length_le hlen]

/-- The first `readLine` of a complete request reads the operation name. -/
theorem OnTrack.entry (hreq : conn.Requests op fields c) (hon : OnTrack op fields c g h .entry)
    (hstep : Code.entry.step conn g h = some (g', h', code')) :
    OnTrack op fields c g' h' code' := by
  obtain ⟨hcalls, hinput⟩ := hon
  have hfits : ∀ f ∈ op.name :: fields, FitsLine maxValueLength f := by
    intro f hf
    rcases List.mem_cons.mp hf with rfl | hf
    · exact fitsLine_name op
    · exact hreq.fits f hf
  obtain ⟨hret, hrest, hstr⟩ := readLine_frame g.buffer hfits
  rw [← encodeRequest, ← hinput] at hret hrest hstr
  simp only [Code.step, hreq.malloc, if_true, if_neg hret, Option.some.injEq,
    Prod.mk.injEq] at hstep
  obtain ⟨rfl, rfl, rfl⟩ := hstep
  refine ⟨hcalls, hrest, hstr op.name fields rfl, ?_⟩
  have hcommand := command_name op
  rwa [command] at hcommand

/-- The chain of `strcmp` finds the operation that was sent. -/
theorem OnTrack.compare (hreq : conn.Requests op fields c) {ops : List Operation}
    (hon : OnTrack op fields c g h (.compare ops))
    (hstep : (Code.compare ops).step conn g h = some (g', h', code')) :
    OnTrack op fields c g' h' code' := by
  obtain ⟨hcalls, hinput, hname, hfind⟩ := hon
  cases ops with
  | nil => simp at hfind
  | cons op' ops =>
      simp only [Code.step, Option.some.injEq, Prod.mk.injEq] at hstep
      obtain ⟨rfl, rfl, rfl⟩ := hstep
      rw [hname]
      by_cases heq : op.name = op'.name
      · rw [List.find?_cons_of_pos (by simpa using heq), Option.some.injEq] at hfind
        subst hfind
        rw [if_pos rfl]
        exact ⟨List.suffix_rfl, fields, hinput, hreq.fits,
          Or.inl ⟨hcalls, nextCall_branch hreq.namesCall _ _⟩⟩
      · rw [List.find?_cons_of_neg (by simpa using heq)] at hfind
        rw [if_neg heq]
        exact ⟨hcalls, hinput, hname, hfind⟩

/-- Sending a listing reads nothing and calls nothing. -/
theorem exec_listing {s : Statement} (hs : s = .sendUsers ∨ s = .sendContent)
    {r : Shared × Handler × Flow} (hexec : s.exec conn g h = some r) :
    r.2.1.input = h.input ∧ r.2.1.calls = h.calls ∧ r.2.1.result = h.result := by
  rcases hs with rfl | rfl
  all_goals
    simp only [Statement.exec] at hexec
    split at hexec
    · split at hexec
      · obtain ⟨bytes, -, rfl⟩ := Option.map_eq_some_iff.mp hexec
        exact ⟨rfl, rfl, rfl⟩
      · cases hexec
    · cases hexec
      exact ⟨rfl, rfl, rfl⟩

/-- The last statement of a listing ends the branch. -/
theorem OnTrack.listing {s : Statement} (hs : s = .sendUsers ∨ s = .sendContent)
    (hon : OnTrack op fields c g h (.statements [s]))
    (hstep : (Code.statements [s]).step conn g h = some (g', h', code')) :
    OnTrack op fields c g' h' code' := by
  obtain ⟨-, fs, hinput, hfits, hcalls⟩ := hon
  obtain ⟨r, hexec, hr⟩ := Option.map_eq_some_iff.mp hstep
  obtain ⟨hinput', hcalls', -⟩ := exec_listing hs hexec
  obtain ⟨rfl, rfl, rfl⟩ : g' = r.1 ∧ h' = r.2.1 ∧ code' = .statements [] := by
    simp only [Prod.mk.injEq] at hr
    obtain ⟨rfl, rfl, rfl⟩ := hr
    refine ⟨rfl, rfl, ?_⟩
    cases r.2.2 <;> rfl
  refine ⟨List.nil_suffix, fs, hinput'.trans hinput, hfits, Or.inr ⟨?_, rfl⟩⟩
  rcases hcalls with ⟨-, hnext⟩ | ⟨hdone, -⟩
  · rcases hs with rfl | rfl <;> cases hnext
  · exact hcalls'.trans hdone

/-- One statement of the branch. -/
theorem OnTrack.statements {s : Statement} {rest : List Statement}
    (hon : OnTrack op fields c g h (.statements (s :: rest)))
    (hstep : (Code.statements (s :: rest)).step conn g h = some (g', h', code')) :
    OnTrack op fields c g' h' code' := by
  have hclose := closesBranch_of_suffix hon.1
  by_cases hs : s = .sendUsers ∨ s = .sendContent
  · obtain rfl : rest = [] := by
      rcases hs with rfl | rfl <;> simpa [closesBranch] using hclose
    exact OnTrack.listing hs hon hstep
  obtain ⟨hsuffix, fs, hinput, hfits, hcalls⟩ := hon
  have hrest : rest <:+ op.branch := (List.suffix_cons s rest).trans hsuffix
  obtain ⟨r, hexec, hr⟩ := Option.map_eq_some_iff.mp hstep
  obtain ⟨rfl, rfl, rfl⟩ : g' = r.1 ∧ h' = r.2.1 ∧ code' = _ := by
    simpa [eq_comm] using hr
  cases s with
  | readLine =>
      obtain ⟨hret, hinput', hstr⟩ := readLine_frame g.buffer hfits
      rw [← hinput] at hret hinput' hstr
      simp only [Statement.exec, if_neg hret, Option.some.injEq] at hexec
      subst hexec
      refine ⟨hrest, fs.tail, hinput', fun f hf => hfits f (List.mem_of_mem_tail hf), ?_⟩
      refine hcalls.imp_left (And.imp_right fun hnext => ?_)
      cases fs with
      | nil => simp [nextCall] at hnext
      | cons f fs =>
          rw [hstr f fs rfl]
          exact hnext
  | sprintf dst =>
      cases hexec
      exact ⟨hrest, fs, hinput, hfits, hcalls⟩
  | memset =>
      cases hexec
      refine ⟨hrest, fs, hinput, hfits, hcalls.imp_left (And.imp_right fun hnext => ?_)⟩
      rw [CharArray.str_memset]
      exact hnext
  | call op' =>
      obtain ⟨q, hq, rfl⟩ := Option.map_eq_some_iff.mp hexec
      refine ⟨hrest, fs, hinput, hfits, Or.inr ⟨?_, of_decide_eq_true hclose⟩⟩
      rcases hcalls with ⟨hnil, hnext⟩ | ⟨-, hahead⟩
      · simp only [nextCall, Option.some.injEq] at hnext
        rw [hnil, hnext]
        rfl
      · simp [callAhead] at hahead
  | rpcLlamada file =>
      cases hexec
      exact ⟨hrest, fs, hinput, hfits, hcalls⟩
  | sendError =>
      cases hexec
      exact ⟨hrest, fs, hinput, hfits, hcalls⟩
  | sendUsers => exact absurd (Or.inl rfl) hs
  | sendContent => exact absurd (Or.inr rfl) hs

/-- Every step of its own keeps a handler on its way. -/
theorem OnTrack.step (hreq : conn.Requests op fields c) (hon : OnTrack op fields c g h code)
    (hstep : code.step conn g h = some (g', h', code')) : OnTrack op fields c g' h' code' := by
  cases code with
  | entry => exact hon.entry hreq hstep
  | compare ops => exact hon.compare hreq hstep
  | statements rest =>
      cases rest with
      | nil => cases hstep
      | cons s rest => exact hon.statements hstep

end OnTrack

/-! ## Every handler gets through -/

/-- The steps a handler has left at most. -/
def Code.size : Code → ℕ
  | .entry => 28
  | .compare ops => ops.length + 19
  | .statements rest => rest.length

theorem length_branch_le (op : Operation) : op.branch.length ≤ 18 := by
  cases op <;> decide

/-- Every step of its own brings a handler closer to its end. -/
theorem Code.size_lt {conn : Connection} {g g' : Shared} {h h' : Handler} {code code' : Code}
    (hstep : code.step conn g h = some (g', h', code')) : code'.size < code.size := by
  cases code with
  | entry =>
      simp only [Code.step] at hstep
      split at hstep
      · simp only [Option.some.injEq, Prod.mk.injEq] at hstep
        obtain ⟨-, -, rfl⟩ := hstep
        split <;> decide
      · cases hstep
        decide
  | compare ops =>
      cases ops with
      | nil =>
          cases hstep
          decide
      | cons op ops =>
          simp only [Code.step, Option.some.injEq, Prod.mk.injEq] at hstep
          obtain ⟨-, -, rfl⟩ := hstep
          split
          · have := length_branch_le op
            simp only [Code.size, List.length_cons]
            omega
          · simp only [Code.size, List.length_cons]
            omega
  | statements rest =>
      cases rest with
      | nil => cases hstep
      | cons s rest =>
          obtain ⟨r, -, hr⟩ := Option.map_eq_some_iff.mp hstep
          simp only [Prod.mk.injEq] at hr
          obtain ⟨-, -, rfl⟩ := hr
          cases r.2.2 <;> simp [Code.size, Flow.remaining]

section Progress

variable {conn : Connection} {g g' : Shared} {h h' : Handler} {code code' : Code}

/-- A handler always holds a result that can be sent. -/
theorem sendable_of_step (hsend : h.result.Sendable)
    (hstep : code.step conn g h = some (g', h', code')) : h'.result.Sendable := by
  cases code with
  | entry =>
      simp only [Code.step] at hstep
      split at hstep <;> cases hstep <;> exact hsend
  | compare ops =>
      cases ops <;> cases hstep <;> exact hsend
  | statements rest =>
      cases rest with
      | nil => cases hstep
      | cons s rest =>
          obtain ⟨r, hexec, hr⟩ := Option.map_eq_some_iff.mp hstep
          simp only [Prod.mk.injEq] at hr
          obtain ⟨-, rfl, -⟩ := hr
          cases s with
          | call op =>
              obtain ⟨q, hq, rfl⟩ := Option.map_eq_some_iff.mp hexec
              exact Call.sendable_of_perform hq
          | sendUsers =>
              rw [(exec_listing (Or.inl rfl) hexec).2.2]
              exact hsend
          | sendContent =>
              rw [(exec_listing (Or.inr rfl) hexec).2.2]
              exact hsend
          | _ =>
              cases hexec
              exact hsend

/-- With its memory, a handler that has not left can take its next step. -/
theorem Code.step_isSome (ho : conn.outcomes.Allocated) (hcount : conn.mallocCount = true)
    (hsend : h.result.Sendable) (hcode : code ≠ .statements []) :
    (code.step conn g h).isSome := by
  cases code with
  | entry =>
      simp only [Code.step]
      split <;> rfl
  | compare ops => cases ops <;> rfl
  | statements rest =>
      cases rest with
      | nil => exact absurd rfl hcode
      | cons s rest =>
          rw [Code.step, Option.isSome_map]
          cases s with
          | call op =>
              rw [Statement.exec, Option.isSome_map]
              exact Call.perform_isSome ho _ _
          | sendUsers =>
              simp only [Statement.exec, hcount, if_true]
              split
              · next heq =>
                  rw [heq] at hsend
                  rw [Option.isSome_map]
                  exact hsend
              · rfl
          | sendContent =>
              simp only [Statement.exec, hcount, if_true]
              split
              · next heq =>
                  rw [heq] at hsend
                  rw [Option.isSome_map]
                  exact hsend
              · rfl
          | _ => rfl

end Progress

/-! ## Runs -/

/-- Every handler of a complete request is on its way, and every handler can
answer. -/
structure HandlerSystem.Inv (conns : ι → Connection) (s : HandlerSystem ι) : Prop where
  onTrack : ∀ i op fields c, (conns i).Requests op fields c →
    OnTrack op fields c s.shared (s.handlers i) (s.code i)
  sendable : ∀ i, (s.handlers i).result.Sendable

section Runs

variable {conns : ι → Connection} {s s' : HandlerSystem ι} {j : ι}

omit [DecidableEq ι] in
theorem HandlerSystem.inv_init (conns : ι → Connection) (g : Shared) :
    (HandlerSystem.init conns g).Inv conns where
  onTrack := fun _ _ _ _ hreq => ⟨rfl, hreq.input⟩
  sendable := fun _ => trivial

theorem HandlerSystem.step_eq_some (hstep : s.step conns j = some s') :
    ∃ g h code, (s.code j).step (conns j) s.shared (s.handlers j) = some (g, h, code) ∧
      s' = { shared := g
             handlers := Function.update s.handlers j h
             code := Function.update s.code j code } := by
  obtain ⟨⟨g, h, code⟩, hcode, rfl⟩ := Option.map_eq_some_iff.mp hstep
  exact ⟨g, h, code, hcode, rfl⟩

/-- A step that leaves the buffers of the others alone keeps the invariant. -/
theorem HandlerSystem.Inv.step (hinv : s.Inv conns) (hleaves : s.LeavesBuffer conns j)
    (hstep : s.step conns j = some s') : s'.Inv conns := by
  obtain ⟨g, h, code, hcode, hs'⟩ := step_eq_some hstep
  constructor
  · intro i op fields c hreq
    by_cases hij : i = j
    · subst hij
      rw [hs']
      simpa using (hinv.onTrack i op fields c hreq).step hreq hcode
    · have hframe : (s.code i).needsBuffer = true →
          s'.shared.buffer.str = s.shared.buffer.str := by
        intro hneeds
        by_contra hne
        rw [hleaves s' hstep hne i hij op fields c hreq] at hneeds
        cases hneeds
      have hon := (hinv.onTrack i op fields c hreq).frame hframe
      rw [hs'] at hon ⊢
      simpa [Function.update_of_ne hij] using hon
  · intro i
    rw [hs']
    by_cases hij : i = j
    · subst hij
      simpa using sendable_of_step (hinv.sendable i) hcode
    · simpa [Function.update_of_ne hij] using hinv.sendable i

/-- The steps a handler has taken and the steps it has left at most. -/
theorem HandlerSystem.count_add_size_le {schedule : List ι} {t : HandlerSystem ι}
    (hrun : Run.run (HandlerSystem.step conns) s schedule = some t) (i : ι) :
    schedule.count i + (t.code i).size ≤ (s.code i).size := by
  let left : HandlerSystem ι → ℕ := fun s => (s.code i).size
  have hown : ∀ s s', s.step conns i = some s' → left s' < left s := by
    intro s s' hstep
    obtain ⟨g, h, code, hcode, rfl⟩ := step_eq_some hstep
    simpa [left] using Code.size_lt hcode
  have hothers : ∀ s j s', j ≠ i → s.step conns j = some s' → left s' ≤ left s := by
    intro s j s' hj hstep
    obtain ⟨g, h, code, hcode, rfl⟩ := step_eq_some hstep
    simp [left, Function.update_of_ne hj.symm]
  exact Run.count_add_le hown hothers hrun

end Runs

/-- Handlers run at the same time, and every step of one of them leaves `buffer`
as it is while another one still needs it. Then the handler of a complete
request makes the call its client named, with the fields its client sent, never
another one and never twice; it has made it when it leaves, and given its
memory it leaves after at most 28 steps of its own and is never stuck. -/
theorem handlers_do_not_mix (conns : ι → Connection) (g : Shared) {schedule : List ι}
    {s : HandlerSystem ι}
    (hleaves : Run.Guarded (HandlerSystem.step conns) (HandlerSystem.LeavesBuffer conns)
      (.init conns g) schedule)
    (hrun : Run.run (HandlerSystem.step conns) (.init conns g) schedule = some s)
    {i : ι} {op : Operation} {fields : List Bytes} {c : Call}
    (hreq : (conns i).Requests op fields c) :
    ((s.handlers i).calls = [] ∨ (s.handlers i).calls = [c]) ∧
      (s.code i = .statements [] → (s.handlers i).calls = [c]) ∧
      schedule.count i + (s.code i).size ≤ 28 ∧
      ((conns i).outcomes.Allocated → (conns i).mallocCount = true →
        s.code i ≠ .statements [] → (s.step conns i).isSome) := by
  have hinv : s.Inv conns := Run.invariant_of_guarded
    (fun _ _ _ hinv hleaves hstep => HandlerSystem.Inv.step hinv hleaves hstep)
    (HandlerSystem.inv_init conns g) hleaves hrun
  have hon := hinv.onTrack i op fields c hreq
  refine ⟨?_, ?_, HandlerSystem.count_add_size_le hrun i, ?_⟩
  · cases hcode : s.code i with
    | entry =>
        rw [hcode] at hon
        exact Or.inl hon.1
    | compare ops =>
        rw [hcode] at hon
        exact Or.inl hon.1
    | statements rest =>
        rw [hcode] at hon
        obtain ⟨-, fs, -, -, hcalls⟩ := hon
        exact hcalls.imp And.left And.left
  · intro hcode
    rw [hcode] at hon
    obtain ⟨-, fs, -, -, ⟨-, hnext⟩ | ⟨hdone, -⟩⟩ := hon
    · cases hnext
    · exact hdone
  · intro ho hcount hcode
    rw [HandlerSystem.step, Option.isSome_map]
    exact Code.step_isSome ho hcount (hinv.sendable i) hcode

/-- While a handler moves, no other one needs `buffer`. -/
def HandlerSystem.Apart (s : HandlerSystem ι) (j : ι) : Prop :=
  ∀ i, i ≠ j → (s.code i).needsBuffer = false

instance (s : HandlerSystem Bool) (j : Bool) : Decidable (s.Apart j) :=
  inferInstanceAs (Decidable (∀ i, i ≠ j → (s.code i).needsBuffer = false))

theorem HandlerSystem.Apart.leavesBuffer {conns : ι → Connection} {s : HandlerSystem ι} {j : ι}
    (h : s.Apart j) : s.LeavesBuffer conns j :=
  fun _ _ _ i hij _ _ _ _ => h i hij

/-- Two clients register users, and the second handler starts after the first one
has cleared `buffer`. -/
theorem handlers_do_not_mix_two_registers :
    let conns : Bool → Connection := fun i =>
      .ofStream (encodeRequest .register [[100], [if i then 97 else 98]]) (.success ⟨10, 0, 0, 1⟩)
    let schedule := List.replicate 11 true ++ List.replicate 11 false ++ [true, false, true, false]
    ∃ s, Run.run (HandlerSystem.step conns) (.init conns .init) schedule = some s ∧
      ((s.handlers true).calls = [] ∨ (s.handlers true).calls = [.registerUser [97]]) ∧
      (s.code true = .statements [] → (s.handlers true).calls = [.registerUser [97]]) ∧
      schedule.count true + (s.code true).size ≤ 28 ∧
      ((conns true).outcomes.Allocated → (conns true).mallocCount = true →
        s.code true ≠ .statements [] → (s.step conns true).isSome) := by
  intro conns schedule
  have hsome : (Run.run (HandlerSystem.step conns) (.init conns .init) schedule).isSome := by
    decide +kernel
  have happart : Run.Guarded (HandlerSystem.step conns) HandlerSystem.Apart
      (.init conns .init) schedule := by
    decide +kernel
  have hfits : ∀ f ∈ [[100], [97]], FitsLine maxValueLength f := by decide +kernel
  obtain ⟨s, hs⟩ := Option.isSome_iff_exists.mp hsome
  exact ⟨s, hs, handlers_do_not_mix conns .init
    (happart.mono fun _ _ h => h.leavesBuffer) hs ⟨rfl, hfits, rfl, rfl⟩⟩

/-- Two clients register `a` and `b`. The second handler reads its user name into
`buffer` before the first one passes `buffer` to the store, so the first one
registers `b`. -/
theorem handlers_mix_registers :
    let conns : Bool → Connection := fun i =>
      .ofStream (encodeRequest .register [[100], [if i then 97 else 98]]) (.success ⟨10, 0, 0, 1⟩)
    (conns true).Requests .register [[100], [97]] (.registerUser [97]) ∧
      (Run.run (HandlerSystem.step conns) (.init conns .init)
        (List.replicate 9 true ++ List.replicate 8 false ++ [true])).map
          (fun s => (s.handlers true).calls) = some [.registerUser [98]] :=
  ⟨⟨rfl, by decide +kernel, rfl, rfl⟩, by decide +kernel⟩

end PeerDirectory
