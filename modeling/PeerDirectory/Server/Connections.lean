import PeerDirectory.Server.HandlerSystem
import PeerDirectory.Directory.Connected

/-!
# Connections as steps of the directory

A connection that is handled alone makes at most one store call, and the fields
it reads fit. So the names in the store stay unique whatever is sent, and also
where a read fails, and the directory takes the step of the call that was made.
-/

namespace PeerDirectory

theorem fitsField_received (k : ℕ) (s : Bytes) : FitsField (received k s) := by
  constructor
  · intro h
    exact nul_notMem_lineOf _ (List.mem_of_mem_take h)
  · exact (List.length_take_le _ _).trans_lt (by decide)

/-- Whatever is sent, the store call gets strings that fit. -/
theorem Operation.fits_requestCall (op : Operation) (s : Bytes) : (op.requestCall s).Fits := by
  intro a ha
  cases op <;>
    simp only [requestCall, Call.args, List.mem_cons, List.not_mem_nil, or_false] at ha
  all_goals first
    | (rw [ha]; exact fitsField_received _ s)
    | (rcases ha with rfl | rfl <;> exact fitsField_received _ s)
    | (rcases ha with rfl | rfl | rfl <;> exact fitsField_received _ s)

/-- The store is one the program can reach. -/
structure ListState.Valid (st : ListState) : Prop where
  lazy : st.Lazy
  unique : Unique st.messages

theorem ListState.valid_empty : ListState.empty.Valid :=
  ⟨ListState.lazy_empty, Unique.nil⟩

theorem Result.Matches.error_eq {r : Result} {answer : Answer} (h : r.Matches answer) :
    r.error = answer.error := by
  cases r <;> cases answer <;> first | exact h | rfl | cases h

theorem ListState.Valid.perform {st st' : ListState} {o : Outcomes} {c : Call} {r : Result}
    (hvalid : st.Valid) (hfits : c.Fits) (hperform : c.perform o st = some (st', r)) :
    st'.Valid := by
  obtain ⟨hbody, hlazy⟩ := Call.perform_eq_some hvalid.lazy hperform
  exact ⟨hlazy, (Call.body_refines hvalid.unique hfits hbody).unique⟩

/-- The store is what some calls leave, with strings that fit. -/
def ListState.Reachable (st : ListState) : Prop :=
  ∃ calls log, (∀ a ∈ calls, a.2.Fits) ∧ Run.answers callStep .empty calls = some (st, log)

theorem ListState.valid_of_reachable {st : ListState} (h : st.Reachable) : st.Valid := by
  obtain ⟨calls, log, hfits, hrun⟩ := h
  have hstep : ∀ (s : ListState) (a : Outcomes × Call) (s' : ListState) (called : Called),
      s.Valid → a.2.Fits → callStep s a = some (s', called) → s'.Valid := by
    intro s a s' called hs hfits hstep
    obtain ⟨r, hr, heq⟩ := Option.map_eq_some_iff.mp hstep
    obtain ⟨rfl, -⟩ := Prod.mk.inj heq
    exact hs.perform hfits hr
  exact Run.answers_invariant hstep ListState.valid_empty hfits hrun

/-- A request that is served is a step of the directory, and its answer begins
with the code of the directory. -/
theorem Operation.refines_of_serve {op : Operation} {conn : Connection} {s : Bytes}
    {store : ListState} (hstore : store.Valid) {served : Served}
    (h : op.serve conn s store = some served) :
    abstract served.store.messages =
        ((abstract store.messages).step conn.outcomes (op.requestCall s)).1 ∧
      ∃ listing, served.reply = errorStr
        ((abstract store.messages).step conn.outcomes (op.requestCall s)).2.error ++ listing := by
  obtain ⟨⟨store', r⟩, hperform, h⟩ := Option.bind_eq_some_iff.mp h
  obtain ⟨listing, -, rfl⟩ := Option.map_eq_some_iff.mp h
  obtain ⟨hbody, -⟩ := Call.perform_eq_some hstore.lazy hperform
  have href := Call.body_refines hstore.unique (op.fits_requestCall s) hbody
  exact ⟨href.directory, listing, by rw [href.answer.error_eq]⟩

/-! ## Every connection -/

/-- What the handlers share is as the program can reach it. -/
structure Shared.Valid (g : Shared) : Prop where
  store : g.store.Valid
  buffer : g.buffer.EndsInNul

theorem Shared.valid_init : Shared.init.Valid where
  store := ListState.valid_empty
  buffer := CharArray.endsInNul_memset (by decide)

theorem fitsField_str {buffer : CharArray maxValueLength} (h : buffer.EndsInNul) :
    FitsField buffer.str :=
  ⟨buffer.nul_notMem_str, h.length_str_lt⟩

theorem Operation.fits_storeCall {buffer : Bytes} {locals : Var → Bytes} (op : Operation)
    (hbuffer : FitsField buffer) (hlocals : ∀ v, FitsField (locals v)) :
    (op.storeCall buffer locals).Fits := by
  intro a ha
  cases op <;>
    simp only [storeCall, Call.args, List.mem_cons, List.not_mem_nil, or_false] at ha
  all_goals first
    | (rw [ha]; exact hbuffer)
    | (rw [ha]; exact hlocals _)
    | (rcases ha with rfl | rfl <;> exact hlocals _)
    | (rcases ha with rfl | rfl | rfl <;> exact hlocals _)

/-- The strings of a handler fit. -/
def Handler.Fits (h : Handler) : Prop :=
  ∀ v, FitsField (h.locals v)

theorem Handler.fits_start (input : List ReadEvent) : (Handler.start input).Fits := by
  intro v
  exact ⟨by simp [Handler.start], by simp [Handler.start, maxValueLength]⟩

/-- A statement keeps the shared data valid, whatever the reads give. -/
theorem keeps_valid : Statement.Keeps Shared.Valid Handler.Fits := by
  intro s conn g g' h h' flow hvalid hlocals hexec
  cases s with
  | readLine =>
      cases hexec
      exact ⟨⟨hvalid.store, endsInNul_readLine hvalid.buffer _⟩, hlocals⟩
  | sprintf dst =>
      cases hexec
      refine ⟨hvalid, fun v => ?_⟩
      by_cases hv : v = dst
      · subst hv
        simpa using fitsField_str hvalid.buffer
      · simpa [Function.update_of_ne hv] using hlocals v
  | memset =>
      cases hexec
      exact ⟨⟨hvalid.store, CharArray.endsInNul_memset (by decide)⟩, hlocals⟩
  | call op =>
      obtain ⟨⟨store, r⟩, hperform, hexec⟩ := Option.map_eq_some_iff.mp hexec
      cases hexec
      have hfits := op.fits_storeCall (fitsField_str hvalid.buffer) hlocals
      exact ⟨⟨hvalid.store.perform hfits hperform, hvalid.buffer⟩, hlocals⟩
  | rpcLlamada file =>
      cases hexec
      exact ⟨hvalid, hlocals⟩
  | sendError =>
      cases hexec
      exact ⟨hvalid, hlocals⟩
  | sendUsers =>
      obtain ⟨rfl, hsame⟩ := Statement.locals_of_send (Or.inl rfl) hexec
      exact ⟨hvalid, fun v => hsame ▸ hlocals v⟩
  | sendContent =>
      obtain ⟨rfl, hsame⟩ := Statement.locals_of_send (Or.inr rfl) hexec
      exact ⟨hvalid, fun v => hsame ▸ hlocals v⟩

/-- Every connection keeps the shared data valid, whatever the reads give. -/
theorem Shared.Valid.treatRequest {conn : Connection} {g g' : Shared} {h : Handler}
    (hvalid : g.Valid) (hrun : PeerDirectory.treatRequest conn g = some (g', h)) : g'.Valid :=
  keeps_valid.treatRequest Handler.fits_start hvalid hrun

/-- One connection of many. -/
def serveOne (g : Shared) (conn : Connection) : Option Shared :=
  (treatRequest conn g).map Prod.fst

theorem serve_eq_run (g : Shared) (conns : List Connection) :
    serve g conns = Run.run serveOne g conns := rfl

theorem Shared.Valid.serveOne {conn : Connection} {g g' : Shared} (hvalid : g.Valid)
    (h : PeerDirectory.serveOne g conn = some g') : g'.Valid := by
  obtain ⟨r, hr, rfl⟩ := Option.map_eq_some_iff.mp h
  exact hvalid.treatRequest hr

theorem Shared.Valid.serve {conns : List Connection} {g g' : Shared} (hvalid : g.Valid)
    (h : PeerDirectory.serve g conns = some g') : g'.Valid :=
  Run.invariant (fun _ _ _ hg hstep => Shared.Valid.serveOne hg hstep) hvalid h

end PeerDirectory
