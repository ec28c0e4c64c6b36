import PeerDirectory.Server.Replies

/-!
# Handlers as a step system

Every accepted connection is served by its own `treat_request`, and all of them
work on the one global `buffer`. A step of a handler is one `readLine`, one
`strcmp`, one `sprintf`, one `memset`, one store call, or one piece of its
answer. A handler whose steps no other one interrupts computes `treatRequest`.
-/

namespace PeerDirectory

/-! ## The system -/

/-- Where a handler is in `treat_request`. -/
inductive Code where
  /-- Before the first `readLine`. -/
  | entry
  /-- In the chain of `strcmp`, with these names left. -/
  | compare (ops : List Operation)
  /-- In a branch, with these statements left. -/
  | statements (rest : List Statement)
deriving DecidableEq

/-- The statements left after one that ended like this. -/
def Flow.remaining (rest : List Statement) : Flow → List Statement
  | .exit => []
  | .next => rest

/-- The next step of a handler; a handler that has left takes none. -/
def Code.step (conn : Connection) (g : Shared) (h : Handler) :
    Code → Option (Shared × Handler × Code)
  | .entry =>
      if conn.mallocStrings then
        let r := readLine g.buffer h.input
        some ({ g with buffer := r.buffer }, { h with input := r.input },
          if r.ret < 0 then .statements [] else .compare Operation.all)
      else
        some (g, h, .statements [])
  | .compare [] => some (g, h, .statements [])
  | .compare (op :: ops) =>
      some (g, h, if g.buffer.str = op.name then .statements op.branch else .compare ops)
  | .statements [] => none
  | .statements (s :: rest) =>
      (s.exec conn g h).map fun r =>
        (r.1, r.2.1, .statements (r.2.2.remaining rest))

/-- The shared data and the handlers of all connections. -/
structure HandlerSystem (ι : Type) where
  shared : Shared
  handlers : ι → Handler
  code : ι → Code

variable {ι : Type} [DecidableEq ι]

/-- No handler has taken a step. -/
def HandlerSystem.init (conns : ι → Connection) (g : Shared) : HandlerSystem ι where
  shared := g
  handlers := fun i => Handler.start (conns i).input
  code := fun _ => .entry

def HandlerSystem.step (conns : ι → Connection) (s : HandlerSystem ι) (i : ι) :
    Option (HandlerSystem ι) :=
  ((s.code i).step (conns i) s.shared (s.handlers i)).map fun r =>
    { shared := r.1
      handlers := Function.update s.handlers i r.2.1
      code := Function.update s.code i r.2.2 }

/-! ## A handler alone -/

section Alone

variable {conns : ι → Connection} {i : ι} {s : HandlerSystem ι}

/-- The system after handler `i` has left. -/
def HandlerSystem.afterLeft (s : HandlerSystem ι) (i : ι) (r : Shared × Handler) :
    HandlerSystem ι where
  shared := r.1
  handlers := Function.update s.handlers i r.2
  code := Function.update s.code i (.statements [])

/-- Steps of one handler after its next one. -/
theorem HandlerSystem.run_succ {g : Shared} {h : Handler} {code : Code} {r : Shared × Handler}
    (hstep : (s.code i).step (conns i) s.shared (s.handlers i) = some (g, h, code)) {n : ℕ}
    (hrun : Run.run (HandlerSystem.step conns)
      { shared := g
        handlers := Function.update s.handlers i h
        code := Function.update s.code i code } (List.replicate n i) =
      some (HandlerSystem.afterLeft
        { shared := g
          handlers := Function.update s.handlers i h
          code := Function.update s.code i code } i r)) :
    Run.run (HandlerSystem.step conns) s (List.replicate (n + 1) i) =
      some (s.afterLeft i r) := by
  rw [List.replicate_succ, Run.run_cons, HandlerSystem.step, hstep, Option.map_some,
    Option.bind_some, hrun]
  simp [afterLeft]

/-- The steps of a handler through its branch, if no other one moves. -/
theorem runBranch_eq_steps {rest : List Statement} (hcode : s.code i = .statements rest)
    {r : Shared × Handler} (h : runBranch (conns i) rest s.shared (s.handlers i) = some r) :
    ∃ n, Run.run (HandlerSystem.step conns) s (List.replicate n i) =
      some (s.afterLeft i r) := by
  induction rest generalizing s with
  | nil =>
      cases h
      refine ⟨0, ?_⟩
      rw [List.replicate_zero, Run.run_nil, HandlerSystem.afterLeft, Function.update_eq_self,
        ← hcode, Function.update_eq_self]
  | cons st rest ih =>
      obtain ⟨⟨g, h', flow⟩, hexec, h⟩ := Option.bind_eq_some_iff.mp h
      have hstep : (s.code i).step (conns i) s.shared (s.handlers i) =
          some (g, h', .statements (flow.remaining rest)) := by
        rw [hcode, Code.step, hexec]
        rfl
      cases flow with
      | exit =>
          cases h
          refine ⟨1, HandlerSystem.run_succ (n := 0) hstep ?_⟩
          simp [HandlerSystem.afterLeft, Flow.remaining]
      | next =>
          obtain ⟨n, hn⟩ := ih (s := ⟨g, Function.update s.handlers i h',
            Function.update s.code i (.statements rest)⟩) (by simp) (by simpa using h)
          exact ⟨n + 1, HandlerSystem.run_succ hstep hn⟩

/-- The steps of a handler through the chain of `strcmp`. -/
theorem dispatch_eq_steps {ops : List Operation} (hcode : s.code i = .compare ops)
    {r : Shared × Handler} (h : dispatch (conns i) ops s.shared (s.handlers i) = some r) :
    ∃ n, Run.run (HandlerSystem.step conns) s (List.replicate n i) =
      some (s.afterLeft i r) := by
  induction ops generalizing s with
  | nil =>
      cases h
      have hstep : (s.code i).step (conns i) s.shared (s.handlers i) =
          some (s.shared, s.handlers i, .statements []) := by
        rw [hcode, Code.step]
      refine ⟨1, HandlerSystem.run_succ (n := 0) hstep ?_⟩
      simp [HandlerSystem.afterLeft]
  | cons op ops ih =>
      rw [dispatch] at h
      have hstep : (s.code i).step (conns i) s.shared (s.handlers i) =
          some (s.shared, s.handlers i,
            if s.shared.buffer.str = op.name then .statements op.branch else .compare ops) := by
        rw [hcode, Code.step]
      by_cases hname : s.shared.buffer.str = op.name
      · rw [if_pos hname] at h hstep
        have hbranch : Function.update s.code i (.statements op.branch) i =
            .statements op.branch := Function.update_self ..
        obtain ⟨n, hn⟩ := runBranch_eq_steps (i := i) (s := ⟨s.shared,
          Function.update s.handlers i (s.handlers i),
          Function.update s.code i (.statements op.branch)⟩) hbranch (by simpa using h)
        exact ⟨n + 1, HandlerSystem.run_succ hstep hn⟩
      · rw [if_neg hname] at h hstep
        obtain ⟨n, hn⟩ := ih (s := ⟨s.shared, Function.update s.handlers i (s.handlers i),
          Function.update s.code i (.compare ops)⟩) (by simp) (by simpa using h)
        exact ⟨n + 1, HandlerSystem.run_succ hstep hn⟩

/-- `treatRequest` is what the steps of one handler come to, if no other one
moves. -/
theorem treatRequest_eq_steps (hcode : s.code i = .entry)
    (hstart : s.handlers i = Handler.start (conns i).input) {r : Shared × Handler}
    (h : treatRequest (conns i) s.shared = some r) :
    ∃ n, Run.run (HandlerSystem.step conns) s (List.replicate n i) =
      some (s.afterLeft i r) := by
  have hfinish : ∀ g h', (s.code i).step (conns i) s.shared (s.handlers i) =
      some (g, h', .statements []) →
      ∃ n, Run.run (HandlerSystem.step conns) s (List.replicate n i) =
        some (s.afterLeft i (g, h')) := by
    intro g h' hstep
    refine ⟨1, HandlerSystem.run_succ (n := 0) hstep ?_⟩
    simp [HandlerSystem.afterLeft]
  unfold treatRequest at h
  split at h
  · next hmalloc =>
      set line := readLine s.shared.buffer (conns i).input
      have hstep : (s.code i).step (conns i) s.shared (s.handlers i) =
          some ({ s.shared with buffer := line.buffer },
            { Handler.start (conns i).input with input := line.input },
            if line.ret < 0 then .statements [] else .compare Operation.all) := by
        rw [hcode, Code.step, if_pos hmalloc, hstart]
        rfl
      dsimp only at h
      split at h
      · next hret =>
          cases h
          exact hfinish _ _ (hstep.trans (by rw [if_pos hret]))
      · next hret =>
          rw [if_neg hret] at hstep
          have hcompare : Function.update s.code i (.compare Operation.all) i =
              .compare Operation.all := Function.update_self ..
          obtain ⟨n, hn⟩ := dispatch_eq_steps (i := i) (s := ⟨_, Function.update s.handlers i _,
            Function.update s.code i (.compare Operation.all)⟩) hcompare (by simpa using h)
          exact ⟨n + 1, HandlerSystem.run_succ hstep hn⟩
  · next hmalloc =>
      cases h
      exact hfinish _ _ (by rw [hcode, Code.step, if_neg hmalloc, hstart])

end Alone

/-! ## What every statement keeps -/

/-- Every statement keeps what `G` says of the shared data and `L` of the
handler. -/
def Statement.Keeps (G : Shared → Prop) (L : Handler → Prop) : Prop :=
  ∀ (s : Statement) (conn : Connection) (g g' : Shared) (h h' : Handler) (flow : Flow),
    G g → L h → s.exec conn g h = some (g', h', flow) → G g' ∧ L h'

/-- The sending statements change nothing but what is sent. -/
theorem Statement.exec_send {s : Statement} {conn : Connection} {g g' : Shared}
    {h h' : Handler} {flow : Flow} (hs : s = .sendUsers ∨ s = .sendContent)
    (hexec : s.exec conn g h = some (g', h', flow)) :
    g' = g ∧ ∃ sent, h' = { h with sent := sent } := by
  rcases hs with rfl | rfl
  all_goals
    simp only [Statement.exec] at hexec
    split at hexec
    · split at hexec
      · obtain ⟨bytes, -, hexec⟩ := Option.map_eq_some_iff.mp hexec
        cases hexec
        exact ⟨rfl, _, rfl⟩
      · cases hexec
    · cases hexec
      exact ⟨rfl, _, rfl⟩

theorem Statement.locals_of_send {s : Statement} {conn : Connection} {g g' : Shared}
    {h h' : Handler} {flow : Flow} (hs : s = .sendUsers ∨ s = .sendContent)
    (hexec : s.exec conn g h = some (g', h', flow)) : g' = g ∧ h'.locals = h.locals := by
  obtain ⟨hg, sent, rfl⟩ := Statement.exec_send hs hexec
  exact ⟨hg, rfl⟩

section Keeps

variable {G : Shared → Prop} {L : Handler → Prop} {conn : Connection} {g g' : Shared}
  {h h' : Handler}

theorem Statement.Keeps.runBranch (hkeeps : Statement.Keeps G L) {statements : List Statement}
    (hg : G g) (hh : L h) (hrun : PeerDirectory.runBranch conn statements g h = some (g', h')) :
    G g' := by
  induction statements generalizing g h with
  | nil =>
      cases hrun
      exact hg
  | cons s statements ih =>
      obtain ⟨⟨g₁, h₁, flow⟩, hexec, hrun⟩ := Option.bind_eq_some_iff.mp hrun
      obtain ⟨hg₁, hh₁⟩ := hkeeps s conn g g₁ h h₁ flow hg hh hexec
      cases flow with
      | exit =>
          cases hrun
          exact hg₁
      | next => exact ih hg₁ hh₁ hrun

theorem Statement.Keeps.dispatch (hkeeps : Statement.Keeps G L) {ops : List Operation}
    (hg : G g) (hh : L h) (hrun : PeerDirectory.dispatch conn ops g h = some (g', h')) :
    G g' := by
  induction ops with
  | nil =>
      cases hrun
      exact hg
  | cons op ops ih =>
      rw [PeerDirectory.dispatch] at hrun
      split at hrun
      · exact hkeeps.runBranch hg hh hrun
      · exact ih hrun

/-- The first `readLine` of a handler is one as those of its branch. -/
theorem Statement.Keeps.readLine (hkeeps : Statement.Keeps G L) (conn : Connection) (hg : G g)
    (hh : L h) :
    G { g with buffer := (PeerDirectory.readLine g.buffer h.input).buffer } ∧
      L { h with input := (PeerDirectory.readLine g.buffer h.input).input } :=
  hkeeps .readLine conn g _ h _ _ hg hh rfl

/-- A whole connection keeps what its statements keep. -/
theorem Statement.Keeps.treatRequest (hkeeps : Statement.Keeps G L)
    (hstart : ∀ input, L (Handler.start input)) (hg : G g)
    (hrun : PeerDirectory.treatRequest conn g = some (g', h)) : G g' := by
  obtain ⟨hread, hlocals⟩ := hkeeps.readLine conn hg (hstart conn.input)
  rw [PeerDirectory.treatRequest] at hrun
  split at hrun
  · dsimp only at hrun
    split at hrun
    · cases hrun
      exact hread
    · exact hkeeps.dispatch hread hlocals hrun
  · cases hrun
    exact hg

theorem Statement.Keeps.codeStep (hkeeps : Statement.Keeps G L) {code code' : Code} (hg : G g)
    (hh : L h) (hstep : code.step conn g h = some (g', h', code')) : G g' ∧ L h' := by
  cases code with
  | entry =>
      rw [Code.step] at hstep
      split at hstep
      · cases hstep
        exact hkeeps.readLine conn hg hh
      · cases hstep
        exact ⟨hg, hh⟩
  | compare ops =>
      cases ops <;> cases hstep <;> exact ⟨hg, hh⟩
  | statements rest =>
      cases rest with
      | nil => cases hstep
      | cons s rest =>
          obtain ⟨⟨g₁, h₁, flow⟩, hexec, heq⟩ := Option.map_eq_some_iff.mp hstep
          cases heq
          exact hkeeps s conn g g₁ h h₁ flow hg hh hexec

/-- Handlers in any order keep what their statements keep. -/
theorem Statement.Keeps.run_handlers (hkeeps : Statement.Keeps G L)
    (hstart : ∀ input, L (Handler.start input)) {conns : ι → Connection} (hg : G g)
    {order : List ι} {s : HandlerSystem ι}
    (hrun : Run.run (HandlerSystem.step conns) (.init conns g) order = some s) :
    G s.shared ∧ ∀ j, L (s.handlers j) := by
  have hstep : ∀ (s : HandlerSystem ι) (i : ι) (s' : HandlerSystem ι),
      (G s.shared ∧ ∀ j, L (s.handlers j)) → HandlerSystem.step conns s i = some s' →
        G s'.shared ∧ ∀ j, L (s'.handlers j) := by
    rintro s i s' ⟨hs, hhandlers⟩ hstep
    obtain ⟨⟨g₁, h₁, code⟩, hcode, rfl⟩ := Option.map_eq_some_iff.mp hstep
    obtain ⟨hg₁, hh₁⟩ := hkeeps.codeStep hs (hhandlers i) hcode
    refine ⟨hg₁, fun j => ?_⟩
    by_cases hj : j = i
    · subst hj
      simpa using hh₁
    · simpa [Function.update_of_ne hj] using hhandlers j
  exact Run.invariant hstep ⟨hg, fun j => hstart _⟩ hrun

theorem Statement.Keeps.run (hkeeps : Statement.Keeps G L)
    (hstart : ∀ input, L (Handler.start input)) {conns : ι → Connection} (hg : G g)
    {order : List ι} {s : HandlerSystem ι}
    (hrun : Run.run (HandlerSystem.step conns) (.init conns g) order = some s) : G s.shared :=
  (hkeeps.run_handlers hstart hg hrun).1

end Keeps

end PeerDirectory
