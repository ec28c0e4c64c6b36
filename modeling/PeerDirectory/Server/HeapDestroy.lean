import PeerDirectory.Server.HeapRuns

/-!
# The end of the list

`destroy_list` frees the chains of all users and the users themselves. On a list
that is in use it gives back every block that is live, and each of them once, so the
store is then as it was when the program started: it can be used and destroyed again.
On a list that is not in use it waits for the mutex it holds.
-/

namespace PeerDirectory

namespace HeapStore

/-- The loop of `destroy_list`. -/
def destroyUsers (turns : ℕ) : ℕ → Heap.Mem ℕ Cell → Option ℕ → Option (Heap.Mem ℕ Cell)
  | 0, _, _ => none
  | _ + 1, heap, none => some heap
  | left + 1, heap, some current => do
      let user ← readUser heap current
      let heap ← Heap.freeChain FileCell.next Cell.asFile turns heap user.listFiles
      let heap ← Heap.free heap current
      destroyUsers turns left heap user.next

/-- `destroy_list`, behind the lock. Where the list is not in use it calls
`init_list`, which does not come back. -/
def destroyList (turns : ℕ) (s : HeapStore) : Option HeapStore :=
  if s.initedList then
    (destroyUsers turns turns s.heap s.messages).map fun heap => ⟨false, none, heap⟩
  else
    none

/-- A call, or the end of the list. -/
inductive LifeEvent where
  | call (o : HeapOutcomes) (c : Call)
  | destroy

/-- `none` where the code touches a block that is not live, or does not come back. -/
def lifeStep (turns : ℕ) (s : HeapStore) : LifeEvent → Option HeapStore
  | .call o c => (perform turns s (o, c)).map Prod.fst
  | .destroy => destroyList turns s

variable {s : HeapStore} {st : ListState} {blocks : List UserBlock} {turns : ℕ}

/-- All blocks of the chain of users are freed. -/
theorem destroyUsers_eq {heap : Heap.Mem ℕ Cell} {p : Option ℕ} {left : ℕ}
    (hseg : Heap.Segment UserBlock.addr (fun b => b.cell.next) p blocks none)
    (hlinked : ∀ b ∈ blocks, b.Linked) (h : Heap.Contents heap (storeCells blocks))
    (hturns : (storeCells blocks).length < turns) (hleft : blocks.length < left) :
    destroyUsers turns left heap p = some ∅ := by
  induction blocks generalizing heap p left with
  | nil =>
      obtain rfl := Heap.segment_nil.mp hseg
      obtain ⟨left, rfl⟩ := Nat.exists_eq_add_one.mpr hleft
      rw [destroyUsers, h.eq_empty]
  | cons b blocks ih =>
      obtain ⟨rfl, hrest⟩ := Heap.segment_cons.mp hseg
      obtain ⟨left, rfl⟩ := Nat.exists_eq_add_one.mpr (Nat.zero_lt_of_lt hleft)
      have hread : readUser heap b.addr = some b.cell := readUser_of_mem h (by simp)
      have hcells : Heap.Contents heap ([(b.addr, Cell.user b.cell)] ++
          (b.files.map (fun f => (f.1, Cell.file f.2)) ++ storeCells blocks)) := h
      obtain ⟨heap₁, hchain, h₁⟩ := Heap.freeChain_eq Cell.asFile (fun f => Cell.file f.2)
        (hlinked b (by simp)) (fun f _ => rfl) hcells
        ((length_files_le_storeCells (by simp)).trans_lt hturns)
      have huser : Heap.Contents heap₁ ([] ++ (b.addr, Cell.user b.cell) :: storeCells blocks) := h₁
      obtain ⟨heap₂, hfree, h₂⟩ := huser.free
      rw [storeCells_cons, List.length_cons, List.length_append] at hturns
      have hdestroy := ih hrest (fun c hc => hlinked c (List.mem_cons_of_mem b hc)) h₂
        (by omega) (by simpa using hleft)
      simp [destroyUsers, hread, hchain, hfree, hdestroy]

/-- A list that is in use is given back whole. -/
theorem Represents.destroyList (h : s.Represents st) (hturns : blockCount st.messages < turns)
    (hinited : s.initedList = true) : destroyList turns s = some .empty := by
  obtain ⟨blocks, hshape, hnodes, -, -⟩ := h
  rw [← hnodes, blockCount_node] at hturns
  rw [HeapStore.destroyList, if_pos hinited, destroyUsers_eq hshape.messages hshape.listFiles
    hshape.contents hturns ((length_le_storeCells blocks).trans_lt hturns)]
  rfl

/-- One event leaves a store that represents a list, with at most one block more. -/
theorem Represents.lifeStep (h : s.Represents st) (hturns : blockCount st.messages < turns)
    {e : LifeEvent} {s' : HeapStore} (hstep : lifeStep turns s e = some s') :
    ∃ st', s'.Represents st' ∧ blockCount st'.messages ≤ blockCount st.messages + 1 := by
  cases e with
  | call o c =>
      obtain ⟨⟨s₁, r⟩, hperform, rfl⟩ := Option.map_eq_some_iff.mp hstep
      rcases h.perform hturns (o, c) with ⟨hnone, -⟩ | ⟨s₂, st', r', hs, hst, hrep⟩
      · rw [hnone] at hperform
        cases hperform
      · rw [hperform] at hs
        cases hs
        exact ⟨st', hrep, blockCount_body (Call.perform_eq_some h.lazy hst).1⟩
  | destroy =>
      cases hinited : s.initedList with
      | true =>
          have hdestroy := h.destroyList hturns hinited
          rw [HeapStore.lifeStep, hdestroy] at hstep
          cases hstep
          exact ⟨.empty, represents_empty, by rw [blockCount_empty]; exact Nat.zero_le _⟩
      | false =>
          rw [HeapStore.lifeStep, HeapStore.destroyList, hinited] at hstep
          cases hstep

theorem Represents.life (h : s.Represents st) {events : List LifeEvent}
    (hturns : blockCount st.messages + events.length ≤ turns) {s' : HeapStore}
    (hrun : Run.run (HeapStore.lifeStep turns) s events = some s') :
    ∃ st', s'.Represents st' ∧
      blockCount st'.messages ≤ blockCount st.messages + events.length := by
  induction events generalizing s st with
  | nil =>
      cases hrun
      exact ⟨st, h, le_rfl⟩
  | cons e events ih =>
      rw [List.length_cons] at hturns
      obtain ⟨s₁, hs₁, hrun⟩ := Run.run_cons_eq_some.mp hrun
      obtain ⟨st₁, h₁, hle₁⟩ := h.lifeStep (by omega) hs₁
      obtain ⟨st₂, h₂, hle₂⟩ := ih h₁ (by omega) hrun
      refine ⟨st₂, h₂, ?_⟩
      rw [List.length_cons]
      omega

end HeapStore

end PeerDirectory
