import PeerDirectory.Directory.Basic

/-!
# Who is connected

The effect of each call on the set of connected users, and the codes the
directory answers with.
-/

namespace PeerDirectory

/-- The code of an answer. -/
def Answer.error : Answer → Int
  | .code error => error
  | .users _ => 0
  | .content _ => 0

namespace Directory

variable {o : Outcomes} {d : Directory} {m : Bytes}

instance (d : Directory) (n : Bytes) : Decidable (d.Connected n) :=
  decidable_of_iff (((d n).any fun e => e.address.isSome) = true) (by
    unfold Connected
    cases d n <;> simp)

/-- `connect_user` can set the address of the user: it is registered and has none. -/
def Free (d : Directory) (username : Bytes) : Prop :=
  ∃ e, d username = some e ∧ e.address = none

instance (d : Directory) (n : Bytes) : Decidable (d.Free n) :=
  decidable_of_iff (((d n).any fun e => e.address.isNone) = true) (by
    unfold Free
    cases d n <;> simp)

theorem Free.not_connected {n : Bytes} (h : d.Free n) : ¬ d.Connected n := by
  obtain ⟨e, he, ha⟩ := h
  rintro ⟨e', he', ha'⟩
  rw [he, Option.some.injEq] at he'
  subst he'
  simp [ha] at ha'

theorem error_connectUser_eq_zero_iff {port n : Bytes} :
    (d.step o (.connectUser port n)).2.error = 0 ↔ d.Free n ∧ o.getpeername.isSome := by
  simp only [step, Free]
  cases hn : d n with
  | none => simp [Answer.error]
  | some e =>
      cases ha : e.address with
      | some address => simp [ha, Answer.error]
      | none => cases o.getpeername <;> simp [ha, Answer.error]

theorem connected_set {n : Bytes} {e : Option Entry} :
    (d.set n e).Connected m ↔
      if m = n then ∃ e', e = some e' ∧ e'.address.isSome else d.Connected m := by
  unfold Connected set
  by_cases h : m = n
  · subst h
    simp
  · simp [h]

/-- Connected users after a call. -/
def ConnectedAfter (o : Outcomes) (d : Directory) (m : Bytes) : Call → Prop
  | .unregisterUser n => d.Connected m ∧ m ≠ n
  | .disconnectUser n => d.Connected m ∧ m ≠ n
  | .connectUser port n =>
      d.Connected m ∨ m = n ∧ (d.step o (.connectUser port n)).2.error = 0
  | _ => d.Connected m

theorem not_connected_of_none {n : Bytes} (h : d n = none) : ¬ d.Connected n := by
  rintro ⟨e, he, -⟩
  rw [h] at he
  cases he

theorem not_connected_of_address {n : Bytes} {e : Entry} (h : d n = some e)
    (ha : e.address = none) : ¬ d.Connected n := by
  rintro ⟨e', he', ha'⟩
  rw [h, Option.some.injEq] at he'
  subst he'
  simp [ha] at ha'

/-- An operation for connected users that keeps the address of its user. -/
theorem connected_ifConnected {n : Bytes} {k : Entry → Directory × Answer}
    (hk : ∀ e, d n = some e → e.address.isSome → ((k e).1.Connected m ↔ d.Connected m)) :
    (d.ifConnected n k).1.Connected m ↔ d.Connected m := by
  unfold ifConnected
  split
  · rfl
  · next e he =>
      split
      · rfl
      · next address ha => exact hk e he (by simp [ha])

/-- Replacing the files of a connected user. -/
theorem connected_set_files {n : Bytes} {e : Entry} (he : d n = some e)
    (ha : e.address.isSome) (files : Bytes → Option Bytes) :
    (d.set n (some { e with files := files })).Connected m ↔ d.Connected m := by
  rw [connected_set]
  split
  · next h =>
      subst h
      exact iff_of_true ⟨_, rfl, ha⟩ ⟨e, he, ha⟩
  · rfl

/-- A call connects and disconnects the user it is about and no other one. -/
theorem connected_step (c : Call) :
    (d.step o c).1.Connected m ↔ d.ConnectedAfter o m c := by
  cases c with
  | registerUser n =>
      simp only [step, ConnectedAfter]
      cases hn : d n with
      | some e => rfl
      | none =>
          cases o.mallocNode with
          | none => rfl
          | some block =>
              simp only [connected_set]
              split
              · next h =>
                  subst h
                  exact iff_of_false (by simp) (not_connected_of_none hn)
              · rfl
  | unregisterUser n =>
      simp only [step, ConnectedAfter]
      cases hn : d n with
      | none =>
          refine ⟨fun h => ⟨h, ?_⟩, And.left⟩
          rintro rfl
          exact not_connected_of_none hn h
      | some e =>
          simp only [connected_set]
          split
          · next h => simp [h]
          · next h => simp [h]
  | connectUser port n =>
      simp only [step, ConnectedAfter]
      cases hn : d n with
      | none => simp [Answer.error]
      | some e =>
          cases ha : e.address with
          | some address => simp [ha, Answer.error]
          | none =>
              cases o.getpeername with
              | none => simp [ha, Answer.error]
              | some addr =>
                  simp only [ha, connected_set]
                  split
                  · next h => simp [h, Answer.error]
                  · next h => simp [h]
  | disconnectUser n =>
      simp only [step, ConnectedAfter, ifConnected]
      cases hn : d n with
      | none =>
          dsimp only
          refine ⟨fun h => ⟨h, ?_⟩, And.left⟩
          rintro rfl
          exact not_connected_of_none hn h
      | some e =>
          cases ha : e.address with
          | none =>
              simp only [ha]
              refine ⟨fun h => ⟨h, ?_⟩, And.left⟩
              rintro rfl
              exact not_connected_of_address hn ha h
          | some address =>
              simp only [ha, connected_set]
              split
              · next h => simp [h]
              · next h => simp [h]
  | registerFileFromUser n file description =>
      refine connected_ifConnected fun e he ha => ?_
      cases e.files file with
      | some description' => rfl
      | none =>
          cases o.mallocFile with
          | true => exact connected_set_files he ha _
          | false => rfl
  | unregisterFileFromUser n file =>
      refine connected_ifConnected fun e he ha => ?_
      cases e.files file with
      | none => rfl
      | some description => exact connected_set_files he ha _
  | listUsers n => exact connected_ifConnected fun _ _ _ => Iff.rfl
  | listContent n n2 =>
      refine connected_ifConnected fun e he ha => ?_
      cases d n2 <;> rfl

end Directory

/-- The codes there are. -/
theorem Directory.error_step_bounds (o : Outcomes) (d : Directory) (c : Call) :
    -1 ≤ (d.step o c).2.error ∧ (d.step o c).2.error ≤ 4 := by
  cases c <;> simp only [step, ifConnected] <;> (repeat' split) <;> simp [Answer.error]

end PeerDirectory
