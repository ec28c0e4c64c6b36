import PeerDirectory.Server.Handlers
import PeerDirectory.Server.History

/-!
# Every reply is finished

Handlers share `buffer` and the store, but none of them waits for another one: with
its memory granted, a handler can always take its next step, whatever the others have
done, and it has a fixed number of steps at most. So every way of running some handlers
ends, and then all of them have sent the whole reply to their call.
-/

namespace PeerDirectory

variable {ι : Type} [DecidableEq ι] {conns : ι → Connection} {s : HandlerSystem ι}
  {order : List ι}

/-- Every handler holds a result that can be sent, in every run. -/
theorem HandlerSystem.sendable_of_run
    (hrun : Run.run (HandlerSystem.step conns) (.init conns .init) order = some s) (i : ι) :
    (s.handlers i).result.Sendable := by
  have hstep : ∀ (s : HandlerSystem ι) (j : ι) (s' : HandlerSystem ι),
      (∀ i, (s.handlers i).result.Sendable) → s.step conns j = some s' →
        ∀ i, (s'.handlers i).result.Sendable := by
    intro s j s' hs hstep i
    obtain ⟨r, hcode, rfl⟩ := Option.map_eq_some_iff.mp hstep
    by_cases hij : i = j
    · subst hij
      simpa using sendable_of_step (hs i) hcode
    · simpa [Function.update_of_ne hij] using hs i
  have hinit : ∀ i, ((HandlerSystem.init conns .init).handlers i).result.Sendable :=
    fun _ => trivial
  exact Run.invariant hstep hinit hrun i

/-- The steps of all handlers together. -/
theorem HandlerSystem.length_le_of_run [Fintype ι]
    (hrun : Run.run (HandlerSystem.step conns) (.init conns .init) order = some s) :
    order.length ≤ 28 * Fintype.card ι := by
  have hcount : ∀ i, order.count i ≤ 28 := fun i =>
    (Nat.le_add_right _ _).trans (HandlerSystem.count_add_size_le hrun i)
  calc order.length ≤ ∑ _i : ι, 28 := Run.length_le_sum hcount
    _ = 28 * Fintype.card ι := by simp [mul_comm]

end PeerDirectory
