import Mathlib.Data.List.DropRight
import PeerDirectory.Lib.KeyedList

/-!
# What a log leaves

An event of a log gives its key a value or takes it away. What counts for a key is its
latest event: `live log` are the keys that have a value at the end, with this value,
those whose latest event came last in front. A list in which a new key is put in front
and a key is unlinked where it is keeps step with the log.
-/

namespace Recency

variable {κ α : Type*} [DecidableEq κ]

/-- The latest event of each key, in the order of these events. -/
def latest (log : List (κ × Option α)) : List (κ × Option α) :=
  log.pwFilter fun e e' => e.1 ≠ e'.1

/-- The keys with a value, those with the latest events in front. -/
def live (log : List (κ × Option α)) : List (κ × α) :=
  (latest log).reverse.filterMap fun e => e.2.map fun a => (e.1, a)

/-- An event takes the place of the earlier ones of its key. -/
theorem latest_append_singleton (log : List (κ × Option α)) (e : κ × Option α) :
    latest (log ++ [e]) = (latest log).filter (fun e' => e'.1 ≠ e.1) ++ [e] := by
  induction log with
  | nil => rfl
  | cons a log ih =>
      have hcons : ∀ l : List (κ × Option α), latest (a :: l) =
          if ∀ b ∈ latest l, a.1 ≠ b.1 then a :: latest l else latest l := fun l => rfl
      rw [List.cons_append, hcons, hcons, ih]
      by_cases hkey : a.1 = e.1
      · have hnot : ¬ ∀ b ∈ (latest log).filter (fun e' => e'.1 ≠ e.1) ++ [e], a.1 ≠ b.1 :=
          fun h => h e (by simp) hkey
        rw [if_neg hnot]
        split <;> simp [hkey]
      · have hiff : (∀ b ∈ (latest log).filter (fun e' => e'.1 ≠ e.1) ++ [e], a.1 ≠ b.1) ↔
            ∀ b ∈ latest log, a.1 ≠ b.1 := by
          constructor
          · intro h b hb heq
            exact h b (by simp [hb, ← heq, hkey]) heq
          · intro h b hb
            rcases List.mem_append.mp hb with hb | hb
            · exact h b (List.mem_filter.mp hb).1
            · rw [List.mem_singleton.mp hb]
              exact hkey
        simp only [hiff]
        split <;> simp [hkey]

theorem live_append_singleton (log : List (κ × Option α)) (k : κ) (v : Option α) :
    live (log ++ [(k, v)]) =
      (v.map fun a => (k, a)).toList ++ (live log).filter (fun e => e.1 ≠ k) := by
  rw [live, latest_append_singleton, List.reverse_append, List.reverse_singleton,
    List.singleton_append, ← List.filter_reverse, List.filterMap_cons, List.filterMap_filter, live,
    List.filter_filterMap]
  have hrest : ∀ e : κ × Option α,
      (if decide (e.1 ≠ k) = true then e.2.map fun a => (e.1, a) else none) =
        (e.2.map fun a => (e.1, a)).filter fun e => decide (e.1 ≠ k) := by
    intro e
    cases e.2 with
    | none => simp
    | some a => simp [Option.filter]
  simp only [hrest]
  cases v <;> rfl

/-- No key is in the list twice. -/
theorem nodupKeys_live (log : List (κ × Option α)) : KeyedList.NodupKeys Prod.fst (live log) := by
  induction log using List.reverseRecOn with
  | nil => exact KeyedList.nodupKeys_nil
  | append_singleton log e ih =>
      obtain ⟨k, v⟩ := e
      have hrest : KeyedList.NodupKeys Prod.fst ((live log).filter fun e => e.1 ≠ k) :=
        List.Nodup.sublist (List.filter_sublist.map Prod.fst) ih
      rw [live_append_singleton]
      cases v with
      | none => exact hrest
      | some a =>
          refine KeyedList.nodupKeys_cons.mpr ⟨?_, hrest⟩
          rw [List.mem_map]
          rintro ⟨e, he, rfl⟩
          simpa using (List.mem_filter.mp he).2

end Recency
