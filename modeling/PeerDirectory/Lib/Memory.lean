import Mathlib.Data.List.GetD
import Mathlib.Tactic

/-!
# Memory around a pointer

The content of the memory a pointer points into, by the distance from the place
the pointer had at first; `p + i` for a pointer `p` that has moved is the sum of
the two distances. `slice` reads a number of consecutive cells and `store`
writes some.
-/

/-- What lies around a pointer. -/
abbrev Memory (α : Type*) := Int → α

namespace Memory

variable {α : Type*}

/-- The `k` cells from `p` on. -/
def slice (m : Memory α) (p : Int) (k : ℕ) : List α :=
  (List.range k).map fun i : ℕ => m (p + i)

/-- `memcpy(p, cells, length of cells)`. -/
def store (m : Memory α) (p : Int) (cells : List α) : Memory α := fun q =>
  if p ≤ q then cells.getD (q - p).toNat (m q) else m q

@[simp] theorem slice_zero (m : Memory α) (p : Int) : m.slice p 0 = [] := rfl

@[simp] theorem length_slice (m : Memory α) (p : Int) (k : ℕ) : (m.slice p k).length = k := by
  simp [slice]

/-- Consecutive pieces make one piece. -/
theorem slice_add (m : Memory α) (p : Int) (k l : ℕ) :
    m.slice p (k + l) = m.slice p k ++ m.slice (p + k) l := by
  simp only [slice, List.range_add, List.map_append, List.map_map]
  congr 1
  apply List.map_congr_left
  intro i _
  simp only [Function.comp_apply]
  congr 1
  push_cast
  ring

@[simp] theorem store_nil (m : Memory α) (p : Int) : m.store p [] = m := by
  funext q
  simp [store]

/-- The cells outside of the written ones keep their content. -/
theorem store_of_lt (m : Memory α) {p q : Int} (cells : List α) (h : q < p) :
    m.store p cells q = m q := by
  rw [store, if_neg (by omega)]

theorem store_of_le (m : Memory α) {p q : Int} {cells : List α}
    (h : p + cells.length ≤ q) : m.store p cells q = m q := by
  rw [store]
  split
  · exact List.getD_eq_default _ _ (by omega)
  · rfl

theorem slice_store_of_le (m : Memory α) {p q : Int} {k : ℕ} (cells : List α)
    (h : q + k ≤ p) : (m.store p cells).slice q k = m.slice q k := by
  apply List.map_congr_left
  intro i hi
  have hlt : i < k := List.mem_range.mp hi
  exact store_of_lt m cells (by omega)

/-- What has just been written is read. -/
theorem slice_store (m : Memory α) (p : Int) (cells : List α) :
    (m.store p cells).slice p cells.length = cells := by
  apply List.ext_getElem (by simp)
  intro i h h'
  simp only [slice, List.getElem_map, List.getElem_range, store]
  rw [if_pos (by omega), show (p + i - p).toNat = i by omega, List.getD_eq_getElem _ _ h']

end Memory
