import Mathlib.Data.List.TakeWhile
import Mathlib.Tactic

/-!
# Fixed-size character arrays

`CharArray n` is the content of a C object `char a[n]`, and `str a` is the
string a reader finds in it: the bytes before the first NUL. The writes kept
here are the ones C code makes into such an object: `strncpy` with the full
array size, a single byte store, and `memset` with zero. An array without a NUL
has no end for a reader in C; `str` then gives all `n` bytes. `EndsInNul` says
that the last byte is a NUL, which rules this out and which writes in front of
the last byte keep.
-/

/-- The content of a C object `char a[n]`. -/
structure CharArray (n : ℕ) where
  bytes : List UInt8
  size_eq : bytes.length = n
deriving DecidableEq

namespace CharArray

variable {n : ℕ}

/-- The C string stored in the array: the bytes before the first NUL. -/
def str (a : CharArray n) : List UInt8 :=
  a.bytes.takeWhile fun c => c != 0

/-- The last byte of the array is a NUL. -/
def EndsInNul (a : CharArray n) : Prop :=
  a.bytes[n - 1]? = some 0

/-- `strncpy(a, src, n)`: the first `n` bytes of `src`, padded with NUL. There
is no terminator when `src` has `n` bytes or more. -/
def strncpy (n : ℕ) (src : List UInt8) : CharArray n where
  bytes := (src ++ List.replicate n 0).take n
  size_eq := by simp

/-- `memset(a, 0, n)`. -/
def memset (n : ℕ) : CharArray n where
  bytes := List.replicate n 0
  size_eq := by simp

/-- `a[i] = ch`. -/
def set (a : CharArray n) (i : ℕ) (ch : UInt8) : CharArray n where
  bytes := a.bytes.set i ch
  size_eq := by simp [a.size_eq]

/-- `a[i] = ch` where `i` must be an index of the array. -/
def store (a : CharArray n) (i : ℕ) (ch : UInt8) : Option (CharArray n) :=
  if i < n then some (a.set i ch) else none

theorem store_of_lt (a : CharArray n) {i : ℕ} (hi : i < n) (ch : UInt8) :
    a.store i ch = some (a.set i ch) := if_pos hi

theorem nul_notMem_str (a : CharArray n) : 0 ∉ a.str := by
  intro h
  have := List.mem_takeWhile_imp h
  simp at this

theorem length_str_le (a : CharArray n) : a.str.length ≤ n := by
  have h := (List.takeWhile_sublist (l := a.bytes) fun c => c != 0).length_le
  rw [a.size_eq] at h
  exact h

/-- A list without NUL is its own string. -/
theorem takeWhile_ne_nul {l : List UInt8} (h : 0 ∉ l) :
    l.takeWhile (fun c => c != 0) = l := by
  rw [List.takeWhile_eq_self_iff]
  intro c hc
  have : c ≠ 0 := fun h0 => h (h0 ▸ hc)
  simpa using this

@[simp] theorem str_memset : (memset n).str = [] := by
  simp [str, memset]

@[simp] theorem str_set_zero_nul (a : CharArray n) : (a.set 0 0).str = [] := by
  cases h : a.bytes with
  | nil => simp [str, set, h]
  | cons c cs => simp [str, set, h]

/-- Storing a NUL at index `i` cuts the string to what the first `i` bytes
hold. -/
theorem str_set_nul (a : CharArray n) {i : ℕ} (hi : i < n) :
    (a.set i 0).str = (a.bytes.take i).takeWhile fun c => c != 0 := by
  have hlen : i < a.bytes.length := by rw [a.size_eq]; exact hi
  have hsplit : a.bytes.set i 0 = a.bytes.take i ++ 0 :: a.bytes.drop (i + 1) :=
    List.set_eq_take_append_cons_drop.trans (if_pos hlen)
  simp only [str, set, hsplit]
  rw [List.takeWhile_append]
  split
  · next h =>
      have hall : (a.bytes.take i).takeWhile (fun c => c != 0) = a.bytes.take i :=
        (List.takeWhile_prefix _).eq_of_length h
      simp [hall]
  · rfl

/-- A string that fits is copied whole, and a longer one is cut to `n` bytes. -/
theorem str_strncpy {src : List UInt8} (h : 0 ∉ src) :
    (strncpy n src).str = src.take n := by
  have hnul : 0 ∉ src.take n := fun h0 => h (List.mem_of_mem_take h0)
  simp only [str, strncpy]
  rw [List.take_append, List.take_replicate, List.takeWhile_append_of_pos]
  · simp
  · intro c hc
    have : c ≠ 0 := fun h0 => hnul (h0 ▸ hc)
    simpa using this

theorem str_strncpy_of_length_le {src : List UInt8} (h : 0 ∉ src)
    (hlen : src.length ≤ n) : (strncpy n src).str = src := by
  rw [str_strncpy h, List.take_of_length_le hlen]

/-- The string and the NUL behind it, in an array that has one. -/
theorem take_length_str (a : CharArray n) (h : a.str.length < n) :
    a.bytes.take (a.str.length + 1) = a.str ++ [0] := by
  have hsplit : a.str ++ a.bytes.dropWhile (fun c => c != 0) = a.bytes :=
    List.takeWhile_append_dropWhile
  cases hrest : a.bytes.dropWhile (fun c => c != 0) with
  | nil =>
      rw [hrest, List.append_nil] at hsplit
      rw [hsplit, a.size_eq] at h
      exact absurd h (lt_irrefl n)
  | cons c cs =>
      have hc : c = 0 := by
        have hhead := List.head?_dropWhile_not (fun c : UInt8 => c != 0) a.bytes
        simpa [hrest] using hhead
      rw [← hsplit, hrest, hc]
      simp [List.take_append]

theorem endsInNul_memset (hn : 0 < n) : (memset n).EndsInNul := by
  simp only [EndsInNul, memset]
  rw [List.getElem?_replicate_of_lt (by omega)]

theorem EndsInNul.set {a : CharArray n} (h : a.EndsInNul) {i : ℕ} {ch : UInt8}
    (hi : i < n - 1 ∨ ch = 0) : (a.set i ch).EndsInNul := by
  have hlast : n - 1 < a.bytes.length := by
    by_contra hlen
    rw [EndsInNul, List.getElem?_eq_none (Nat.not_lt.mp hlen)] at h
    cases h
  simp only [EndsInNul, CharArray.set]
  by_cases heq : i = n - 1
  · obtain rfl : ch = 0 := hi.resolve_left (by omega)
    rw [heq, List.getElem?_set_self hlast]
  · rw [List.getElem?_set_ne heq]
    exact h

/-- The string leaves room for its NUL. -/
theorem EndsInNul.length_str_lt {a : CharArray n} (h : a.EndsInNul) : a.str.length < n := by
  refine (a.length_str_le).lt_of_ne fun heq => ?_
  have hstr : a.str = a.bytes :=
    (List.takeWhile_prefix _).eq_of_length (heq.trans a.size_eq.symm)
  apply a.nul_notMem_str
  rw [hstr]
  exact List.mem_of_getElem? h

/-- A string with room for its NUL is copied with one. -/
theorem nul_mem_strncpy {src : List UInt8} (h : src.length < n) : 0 ∈ (strncpy n src).bytes := by
  simp only [strncpy]
  rw [List.take_append, List.mem_append]
  right
  rw [List.take_replicate, List.mem_replicate]
  exact ⟨by omega, rfl⟩

theorem nul_mem_set (a : CharArray n) {i : ℕ} (hi : i < n) : 0 ∈ (a.set i 0).bytes := by
  simp only [set]
  exact List.mem_set (by rw [a.size_eq]; exact hi) 0

theorem notMem_set {a : CharArray n} {b ch : UInt8} (h : b ∉ a.bytes) (hch : b ≠ ch) (i : ℕ) :
    b ∉ (a.set i ch).bytes := by
  intro hmem
  rcases List.mem_or_eq_of_mem_set hmem with hmem | heq
  · exact h hmem
  · exact hch heq

theorem notMem_str {a : CharArray n} {b : UInt8} (h : b ∉ a.bytes) : b ∉ a.str := fun hmem =>
  h ((List.takeWhile_prefix _).subset hmem)

theorem notMem_memset {b : UInt8} (hb : b ≠ 0) : b ∉ (memset n).bytes := fun hmem =>
  hb (List.mem_replicate.mp hmem).2

end CharArray
