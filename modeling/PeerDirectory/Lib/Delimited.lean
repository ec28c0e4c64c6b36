import Mathlib.Data.List.TakeWhile
import Mathlib.Tactic

/-!
# Delimited streams

A stream of symbols is cut into lines at the symbols that satisfy `stop`. The
delimiter belongs to no line; the end of the stream ends the last one. `skip k`
drops `k` lines with their delimiters and `field k` is the line met there, so
reading past the end gives empty lines. `frame d fs` is the stream that carries
the lines `fs`, each followed by the delimiter `d`.
-/

namespace Delimited

variable {α : Type*} (stop : α → Bool)

/-- The first line of the stream. -/
def line (s : List α) : List α :=
  s.takeWhile fun a => !stop a

/-- What follows the first line and its delimiter. -/
def rest (s : List α) : List α :=
  (s.dropWhile fun a => !stop a).tail

/-- The stream after `k` lines. -/
def skip : ℕ → List α → List α
  | 0, s => s
  | k + 1, s => skip k (rest stop s)

/-- The line met after `k` others. -/
def field (k : ℕ) (s : List α) : List α :=
  line stop (skip stop k s)

/-- The stream of the lines `fs`, each ended by `d`. -/
def frame (d : α) (fs : List (List α)) : List α :=
  fs.flatMap fun f => f ++ [d]

@[simp] theorem line_nil : line stop ([] : List α) = [] := rfl

@[simp] theorem rest_nil : rest stop ([] : List α) = [] := rfl

theorem skip_succ (k : ℕ) (s : List α) :
    skip stop (k + 1) s = skip stop k (rest stop s) := rfl

@[simp] theorem skip_nil (k : ℕ) : skip stop k ([] : List α) = [] := by
  induction k with
  | zero => rfl
  | succ k ih => rw [skip_succ, rest_nil, ih]

@[simp] theorem field_zero (s : List α) : field stop 0 s = line stop s := rfl

theorem field_succ (k : ℕ) (s : List α) :
    field stop (k + 1) s = field stop k (rest stop s) := rfl

@[simp] theorem field_nil (k : ℕ) : field stop k ([] : List α) = [] := by
  simp [field]

variable {stop}

theorem not_stop_of_mem_line {s : List α} {a : α} (h : a ∈ line stop s) :
    stop a = false := by
  have := List.mem_takeWhile_imp h
  simpa using this

theorem line_cons_of_stop {a : α} {s : List α} (h : stop a = true) :
    line stop (a :: s) = [] := by
  simp [line, h]

theorem rest_cons_of_stop {a : α} {s : List α} (h : stop a = true) :
    rest stop (a :: s) = s := by
  simp [rest, h]

theorem line_cons_of_not_stop {a : α} {s : List α} (h : stop a = false) :
    line stop (a :: s) = a :: line stop s := by
  simp [line, h]

theorem rest_cons_of_not_stop {a : α} {s : List α} (h : stop a = false) :
    rest stop (a :: s) = rest stop s := by
  simp [rest, h]

/-- A stream that begins with a whole line and its delimiter. -/
theorem line_append_cons {f : List α} {d : α} (hf : ∀ a ∈ f, stop a = false)
    (hd : stop d = true) (s : List α) : line stop (f ++ d :: s) = f := by
  induction f with
  | nil => exact line_cons_of_stop hd
  | cons a f ih =>
      have ha : stop a = false := hf a (by simp)
      rw [List.cons_append, line_cons_of_not_stop ha,
        ih fun b hb => hf b (by simp [hb])]

theorem rest_append_cons {f : List α} {d : α} (hf : ∀ a ∈ f, stop a = false)
    (hd : stop d = true) (s : List α) : rest stop (f ++ d :: s) = s := by
  induction f with
  | nil => exact rest_cons_of_stop hd
  | cons a f ih =>
      have ha : stop a = false := hf a (by simp)
      rw [List.cons_append, rest_cons_of_not_stop ha,
        ih fun b hb => hf b (by simp [hb])]

/-- What follows a delimiter is not part of the first line. -/
theorem line_append_stop {d : α} (hd : stop d = true) (f s : List α) :
    line stop (f ++ d :: s) = line stop f := by
  induction f with
  | nil => rw [List.nil_append, line_cons_of_stop hd, line_nil]
  | cons a f ih =>
      rw [List.cons_append]
      cases ha : stop a with
      | true => rw [line_cons_of_stop ha, line_cons_of_stop ha]
      | false => rw [line_cons_of_not_stop ha, line_cons_of_not_stop ha, ih]

/-- A stream without a delimiter is one line. -/
theorem line_eq_self {s : List α} (hs : ∀ a ∈ s, stop a = false) :
    line stop s = s := by
  rw [line, List.takeWhile_eq_self_iff]
  intro a ha
  simp [hs a ha]

theorem frame_cons (d : α) (f : List α) (fs : List (List α)) :
    frame d (f :: fs) = f ++ d :: frame d fs := by
  simp [frame]

/-- The framed lines are read back in order. -/
theorem field_frame {d : α} (hd : stop d = true) {fs : List (List α)}
    (hfs : ∀ f ∈ fs, ∀ a ∈ f, stop a = false) (s : List α) {k : ℕ}
    (hk : k < fs.length) : field stop k (frame d fs ++ s) = fs[k] := by
  induction fs generalizing k with
  | nil => simp at hk
  | cons f fs ih =>
      have hf : ∀ a ∈ f, stop a = false := hfs f (by simp)
      rw [frame_cons, List.append_assoc, List.cons_append]
      cases k with
      | zero => exact line_append_cons hf hd _
      | succ k =>
          rw [field_succ, rest_append_cons hf hd,
            ih (fun g hg => hfs g (by simp [hg])) (by simpa using hk)]
          rfl

end Delimited
