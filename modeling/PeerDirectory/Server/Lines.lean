import PeerDirectory.Lib.CharArray
import PeerDirectory.Lib.Delimited

/-!
# Reading lines

`readLine` of `lines.c` reads a connection byte by byte up to a newline or a
NUL. What the successive `read(fd, &ch, 1)` give is a list of events; the end of
the list is the end of the stream, where `read` returns 0 for ever. On a stream
of bytes `readLine` finds the first line of the stream, keeps what fits into the
buffer and goes on behind the delimiter, except that an immediate end of the
stream leaves the buffer as it was.
-/

namespace PeerDirectory

/-- What one `read(fd, &ch, 1)` gives before the end of the stream. -/
inductive ReadEvent where
  | byte (ch : UInt8)
  | eintr
  | error
deriving DecidableEq

/-- The return value of `readLine`, the buffer it leaves and what it has not
read. -/
structure ReadLine (n : ℕ) where
  ret : Int
  buffer : CharArray n
  input : List ReadEvent
deriving DecidableEq

/-- The delimiters of `readLine`. -/
def isEndOfLine (ch : UInt8) : Bool :=
  ch == 10 || ch == 0

/-- The loop of `readLine`. The write pointer `buf` is `buffer + totRead`. -/
def readLineLoop {n : ℕ} (buffer : CharArray n) (totRead : ℕ) :
    List ReadEvent → ReadLine n
  | [] =>
      if totRead = 0 then
        ⟨0, buffer, []⟩
      else
        ⟨totRead, buffer.set totRead 0, []⟩
  | .eintr :: input => readLineLoop buffer totRead input
  | .error :: input => ⟨-1, buffer, input⟩
  | .byte ch :: input =>
      if isEndOfLine ch then
        ⟨totRead, buffer.set totRead 0, input⟩
      else if totRead < n - 1 then
        readLineLoop (buffer.set totRead ch) (totRead + 1) input
      else
        readLineLoop buffer totRead input

/-- `readLine(fd, buffer, n)`. -/
def readLine {n : ℕ} (buffer : CharArray n) (input : List ReadEvent) : ReadLine n :=
  if n = 0 then ⟨-1, buffer, input⟩ else readLineLoop buffer 0 input

/-- `k` calls of `readLine`, each on a cleared buffer: the strings read, and what
is left of the stream. -/
def readLines (n : ℕ) : ℕ → List ReadEvent → List (List UInt8) × List ReadEvent
  | 0, input => ([], input)
  | k + 1, input =>
      let r := readLine (CharArray.memset n) input
      let q := readLines n k r.input
      (r.buffer.str :: q.1, q.2)

/-- A stream of bytes without errors and interruptions. -/
def ofBytes (s : List UInt8) : List ReadEvent :=
  s.map .byte

/-- The first line of the stream, for the delimiters of `readLine`. -/
abbrev lineOf (s : List UInt8) : List UInt8 :=
  Delimited.line isEndOfLine s

/-- What follows the first line and its delimiter. -/
abbrev afterLine (s : List UInt8) : List UInt8 :=
  Delimited.rest isEndOfLine s

@[simp] theorem ofBytes_nil : ofBytes [] = [] := rfl

@[simp] theorem ofBytes_cons (ch : UInt8) (s : List UInt8) :
    ofBytes (ch :: s) = .byte ch :: ofBytes s := rfl

@[simp] theorem isEndOfLine_zero : isEndOfLine 0 = true := rfl

theorem isEndOfLine_eq_false_iff {ch : UInt8} :
    isEndOfLine ch = false ↔ ch ≠ 10 ∧ ch ≠ 0 := by
  simp [isEndOfLine]

theorem nul_notMem_lineOf (s : List UInt8) : 0 ∉ lineOf s := by
  intro h
  have := Delimited.not_stop_of_mem_line h
  simp at this

/-- Whatever the reads give, `readLine` keeps the last byte of the buffer. -/
theorem endsInNul_readLineLoop {n : ℕ} {buffer : CharArray n} (h : buffer.EndsInNul)
    (totRead : ℕ) (input : List ReadEvent) :
    (readLineLoop buffer totRead input).buffer.EndsInNul := by
  induction input generalizing buffer totRead with
  | nil =>
      rw [readLineLoop]
      split
      · exact h
      · exact h.set (Or.inr rfl)
  | cons event input ih =>
      cases event with
      | eintr => exact ih h totRead
      | error => exact h
      | byte ch =>
          rw [readLineLoop]
          split
          · exact h.set (Or.inr rfl)
          · split
            · next hroom => exact ih (h.set (Or.inl hroom)) _
            · exact ih h totRead

theorem endsInNul_readLine {n : ℕ} {buffer : CharArray n} (h : buffer.EndsInNul)
    (input : List ReadEvent) : (readLine buffer input).buffer.EndsInNul := by
  rw [readLine]
  split
  · exact h
  · exact endsInNul_readLineLoop h 0 input

/-- No newline gets into the buffer. -/
theorem newline_notMem_readLineLoop {n : ℕ} {buffer : CharArray n} (h : 10 ∉ buffer.bytes)
    (totRead : ℕ) (input : List ReadEvent) :
    10 ∉ (readLineLoop buffer totRead input).buffer.bytes := by
  induction input generalizing buffer totRead with
  | nil =>
      rw [readLineLoop]
      split
      · exact h
      · exact CharArray.notMem_set h (by decide) _
  | cons event input ih =>
      cases event with
      | eintr => exact ih h totRead
      | error => exact h
      | byte ch =>
          rw [readLineLoop]
          cases hch : isEndOfLine ch with
          | true => exact CharArray.notMem_set h (by decide) _
          | false =>
              have hne : (10 : UInt8) ≠ ch := (isEndOfLine_eq_false_iff.mp hch).1.symm
              simp only [Bool.false_eq_true, if_false]
              split
              · exact ih (CharArray.notMem_set h hne _) _
              · exact ih h totRead

theorem newline_notMem_readLine {n : ℕ} {buffer : CharArray n} (h : 10 ∉ buffer.bytes)
    (input : List ReadEvent) : 10 ∉ (readLine buffer input).buffer.bytes := by
  rw [readLine]
  split
  · exact h
  · exact newline_notMem_readLineLoop h 0 input

/-- The loop on a stream of bytes, once `totRead` bytes are stored: it appends
what still fits of the line, ends the string and stops behind the delimiter. -/
theorem readLineLoop_ofBytes {n : ℕ} (hn : 1 < n) (s : List UInt8) (buffer : CharArray n)
    (totRead : ℕ) (htot : totRead < n) (hnul : 0 ∉ buffer.bytes.take totRead)
    (hs : totRead ≠ 0 ∨ s ≠ []) :
    (readLineLoop buffer totRead (ofBytes s)).ret =
        totRead + ((lineOf s).take (n - 1 - totRead)).length ∧
      (readLineLoop buffer totRead (ofBytes s)).buffer.str =
        buffer.bytes.take totRead ++ (lineOf s).take (n - 1 - totRead) ∧
      (readLineLoop buffer totRead (ofBytes s)).input = ofBytes (afterLine s) := by
  induction s generalizing buffer totRead with
  | nil =>
      have htot0 : totRead ≠ 0 := hs.resolve_right fun h => h rfl
      simp [readLineLoop, htot0, CharArray.str_set_nul buffer htot,
        CharArray.takeWhile_ne_nul hnul]
  | cons ch s ih =>
      rw [ofBytes_cons, readLineLoop]
      cases hch : isEndOfLine ch with
      | true =>
          simp [Delimited.line_cons_of_stop hch, Delimited.rest_cons_of_stop hch,
            CharArray.str_set_nul buffer htot, CharArray.takeWhile_ne_nul hnul]
      | false =>
          have hch0 : (0 : UInt8) ≠ ch := fun h => (isEndOfLine_eq_false_iff.mp hch).2 h.symm
          simp only [Bool.false_eq_true, if_false, Delimited.line_cons_of_not_stop hch,
            Delimited.rest_cons_of_not_stop hch]
          by_cases hroom : totRead < n - 1
          · -- the byte is stored behind the ones already there
            have hlen : totRead < buffer.bytes.length := by rw [buffer.size_eq]; exact htot
            have htake : (buffer.set totRead ch).bytes.take (totRead + 1) =
                buffer.bytes.take totRead ++ [ch] := by
              simp only [CharArray.set]
              rw [List.take_add_one, List.take_set_of_le (le_refl _),
                List.getElem?_set_self hlen]
              rfl
            have hnul' : 0 ∉ (buffer.set totRead ch).bytes.take (totRead + 1) := by
              rw [htake]
              simp [hnul, hch0]
            obtain ⟨hret, hstr, hin⟩ :=
              ih (buffer.set totRead ch) (totRead + 1) (by omega) hnul' (by simp)
            have hsub : n - 1 - totRead = n - 1 - (totRead + 1) + 1 := by omega
            rw [if_pos hroom, hret, hstr, hin, htake, hsub, List.take_succ_cons]
            refine ⟨?_, by simp, rfl⟩
            simp only [List.length_cons]
            push_cast
            ring
          · -- the byte is discarded
            have htot0 : totRead ≠ 0 := by omega
            have hfull : n - 1 - totRead = 0 := by omega
            obtain ⟨hret, hstr, hin⟩ := ih buffer totRead htot hnul (Or.inl htot0)
            rw [if_neg hroom, hret, hstr, hin, hfull]
            simp

/-- On an empty stream nothing happens. -/
theorem readLine_ofBytes_nil {n : ℕ} (hn : 1 < n) (buffer : CharArray n) :
    readLine buffer (ofBytes []) = ⟨0, buffer, []⟩ := by
  simp [readLine, readLineLoop, show n ≠ 0 by omega]

section OfBytes

variable {n : ℕ} (hn : 1 < n) (buffer : CharArray n) (s : List UInt8)

include hn

/-- What a call gives on a stream that is not at its end. -/
theorem readLine_ofBytes_of_ne_nil {s : List UInt8} (hs : s ≠ []) :
    (readLine buffer (ofBytes s)).ret = ((lineOf s).take (n - 1)).length ∧
      (readLine buffer (ofBytes s)).buffer.str = (lineOf s).take (n - 1) ∧
      (readLine buffer (ofBytes s)).input = ofBytes (afterLine s) := by
  have h := readLineLoop_ofBytes hn s buffer 0 (by omega) (by simp) (Or.inr hs)
  rw [readLine, if_neg (by omega)]
  simpa using h

/-- No call on a stream of bytes fails. -/
theorem ret_readLine_ofBytes :
    (readLine buffer (ofBytes s)).ret = ((lineOf s).take (n - 1)).length := by
  by_cases hs : s = []
  · subst hs
    rw [readLine_ofBytes_nil hn]
    simp
  · exact (readLine_ofBytes_of_ne_nil hn buffer hs).1

theorem input_readLine_ofBytes :
    (readLine buffer (ofBytes s)).input = ofBytes (afterLine s) := by
  by_cases hs : s = []
  · subst hs
    rw [readLine_ofBytes_nil hn]
    simp
  · exact (readLine_ofBytes_of_ne_nil hn buffer hs).2.2

/-- The string left in the buffer: the line as far as it fits, or the string
that was there when the stream is at its end. -/
theorem str_readLine_ofBytes :
    (readLine buffer (ofBytes s)).buffer.str =
      if s = [] then buffer.str else (lineOf s).take (n - 1) := by
  by_cases hs : s = []
  · subst hs
    rw [readLine_ofBytes_nil hn]
    simp
  · rw [if_neg hs]
    exact (readLine_ofBytes_of_ne_nil hn buffer hs).2.1

/-- A buffer that holds the empty string holds the line afterwards. -/
theorem str_readLine_ofBytes_of_nil (hbuf : buffer.str = []) :
    (readLine buffer (ofBytes s)).buffer.str = (lineOf s).take (n - 1) := by
  rw [str_readLine_ofBytes hn, hbuf]
  split
  · next hs => simp [hs]
  · rfl

end OfBytes

/-! ## Several lines -/

/-- A field that `readLine` gives back as it was sent. -/
def FitsLine (n : ℕ) (f : List UInt8) : Prop :=
  f.length ≤ n - 1 ∧ ∀ b ∈ f, isEndOfLine b = false

instance (n : ℕ) (f : List UInt8) : Decidable (FitsLine n f) :=
  have : Decidable (∀ b ∈ f, isEndOfLine b = false) :=
    List.decidableBAll (fun b : UInt8 => isEndOfLine b = false) f
  inferInstanceAs (Decidable (f.length ≤ n - 1 ∧ ∀ b ∈ f, isEndOfLine b = false))

theorem readLines_succ_ofBytes {n : ℕ} (hn : 1 < n) (k : ℕ) (s : List UInt8) :
    readLines n (k + 1) (ofBytes s) =
      ((lineOf s).take (n - 1) :: (readLines n k (ofBytes (afterLine s))).1,
        (readLines n k (ofBytes (afterLine s))).2) := by
  rw [readLines]
  simp only [input_readLine_ofBytes hn, str_readLine_ofBytes_of_nil hn _ s CharArray.str_memset]

/-- Whatever the stream is, what is read fits. -/
theorem fitsLine_of_mem_readLines {n : ℕ} (hn : 1 < n) {k : ℕ} {s f : List UInt8}
    (h : f ∈ (readLines n k (ofBytes s)).1) : FitsLine n f := by
  induction k generalizing s with
  | zero => simp [readLines] at h
  | succ k ih =>
      rw [readLines_succ_ofBytes hn] at h
      rcases List.mem_cons.mp h with rfl | h
      · refine ⟨List.length_take_le _ _, ?_⟩
        intro b hb
        exact Delimited.not_stop_of_mem_line (List.mem_of_mem_take hb)
      · exact ih h

/-- Fields that fit are read back, and the stream is used up. -/
theorem readLines_frame {n : ℕ} (hn : 1 < n) {fs : List (List UInt8)}
    (hfs : ∀ f ∈ fs, FitsLine n f) :
    readLines n fs.length (ofBytes (Delimited.frame 0 fs)) = (fs, []) := by
  induction fs with
  | nil => rfl
  | cons f fs ih =>
      obtain ⟨hlen, hf⟩ := hfs f (by simp)
      have hline : lineOf (f ++ 0 :: Delimited.frame 0 fs) = f :=
        Delimited.line_append_cons hf isEndOfLine_zero _
      have hrest : afterLine (f ++ 0 :: Delimited.frame 0 fs) = Delimited.frame 0 fs :=
        Delimited.rest_append_cons hf isEndOfLine_zero _
      rw [Delimited.frame_cons, List.length_cons, readLines_succ_ofBytes hn, hline, hrest,
        ih fun g hg => hfs g (by simp [hg]), List.take_of_length_le hlen]

/-- Fields are received as they were sent exactly when each of them fits. -/
theorem readLines_frame_iff {n : ℕ} (hn : 1 < n) (fs : List (List UInt8)) :
    readLines n fs.length (ofBytes (Delimited.frame 0 fs)) = (fs, []) ↔
      ∀ f ∈ fs, FitsLine n f := by
  constructor
  · intro h f hf
    apply fitsLine_of_mem_readLines hn
    rw [h]
    exact hf
  · exact readLines_frame hn

end PeerDirectory
