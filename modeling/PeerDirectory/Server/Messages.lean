import PeerDirectory.Server.List
import PeerDirectory.Lib.DoWhile
import PeerDirectory.Lib.Memory

/-!
# Whole messages

`sendMessage` and `recvMessage` of `lines.c` repeat `write` and `read` until the
length asked for is reached or a call fails. A `write` may accept fewer bytes
than it was given. A `read` gives at most one chunk of what has arrived, and 0
for ever at the end of the stream, which `recvMessage` takes for progress.

`buffer` is the distance of the pointer from the one the caller gave. An `int` has
no bound here: `l` comes to `len + 1` when the first `write` fails, which is exact
for `len < INT_MAX`.
-/

namespace PeerDirectory

/-! ## Sending -/

/-- The results of the successive calls of `write`, by the number of calls
before and by the length asked for: a failure, or some of the bytes, and at
least one of them if there is one. -/
structure Writes where
  result : ℕ → Int → Int
  result_cases : ∀ k l, 0 ≤ l →
    result k l = -1 ∨ (min 1 l ≤ result k l ∧ result k l ≤ l)

/-- A call `r = write(socket, buffer, l)`. -/
structure WriteCall where
  buffer : Int
  l : Int
  r : Int
deriving DecidableEq

/-- The bytes a call has accepted. -/
def WriteCall.accepted (memory : Memory UInt8) (call : WriteCall) : Bytes :=
  memory.slice call.buffer call.r.toNat

/-- The bytes that calls have accepted, one call after another. -/
def acceptedBytes (memory : Memory UInt8) (calls : List WriteCall) : Bytes :=
  calls.flatMap (WriteCall.accepted memory)

/-- The variables of `sendMessage`, and the calls it has made. -/
structure SendMessage where
  buffer : Int
  l : Int
  r : Int
  calls : List WriteCall

/-- One turn of the loop of `sendMessage`. -/
def sendTurn (write : Writes) (s : SendMessage) : SendMessage :=
  let r := write.result s.calls.length s.l
  { buffer := s.buffer + r
    l := s.l - r
    r := r
    calls := s.calls ++ [⟨s.buffer, s.l, r⟩] }

/-- `(l>0) && (r>=0)` -/
def SendMessage.again (s : SendMessage) : Bool :=
  0 < s.l && 0 ≤ s.r

/-- The variables in front of the first turn. `r` is not set. -/
def SendMessage.init (len : ℕ) : SendMessage where
  buffer := 0
  l := len
  r := 0
  calls := []

/-- `sendMessage(socket, buffer, len)` with the calls it makes, cut off after
`turns` turns of its loop. -/
def sendMessage (write : Writes) (len turns : ℕ) : Option (Int × List WriteCall) :=
  (DoWhile.run (sendTurn write) SendMessage.again turns (.init len)).map fun s =>
    (if s.r < 0 then -1 else 0, s.calls)

/-- What holds in front of a turn: the calls so far have succeeded, and what they
have accepted is the part of the message before `buffer`. -/
structure SendInvariant (memory : Memory UInt8) (len : ℕ) (s : SendMessage) : Prop where
  buffer_nonneg : 0 ≤ s.buffer
  l_nonneg : 0 ≤ s.l
  l_pos : 0 < len → 0 < s.l
  buffer_add_l : s.buffer + s.l = len
  inside : ∀ c ∈ s.calls, 0 ≤ c.buffer ∧ 0 ≤ c.l ∧ c.buffer + c.l ≤ len
  succeeded : ∀ c ∈ s.calls, 0 ≤ c.r
  accepted : acceptedBytes memory s.calls = memory.slice 0 s.buffer.toNat

theorem sendInvariant_init (memory : Memory UInt8) (len : ℕ) :
    SendInvariant memory len (.init len) := by
  constructor <;> simp [SendMessage.init, acceptedBytes]

/-- The bytes accepted grow by those of the new call. -/
theorem accepted_sendTurn (memory : Memory UInt8) (write : Writes) (s : SendMessage) :
    acceptedBytes memory (sendTurn write s).calls =
      acceptedBytes memory s.calls ++ memory.slice s.buffer (sendTurn write s).r.toNat := by
  simp [sendTurn, acceptedBytes, WriteCall.accepted]

section SendTurn

variable {memory : Memory UInt8} {write : Writes} {len : ℕ} {s : SendMessage}

/-- A call stays inside of the message. -/
theorem SendInvariant.inside_sendTurn (h : SendInvariant memory len s) :
    ∀ c ∈ (sendTurn write s).calls, 0 ≤ c.buffer ∧ 0 ≤ c.l ∧ c.buffer + c.l ≤ len := by
  intro c hc
  rcases List.mem_append.mp hc with hc | hc
  · exact h.inside c hc
  · obtain rfl := List.mem_singleton.mp hc
    exact ⟨h.buffer_nonneg, h.l_nonneg, h.buffer_add_l.le⟩

/-- What a successful call does to the pointer and to the bytes accepted. -/
theorem SendInvariant.accepted_of_nonneg (h : SendInvariant memory len s)
    (hr : 0 ≤ (sendTurn write s).r) :
    acceptedBytes memory (sendTurn write s).calls =
      memory.slice 0 (sendTurn write s).buffer.toNat := by
  have hbuffer : (sendTurn write s).buffer.toNat =
      s.buffer.toNat + (sendTurn write s).r.toNat := by
    have := h.buffer_nonneg
    simp only [sendTurn] at hr ⊢
    omega
  rw [accepted_sendTurn, h.accepted, hbuffer, Memory.slice_add, Int.toNat_of_nonneg h.buffer_nonneg,
    zero_add]

theorem SendInvariant.succeeded_of_nonneg (h : SendInvariant memory len s)
    (hr : 0 ≤ (sendTurn write s).r) : ∀ c ∈ (sendTurn write s).calls, 0 ≤ c.r := by
  intro c hc
  rcases List.mem_append.mp hc with hc | hc
  · exact h.succeeded c hc
  · obtain rfl := List.mem_singleton.mp hc
    exact hr

/-- A turn that is followed by another one keeps the invariant, and less is left
to send. -/
theorem SendInvariant.next (h : SendInvariant memory len s)
    (hagain : (sendTurn write s).again = true) :
    SendInvariant memory len (sendTurn write s) ∧
      (sendTurn write s).l.toNat < s.l.toNat := by
  simp only [SendMessage.again, Bool.and_eq_true, decide_eq_true_eq] at hagain
  obtain ⟨hl, hr⟩ := hagain
  have hcases := write.result_cases s.calls.length s.l h.l_nonneg
  have hnonneg := h.buffer_nonneg
  have hsum := h.buffer_add_l
  refine ⟨⟨?_, hl.le, fun _ => hl, ?_, h.inside_sendTurn, h.succeeded_of_nonneg hr,
    h.accepted_of_nonneg hr⟩, ?_⟩
  · simp only [sendTurn] at hr ⊢
    omega
  · simp only [sendTurn]
    omega
  · simp only [sendTurn] at hl hr ⊢
    omega

end SendTurn

/-- What `sendMessage` gives, by its last call. -/
theorem sendMessage_eq (memory : Memory UInt8) (write : Writes) (len : ℕ) :
    ∃ last, SendInvariant memory len last ∧ (sendTurn write last).again = false ∧
      ∀ turns, len < turns → sendMessage write len turns =
        some (if (sendTurn write last).r < 0 then -1 else 0, (sendTurn write last).calls) := by
  obtain ⟨last, hinv, hagain, hrun⟩ :=
    DoWhile.run_of_measure (sendTurn write) SendMessage.again
      (fun s => s.l.toNat) (fun _ h => h.next) (sendInvariant_init memory len)
  refine ⟨last, hinv, hagain, fun turns hturns => ?_⟩
  rw [sendMessage, hrun turns (by simpa [SendMessage.init] using hturns), Option.map_some]

section LastCall

variable {memory : Memory UInt8} {write : Writes} {len : ℕ} {last : SendMessage}

/-- When the loop ends with a success, nothing is left to send. -/
theorem SendInvariant.accepted_of_not_again (h : SendInvariant memory len last)
    (hagain : (sendTurn write last).again = false)
    (hr : 0 ≤ (sendTurn write last).r) :
    acceptedBytes memory (sendTurn write last).calls = memory.slice 0 len := by
  have hl : (sendTurn write last).l ≤ 0 := by
    simp only [SendMessage.again, Bool.and_eq_false_iff, decide_eq_false_iff_not] at hagain
    rcases hagain with hl | hr'
    · exact Int.not_lt.mp hl
    · exact absurd hr hr'
  have hcases := write.result_cases last.calls.length last.l h.l_nonneg
  have hsum := h.buffer_add_l
  have hend : (sendTurn write last).buffer.toNat = len := by
    simp only [sendTurn] at hl hr ⊢
    omega
  rw [h.accepted_of_nonneg hr, hend]

/-- A call that fails accepts nothing, and something was left to send. -/
theorem SendInvariant.accepted_of_neg (h : SendInvariant memory len last)
    (hr : (sendTurn write last).r < 0) :
    ∃ rest, acceptedBytes memory (sendTurn write last).calls ++ rest =
        memory.slice 0 len ∧ (0 < len → rest ≠ []) := by
  have hnonneg := h.buffer_nonneg
  have hl := h.l_nonneg
  have hsum := h.buffer_add_l
  have haccepted : acceptedBytes memory (sendTurn write last).calls =
      memory.slice 0 last.buffer.toNat := by
    rw [accepted_sendTurn, Int.toNat_of_nonpos hr.le, Memory.slice_zero, List.append_nil,
      h.accepted]
  refine ⟨memory.slice last.buffer last.l.toNat, ?_, ?_⟩
  · have hlen : len = last.buffer.toNat + last.l.toNat := by omega
    rw [haccepted, hlen, Memory.slice_add, Int.toNat_of_nonneg hnonneg, zero_add]
  · intro hpos hnil
    have hpos := h.l_pos hpos
    have hlength := congrArg List.length hnil
    simp only [Memory.length_slice, List.length_nil] at hlength
    omega

/-- A write has failed exactly when the last one has. -/
theorem SendInvariant.failed_iff (h : SendInvariant memory len last) :
    (∃ c ∈ (sendTurn write last).calls, c.r = -1) ↔
      (sendTurn write last).r < 0 := by
  have hcases := write.result_cases last.calls.length last.l h.l_nonneg
  constructor
  · rintro ⟨c, hc, hr⟩
    rcases List.mem_append.mp hc with hc | hc
    · have := h.succeeded c hc
      omega
    · obtain rfl := List.mem_singleton.mp hc
      simp only [sendTurn] at hr ⊢
      omega
  · intro hr
    refine ⟨_, List.mem_append_right _ (List.mem_singleton_self _), ?_⟩
    have hl := h.l_nonneg
    simp only [sendTurn] at hr ⊢
    omega

end LastCall

/-- `sendMessage` ends. It gives 0 exactly when no call has failed, and then it
has sent the message; a message that is not empty is sent in no other case. It
gives -1 exactly when a call has failed, and then a strict prefix of such a
message has been sent. No call asks for bytes outside of the message. -/
theorem sendMessage_result (memory : Memory UInt8) (write : Writes) (len : ℕ) :
    ∃ ret calls, (∀ turns, len < turns → sendMessage write len turns = some (ret, calls)) ∧
      (ret = 0 ↔ ∀ c ∈ calls, c.r ≠ -1) ∧
      (ret = 0 → acceptedBytes memory calls = memory.slice 0 len) ∧
      (0 < len → (ret = 0 ↔ acceptedBytes memory calls = memory.slice 0 len)) ∧
      (ret = -1 ↔ ∃ c ∈ calls, c.r = -1) ∧
      (ret = -1 → 0 < len → acceptedBytes memory calls <+: memory.slice 0 len ∧
        acceptedBytes memory calls ≠ memory.slice 0 len) ∧
      ∀ c ∈ calls, 0 ≤ c.buffer ∧ 0 ≤ c.l ∧ c.buffer + c.l ≤ len := by
  obtain ⟨last, hinv, hagain, hrun⟩ := sendMessage_eq memory write len
  have hfailed : (∃ c ∈ (sendTurn write last).calls, c.r = -1) ↔
      (sendTurn write last).r < 0 := hinv.failed_iff
  rcases lt_or_ge (sendTurn write last).r 0 with hr | hr
  · obtain ⟨rest, happend, hrest⟩ := hinv.accepted_of_neg hr
    have hstrict : 0 < len →
        acceptedBytes memory (sendTurn write last).calls ≠ memory.slice 0 len := by
      intro hlen heq
      rw [← happend, List.self_eq_append_right] at heq
      exact hrest hlen heq
    have hsome := hfailed.mpr hr
    rw [if_pos hr] at hrun
    refine ⟨-1, _, hrun, ?_, by simp, fun hlen => ?_, iff_of_true rfl hsome,
      fun _ hlen => ⟨⟨rest, happend⟩, hstrict hlen⟩, hinv.inside_sendTurn⟩
    · simpa using hsome
    · exact iff_of_false (by decide) (hstrict hlen)
  · have hnone := mt hfailed.mp hr.not_gt
    have haccepted := hinv.accepted_of_not_again hagain hr
    rw [if_neg hr.not_gt] at hrun
    refine ⟨0, _, hrun, ?_, fun _ => haccepted, fun _ => iff_of_true rfl haccepted,
      iff_of_false (by decide) hnone, by simp, hinv.inside_sendTurn⟩
    simpa using hnone

/-- A socket on which every `write` fails. -/
def brokenWrites : Writes where
  result := fun _ _ => -1
  result_cases := fun _ _ _ => Or.inl rfl

/-- The empty message is reported as a failure although all of it has been
accepted. -/
theorem broken_emptyMessage :
    ¬ ∀ (memory : Memory UInt8) (write : Writes) (len : ℕ), ∃ turns ret calls,
      sendMessage write len turns = some (ret, calls) ∧
        (ret = 0 ↔ acceptedBytes memory calls = memory.slice 0 len) := by
  intro h
  obtain ⟨turns, ret, calls, hrun, hret⟩ := h (fun _ => 0) brokenWrites 0
  cases turns with
  | zero => cases hrun
  | succ turns =>
      have heq : sendMessage brokenWrites 0 (turns + 1) = some (-1, [⟨0, 0, -1⟩]) := rfl
      obtain ⟨rfl, rfl⟩ := Prod.mk.inj (Option.some.inj (heq.symm.trans hrun))
      exact absurd (hret.mpr rfl) (by decide)

/-! ## Receiving -/

/-- How a stream ends. -/
inductive StreamEnd where
  | eof
  | error
deriving DecidableEq

/-- What arrives at a socket: chunks, none of which is empty, and the end. -/
structure Stream where
  chunks : List Bytes
  chunks_ne_nil : ∀ c ∈ chunks, c ≠ []
  ending : StreamEnd

/-- The bytes of the stream. -/
def Stream.bytes (stream : Stream) : Bytes :=
  stream.chunks.flatten

/-- What is left when `l` bytes of the first chunk have been taken. -/
def dropFromChunk (l : ℕ) (c : Bytes) (cs : List Bytes) : List Bytes :=
  if c.drop l = [] then cs else c.drop l :: cs

theorem flatten_dropFromChunk (l : ℕ) (c : Bytes) (cs : List Bytes) :
    (dropFromChunk l c cs).flatten = c.drop l ++ cs.flatten := by
  rw [dropFromChunk]
  split
  · next h => rw [h, List.nil_append]
  · rw [List.flatten_cons]

theorem ne_nil_of_mem_dropFromChunk {l : ℕ} {c : Bytes} {cs : List Bytes}
    (h : ∀ d ∈ c :: cs, d ≠ []) : ∀ d ∈ dropFromChunk l c cs, d ≠ [] := by
  intro d hd
  rw [dropFromChunk] at hd
  split at hd
  · exact h d (List.mem_cons_of_mem c hd)
  · next hne =>
      rcases List.mem_cons.mp hd with rfl | hd
      · exact hne
      · exact h d (List.mem_cons_of_mem c hd)

/-- The result of a `read`, the bytes it stores, and the stream behind them. -/
structure StreamRead where
  r : Int
  stored : Bytes
  stream : Stream

/-- `read(socket, buffer, l)` -/
def Stream.read (stream : Stream) (l : ℕ) : StreamRead :=
  match stream with
  | ⟨[], _, .eof⟩ => ⟨0, [], stream⟩
  | ⟨[], _, .error⟩ => ⟨-1, [], stream⟩
  | ⟨c :: cs, h, ending⟩ =>
      ⟨(c.take l).length, c.take l,
        ⟨dropFromChunk l c cs, ne_nil_of_mem_dropFromChunk h, ending⟩⟩

theorem Stream.ending_read (stream : Stream) (l : ℕ) :
    (stream.read l).stream.ending = stream.ending := by
  match stream with
  | ⟨[], _, .eof⟩ => rfl
  | ⟨[], _, .error⟩ => rfl
  | ⟨c :: cs, _, _⟩ => rfl

/-- A `read` at the end of the stream. -/
theorem Stream.read_of_bytes_eq_nil {stream : Stream} (h : stream.bytes = []) (l : ℕ) :
    stream.read l = ⟨if stream.ending = .eof then 0 else -1, [], stream⟩ := by
  match stream with
  | ⟨[], _, .eof⟩ => rfl
  | ⟨[], _, .error⟩ => rfl
  | ⟨c :: cs, hne, _⟩ => exact absurd (List.append_eq_nil_iff.mp h).1 (hne c (by simp))

/-- A `read` before that gives a beginning of what is there. -/
theorem Stream.read_of_bytes_ne_nil {stream : Stream} (h : stream.bytes ≠ []) {l : ℕ}
    (hl : 0 < l) :
    ∃ k, 0 < k ∧ k ≤ l ∧ k ≤ stream.bytes.length ∧ (stream.read l).r = k ∧
      (stream.read l).stored = stream.bytes.take k ∧
      (stream.read l).stream.bytes = stream.bytes.drop k := by
  match stream with
  | ⟨[], _, _⟩ => exact absurd rfl h
  | ⟨c :: cs, hne, ending⟩ =>
      have hc : 0 < c.length := List.length_pos_iff.mpr (hne c (by simp))
      refine ⟨min l c.length, by omega, by omega, ?_, ?_, ?_, ?_⟩
      · simp [Stream.bytes]
      · simp [Stream.read]
      · simp only [Stream.read, Stream.bytes, List.flatten_cons]
        rw [List.take_append_of_le_length (by omega), ← List.take_take, List.take_length]
      · simp only [Stream.read, Stream.bytes, flatten_dropFromChunk, List.flatten_cons]
        rw [List.drop_append_of_le_length (by omega)]
        have hmin : min l c.length = min (min l c.length) c.length := by omega
        rw [List.drop_eq_drop_iff.mpr hmin]

/-- The variables of `recvMessage`, with the memory around `buffer` and the
stream. -/
structure RecvMessage where
  memory : Memory UInt8
  buffer : Int
  l : Int
  r : Int
  stream : Stream

/-- One turn of the loop of `recvMessage`. -/
def recvTurn (s : RecvMessage) : RecvMessage :=
  let read := s.stream.read s.l.toNat
  { memory := s.memory.store s.buffer read.stored
    buffer := s.buffer + read.r
    l := s.l - read.r
    r := read.r
    stream := read.stream }

/-- `(l>0) && (r>=0)` -/
def RecvMessage.again (s : RecvMessage) : Bool :=
  0 < s.l && 0 ≤ s.r

/-- The variables in front of the first turn. `r` is not set. -/
def RecvMessage.init (memory : Memory UInt8) (len : ℕ) (stream : Stream) : RecvMessage where
  memory := memory
  buffer := 0
  l := len
  r := 0
  stream := stream

/-- What `recvMessage` gives and leaves. -/
structure Received where
  ret : Int
  memory : Memory UInt8
  stream : Stream

/-- `recvMessage(socket, buffer, len)`, cut off after `turns` turns of its
loop. -/
def recvMessage (memory : Memory UInt8) (len : ℕ) (stream : Stream) (turns : ℕ) :
    Option Received :=
  (DoWhile.run recvTurn RecvMessage.again turns (.init memory len stream)).map fun s =>
    ⟨if s.r < 0 then -1 else 0, s.memory, s.stream⟩

/-- What holds as long as no `read` has failed: the part of the buffer in front
of `buffer` holds the beginning of the stream, and the rest of the stream is
still there. -/
structure RecvInvariant (memory : Memory UInt8) (len : ℕ) (stream : Stream)
    (s : RecvMessage) : Prop where
  buffer_nonneg : 0 ≤ s.buffer
  l_nonneg : 0 ≤ s.l
  buffer_add_l : s.buffer + s.l = len
  buffer_le : s.buffer ≤ stream.bytes.length
  stored : s.memory.slice 0 s.buffer.toNat = stream.bytes.take s.buffer.toNat
  outside : ∀ q, q < 0 ∨ len ≤ q → s.memory q = memory q
  bytes_eq : s.stream.bytes = stream.bytes.drop s.buffer.toNat
  ending_eq : s.stream.ending = stream.ending

theorem recvInvariant_init (memory : Memory UInt8) (len : ℕ) (stream : Stream) :
    RecvInvariant memory len stream (.init memory len stream) := by
  constructor <;> simp [RecvMessage.init]

section RecvTurn

variable {memory : Memory UInt8} {len : ℕ} {stream : Stream} {s : RecvMessage}

/-- A turn in which some bytes have arrived. -/
theorem RecvInvariant.next_of_bytes_ne_nil (h : RecvInvariant memory len stream s)
    (hl : 0 < s.l) (hbytes : s.stream.bytes ≠ []) :
    RecvInvariant memory len stream (recvTurn s) ∧ 0 < (recvTurn s).r ∧
      (recvTurn s).l = s.l - (recvTurn s).r := by
  obtain ⟨k, hpos, hkl, hklen, hr, hstored, hrest⟩ :=
    Stream.read_of_bytes_ne_nil hbytes (show 0 < s.l.toNat by omega)
  have hnonneg := h.buffer_nonneg
  have hsum := h.buffer_add_l
  have hle := h.buffer_le
  have hbuffer : (recvTurn s).buffer = s.buffer + k := by simp only [recvTurn, hr]
  have htoNat : (recvTurn s).buffer.toNat = s.buffer.toNat + k := by omega
  have hlength : (s.stream.bytes.take k).length = k := by simp [hklen]
  rw [h.bytes_eq, List.length_drop] at hklen
  refine ⟨⟨?_, ?_, ?_, ?_, ?_, ?_, ?_, ?_⟩, ?_, rfl⟩
  · omega
  · simp only [recvTurn, hr]
    omega
  · simp only [recvTurn, hr]
    omega
  · omega
  · have hmemory : (recvTurn s).memory = s.memory.store s.buffer (s.stream.bytes.take k) := by
      simp only [recvTurn, hstored]
    have hpiece := Memory.slice_store s.memory s.buffer (s.stream.bytes.take k)
    rw [hlength] at hpiece
    rw [htoNat, Memory.slice_add, Int.toNat_of_nonneg hnonneg, zero_add, hmemory, hpiece,
      Memory.slice_store_of_le _ _ (by omega), h.stored, h.bytes_eq, ← List.take_add]
  · intro q hq
    rw [← h.outside q hq]
    rcases hq with hq | hq
    · exact Memory.store_of_lt _ _ (by omega)
    · simp only [recvTurn, hstored]
      exact Memory.store_of_le _ (by omega)
  · rw [htoNat, ← List.drop_drop, ← h.bytes_eq, ← hrest]
    rfl
  · rw [← h.ending_eq]
    exact s.stream.ending_read _
  · simp only [recvTurn, hr]
    omega

/-- A turn at the end of the stream. -/
theorem RecvInvariant.next_of_bytes_eq_nil (h : RecvInvariant memory len stream s)
    (hbytes : s.stream.bytes = []) :
    recvTurn s = if stream.ending = .eof then { s with r := 0 } else
      { s with buffer := s.buffer - 1, l := s.l + 1, r := -1 } := by
  rw [recvTurn, Stream.read_of_bytes_eq_nil hbytes, h.ending_eq]
  split <;> simp [Int.sub_eq_add_neg]

/-- At the end of the stream all of it has been stored. -/
theorem RecvInvariant.length_le_of_bytes_eq_nil (h : RecvInvariant memory len stream s)
    (hbytes : s.stream.bytes = []) : stream.bytes.length ≤ s.buffer := by
  have hdrop := h.bytes_eq
  rw [hbytes, eq_comm, List.drop_eq_nil_iff] at hdrop
  have := h.buffer_nonneg
  omega

/-- On a stream that is long enough or broken, the end is not reached with a
`read` that gives 0. -/
theorem RecvInvariant.broken_of_bytes_eq_nil (h : RecvInvariant memory len stream s)
    (hl : 0 < s.l) (hstream : len ≤ stream.bytes.length ∨ stream.ending = .error)
    (hbytes : s.stream.bytes = []) :
    stream.bytes.length < len ∧ (recvTurn s).r = -1 := by
  have hle := h.length_le_of_bytes_eq_nil hbytes
  have hsum := h.buffer_add_l
  have hless : stream.bytes.length < len := by omega
  have hending : stream.ending ≠ .eof := by
    rw [hstream.resolve_left hless.not_ge]
    decide
  rw [h.next_of_bytes_eq_nil hbytes, if_neg hending]
  exact ⟨hless, rfl⟩

/-- There, a turn that is followed by another one leaves less to receive. -/
theorem RecvInvariant.next (h : RecvInvariant memory len stream s) (hl : 0 < s.l)
    (hstream : len ≤ stream.bytes.length ∨ stream.ending = .error)
    (hagain : (recvTurn s).again = true) :
    (RecvInvariant memory len stream (recvTurn s) ∧ 0 < (recvTurn s).l) ∧
      (recvTurn s).l.toNat < s.l.toNat := by
  simp only [RecvMessage.again, Bool.and_eq_true, decide_eq_true_eq] at hagain
  by_cases hbytes : s.stream.bytes = []
  · have hr := (h.broken_of_bytes_eq_nil hl hstream hbytes).2
    omega
  · obtain ⟨hnext, hr, hless⟩ := h.next_of_bytes_ne_nil hl hbytes
    exact ⟨⟨hnext, hagain.1⟩, by omega⟩

/-- On a stream that is too short and closed properly, every turn is followed by
another one. -/
theorem RecvInvariant.next_of_short (h : RecvInvariant memory len stream s) (hl : 0 < s.l)
    (hshort : stream.bytes.length < len) (hending : stream.ending = .eof) :
    (recvTurn s).again = true ∧
      RecvInvariant memory len stream (recvTurn s) ∧ 0 < (recvTurn s).l := by
  by_cases hbytes : s.stream.bytes = []
  · rw [h.next_of_bytes_eq_nil hbytes, if_pos hending]
    exact ⟨by simpa [RecvMessage.again] using hl, ⟨h.1, h.2, h.3, h.4, h.5, h.6, h.7, h.8⟩, hl⟩
  · obtain ⟨hnext, hr, _⟩ := h.next_of_bytes_ne_nil hl hbytes
    have hle := hnext.buffer_le
    have hsum := hnext.buffer_add_l
    have hl' : 0 < (recvTurn s).l := by omega
    exact ⟨by simp [RecvMessage.again, hl', hr.le], hnext, hl'⟩

end RecvTurn

/-- What a caller of `recvMessage` relies on: it comes back, with 0 only if
exactly the next `len` bytes of the stream are in the buffer, and with -1 if the
stream does not have as many. -/
def CompleteOrFailed (memory : Memory UInt8) (len : ℕ) (stream : Stream) : Prop :=
  ∃ turns result, recvMessage memory len stream turns = some result ∧
    (result.ret = 0 → len ≤ stream.bytes.length ∧
      result.memory.slice 0 len = stream.bytes.take len ∧
      (∀ q, q < 0 ∨ len ≤ q → result.memory q = memory q) ∧
      result.stream.bytes = stream.bytes.drop len) ∧
    (stream.bytes.length < len → result.ret = -1)

section RecvMessage

variable {memory : Memory UInt8} {len : ℕ} {stream : Stream}

theorem completeOrFailed_of_stream (hlen : 0 < len)
    (hstream : len ≤ stream.bytes.length ∨ stream.ending = .error) :
    CompleteOrFailed memory len stream := by
  have hturn : ∀ s, RecvInvariant memory len stream s ∧ 0 < s.l →
      (recvTurn s).again = true →
      (RecvInvariant memory len stream (recvTurn s) ∧ 0 < (recvTurn s).l) ∧
        (recvTurn s).l.toNat < s.l.toNat := fun s hs => hs.1.next hs.2 hstream
  have hinit : 0 < (RecvMessage.init memory len stream).l := by
    simpa [RecvMessage.init] using hlen
  obtain ⟨last, ⟨h, hl⟩, hagain, hrun⟩ := DoWhile.run_of_measure recvTurn RecvMessage.again
    (fun s => s.l.toNat) hturn ⟨recvInvariant_init memory len stream, hinit⟩
  refine ⟨_, _, congrArg _ (hrun _ (Nat.lt_succ_self _)), ?_⟩
  by_cases hbytes : last.stream.bytes = []
  · obtain ⟨hshort, hr⟩ := h.broken_of_bytes_eq_nil hl hstream hbytes
    simp [hr]
  · -- the last call gives what was missing
    obtain ⟨hnext, hr, _⟩ := h.next_of_bytes_ne_nil hl hbytes
    have hend : (recvTurn last).l = 0 := by
      simp only [RecvMessage.again, Bool.and_eq_false_iff, decide_eq_false_iff_not] at hagain
      have := hnext.l_nonneg
      omega
    have hbuffer : (recvTurn last).buffer = len := by
      have := hnext.buffer_add_l
      omega
    have hle : len ≤ stream.bytes.length := by
      have := hnext.buffer_le
      omega
    have hstored := hnext.stored
    have hrest := hnext.bytes_eq
    rw [hbuffer, Int.toNat_natCast] at hstored hrest
    exact ⟨fun _ => ⟨hle, hstored, hnext.outside, hrest⟩, fun hshort => absurd hle hshort.not_ge⟩

/-- When the other side closes too early, `recvMessage` never comes back. -/
theorem recvMessage_of_short (hlen : 0 < len) (hshort : stream.bytes.length < len)
    (hending : stream.ending = .eof) (turns : ℕ) :
    recvMessage memory len stream turns = none := by
  have hturn : ∀ s, RecvInvariant memory len stream s ∧ 0 < s.l →
      (recvTurn s).again = true ∧
        RecvInvariant memory len stream (recvTurn s) ∧ 0 < (recvTurn s).l :=
    fun s hs => hs.1.next_of_short hs.2 hshort hending
  have hinit : 0 < (RecvMessage.init memory len stream).l := by
    simpa [RecvMessage.init] using hlen
  rw [recvMessage, DoWhile.run_eq_none hturn turns ⟨recvInvariant_init memory len stream, hinit⟩,
    Option.map_none]

theorem not_completeOrFailed_of_short (hlen : 0 < len) (hshort : stream.bytes.length < len)
    (hending : stream.ending = .eof) : ¬ CompleteOrFailed memory len stream := by
  rintro ⟨turns, result, hresult, _⟩
  rw [recvMessage_of_short hlen hshort hending] at hresult
  cases hresult

/-- `recvMessage` is complete or reports a failure exactly on the streams that
are long enough or end with an error. -/
theorem completeOrFailed_iff (hlen : 0 < len) :
    CompleteOrFailed memory len stream ↔
      len ≤ stream.bytes.length ∨ stream.ending = .error := by
  constructor
  · intro hcomplete
    by_contra hstream
    obtain ⟨hshort, hbroken⟩ := not_or.mp hstream
    have hending : stream.ending = .eof := by
      cases h : stream.ending with
      | eof => rfl
      | error => exact absurd h hbroken
    exact not_completeOrFailed_of_short hlen (Nat.not_le.mp hshort) hending hcomplete
  · exact completeOrFailed_of_stream hlen

end RecvMessage

/-- A message of two bytes that arrives in two chunks. -/
def twoChunks : Stream where
  chunks := [[1], [2]]
  chunks_ne_nil := by decide
  ending := .eof

theorem twoChunks_completeOrFailed : CompleteOrFailed (fun _ => 0) 2 twoChunks :=
  (completeOrFailed_iff (by decide)).mpr (Or.inl (by decide))

/-- The first byte of the message, and then the other side closes. -/
def oneChunk : Stream where
  chunks := [[1]]
  chunks_ne_nil := by decide
  ending := .eof

theorem oneChunk_not_completeOrFailed : ¬ CompleteOrFailed (fun _ => 0) 2 oneChunk :=
  not_completeOrFailed_of_short (by decide) (by decide) rfl

end PeerDirectory
