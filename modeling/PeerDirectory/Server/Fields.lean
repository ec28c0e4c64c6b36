import PeerDirectory.Server.Lines

/-!
# Fields of an interrupted stream

A request is a sequence of fields, each ended by a NUL or a newline, and
`treat_request` reads it with one call of `readLine` for a field, into the same
buffer. The calls are taken here with a check of every write into the buffer:
`none` stands for a write outside of it. An interrupted `read` is repeated, so
the calls do the same as on a stream without interruptions.
-/

namespace PeerDirectory

/-! ## Checked writes -/

/-- The loop of `readLine` with a check of its writes. -/
def checkedLineLoop {n : ℕ} (buffer : CharArray n) (totRead : ℕ) :
    List ReadEvent → Option (ReadLine n)
  | [] =>
      if totRead = 0 then
        some ⟨0, buffer, []⟩
      else
        (buffer.store totRead 0).map fun buffer => ⟨totRead, buffer, []⟩
  | .eintr :: input => checkedLineLoop buffer totRead input
  | .error :: input => some ⟨-1, buffer, input⟩
  | .byte ch :: input =>
      if isEndOfLine ch then
        (buffer.store totRead 0).map fun buffer => ⟨totRead, buffer, input⟩
      else if totRead < n - 1 then
        (buffer.store totRead ch).bind fun buffer => checkedLineLoop buffer (totRead + 1) input
      else
        checkedLineLoop buffer totRead input

/-- `readLine(fd, buffer, n)` with a check of its writes. -/
def checkedLine {n : ℕ} (buffer : CharArray n) (input : List ReadEvent) :
    Option (ReadLine n) :=
  if n = 0 then some ⟨-1, buffer, input⟩ else checkedLineLoop buffer 0 input

/-- The write pointer stays in the buffer, so every check succeeds. -/
theorem checkedLineLoop_eq {n : ℕ} (buffer : CharArray n) {totRead : ℕ} (h : totRead < n)
    (input : List ReadEvent) :
    checkedLineLoop buffer totRead input = some (readLineLoop buffer totRead input) := by
  induction input generalizing buffer totRead with
  | nil =>
      rw [checkedLineLoop, readLineLoop]
      split
      · rfl
      · rw [buffer.store_of_lt h, Option.map_some]
  | cons event input ih =>
      cases event with
      | eintr => exact ih buffer h
      | error => rfl
      | byte ch =>
          rw [checkedLineLoop, readLineLoop]
          split
          · rw [buffer.store_of_lt h, Option.map_some]
          · split
            · next hroom =>
                rw [buffer.store_of_lt h, Option.bind_some]
                exact ih _ (by omega)
            · exact ih buffer h

theorem checkedLine_eq {n : ℕ} (buffer : CharArray n) (input : List ReadEvent) :
    checkedLine buffer input = some (readLine buffer input) := by
  rw [checkedLine, readLine]
  split
  · rfl
  · exact checkedLineLoop_eq buffer (by omega) input

/-! ## Interruptions -/

/-- The bytes that the reads give. -/
def arriving (input : List ReadEvent) : List UInt8 :=
  input.filterMap fun
    | .byte ch => some ch
    | _ => none

@[simp] theorem arriving_nil : arriving [] = [] := rfl

@[simp] theorem arriving_byte (ch : UInt8) (input : List ReadEvent) :
    arriving (.byte ch :: input) = ch :: arriving input := rfl

@[simp] theorem arriving_eintr (input : List ReadEvent) :
    arriving (.eintr :: input) = arriving input := rfl

/-- Interruptions change neither what `readLine` returns nor what it stores, nor
which bytes it leaves. -/
theorem readLineLoop_eintr {n : ℕ} (buffer : CharArray n) (totRead : ℕ)
    {input : List ReadEvent} (h : .error ∉ input) :
    (readLineLoop buffer totRead input).ret =
        (readLineLoop buffer totRead (ofBytes (arriving input))).ret ∧
      (readLineLoop buffer totRead input).buffer =
        (readLineLoop buffer totRead (ofBytes (arriving input))).buffer ∧
      ofBytes (arriving (readLineLoop buffer totRead input).input) =
        (readLineLoop buffer totRead (ofBytes (arriving input))).input ∧
      .error ∉ (readLineLoop buffer totRead input).input := by
  induction input generalizing buffer totRead with
  | nil =>
      rw [arriving_nil, ofBytes_nil, readLineLoop]
      split <;> simp
  | cons event input ih =>
      have hrest : .error ∉ input := fun hmem => h (List.mem_cons_of_mem event hmem)
      cases event with
      | eintr => exact ih buffer totRead hrest
      | error => exact absurd (List.mem_cons_self) h
      | byte ch =>
          rw [arriving_byte, ofBytes_cons, readLineLoop, readLineLoop]
          split
          · exact ⟨rfl, rfl, rfl, hrest⟩
          · split
            · exact ih _ _ hrest
            · exact ih _ _ hrest

theorem readLine_eintr {n : ℕ} (buffer : CharArray n) {input : List ReadEvent}
    (h : .error ∉ input) :
    (readLine buffer input).ret = (readLine buffer (ofBytes (arriving input))).ret ∧
      (readLine buffer input).buffer = (readLine buffer (ofBytes (arriving input))).buffer ∧
      ofBytes (arriving (readLine buffer input).input) =
        (readLine buffer (ofBytes (arriving input))).input ∧
      .error ∉ (readLine buffer input).input := by
  rw [readLine, readLine]
  split
  · exact ⟨rfl, rfl, rfl, h⟩
  · exact readLineLoop_eintr buffer 0 h

theorem ofBytes_injective : Function.Injective ofBytes :=
  List.map_injective_iff.mpr fun _ _ h => ReadEvent.byte.inj h

/-! ## Fields -/

/-- A field as it is sent: text without a delimiter, and the delimiter that ends
it. -/
structure Field where
  text : List UInt8
  terminator : UInt8
  text_ok : ∀ b ∈ text, isEndOfLine b = false
  terminator_ok : isEndOfLine terminator = true

/-- The bytes of a field. -/
def Field.bytes (f : Field) : List UInt8 :=
  f.text ++ [f.terminator]

/-- What a call of `readLine` returns, and the buffer it leaves. -/
structure FieldRead (n : ℕ) where
  ret : Int
  buffer : CharArray n

/-- `k` calls of `readLine` into one buffer, and what is left of the stream. -/
def readFields {n : ℕ} : ℕ → CharArray n → List ReadEvent →
    Option (List (FieldRead n) × List ReadEvent)
  | 0, _, input => some ([], input)
  | k + 1, buffer, input =>
      (checkedLine buffer input).bind fun r =>
        (readFields k r.buffer r.input).map fun q => (⟨r.ret, r.buffer⟩ :: q.1, q.2)

/-- The length of the field as far as it fits has been returned, and this much of
it is in the buffer, with a NUL behind it. -/
def FieldRead.IsFor {n : ℕ} (r : FieldRead n) (f : Field) : Prop :=
  r.ret = min f.text.length (n - 1) ∧
    r.buffer.bytes.take (min f.text.length (n - 1) + 1) = f.text.take (n - 1) ++ [0]

/-- One call reads one field. -/
theorem readLine_field {n : ℕ} (hn : 2 ≤ n) (buffer : CharArray n) (f : Field)
    {input : List ReadEvent} {rest : List UInt8} (herror : .error ∉ input)
    (hinput : arriving input = f.bytes ++ rest) :
    (⟨(readLine buffer input).ret, (readLine buffer input).buffer⟩ : FieldRead n).IsFor f ∧
      arriving (readLine buffer input).input = rest ∧
      .error ∉ (readLine buffer input).input := by
  have hbytes : f.bytes ++ rest = f.text ++ f.terminator :: rest := by
    simp [Field.bytes]
  have hline : lineOf (f.bytes ++ rest) = f.text := by
    rw [hbytes]
    exact Delimited.line_append_cons f.text_ok f.terminator_ok rest
  have hafter : afterLine (f.bytes ++ rest) = rest := by
    rw [hbytes]
    exact Delimited.rest_append_cons f.text_ok f.terminator_ok rest
  obtain ⟨hret, hbuffer, hrest, herror'⟩ := readLine_eintr buffer herror
  obtain ⟨hret', hstr, hrest'⟩ :=
    readLine_ofBytes_of_ne_nil hn buffer (show f.bytes ++ rest ≠ [] by simp [hbytes])
  rw [hinput] at hret hbuffer hrest
  rw [hline, List.length_take, Nat.min_comm] at hret'
  rw [← hbuffer, hline] at hstr
  have hlength : (readLine buffer input).buffer.str.length = min f.text.length (n - 1) := by
    rw [hstr, List.length_take, Nat.min_comm]
  have htake := CharArray.take_length_str (readLine buffer input).buffer (by omega)
  rw [hlength, hstr] at htake
  refine ⟨⟨hret.trans hret', htake⟩, ?_, herror'⟩
  apply ofBytes_injective
  rw [hrest, hrest', hafter]

/-- `readLine`, called once for each field, gives the fields one after another as
far as they fit, writes nowhere outside of the buffer, and stops in front of the
bytes behind the last field. -/
theorem readFields_fields {n : ℕ} (hn : 2 ≤ n) (buffer : CharArray n) (fields : List Field)
    (further : List UInt8) {input : List ReadEvent} (herror : .error ∉ input)
    (hinput : arriving input = fields.flatMap Field.bytes ++ further) :
    ∃ reads left, readFields fields.length buffer input = some (reads, left) ∧
      List.Forall₂ FieldRead.IsFor reads fields ∧ arriving left = further := by
  induction fields generalizing buffer input with
  | nil => exact ⟨[], input, rfl, .nil, hinput⟩
  | cons f fields ih =>
      rw [List.flatMap_cons, List.append_assoc] at hinput
      obtain ⟨hfield, hrest, herror'⟩ := readLine_field hn buffer f herror hinput
      obtain ⟨reads, left, hreads, hfields, hleft⟩ :=
        ih (readLine buffer input).buffer herror' hrest
      refine ⟨_ :: reads, left, ?_, .cons hfield hfields, hleft⟩
      rw [List.length_cons, readFields, checkedLine_eq, Option.bind_some, hreads, Option.map_some]

/-- A field that does not fit into three bytes, and a field behind it. -/
def overlongFields : List Field :=
  [⟨[65, 66, 67], 10, by decide +kernel, by decide⟩, ⟨[68], 0, by decide +kernel, by decide⟩]

/-- What the reads give for them, with interruptions. -/
def overlongInput : List ReadEvent :=
  [.byte 65, .eintr, .byte 66, .byte 67, .byte 10, .eintr, .byte 68, .byte 0, .byte 69]

theorem readFields_overlong :
    ∃ reads left, readFields 2 (CharArray.memset 3) overlongInput = some (reads, left) ∧
      List.Forall₂ FieldRead.IsFor reads overlongFields ∧ arriving left = [69] :=
  readFields_fields (by decide) _ overlongFields _ (by decide +kernel) (by decide +kernel)

end PeerDirectory
