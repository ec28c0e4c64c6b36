import PeerDirectory.Client.Response
import PeerDirectory.Server.Request
import PeerDirectory.Lib.DoWhile

/-!
# The loop of `read_response`

`read_response` calls `recv(1)` until it gets a NUL. At the end of the stream
`recv` gives the empty bytes object, whose decoding is the empty string, and the
loop goes on. Here the loop is taken turn by turn, with one call of `recv` in
each. `readResponse` is what it comes to.
-/

namespace PeerDirectory

namespace Client

/-! ## Turns -/

/-- `socket.recv(1)`, where `none` is the empty bytes object. -/
def recv : Bytes → Option UInt8 × Bytes
  | [] => (none, [])
  | b :: socket => (some b, socket)

/-- The variables of `read_response`, and how it has been left. -/
structure ResponseLoop where
  response : Str
  socket : Bytes
  left : Option (Outcome Str)

/-- The variables in front of the first turn. -/
def ResponseLoop.init (stream : Bytes) : ResponseLoop where
  response := []
  socket := stream
  left := none

/-- One turn of the loop. -/
def responseTurn (s : ResponseLoop) : ResponseLoop :=
  match recv s.socket with
  | (none, socket) => { s with socket := socket }
  | (some serverResponse, socket) =>
      if serverResponse = 0 then
        { s with socket := socket, left := some (.returns s.response) }
      else
        match Text.decodeByte serverResponse with
        | none => { s with socket := socket, left := some .raises }
        | some c => { s with socket := socket, response := s.response ++ [c] }

/-- The loop after `turns` calls of `recv`: the outcome and what is left of the
stream, or `none` when it is still running. -/
def responseLoop (turns : ℕ) (stream : Bytes) : Option (Option (Outcome Str) × Bytes) :=
  (DoWhile.run responseTurn (fun s => s.left.isNone) turns (.init stream)).map fun s =>
    (s.left, s.socket)

/-! ## What the turns come to -/

/-- There is a byte that ends the loop: a NUL, or one that cannot be decoded. -/
def EndsResponse (stream : Bytes) : Prop :=
  ∃ b ∈ stream, b = 0 ∨ 128 ≤ b.toNat

theorem endsResponse_cons {b : UInt8} {stream : Bytes} :
    EndsResponse (b :: stream) ↔ (b = 0 ∨ 128 ≤ b.toNat) ∨ EndsResponse stream := by
  simp [EndsResponse]

theorem not_endsResponse_nil : ¬ EndsResponse [] := by
  simp [EndsResponse]

section Turn

variable (response : Str) (stream : Bytes)

theorem responseTurn_nil :
    responseTurn ⟨response, [], none⟩ = ⟨response, [], none⟩ := rfl

theorem responseTurn_nul :
    responseTurn ⟨response, 0 :: stream, none⟩ =
      ⟨response, stream, some (.returns response)⟩ := rfl

theorem responseTurn_of_le {b : UInt8} (h : 128 ≤ b.toNat) :
    responseTurn ⟨response, b :: stream, none⟩ = ⟨response, stream, some .raises⟩ := by
  have hb : b ≠ 0 := by
    rintro rfl
    exact absurd h (by decide)
  simp [responseTurn, recv, hb, Text.decodeByte_of_le h]

theorem responseTurn_of_lt {b : UInt8} (h : b.toNat < 128) (hb : b ≠ 0) :
    responseTurn ⟨response, b :: stream, none⟩ =
      ⟨response ++ [Char.ofNat b.toNat], stream, none⟩ := by
  simp [responseTurn, recv, hb, Text.decodeByte_of_lt h]

end Turn

/-- Without such a byte there is always another turn. -/
theorem run_responseTurn_of_not_ends {response : Str} {stream : Bytes}
    (h : ¬ EndsResponse stream) (turns : ℕ) :
    DoWhile.run responseTurn (fun s => s.left.isNone) turns ⟨response, stream, none⟩ = none := by
  have hturn : ∀ s : ResponseLoop, s.left = none ∧ ¬ EndsResponse s.socket →
      (responseTurn s).left.isNone = true ∧
        (responseTurn s).left = none ∧ ¬ EndsResponse (responseTurn s).socket := by
    rintro ⟨response, socket, left⟩ ⟨hleft, hsocket⟩
    obtain rfl : left = none := hleft
    cases socket with
    | nil =>
        rw [responseTurn_nil]
        exact ⟨rfl, rfl, hsocket⟩
    | cons b socket =>
        rw [endsResponse_cons, not_or, not_or] at hsocket
        obtain ⟨⟨hb, hlt⟩, hsocket⟩ := hsocket
        rw [responseTurn_of_lt response socket (Nat.not_le.mp hlt) hb]
        exact ⟨rfl, rfl, hsocket⟩
  exact DoWhile.run_eq_none hturn turns ⟨rfl, h⟩

/-- With one the loop ends, as `readResponse` says. -/
theorem run_responseTurn_of_ends (response : Str) {stream : Bytes} (h : EndsResponse stream)
    {turns : ℕ} (hturns : stream.length ≤ turns) :
    ∃ s, DoWhile.run responseTurn (fun s => s.left.isNone) turns ⟨response, stream, none⟩ =
        some s ∧
      s.left = some ((readResponse stream).bind fun r => .returns (response ++ r.1)) ∧
      ∀ text rest, readResponse stream = .returns (text, rest) → s.socket = rest := by
  induction stream generalizing response turns with
  | nil => exact absurd h not_endsResponse_nil
  | cons b stream ih =>
      obtain ⟨turns, rfl⟩ := Nat.exists_eq_add_of_le' (Nat.one_le_of_lt hturns)
      rw [DoWhile.run_succ, readResponse]
      by_cases hb : b = 0
      · subst hb
        rw [responseTurn_nul]
        refine ⟨⟨response, stream, some (.returns response)⟩, rfl, by simp, ?_⟩
        intro text rest hread
        rw [if_pos rfl] at hread
        exact (Prod.mk.inj (Outcome.returns.inj hread)).2
      · rw [if_neg hb]
        by_cases hlt : b.toNat < 128
        · rw [responseTurn_of_lt response stream hlt hb, Text.decodeByte_of_lt hlt]
          have hstream : EndsResponse stream := by
            refine (endsResponse_cons.mp h).resolve_left ?_
            rintro (h0 | hle)
            · exact hb h0
            · exact absurd hle hlt.not_ge
          obtain ⟨s, hrun, hleft, hsocket⟩ :=
            ih (response ++ [Char.ofNat b.toNat]) hstream (Nat.le_of_succ_le_succ hturns)
          refine ⟨s, hrun, ?_, ?_⟩
          · rw [hleft]
            cases readResponse stream <;> simp
          · intro text rest hread
            obtain ⟨r, hrest, hread⟩ := Outcome.bind_eq_returns_iff.mp hread
            obtain ⟨-, rfl⟩ := Prod.mk.inj (Outcome.returns.inj hread)
            exact hsocket r.1 r.2 hrest
        · rw [responseTurn_of_le response stream (Nat.not_lt.mp hlt),
            Text.decodeByte_of_le (Nat.not_lt.mp hlt)]
          exact ⟨⟨response, stream, some .raises⟩, rfl, rfl, fun _ _ hread => by cases hread⟩

/-- `readResponse` waits for ever exactly where the loop goes on for ever. -/
theorem readResponse_eq_hangs_iff (stream : Bytes) :
    readResponse stream = .hangs ↔ ¬ EndsResponse stream := by
  fun_induction readResponse stream with
  | case1 => exact iff_of_true rfl not_endsResponse_nil
  | case2 socket =>
      exact iff_of_false (by simp) fun h => h (endsResponse_cons.mpr (Or.inl (Or.inl rfl)))
  | case3 b socket hb hnone =>
      refine iff_of_false (by simp) fun h => h (endsResponse_cons.mpr (Or.inl (Or.inr ?_)))
      by_contra hlt
      rw [Text.decodeByte_of_lt (Nat.not_le.mp hlt)] at hnone
      cases hnone
  | case4 b socket hb c hc ih =>
      have hlt := (Text.decodeByte_eq_some hc).1
      rw [endsResponse_cons, not_or, not_or, and_iff_right ⟨hb, hlt.not_ge⟩, ← ih]
      cases readResponse socket <;> simp

/-! ## The end of a stream -/

/-- `read_response` finishes exactly on the streams with a byte that ends it: a
NUL, or one that is not ASCII. -/
theorem readResponse_finishes_iff (stream : Bytes) :
    (∃ turns, (responseLoop turns stream).isSome) ↔ ∃ b ∈ stream, b = 0 ∨ 128 ≤ b.toNat := by
  constructor
  · rintro ⟨turns, hsome⟩
    by_contra hends
    rw [responseLoop, ResponseLoop.init, run_responseTurn_of_not_ends hends] at hsome
    cases hsome
  · intro hends
    obtain ⟨s, hrun, -⟩ := run_responseTurn_of_ends [] hends (le_refl _)
    exact ⟨stream.length, by rw [responseLoop, ResponseLoop.init, hrun]; rfl⟩

/-- A request that the server does not know is not answered, and the client that
has sent it waits for ever. -/
theorem unknownOperation_never_finishes :
    ∃ g h, treatRequest (.ofStream (cstring [88]) (Outcomes.success ⟨10, 0, 0, 1⟩)) .init =
        some (g, h) ∧
      ∀ turns, responseLoop turns h.sent = none := by
  have hsent : (treatRequest (.ofStream (cstring [88]) (Outcomes.success ⟨10, 0, 0, 1⟩))
      .init).map (fun r => r.2.sent) = some [] := by decide +kernel
  obtain ⟨⟨g, h⟩, htreat, hnil⟩ := Option.map_eq_some_iff.mp hsent
  refine ⟨g, h, htreat, fun turns => ?_⟩
  rw [responseLoop, ResponseLoop.init, hnil, run_responseTurn_of_not_ends not_endsResponse_nil,
    Option.map_none]

/-! ## Several strings -/

/-- `turns` calls of `read_response`: the strings, and what is left of the
stream. -/
def readResponses : ℕ → Bytes → Outcome (List Str × Bytes)
  | 0, socket => .returns ([], socket)
  | turns + 1, socket =>
      (readResponse socket).bind fun response =>
        (readResponses turns response.2).bind fun r => .returns (response.1 :: r.1, r.2)

theorem encodeMessage_cons (s : Str) (strings : List Str) :
    encodeMessage (s :: strings) = cstring (Text.encode s) ++ encodeMessage strings := by
  simp [encodeMessage, Delimited.frame, cstring]

/-- Strings of ASCII characters are read back. -/
theorem readResponses_encodeMessage {strings : List Str}
    (hnul : ∀ s ∈ strings, Char.ofNat 0 ∉ s) (hascii : ∀ s ∈ strings, ∀ c ∈ s, c.toNat < 128) :
    readResponses strings.length (encodeMessage strings) = .returns (strings, []) := by
  induction strings with
  | nil => rfl
  | cons s strings ih =>
      have hread : readResponse (encodeMessage (s :: strings)) =
          .returns (s, encodeMessage strings) := by
        rw [encodeMessage_cons]
        exact readResponse_eq_returns_iff.mpr
          ⟨hnul s (by simp), Text.isAscii_encode_iff.mpr (hascii s (by simp)), rfl⟩
      rw [List.length_cons, readResponses, hread, Outcome.bind_returns,
        ih (fun t ht => hnul t (by simp [ht])) fun t ht => hascii t (by simp [ht]),
        Outcome.bind_returns]

/-- What calls of `read_response` give has no other characters. -/
theorem ascii_of_readResponses {turns : ℕ} {stream rest : Bytes} {strings : List Str}
    (h : readResponses turns stream = .returns (strings, rest)) :
    ∀ s ∈ strings, ∀ c ∈ s, c.toNat < 128 := by
  induction turns generalizing stream strings rest with
  | zero =>
      cases h
      simp
  | succ turns ih =>
      obtain ⟨response, hread, h⟩ := Outcome.bind_eq_returns_iff.mp h
      obtain ⟨r, hrest, h⟩ := Outcome.bind_eq_returns_iff.mp h
      obtain ⟨rfl, rfl⟩ := Prod.mk.inj (Outcome.returns.inj h)
      intro s hs
      rcases List.mem_cons.mp hs with rfl | hs
      · exact Text.isAscii_encode_iff.mp (readResponse_eq_returns_iff.mp hread).2.1
      · exact ih hrest s hs

/-- Receiving undoes encoding exactly on ASCII: for any other text
`read_response` raises on the first byte of its encoding that is not ASCII. -/
theorem readResponses_encodeMessage_iff {strings : List Str}
    (hnul : ∀ s ∈ strings, Char.ofNat 0 ∉ s) :
    readResponses strings.length (encodeMessage strings) = .returns (strings, []) ↔
      ∀ s ∈ strings, ∀ c ∈ s, c.toNat < 128 := by
  constructor
  · exact ascii_of_readResponses
  · exact readResponses_encodeMessage hnul

theorem readResponses_encodeMessage_twoStrings :
    readResponses 2 (encodeMessage [['a', 'b'], []]) = .returns ([['a', 'b'], []], []) :=
  (@readResponses_encodeMessage_iff [['a', 'b'], []] (by simp)).mpr (by simp)

/-- A name with an accent. -/
theorem readResponses_encodeMessage_accent :
    readResponses 1 (encodeMessage [[Char.ofNat 225]]) = .raises := by
  decide +kernel

end Client

end PeerDirectory
