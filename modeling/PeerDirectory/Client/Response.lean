import PeerDirectory.Client.Protocol
import PeerDirectory.Server.ListFacts
import PeerDirectory.Server.Servidor

/-!
# Reading what the server sends

`read_response` undoes `sendMessage` of a C string on ASCII, and raises on any
other string. `int` reads back the numerals the server writes.
-/

namespace PeerDirectory

namespace Client

/-! ## Strings -/

theorem readResponse_cstring {f : Bytes} (hnul : 0 ∉ f) (hascii : Text.IsAscii f)
    (s : Bytes) : readResponse (cstring f ++ s) = .returns (Text.ofAscii f, s) := by
  induction f with
  | nil => rfl
  | cons b f ih =>
      obtain ⟨hb, hf⟩ := Text.isAscii_cons.mp hascii
      obtain ⟨hb0, hf0⟩ : 0 ≠ b ∧ 0 ∉ f := by simpa using hnul
      have hrest := ih hf0 hf
      rw [cstring, List.cons_append, List.cons_append, readResponse, if_neg hb0.symm,
        Text.decodeByte_of_lt hb]
      simp only [cstring] at hrest
      simp only [hrest, Outcome.bind_returns, Text.ofAscii_cons]

/-- The decoding of single bytes fails on the first byte that is not ASCII. -/
theorem readResponse_cstring_of_not_ascii {f : Bytes} (hnul : 0 ∉ f)
    (hascii : ¬ Text.IsAscii f) (s : Bytes) : readResponse (cstring f ++ s) = .raises := by
  induction f with
  | nil => exact absurd Text.isAscii_nil hascii
  | cons b f ih =>
      obtain ⟨hb0, hf0⟩ : 0 ≠ b ∧ 0 ∉ f := by simpa using hnul
      rw [cstring, List.cons_append, List.cons_append, readResponse, if_neg hb0.symm]
      by_cases hb : b.toNat < 128
      · have hf : ¬ Text.IsAscii f := fun hf => hascii (Text.isAscii_cons.mpr ⟨hb, hf⟩)
        have hrest := ih hf0 hf
        simp only [cstring] at hrest
        simp only [Text.decodeByte_of_lt hb, hrest, Outcome.bind_raises]
      · simp only [Text.decodeByte_of_le (by omega : 128 ≤ b.toNat)]

/-- A string that is there is read, or it raises. -/
theorem readResponse_cstring_cases {f : Bytes} (hnul : 0 ∉ f) (s : Bytes) :
    (Text.IsAscii f ∧ readResponse (cstring f ++ s) = .returns (Text.ofAscii f, s)) ∨
      (¬ Text.IsAscii f ∧ readResponse (cstring f ++ s) = .raises) := by
  by_cases hascii : Text.IsAscii f
  · exact Or.inl ⟨hascii, readResponse_cstring hnul hascii s⟩
  · exact Or.inr ⟨hascii, readResponse_cstring_of_not_ascii hnul hascii s⟩

/-- A string of a row that is read. -/
theorem Reading.response_cstring {ρ : Type} {f : Bytes} (hnul : 0 ∉ f) (hascii : Text.IsAscii f)
    (begun : List Str) (s : Bytes) (next : Str × Bytes → Reading ρ) :
    Reading.response begun (cstring f ++ s) next = next (Text.ofAscii f, s) := by
  rw [response, readResponse_cstring hnul hascii]

/-- A string of a row that is not ASCII ends the loop. -/
theorem Reading.response_cstring_of_not_ascii {ρ : Type} {f : Bytes} (hnul : 0 ∉ f)
    (hascii : ¬ Text.IsAscii f) (begun : List Str) (s : Bytes) (next : Str × Bytes → Reading ρ) :
    Reading.response begun (cstring f ++ s) next =
      ⟨.raises, [], begun, undecoded (cstring f ++ s)⟩ := by
  rw [response, readResponse_cstring_of_not_ascii hnul hascii]

/-- No exception leaves a listing method behind its loop. -/
@[simp] theorem Reading.catching_listing {ρ : Type} (rc : RC) (r : Reading ρ) (l : Listing ρ) :
    (r.listing rc).catching l = r.listing rc := by
  unfold Reading.listing
  split <;> rfl

/-- What `read_response` gives is the ASCII text before the first NUL. -/
theorem readResponse_eq_returns_iff {s rest : Bytes} {t : Str} :
    readResponse s = .returns (t, rest) ↔
      Char.ofNat 0 ∉ t ∧ Text.IsAscii (Text.encode t) ∧ s = cstring (Text.encode t) ++ rest := by
  constructor
  · intro h
    fun_induction readResponse s generalizing t with
    | case1 => cases h
    | case2 socket =>
        obtain ⟨rfl, rfl⟩ := Prod.mk.inj (Outcome.returns.inj h)
        exact ⟨by simp, Text.isAscii_nil, rfl⟩
    | case3 => cases h
    | case4 b socket hb c hc ih =>
        cases hread : readResponse socket with
        | raises => simp [hread] at h
        | hangs => simp [hread] at h
        | returns r =>
            simp only [hread, Outcome.bind_returns, Outcome.returns.injEq, Prod.mk.injEq] at h
            obtain ⟨rfl, rfl⟩ := h
            obtain ⟨hnul, hascii, hsocket⟩ := ih hread
            obtain ⟨hlt, rfl⟩ := Text.decodeByte_eq_some hc
            rw [Text.encode_cons_ofNat hlt]
            refine ⟨?_, Text.isAscii_cons.mpr ⟨hlt, hascii⟩, by rw [hsocket]; rfl⟩
            rw [List.mem_cons, not_or]
            refine ⟨fun h0 => hb ?_, hnul⟩
            have htoNat := congrArg Char.toNat h0
            rw [Text.toNat_ofNat_of_lt hlt, Text.toNat_ofNat_of_lt (by decide)] at htoNat
            exact UInt8.toNat_inj.mp htoNat.symm
  · rintro ⟨hnul, hascii, rfl⟩
    have hbytes : (0 : UInt8) ∉ Text.encode t := fun h =>
      hnul ((Text.mem_encode_iff (by decide)).mp h)
    rw [readResponse_cstring hbytes hascii, Text.ofAscii_encode hascii]

/-- The response the client reads for a result code. -/
def codeText (error : Int) : Str :=
  [Char.ofNat (48 + error).toNat]

theorem readResponse_code {e : Int} (h : -1 ≤ e) (h' : e ≤ 4) (s : Bytes) :
    readResponse (errorStr e ++ s) = .returns (codeText e, s) := by
  obtain rfl | rfl | rfl | rfl | rfl | rfl :
      e = -1 ∨ e = 0 ∨ e = 1 ∨ e = 2 ∨ e = 3 ∨ e = 4 := by omega
  all_goals exact readResponse_cstring (f := [_]) (by decide) (by decide) s

theorem codeText_eq_zero_iff {e : Int} (h : -1 ≤ e) (h' : e ≤ 4) :
    codeText e = ['0'] ↔ e = 0 := by
  obtain rfl | rfl | rfl | rfl | rfl | rfl :
      e = -1 ∨ e = 0 ∨ e = 1 ∨ e = 2 ∨ e = 3 ∨ e = 4 := by omega
  all_goals decide

/-- The result code of a successful operation. -/
@[simp] theorem readResponse_errorStr_zero (s : Bytes) :
    readResponse (errorStr 0 ++ s) = .returns (['0'], s) :=
  readResponse_cstring (f := [48]) (by decide) (by decide) s

/-! ## Numerals -/

theorem nul_notMem_decimal (n : ℕ) : 0 ∉ decimal n := by
  intro h
  have := digit_of_mem_decimal h
  simp at this

theorem isAscii_decimal (n : ℕ) : Text.IsAscii (decimal n) := by
  intro b hb
  have := digit_of_mem_decimal hb
  omega

theorem readResponse_decimal (n : ℕ) (s : Bytes) :
    readResponse (cstring (decimal n) ++ s) = .returns (Nat.toDigits 10 n, s) := by
  rw [readResponse_cstring (nul_notMem_decimal n) (isAscii_decimal n), decimal,
    Text.ofAscii_encode (isAscii_decimal n)]

/-- A string of digits is a numeral. -/
theorem isNumeral_of_isDigit {s : Str} (hne : s ≠ []) (hs : ∀ c ∈ s, c.isDigit = true) :
    isNumeral s = true := by
  fun_induction isNumeral s with
  | case1 => exact absurd rfl hne
  | case2 c => exact hs c (by simp)
  | case3 c d s ih1 ih2 =>
      have hd : d ≠ '_' := by
        rintro rfl
        exact absurd (hs '_' (by simp)) (by decide)
      rw [if_neg hd, hs c (by simp), Bool.true_and]
      exact ih2 (by simp) fun e he => hs e (List.mem_cons_of_mem c he)

theorem isSpace_of_isDigit {c : Char} (h : c.isDigit = true) : isSpace c = false := by
  simp only [Char.isDigit, Bool.and_eq_true, decide_eq_true_eq, ge_iff_le] at h
  have h1 : 48 ≤ c.toNat := h.1
  have hc : c ≠ ' ' := by
    rintro rfl
    revert h1
    decide
  simp only [isSpace, hc, decide_false, Bool.false_or, Bool.and_eq_false_iff,
    decide_eq_false_iff_not]
  omega

theorem dropWhile_isSpace {s : Str} (hs : ∀ c ∈ s, c.isDigit = true) :
    s.dropWhile isSpace = s := by
  cases s with
  | nil => rfl
  | cons c s => simp [isSpace_of_isDigit (hs c (by simp))]

/-- Every interpreter takes a numeral with this many digits. -/
theorem takes_of_le {maxStrDigits : StrDigits} {length : ℕ} (h : length ≤ 640) :
    Takes maxStrDigits length := fun max hmax => h.trans (maxStrDigits.le_limit max hmax)

/-- An interpreter without a limit takes every numeral. -/
@[simp] theorem takes_unlimited (length : ℕ) : Takes .unlimited length := by
  simp [Takes, StrDigits.unlimited]

/-- A string of digits is its own numeral. -/
theorem digits_eq_self {s : Str} (hs : ∀ c ∈ s, c.isDigit = true) : digits s = s := by
  rw [digits, List.filter_eq_self]
  intro c hc
  have hne : c ≠ '_' := by
    rintro rfl
    exact absurd (hs '_' hc) (by decide)
  simpa using hne

/-- `int` of a string of digits is its value, if it is not too long. -/
theorem int_of_digits {maxStrDigits : StrDigits} {s : Str} (hs : ∀ c ∈ s, c.isDigit = true) :
    int maxStrDigits s = (numeralValue maxStrDigits s).bind fun n => .returns (n : Int) := by
  have hstrip : strip s = s := by
    rw [strip, dropWhile_isSpace hs, dropWhile_isSpace fun c hc => hs c (List.mem_reverse.mp hc),
      List.reverse_reverse]
  rw [int, hstrip]
  split
  · next t => exact absurd (hs '-' (by simp)) (by decide)
  · next t => exact absurd (hs '+' (by simp)) (by decide)
  · rfl

/-- `int` of a string of digits. -/
theorem int_of_isDigit {maxStrDigits : StrDigits} {s : Str} (hne : s ≠ [])
    (hs : ∀ c ∈ s, c.isDigit = true) (hlength : Takes maxStrDigits s.length) :
    int maxStrDigits s = .returns (Nat.ofDigitChars 10 s 0 : ℕ) := by
  rw [int_of_digits hs, numeralValue, digits_eq_self hs,
    if_pos ⟨isNumeral_of_isDigit hne hs, hlength⟩, Outcome.bind_returns]

/-- `int` reads a numeral back. -/
theorem int_toDigits {maxStrDigits : StrDigits} {n : ℕ}
    (hlength : Takes maxStrDigits (Nat.toDigits 10 n).length) :
    int maxStrDigits (Nat.toDigits 10 n) = .returns (n : Int) := by
  rw [int_of_isDigit Nat.toDigits_ne_nil (fun c hc =>
    Nat.isDigit_of_mem_toDigits (by decide) (by decide) hc) hlength,
    Nat.ofDigitChars_ten_toDigits]

/-- A numeral that is too long raises. -/
theorem int_toDigits_of_not_takes {maxStrDigits : StrDigits} {n : ℕ}
    (hlength : ¬ Takes maxStrDigits (Nat.toDigits 10 n).length) :
    int maxStrDigits (Nat.toDigits 10 n) = .raises := by
  have hs : ∀ c ∈ Nat.toDigits 10 n, c.isDigit = true := fun c hc =>
    Nat.isDigit_of_mem_toDigits (by decide) (by decide) hc
  rw [int_of_digits hs, numeralValue, digits_eq_self hs, if_neg fun h => hlength h.2,
    Outcome.bind_raises]

/-- A listing method behind the code `0` and a number. -/
theorem readListing_decimal {ρ : Type} {maxStrDigits : StrDigits} {n : ℕ}
    (hlength : Takes maxStrDigits (Nat.toDigits 10 n).length) (loop : ℕ → Bytes → Reading ρ)
    (rc : RC) (s : Bytes) :
    readListing maxStrDigits loop rc (cstring (decimal n) ++ s) = (loop n s).listing rc := by
  simp only [readListing, readResponse_decimal, int_toDigits hlength, Int.toNat_natCast]

end Client

end PeerDirectory
