import Mathlib.Data.List.Basic
import Mathlib.Tactic

/-!
# Text as bytes

`encode` is the UTF-8 encoding of a string, taken as the list of its
characters. A character below 128 is one byte, its own code, and every byte of
any other character is 128 or more; so an ASCII delimiter is found in the
encoded text exactly where it stands in the text. `decodeByte` decodes a single
byte as a whole UTF-8 text, which succeeds on ASCII only. `universalNewlines` is
what reading a file in text mode does to its newlines.
-/

namespace Text

/-- The UTF-8 encoding of a string. -/
def encode (s : List Char) : List UInt8 :=
  s.flatMap String.utf8EncodeChar

/-- One byte decoded by itself: only ASCII is a whole text. -/
def decodeByte (b : UInt8) : Option Char :=
  if b.toNat < 128 then some (Char.ofNat b.toNat) else none

/-- Every byte of the list is an ASCII character. -/
def IsAscii (bs : List UInt8) : Prop :=
  ∀ b ∈ bs, b.toNat < 128

/-- The string a list of ASCII bytes spells. -/
def ofAscii (bs : List UInt8) : List Char :=
  bs.map fun b => Char.ofNat b.toNat

instance (bs : List UInt8) : Decidable (IsAscii bs) :=
  List.decidableBAll (fun b : UInt8 => b.toNat < 128) bs

@[simp] theorem encode_nil : encode [] = [] := rfl

theorem encode_cons (c : Char) (s : List Char) :
    encode (c :: s) = String.utf8EncodeChar c ++ encode s := rfl

theorem utf8EncodeChar_of_lt {c : Char} (h : c.toNat < 128) :
    String.utf8EncodeChar c = [UInt8.ofNat c.toNat] := by
  have h' : c.val.toNat ≤ 127 := by
    change c.toNat ≤ 127
    omega
  simp only [String.utf8EncodeChar, if_pos h']
  rfl

theorem le_of_mem_utf8EncodeChar {c : Char} (h : 128 ≤ c.toNat) {b : UInt8}
    (hb : b ∈ String.utf8EncodeChar c) : 128 ≤ b.toNat := by
  have h' : ¬ c.val.toNat ≤ 127 := by
    change ¬ c.toNat ≤ 127
    omega
  simp only [String.utf8EncodeChar, if_neg h'] at hb
  split at hb
  · simp only [List.mem_cons, List.not_mem_nil, or_false] at hb
    rcases hb with rfl | rfl <;> simp <;> omega
  · split at hb
    · simp only [List.mem_cons, List.not_mem_nil, or_false] at hb
      rcases hb with rfl | rfl | rfl <;> simp <;> omega
    · simp only [List.mem_cons, List.not_mem_nil, or_false] at hb
      rcases hb with rfl | rfl | rfl | rfl <;> simp <;> omega

theorem toNat_ofNat_of_lt {n : ℕ} (h : n < 128) : (Char.ofNat n).toNat = n := by
  have hvalid : n.isValidChar := Or.inl (by omega)
  rw [Char.ofNat, dif_pos hvalid]
  rfl

/-- An ASCII text has as many bytes as characters. -/
theorem length_encode {s : List Char} (hs : ∀ c ∈ s, c.toNat < 128) :
    (encode s).length = s.length := by
  induction s with
  | nil => rfl
  | cons c s ih =>
      rw [encode_cons, utf8EncodeChar_of_lt (hs c (by simp)), List.length_append,
        ih fun d hd => hs d (by simp [hd])]
      simp [Nat.add_comm]

/-- An ASCII byte occurs in the encoded text exactly when its character occurs
in the text. -/
theorem mem_encode_iff {b : UInt8} (hb : b.toNat < 128) {s : List Char} :
    b ∈ encode s ↔ Char.ofNat b.toNat ∈ s := by
  simp only [encode, List.mem_flatMap]
  constructor
  · rintro ⟨c, hc, hbc⟩
    by_cases h : c.toNat < 128
    · rw [utf8EncodeChar_of_lt h, List.mem_singleton] at hbc
      have hbc' : b.toNat = c.toNat := by
        rw [hbc, UInt8.toNat_ofNat']
        omega
      rw [hbc', Char.ofNat_toNat]
      exact hc
    · have := le_of_mem_utf8EncodeChar (by omega) hbc
      omega
  · intro h
    refine ⟨_, h, ?_⟩
    rw [utf8EncodeChar_of_lt (by rw [toNat_ofNat_of_lt hb]; exact hb),
      toNat_ofNat_of_lt hb]
    simp

/-- Different texts have different encodings. -/
theorem encode_injective : Function.Injective encode := by
  intro s t h
  have hb : s.utf8Encode = t.utf8Encode := by
    simp only [List.utf8Encode]
    exact congrArg List.toByteArray h
  apply String.ofList_injective
  rw [← String.toByteArray_inj]
  simpa using hb

theorem isAscii_nil : IsAscii [] := by
  simp [IsAscii]

theorem isAscii_cons {b : UInt8} {bs : List UInt8} :
    IsAscii (b :: bs) ↔ b.toNat < 128 ∧ IsAscii bs := by
  simp [IsAscii]

theorem isAscii_append {as bs : List UInt8} :
    IsAscii (as ++ bs) ↔ IsAscii as ∧ IsAscii bs := by
  simp only [IsAscii, List.mem_append]
  constructor
  · intro h
    exact ⟨fun b hb => h b (Or.inl hb), fun b hb => h b (Or.inr hb)⟩
  · rintro ⟨ha, hb⟩ b (h | h)
    · exact ha b h
    · exact hb b h

/-- The encoded text is ASCII exactly when each of its characters is. -/
theorem isAscii_encode_iff {s : List Char} :
    IsAscii (encode s) ↔ ∀ c ∈ s, c.toNat < 128 := by
  induction s with
  | nil => simp [IsAscii]
  | cons c s ih =>
      rw [encode_cons, isAscii_append, ih, List.forall_mem_cons]
      refine and_congr_left fun _ => ?_
      by_cases h : c.toNat < 128
      · simp only [utf8EncodeChar_of_lt h, isAscii_cons, isAscii_nil, and_true, h,
          iff_true]
        rw [UInt8.toNat_ofNat']
        omega
      · refine iff_of_false ?_ h
        intro hascii
        cases hc : String.utf8EncodeChar c with
        | nil => exact String.utf8EncodeChar_ne_nil hc
        | cons b bs =>
            have hb : b ∈ String.utf8EncodeChar c := by simp [hc]
            have h1 := le_of_mem_utf8EncodeChar (by omega) hb
            have h2 := hascii b hb
            omega

theorem decodeByte_of_lt {b : UInt8} (h : b.toNat < 128) :
    decodeByte b = some (Char.ofNat b.toNat) := by
  rw [decodeByte, if_pos h]

theorem decodeByte_of_le {b : UInt8} (h : 128 ≤ b.toNat) : decodeByte b = none := by
  rw [decodeByte, if_neg (by omega)]

theorem decodeByte_eq_some {b : UInt8} {c : Char} (h : decodeByte b = some c) :
    b.toNat < 128 ∧ c = Char.ofNat b.toNat := by
  unfold decodeByte at h
  split at h
  · next hb => exact ⟨hb, (Option.some.inj h).symm⟩
  · cases h

/-- An ASCII character in front of a text is one byte in front of its encoding. -/
theorem encode_cons_ofNat {b : UInt8} (h : b.toNat < 128) (s : List Char) :
    encode (Char.ofNat b.toNat :: s) = b :: encode s := by
  rw [encode_cons, utf8EncodeChar_of_lt (by rw [toNat_ofNat_of_lt h]; exact h),
    toNat_ofNat_of_lt h]
  simp

theorem ofAscii_cons (b : UInt8) (bs : List UInt8) :
    ofAscii (b :: bs) = Char.ofNat b.toNat :: ofAscii bs := rfl

/-- ASCII bytes are the encoding of the string they spell. -/
theorem encode_ofAscii {bs : List UInt8} (h : IsAscii bs) : encode (ofAscii bs) = bs := by
  induction bs with
  | nil => rfl
  | cons b bs ih =>
      obtain ⟨hb, hbs⟩ := isAscii_cons.mp h
      rw [ofAscii_cons, encode_cons_ofNat hb, ih hbs]

/-- An ASCII text is what its encoding spells. -/
theorem ofAscii_encode {s : List Char} (h : IsAscii (encode s)) :
    ofAscii (encode s) = s :=
  encode_injective (encode_ofAscii h)

/-! ## The first NUL -/

/-- What stands before the first NUL. -/
def untilNul (s : List Char) : List Char :=
  s.takeWhile fun c => c ≠ Char.ofNat 0

theorem untilNul_cons (c : Char) (s : List Char) :
    untilNul (c :: s) = if c = Char.ofNat 0 then [] else c :: untilNul s := by
  rw [untilNul, List.takeWhile_cons]
  by_cases h : c = Char.ofNat 0
  · simp [h]
  · simp [h, untilNul]

theorem nul_notMem_untilNul (s : List Char) : Char.ofNat 0 ∉ untilNul s := by
  induction s with
  | nil => simp [untilNul]
  | cons c s ih =>
      rw [untilNul_cons]
      split
      · simp
      · next h => simpa [ih] using Ne.symm h

theorem untilNul_eq_self_iff {s : List Char} : untilNul s = s ↔ Char.ofNat 0 ∉ s := by
  constructor
  · intro h
    rw [← h]
    exact nul_notMem_untilNul s
  · intro h
    induction s with
    | nil => rfl
    | cons c s ih =>
        rw [untilNul_cons, if_neg fun hc => h (by simp [hc]),
          ih fun hs => h (List.mem_cons_of_mem c hs)]

/-- An encoded text that is ended by a NUL ends at its first one. -/
theorem encode_append_nul (s : List Char) (t : List UInt8) :
    ∃ rest, encode s ++ 0 :: t = encode (untilNul s) ++ 0 :: rest := by
  induction s with
  | nil => exact ⟨t, rfl⟩
  | cons c s ih =>
      rw [untilNul_cons]
      by_cases h : c = Char.ofNat 0
      · subst h
        exact ⟨encode s ++ 0 :: t, rfl⟩
      · obtain ⟨rest, hrest⟩ := ih
        refine ⟨rest, ?_⟩
        rw [if_neg h, encode_cons, encode_cons, List.append_assoc, hrest, List.append_assoc]

/-! ## Newlines -/

/-- A carriage return with the newline behind it, and any other carriage return,
is one newline. -/
def universalNewlines : List Char → List Char
  | [] => []
  | [c] => if c = Char.ofNat 13 then [Char.ofNat 10] else [c]
  | c :: d :: s =>
      if c = Char.ofNat 13 then
        if d = Char.ofNat 10 then Char.ofNat 10 :: universalNewlines s
        else Char.ofNat 10 :: universalNewlines (d :: s)
      else c :: universalNewlines (d :: s)

theorem cr_notMem_universalNewlines (s : List Char) : Char.ofNat 13 ∉ universalNewlines s := by
  have hlf : Char.ofNat 13 ≠ Char.ofNat 10 := by decide
  fun_induction universalNewlines s with
  | case1 => simp
  | case2 => simp [hlf]
  | case3 c hc => simpa using Ne.symm hc
  | case4 s ih => simp [hlf, ih]
  | case5 d s hd ih => simp [hlf, ih]
  | case6 c d s hc ih => simp [Ne.symm hc, ih]

theorem universalNewlines_eq_self_iff {s : List Char} :
    universalNewlines s = s ↔ Char.ofNat 13 ∉ s := by
  constructor
  · intro h
    rw [← h]
    exact cr_notMem_universalNewlines s
  · intro h
    fun_induction universalNewlines s with
    | case1 => rfl
    | case2 => simp at h
    | case3 c hc => rfl
    | case4 s ih => simp at h
    | case5 d s hd ih => simp at h
    | case6 c d s hc ih => rw [ih fun hs => h (List.mem_cons_of_mem c hs)]

/-- Newlines are ASCII. -/
theorem ascii_untilNul_universalNewlines (s : List Char) :
    (∀ c ∈ untilNul (universalNewlines s), c.toNat < 128) ↔
      ∀ c ∈ untilNul s, c.toNat < 128 := by
  fun_induction universalNewlines s with
  | case1 => rfl
  | case2 => simp [untilNul]
  | case3 c hc => rfl
  | case4 s ih => simp [untilNul_cons, ih]
  | case5 d s hd ih => simp [untilNul_cons (Char.ofNat 10), untilNul_cons (Char.ofNat 13), ih]
  | case6 c d s hc ih =>
      rw [untilNul_cons c (universalNewlines (d :: s)), untilNul_cons c (d :: s)]
      split
      · rfl
      · rw [List.forall_mem_cons, List.forall_mem_cons]
        exact and_congr_right fun _ => ih

/-- Text mode and the end at the first NUL keep a text exactly when it has
neither a carriage return nor a NUL. -/
theorem untilNul_universalNewlines_eq_self_iff {s : List Char} :
    untilNul (universalNewlines s) = s ↔ Char.ofNat 13 ∉ s ∧ Char.ofNat 0 ∉ s := by
  constructor
  · intro h
    constructor
    · intro hs
      rw [← h] at hs
      exact cr_notMem_universalNewlines s ((List.takeWhile_prefix _).subset hs)
    · rw [← h]
      exact nul_notMem_untilNul _
  · rintro ⟨hcr, hnul⟩
    rw [universalNewlines_eq_self_iff.mpr hcr, untilNul_eq_self_iff.mpr hnul]

end Text
