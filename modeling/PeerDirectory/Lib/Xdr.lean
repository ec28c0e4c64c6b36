import Mathlib.Data.List.TakeWhile
import Mathlib.Logic.Equiv.Defs
import Mathlib.Tactic

/-!
# External data representation

A filter writes the values of a type in blocks of four bytes and reads them back:
numbers have the high byte first, strings stand behind their length and are filled
up with zero bytes, which no reader looks at. A filter carries the laws its users
rely on: what was written is read back whatever follows it, what is read does not
depend on what follows it, and what was read can be written. `Primitives` are the
filters of a library that the others are made of, and `Primitives.standard` those
that follow the standard.
-/

namespace Xdr

/-- The two directions of an XDR routine; `none` is its `FALSE`. -/
structure Filter (α : Type*) where
  encode : α → Option (List UInt8)
  decode : List UInt8 → Option (α × List UInt8)
  decode_encode : ∀ a s t, encode a = some s → decode (s ++ t) = some (a, t)
  decode_append : ∀ s a rest t, decode s = some (a, rest) → decode (s ++ t) = some (a, rest ++ t)
  isSome_encode : ∀ s a rest, decode s = some (a, rest) → (encode a).isSome

namespace Filter

variable {α β : Type*} {f : Filter α} {g : Filter β}

theorem decode_of_encode {a : α} {s : List UInt8} (h : f.encode a = some s) :
    f.decode s = some (a, []) := by
  have happend := f.decode_encode a s [] h
  rwa [List.append_nil] at happend

/-- Nothing is read from a part of what was written. -/
theorem decode_of_prefix {a : α} {s p : List UInt8} (h : f.encode a = some s) (hp : p <+: s)
    (hne : p ≠ s) : f.decode p = none := by
  obtain ⟨t, rfl⟩ := hp
  have hwhole : f.decode (p ++ t) = some (a, []) := decode_of_encode h
  cases hread : f.decode p with
  | none => rfl
  | some r =>
      have happend := f.decode_append p r.1 r.2 t hread
      rw [hwhole] at happend
      have hempty : r.2 ++ t = [] := ((Prod.mk.inj (Option.some.inj happend)).2).symm
      rw [(List.append_eq_nil_iff.mp hempty).2, List.append_nil] at hne
      exact absurd rfl hne

/-- One routine after the other. -/
def andThen (f : Filter α) (g : Filter β) : Filter (α × β) where
  encode := fun p => (f.encode p.1).bind fun s => (g.encode p.2).map (s ++ ·)
  decode := fun s => (f.decode s).bind fun r => (g.decode r.2).map fun q => ((r.1, q.1), q.2)
  decode_encode := by
    rintro ⟨a, b⟩ s t h
    obtain ⟨s₁, hs₁, h⟩ := Option.bind_eq_some_iff.mp h
    obtain ⟨s₂, hs₂, rfl⟩ := Option.map_eq_some_iff.mp h
    rw [List.append_assoc, f.decode_encode a s₁ _ hs₁, Option.bind_some,
      g.decode_encode b s₂ t hs₂, Option.map_some]
  decode_append := by
    rintro s ⟨a, b⟩ rest t h
    obtain ⟨r, hr, h⟩ := Option.bind_eq_some_iff.mp h
    obtain ⟨q, hq, heq⟩ := Option.map_eq_some_iff.mp h
    cases heq
    rw [f.decode_append s r.1 r.2 t hr, Option.bind_some, g.decode_append r.2 q.1 q.2 t hq,
      Option.map_some]
  isSome_encode := by
    rintro s ⟨a, b⟩ rest h
    obtain ⟨r, hr, h⟩ := Option.bind_eq_some_iff.mp h
    obtain ⟨q, hq, heq⟩ := Option.map_eq_some_iff.mp h
    cases heq
    obtain ⟨s₁, hs₁⟩ := Option.isSome_iff_exists.mp (f.isSome_encode s r.1 r.2 hr)
    obtain ⟨s₂, hs₂⟩ := Option.isSome_iff_exists.mp (g.isSome_encode r.2 q.1 q.2 hq)
    simp [hs₁, hs₂]

/-- The same routine for another type. -/
def equiv (f : Filter α) (e : α ≃ β) : Filter β where
  encode := fun b => f.encode (e.symm b)
  decode := fun s => (f.decode s).map fun r => (e r.1, r.2)
  decode_encode := by
    intro b s t h
    rw [f.decode_encode _ s t h, Option.map_some, e.apply_symm_apply]
  decode_append := by
    intro s b rest t h
    obtain ⟨r, hr, heq⟩ := Option.map_eq_some_iff.mp h
    cases heq
    rw [f.decode_append s r.1 r.2 t hr, Option.map_some]
  isSome_encode := by
    intro s b rest h
    obtain ⟨r, hr, heq⟩ := Option.map_eq_some_iff.mp h
    cases heq
    rw [e.symm_apply_apply]
    exact f.isSome_encode s r.1 r.2 hr

/-- Blocks of four bytes, and at most `n` bytes. -/
def Within (f : Filter α) (n : ℕ) : Prop :=
  ∀ a s, f.encode a = some s → 4 ∣ s.length ∧ s.length ≤ n

theorem Within.andThen {m n : ℕ} (hf : f.Within m) (hg : g.Within n) :
    (f.andThen g).Within (m + n) := by
  rintro ⟨a, b⟩ s h
  obtain ⟨s₁, hs₁, h⟩ := Option.bind_eq_some_iff.mp h
  obtain ⟨s₂, hs₂, rfl⟩ := Option.map_eq_some_iff.mp h
  obtain ⟨hdvd₁, hle₁⟩ := hf a s₁ hs₁
  obtain ⟨hdvd₂, hle₂⟩ := hg b s₂ hs₂
  rw [List.length_append]
  exact ⟨Nat.dvd_add hdvd₁ hdvd₂, Nat.add_le_add hle₁ hle₂⟩

theorem Within.equiv {n : ℕ} (hf : f.Within n) (e : α ≃ β) : (f.equiv e).Within n :=
  fun b s h => hf (e.symm b) s h

theorem isSome_encode_andThen (a : α) (b : β) :
    ((f.andThen g).encode (a, b)).isSome ↔ (f.encode a).isSome ∧ (g.encode b).isSome := by
  cases hf : f.encode a <;> cases hg : g.encode b <;> simp [andThen, hf, hg]

end Filter

/-! ## Strings and numbers -/

/-- What a `char *` points to. -/
structure CString where
  bytes : List UInt8
  nul_notMem : 0 ∉ bytes
deriving DecidableEq

/-- The string at the beginning of some memory. -/
def CString.ofBytes (s : List UInt8) : CString where
  bytes := s.takeWhile fun c => c != 0
  nul_notMem := fun h => by simpa using List.mem_takeWhile_imp h

@[simp] theorem CString.ofBytes_bytes (s : CString) : CString.ofBytes s.bytes = s := by
  have hself : s.bytes.takeWhile (fun c => c != 0) = s.bytes :=
    List.takeWhile_eq_self_iff.mpr fun c hc =>
      bne_iff_ne.mpr fun h => s.nul_notMem (h ▸ hc)
  cases s
  simpa [ofBytes] using hself

/-- The routines a library has for strings and numbers, with what their users rely
on: a string is written if it is not too long, in whole blocks, and a number always. -/
structure Primitives where
  string : UInt32 → Filter CString
  int : Filter Int32
  isSome_string : ∀ maxsize s,
    ((string maxsize).encode s).isSome ↔ s.bytes.length ≤ maxsize.toNat
  within_string : ∀ maxsize n, maxsize.toNat ≤ 4 * n → (string maxsize).Within (4 + 4 * n)
  isSome_int : ∀ n, (int.encode n).isSome

/-! ## The blocks of a number -/

/-- The four bytes of a number. -/
def block (n : UInt32) : List UInt8 :=
  [UInt8.ofNat (n.toNat / 2 ^ 24), UInt8.ofNat (n.toNat / 2 ^ 16), UInt8.ofNat (n.toNat / 2 ^ 8),
    UInt8.ofNat n.toNat]

/-- The number of four bytes. -/
def unblock (a b c d : UInt8) : UInt32 :=
  UInt32.ofNat (a.toNat * 2 ^ 24 + b.toNat * 2 ^ 16 + c.toNat * 2 ^ 8 + d.toNat)

theorem unblock_block (n : UInt32) :
    unblock (UInt8.ofNat (n.toNat / 2 ^ 24)) (UInt8.ofNat (n.toNat / 2 ^ 16))
      (UInt8.ofNat (n.toNat / 2 ^ 8)) (UInt8.ofNat n.toNat) = n := by
  have hlt : n.toNat < 2 ^ 32 := n.toNat_lt
  apply UInt32.toNat_inj.mp
  simp only [unblock, UInt32.toNat_ofNat', UInt8.toNat_ofNat']
  omega

/-- A number without a sign. -/
def uint : Filter UInt32 where
  encode := fun n => some (block n)
  decode := fun
    | a :: b :: c :: d :: rest => some (unblock a b c d, rest)
    | _ => none
  decode_encode := by
    rintro n s t h
    cases h
    simp only [block, List.cons_append, List.nil_append, unblock_block]
  decode_append := by
    intro s n rest t h
    split at h
    · cases h
      rfl
    · cases h
  isSome_encode := fun _ _ _ _ => rfl

/-- The numbers with a sign are those of the other type, bit for bit. -/
def signed : UInt32 ≃ Int32 where
  toFun := UInt32.toInt32
  invFun := Int32.toUInt32
  left_inv := fun _ => rfl
  right_inv := fun _ => rfl

/-- A number with a sign. -/
def int : Filter Int32 := uint.equiv signed

/-! ## The blocks of a string -/

/-- How many bytes fill up a block. -/
def fill (n : ℕ) : ℕ := (4 - n % 4) % 4

theorem dvd_add_fill (n : ℕ) : 4 ∣ n + fill n := by
  unfold fill
  omega

/-- The bytes of a string behind its length, and what fills them up. -/
def stringBody (maxsize : UInt32) (size : ℕ) (s : List UInt8) : Option (CString × List UInt8) :=
  if size ≤ maxsize.toNat ∧ size + fill size ≤ s.length then
    some (CString.ofBytes (s.take size), s.drop (size + fill size))
  else
    none

/-- The length of a string, and then its bytes. -/
def string (maxsize : UInt32) : Filter CString where
  encode := fun s =>
    if s.bytes.length ≤ maxsize.toNat then
      some (block (.ofNat s.bytes.length) ++
        (s.bytes ++ List.replicate (fill s.bytes.length) 0))
    else
      none
  decode := fun s => (uint.decode s).bind fun r => stringBody maxsize r.1.toNat r.2
  decode_encode := by
    intro s bytes t h
    split at h
    · next hle =>
        cases h
        have hsize : (UInt32.ofNat s.bytes.length).toNat = s.bytes.length := by
          have := maxsize.toNat_lt
          rw [UInt32.toNat_ofNat', Nat.mod_eq_of_lt (by omega)]
        have hlength : (s.bytes ++ List.replicate (fill s.bytes.length) (0 : UInt8)).length =
            s.bytes.length + fill s.bytes.length := by
          rw [List.length_append, List.length_replicate]
        rw [List.append_assoc, uint.decode_encode _ _ _ rfl, Option.bind_some, hsize, stringBody,
          if_pos ⟨hle, by rw [List.length_append, hlength]; omega⟩,
          List.drop_left' hlength, List.append_assoc, List.take_left, CString.ofBytes_bytes]
    · cases h
  decode_append := by
    intro s a rest t h
    obtain ⟨r, hr, h⟩ := Option.bind_eq_some_iff.mp h
    rw [uint.decode_append s r.1 r.2 t hr, Option.bind_some, stringBody]
    rw [stringBody] at h
    split at h
    · next hle =>
        cases h
        have hsize : r.1.toNat ≤ r.2.length := le_trans (Nat.le_add_right _ _) hle.2
        have hlength : r.1.toNat + fill r.1.toNat ≤ (r.2 ++ t).length := by
          rw [List.length_append]
          exact le_trans hle.2 (Nat.le_add_right _ _)
        rw [if_pos ⟨hle.1, hlength⟩, List.take_append_of_le_length hsize,
          List.drop_append_of_le_length hle.2]
    · cases h
  isSome_encode := by
    intro s a rest h
    obtain ⟨r, hr, h⟩ := Option.bind_eq_some_iff.mp h
    rw [stringBody] at h
    split at h
    · next hle =>
        cases h
        have hlength : (CString.ofBytes (r.2.take r.1.toNat)).bytes.length ≤ r.1.toNat :=
          ((List.takeWhile_prefix _).length_le).trans (List.length_take_le _ _)
        simp [hlength.trans hle.1]
    · cases h

theorem isSome_encode_string {maxsize : UInt32} {s : CString} :
    ((string maxsize).encode s).isSome ↔ s.bytes.length ≤ maxsize.toNat := by
  simp only [string]
  split <;> simp_all

theorem within_string {maxsize : UInt32} {n : ℕ} (h : maxsize.toNat ≤ 4 * n) :
    (string maxsize).Within (4 + 4 * n) := by
  intro s bytes hs
  simp only [string] at hs
  split at hs
  · next hle =>
      cases hs
      have hdvd := dvd_add_fill s.bytes.length
      have hfill : s.bytes.length + fill s.bytes.length ≤ 4 * n := by
        unfold fill
        omega
      simp only [block, List.length_append, List.length_cons, List.length_nil,
        List.length_replicate]
      exact ⟨Nat.dvd_add (dvd_refl 4) hdvd, by omega⟩
  · cases hs

/-- The standard. -/
def Primitives.standard : Primitives where
  string := Xdr.string
  int := Xdr.int
  isSome_string := fun _ _ => isSome_encode_string
  within_string := fun _ _ => Xdr.within_string
  isSome_int := fun _ => rfl

end Xdr
