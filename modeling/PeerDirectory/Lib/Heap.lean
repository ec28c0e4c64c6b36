import Mathlib.Data.Finmap
import Mathlib.Tactic

/-!
# Linked lists in a heap

A heap is a finite map from addresses to cells. An allocation gives an address
that is not live or fails, and a write or a `free` needs a live address.
`Contents m cells` lists what is live, so that writes, allocations and frees are
edits of a list; `Segment` says that the elements of a list hang together by
their links. The loops follow the links with a bound on their turns, and fail
when it is reached or an address cannot be read.
-/

namespace Heap

variable {A α : Type*}

/-! ## Chains of links -/

section Segment

variable {β : Type*} (addr : β → A) (next : β → Option A)

/-- The links lead from the pointer `p` through the elements of the list to `q`. -/
def Segment : Option A → List β → Option A → Prop
  | p, [], q => p = q
  | p, b :: bs, q => p = some (addr b) ∧ Segment (next b) bs q

variable {addr next} {p q : Option A} {b b' c c' : β} {l l₁ l₂ : List β}

@[simp] theorem segment_nil : Segment addr next p [] q ↔ p = q := Iff.rfl

theorem segment_cons :
    Segment addr next p (b :: l) q ↔ p = some (addr b) ∧ Segment addr next (next b) l q := Iff.rfl

theorem segment_append :
    Segment addr next p (l₁ ++ l₂) q ↔
      ∃ r, Segment addr next p l₁ r ∧ Segment addr next r l₂ q := by
  induction l₁ generalizing p with
  | nil => simp
  | cons b l₁ ih =>
      rw [List.cons_append, segment_cons, ih]
      simp only [segment_cons, and_assoc, exists_and_left]

/-- An element with the same address and the same link takes the place of
another. -/
theorem Segment.replace (h : Segment addr next p (l₁ ++ b :: l₂) q) (haddr : addr b' = addr b)
    (hnext : next b' = next b) : Segment addr next p (l₁ ++ b' :: l₂) q := by
  obtain ⟨r, h₁, hr, h₂⟩ := segment_append.mp h
  exact segment_append.mpr ⟨r, h₁, haddr ▸ hr, hnext ▸ h₂⟩

/-- An element is left out by the one in front of it. -/
theorem Segment.unlink (h : Segment addr next p (l₁ ++ c :: b :: l₂) q) (haddr : addr c' = addr c)
    (hnext : next c' = next b) : Segment addr next p (l₁ ++ c' :: l₂) q := by
  obtain ⟨r, h₁, hr, -, h₂⟩ := segment_append.mp h
  exact segment_append.mpr ⟨r, h₁, haddr ▸ hr, hnext ▸ h₂⟩

/-- What holds of the address the chain starts with and is handed on along the links
holds of all its addresses. -/
theorem Segment.forall_of_next {P : A → Prop} (h : Segment addr next p l q)
    (hp : ∀ a, p = some a → P a) (hnext : ∀ b ∈ l, P (addr b) → ∀ a, next b = some a → P a) :
    ∀ b ∈ l, P (addr b) := by
  induction l generalizing p with
  | nil => simp
  | cons b l ih =>
      obtain ⟨rfl, hrest⟩ := segment_cons.mp h
      have hb : P (addr b) := hp (addr b) rfl
      exact List.forall_mem_cons.mpr ⟨hb, ih hrest (hnext b (by simp) hb)
        fun c hc => hnext c (List.mem_cons_of_mem b hc)⟩

/-- The first pointer of a whole chain leads to an element. -/
theorem Segment.exists_of_start {a : A} (h : Segment addr next p l none) (hp : p = some a) :
    ∃ b ∈ l, addr b = a := by
  cases l with
  | nil => cases (segment_nil.mp h).symm.trans hp
  | cons b l => exact ⟨b, by simp, Option.some.inj ((segment_cons.mp h).1.symm.trans hp)⟩

/-- So does the link of an element. -/
theorem Segment.exists_of_next {a : A} (h : Segment addr next p l none) (hb : b ∈ l)
    (hnext : next b = some a) : ∃ c ∈ l, addr c = a := by
  obtain ⟨l₁, l₂, rfl⟩ := List.append_of_mem hb
  obtain ⟨r, -, -, hrest⟩ := segment_append.mp h
  obtain ⟨c, hc, ha⟩ := hrest.exists_of_start hnext
  exact ⟨c, List.mem_append_right _ (List.mem_cons_of_mem b hc), ha⟩

end Segment

/-! ## Searches -/

section Search

variable {γ : Type*} (read : A → Option γ) (next : γ → Option A) (found : γ → Bool)

/-- The loop that stops at the first cell that is `found`. -/
def search : ℕ → Option A → Option (Option A)
  | 0, _ => none
  | _ + 1, none => some none
  | turns + 1, some current =>
      (read current).bind fun x =>
        if found x then some (some current) else search turns (next x)

/-- The same loop, which also keeps the address it comes from. -/
def searchPrevious : ℕ → Option A → Option A → Option (Option (Option A × A))
  | 0, _, _ => none
  | _ + 1, _, none => some none
  | turns + 1, previous, some current =>
      (read current).bind fun x =>
        if found x then some (some (previous, current))
        else searchPrevious turns (some current) (next x)

variable {β : Type*} {addr : β → A} {val : β → γ} {read next} {p : Option A} {l : List β}
  {turns : ℕ}

/-- The search ends at the first element that is found, with the address of the
element in front, or at the end. -/
theorem searchPrevious_cases (previous : Option A)
    (hseg : Segment addr (fun b => next (val b)) p l none)
    (hread : ∀ b ∈ l, read (addr b) = some (val b)) (hturns : l.length < turns) :
    (searchPrevious read next found turns previous p = some none ∧
        ∀ b ∈ l, found (val b) = false) ∨
      ∃ l₁ b l₂, l = l₁ ++ b :: l₂ ∧ (∀ c ∈ l₁, found (val c) = false) ∧ found (val b) = true ∧
        searchPrevious read next found turns previous p =
          some (some ((l₁.getLast?.map addr).or previous, addr b)) := by
  induction l generalizing p previous turns with
  | nil =>
      obtain rfl := segment_nil.mp hseg
      obtain ⟨turns, rfl⟩ := Nat.exists_eq_add_one.mpr hturns
      exact Or.inl ⟨rfl, by simp⟩
  | cons b l ih =>
      obtain ⟨rfl, hrest⟩ := segment_cons.mp hseg
      obtain ⟨turns, rfl⟩ := Nat.exists_eq_add_one.mpr (Nat.zero_lt_of_lt hturns)
      have hb : read (addr b) = some (val b) := hread b (by simp)
      cases hfound : found (val b) with
      | true =>
          refine Or.inr ⟨[], b, l, rfl, by simp, hfound, ?_⟩
          rw [searchPrevious, hb, Option.bind_some, if_pos hfound]
          rfl
      | false =>
          have hstep : searchPrevious read next found (turns + 1) previous (some (addr b)) =
              searchPrevious read next found turns (some (addr b)) (next (val b)) := by
            rw [searchPrevious, hb, Option.bind_some, hfound]
            rfl
          rw [hstep]
          rcases ih (some (addr b)) hrest (fun c hc => hread c (List.mem_cons_of_mem b hc))
            (by simpa using hturns) with ⟨hnone, hall⟩ | ⟨l₁, c, l₂, rfl, hall, hc, hsome⟩
          · exact Or.inl ⟨hnone, List.forall_mem_cons.mpr ⟨hfound, hall⟩⟩
          · refine Or.inr ⟨b :: l₁, c, l₂, rfl, List.forall_mem_cons.mpr ⟨hfound, hall⟩, hc, ?_⟩
            rw [hsome]
            cases h : l₁.getLast? with
            | none => simp [List.getLast?_cons, h]
            | some d => simp [List.getLast?_cons, h]

/-- The plain search forgets the address in front. -/
theorem search_eq_map (turns : ℕ) (previous p : Option A) :
    search read next found turns p =
      (searchPrevious read next found turns previous p).map fun r => r.map Prod.snd := by
  induction turns generalizing previous p with
  | zero => rfl
  | succ turns ih =>
      cases p with
      | none => rfl
      | some current =>
          rw [search, searchPrevious]
          cases read current with
          | none => rfl
          | some x =>
              rw [Option.bind_some, Option.bind_some]
              split
              · rfl
              · exact ih (some current) (next x)

theorem search_cases (hseg : Segment addr (fun b => next (val b)) p l none)
    (hread : ∀ b ∈ l, read (addr b) = some (val b)) (hturns : l.length < turns) :
    (search read next found turns p = some none ∧ ∀ b ∈ l, found (val b) = false) ∨
      ∃ l₁ b l₂, l = l₁ ++ b :: l₂ ∧ (∀ c ∈ l₁, found (val c) = false) ∧ found (val b) = true ∧
        search read next found turns p = some (some (addr b)) := by
  rw [search_eq_map found turns none p]
  rcases searchPrevious_cases found none hseg hread hturns with
    ⟨hnone, hall⟩ | ⟨l₁, b, l₂, rfl, hall, hb, hsome⟩
  · exact Or.inl ⟨by rw [hnone]; rfl, hall⟩
  · exact Or.inr ⟨l₁, b, l₂, rfl, hall, hb, by rw [hsome]; rfl⟩

end Search

/-! ## Cells -/

/-- The live cells with their addresses. -/
abbrev Mem (A α : Type*) := Finmap fun _ : A => α

/-- How an allocation ends, as a function of the heap it is made in. -/
structure Malloc (A α : Type*) where
  alloc : Mem A α → Option A
  fresh : ∀ m a, alloc m = some a → a ∉ m

/-- An allocator that always has an address left. -/
def Malloc.above : Malloc ℕ α where
  alloc m := some (m.keys.sup id + 1)
  fresh := by
    intro m a halloc hmem
    cases halloc
    exact absurd (Finset.le_sup (f := id) (Finmap.mem_keys.mpr hmem)) (Nat.not_succ_le_self _)

theorem nodup_middle {front back : List (A × α)} {a : A} {x : α} :
    ((front ++ (a, x) :: back).map Prod.fst).Nodup ↔
      a ∉ (front ++ back).map Prod.fst ∧ ((front ++ back).map Prod.fst).Nodup := by
  rw [List.map_append, List.map_cons, List.nodup_middle, List.nodup_cons, List.map_append]

variable [DecidableEq A]

/-- A write to a live cell. -/
def store (m : Mem A α) (a : A) (x : α) : Option (Mem A α) :=
  if (m.lookup a).isSome then some (m.insert a x) else none

/-- A live cell is given back. -/
def free (m : Mem A α) (a : A) : Option (Mem A α) :=
  if (m.lookup a).isSome then some (m.erase a) else none

/-- A cell is written again. -/
@[simp] theorem store_insert (m : Mem A α) (a : A) (x y : α) :
    store (m.insert a x) a y = some (m.insert a y) := by
  simp [store]

/-- The live cells are the ones of the list, each with its address. -/
structure Contents (m : Mem A α) (cells : List (A × α)) : Prop where
  nodup : (cells.map Prod.fst).Nodup
  lookup : ∀ a x, m.lookup a = some x ↔ (a, x) ∈ cells

section Contents

variable {m : Mem A α} {cells front back : List (A × α)} {a : A} {x y : α}

theorem contents_empty : Contents (∅ : Mem A α) [] where
  nodup := List.nodup_nil
  lookup := by simp

/-- Where no cell is live the heap is empty. -/
theorem Contents.eq_empty (h : Contents m []) : m = ∅ :=
  Finmap.ext_lookup fun a => Option.ext fun x => by simp [h.lookup]

theorem Contents.mem_iff (h : Contents m cells) : a ∈ m ↔ a ∈ cells.map Prod.fst := by
  rw [Finmap.mem_iff, List.mem_map]
  constructor
  · rintro ⟨x, hx⟩
    exact ⟨(a, x), (h.lookup a x).mp hx, rfl⟩
  · rintro ⟨⟨b, x⟩, hx, rfl⟩
    exact ⟨x, (h.lookup b x).mpr hx⟩

theorem Contents.insert (h : Contents m (front ++ back)) (ha : a ∉ m) :
    Contents (m.insert a x) (front ++ (a, x) :: back) where
  nodup := nodup_middle.mpr ⟨fun hmem => ha (h.mem_iff.mpr hmem), h.nodup⟩
  lookup := by
    intro b y
    by_cases hb : b = a
    · subst hb
      rw [Finmap.lookup_insert]
      constructor
      · intro hy
        simp [Option.some.inj hy]
      · intro hy
        have hmem : (b, y) ∉ front ++ back := fun hmem =>
          ha (h.mem_iff.mpr (List.mem_map.mpr ⟨(b, y), hmem, rfl⟩))
        simp only [List.mem_append, List.mem_cons, not_or, Prod.mk.injEq, true_and] at hmem hy
        rcases hy with hy | hy | hy
        · exact absurd hy hmem.1
        · rw [hy]
        · exact absurd hy hmem.2
    · rw [Finmap.lookup_insert_of_ne _ hb, h.lookup]
      simp [hb]

theorem Contents.cons (h : Contents m cells) (ha : a ∉ m) :
    Contents (m.insert a x) ((a, x) :: cells) := by
  have h' : Contents m ([] ++ cells) := h
  exact h'.insert ha

theorem Contents.erase (h : Contents m (front ++ (a, x) :: back)) :
    Contents (m.erase a) (front ++ back) where
  nodup := (nodup_middle.mp h.nodup).2
  lookup := by
    intro b y
    have hnot := (nodup_middle.mp h.nodup).1
    by_cases hb : b = a
    · subst hb
      rw [Finmap.lookup_erase]
      refine iff_of_false (by simp) fun hmem => hnot (List.mem_map.mpr ⟨(b, y), hmem, rfl⟩)
    · rw [Finmap.lookup_erase_ne hb, h.lookup]
      simp [hb]

theorem Contents.lookup_middle (h : Contents m (front ++ (a, x) :: back)) :
    m.lookup a = some x :=
  (h.lookup a x).mpr (by simp)

theorem Contents.store (h : Contents m (front ++ (a, x) :: back)) (y : α) :
    ∃ m', store m a y = some m' ∧ Contents m' (front ++ (a, y) :: back) := by
  refine ⟨m.insert a y, by simp [Heap.store, h.lookup_middle], ?_⟩
  have herase : (m.erase a).insert a y = m.insert a y := by
    refine Finmap.ext_lookup fun b => ?_
    by_cases hb : b = a
    · rw [hb, Finmap.lookup_insert, Finmap.lookup_insert]
    · rw [Finmap.lookup_insert_of_ne _ hb, Finmap.lookup_insert_of_ne _ hb,
        Finmap.lookup_erase_ne hb]
  rw [← herase]
  exact h.erase.insert Finmap.notMem_erase_self

theorem Contents.free (h : Contents m (front ++ (a, x) :: back)) :
    ∃ m', free m a = some m' ∧ Contents m' (front ++ back) :=
  ⟨m.erase a, by simp [Heap.free, h.lookup_middle], h.erase⟩

end Contents

section FreeChain

variable {γ β : Type*} (next : γ → Option A)

/-- The loop that frees a chain of cells. -/
def freeChain (view : α → Option γ) : ℕ → Mem A α → Option A → Option (Mem A α)
  | 0, _, _ => none
  | _ + 1, m, none => some m
  | turns + 1, m, some current =>
      ((m.lookup current).bind view).bind fun x =>
        (free m current).bind fun m' => freeChain view turns m' (next x)

variable {next} {addr : β → A} {val : β → γ} {p : Option A} {l : List β} {turns : ℕ}

/-- A whole chain is freed, and nothing else. -/
theorem freeChain_eq (view : α → Option γ) (cell : β → α) {m : Mem A α}
    {front back : List (A × α)} (hseg : Segment addr (fun b => next (val b)) p l none)
    (hview : ∀ b ∈ l, view (cell b) = some (val b))
    (h : Contents m (front ++ (l.map (fun b => (addr b, cell b)) ++ back)))
    (hturns : l.length < turns) :
    ∃ m', freeChain next view turns m p = some m' ∧ Contents m' (front ++ back) := by
  induction l generalizing p m turns with
  | nil =>
      obtain rfl := segment_nil.mp hseg
      obtain ⟨turns, rfl⟩ := Nat.exists_eq_add_one.mpr hturns
      exact ⟨m, rfl, h⟩
  | cons b l ih =>
      obtain ⟨rfl, hrest⟩ := segment_cons.mp hseg
      obtain ⟨turns, rfl⟩ := Nat.exists_eq_add_one.mpr (Nat.zero_lt_of_lt hturns)
      rw [List.map_cons, List.cons_append] at h
      obtain ⟨m₁, hfree, h₁⟩ := h.free
      obtain ⟨m₂, hchain, h₂⟩ := ih hrest (fun c hc => hview c (List.mem_cons_of_mem b hc)) h₁
        (by simpa using hturns)
      refine ⟨m₂, ?_, h₂⟩
      rw [freeChain, h.lookup_middle, Option.bind_some, hview b (by simp), Option.bind_some,
        hfree, Option.bind_some, hchain]

end FreeChain

end Heap
