import Mathlib.Data.List.Nodup
import Mathlib.Tactic

/-!
# Linked lists searched by key

A singly linked list is searched for the first node that carries a given key.
`visit key k body notFound l` is that search loop: the body of the loop sees the
node it stops at and either rewrites it in place (`some`) or unlinks it
(`none`), and it returns a result; `notFound` is returned when the end is
reached. `lookup` is the read-only search. When no two nodes carry one key
(`NodupKeys`), the list is a finite map and both are determined by `lookup`.
-/

namespace KeyedList

variable {α κ β : Type*}

/-- No two nodes carry the same key. -/
def NodupKeys (key : α → κ) (l : List α) : Prop :=
  (l.map key).Nodup

@[simp] theorem nodupKeys_nil {key : α → κ} : NodupKeys key ([] : List α) := by
  simp [NodupKeys]

theorem nodupKeys_cons {key : α → κ} {a : α} {l : List α} :
    NodupKeys key (a :: l) ↔ key a ∉ l.map key ∧ NodupKeys key l := by
  simp [NodupKeys]

/-- The key of a node is not found behind it. -/
theorem NodupKeys.ne_of_mem_back {key : α → κ} {front back : List α} {a : α}
    (h : NodupKeys key (front ++ a :: back)) : ∀ b ∈ back, key b ≠ key a := by
  intro b hb heq
  rw [NodupKeys, List.map_append, List.map_cons] at h
  have hnot := (List.nodup_cons.mp (List.nodup_append.mp h).2.1).1
  exact hnot (heq ▸ List.mem_map_of_mem hb)

variable [DecidableEq κ] (key : α → κ)

/-- The first node with key `k`. -/
def lookup (k : κ) (l : List α) : Option α :=
  l.find? fun a => key a = k

/-- The search loop: the first node with key `k` is rewritten or unlinked as
`body` says, and the result of `body` is returned. -/
def visit (k : κ) (body : α → Option α × β) (notFound : β) : List α → List α × β
  | [] => ([], notFound)
  | current :: next =>
      if key current = k then
        ((body current).1.toList ++ next, (body current).2)
      else
        (current :: (visit k body notFound next).1, (visit k body notFound next).2)

variable {key}

@[simp] theorem lookup_nil (k : κ) : lookup key k ([] : List α) = none := rfl

theorem lookup_cons (k : κ) (a : α) (l : List α) :
    lookup key k (a :: l) = if key a = k then some a else lookup key k l := by
  by_cases h : key a = k <;> simp [lookup, h]

theorem lookup_append_of_ne {k : κ} {front : List α} (h : ∀ a ∈ front, key a ≠ k)
    (l : List α) : lookup key k (front ++ l) = lookup key k l := by
  rw [lookup, List.find?_append, List.find?_eq_none.mpr (by simpa using h), Option.none_or, lookup]

theorem key_of_lookup {k : κ} {l : List α} {a : α} (h : lookup key k l = some a) :
    key a = k := by
  have := List.find?_some h
  simpa using this

/-- The first match, and the nodes in front of it. -/
theorem exists_append_of_lookup {k : κ} {l : List α} {a : α} (h : lookup key k l = some a) :
    ∃ front back, l = front ++ a :: back ∧ (∀ b ∈ front, key b ≠ k) ∧ key a = k := by
  obtain ⟨ha, front, back, hl, hfront⟩ := List.find?_eq_some_iff_append.mp h
  exact ⟨front, back, hl, by simpa using hfront, by simpa using ha⟩

theorem mem_of_lookup {k : κ} {l : List α} {a : α} (h : lookup key k l = some a) :
    a ∈ l :=
  List.mem_of_find?_eq_some h

theorem lookup_eq_none_iff {k : κ} {l : List α} :
    lookup key k l = none ↔ k ∉ l.map key := by
  simp [lookup, List.find?_eq_none]

theorem lookup_eq_none_of_ne {k : κ} {l : List α} (h : ∀ a ∈ l, key a ≠ k) :
    lookup key k l = none := by
  rw [lookup_eq_none_iff, List.mem_map]
  rintro ⟨a, ha, hk⟩
  exact h a ha hk

theorem lookup_middle {k : κ} {front back : List α} {a : α} (h : ∀ b ∈ front, key b ≠ k)
    (ha : key a = k) : lookup key k (front ++ a :: back) = some a := by
  rw [lookup_append_of_ne h, lookup_cons, if_pos ha]

theorem filter_ne_eq_self {k : κ} {l : List α} (h : lookup key k l = none) :
    (l.filter fun a => key a ≠ k) = l := by
  refine List.filter_eq_self.mpr fun a ha => decide_eq_true fun heq => ?_
  exact lookup_eq_none_iff.mp h (heq ▸ List.mem_map_of_mem ha)

/-- With unique keys the first match is the only match. -/
theorem lookup_eq_some_iff {l : List α} (hl : NodupKeys key l) {k : κ} {a : α} :
    lookup key k l = some a ↔ a ∈ l ∧ key a = k := by
  constructor
  · intro h
    exact ⟨mem_of_lookup h, key_of_lookup h⟩
  · rintro ⟨ha, rfl⟩
    induction l with
    | nil => simp at ha
    | cons b l ih =>
        obtain ⟨hb, hl⟩ := nodupKeys_cons.mp hl
        rw [lookup_cons]
        rcases List.mem_cons.mp ha with rfl | ha
        · simp
        · have hne : key b ≠ key a := fun h => hb (h ▸ List.mem_map_of_mem ha)
          rw [if_neg hne, ih hl ha]

/-! ## The search loop -/

section Visit

variable {k : κ} {body : α → Option α × β} {notFound : β} {l : List α}

@[simp] theorem visit_nil :
    visit key k body notFound [] = ([], notFound) := rfl

theorem visit_cons_of_eq {a : α} (h : key a = k) :
    visit key k body notFound (a :: l) =
      ((body a).1.toList ++ l, (body a).2) := by
  rw [visit, if_pos h]

theorem visit_cons_of_ne {a : α} (h : key a ≠ k) :
    visit key k body notFound (a :: l) =
      (a :: (visit key k body notFound l).1, (visit key k body notFound l).2) := by
  rw [visit, if_neg h]

/-- Nodes with other keys in front are passed over. -/
theorem visit_append_of_ne {front : List α} (h : ∀ a ∈ front, key a ≠ k) :
    visit key k body notFound (front ++ l) =
      (front ++ (visit key k body notFound l).1, (visit key k body notFound l).2) := by
  induction front with
  | nil => rfl
  | cons a front ih =>
      rw [List.cons_append, visit_cons_of_ne (h a (by simp)), ih fun b hb => h b (by simp [hb])]
      rfl

theorem visit_middle {front : List α} {a : α} (h : ∀ b ∈ front, key b ≠ k) (ha : key a = k) :
    visit key k body notFound (front ++ a :: l) =
      (front ++ ((body a).1.toList ++ l), (body a).2) := by
  rw [visit_append_of_ne h, visit_cons_of_eq ha]

theorem visit_of_lookup_eq_none (h : lookup key k l = none) :
    visit key k body notFound l = (l, notFound) := by
  induction l with
  | nil => rfl
  | cons a l ih =>
      rw [lookup_cons] at h
      by_cases ha : key a = k
      · simp [ha] at h
      · rw [if_neg ha] at h
        rw [visit_cons_of_ne ha, ih h]

/-- The result of the loop is the one of its body at the first match. -/
theorem visit_snd_of_lookup_eq_some {a : α} (h : lookup key k l = some a) :
    (visit key k body notFound l).2 = (body a).2 := by
  induction l with
  | nil => simp at h
  | cons b l ih =>
      rw [lookup_cons] at h
      by_cases hb : key b = k
      · rw [if_pos hb, Option.some.injEq] at h
        rw [visit_cons_of_eq hb, h]
      · rw [if_neg hb] at h
        rw [visit_cons_of_ne hb, ih h]

/-- The list is left as it was exactly when the body leaves the first match as
it was. -/
theorem visit_fst_eq_self_iff :
    (visit key k body notFound l).1 = l ↔
      ∀ a, lookup key k l = some a → (body a).1 = some a := by
  induction l with
  | nil => simp
  | cons b l ih =>
      by_cases hb : key b = k
      · rw [visit_cons_of_eq hb]
        simp only [lookup_cons, if_pos hb, Option.some.injEq, forall_eq']
        cases h : (body b).1 with
        | none =>
            simp
        | some c => simp
      · rw [visit_cons_of_ne hb]
        simp only [lookup_cons, if_neg hb, List.cons.injEq, true_and]
        exact ih

/-- A body that keeps the key of a node it rewrites. -/
def KeepsKey (key : α → κ) (body : α → Option α × β) : Prop :=
  ∀ a b, (body a).1 = some b → key b = key a

/-- The keys after the loop are among the keys before it. -/
theorem map_key_visit_sublist (hb : KeepsKey key body) :
    ((visit key k body notFound l).1.map key).Sublist (l.map key) := by
  induction l with
  | nil => simp
  | cons a l ih =>
      by_cases ha : key a = k
      · rw [visit_cons_of_eq ha]
        cases h : (body a).1 with
        | none => simp
        | some b => simp [hb a b h]
      · rw [visit_cons_of_ne ha]
        simpa using ih

theorem NodupKeys.visit (hl : NodupKeys key l) (hb : KeepsKey key body) :
    NodupKeys key (visit key k body notFound l).1 :=
  List.Nodup.sublist (map_key_visit_sublist hb) hl

/-- The loop does not touch what is found under another key. -/
theorem lookup_visit_of_ne (hb : KeepsKey key body) {k' : κ} (hk : k' ≠ k) :
    lookup key k' (visit key k body notFound l).1 = lookup key k' l := by
  induction l with
  | nil => rfl
  | cons a l ih =>
      by_cases ha : key a = k
      · have hne : key a ≠ k' := fun h => hk (h.symm.trans ha)
        rw [visit_cons_of_eq ha, lookup_cons, if_neg hne]
        cases h : (body a).1 with
        | none => simp
        | some b =>
            have hb' : key b ≠ k' := by rw [hb a b h]; exact hne
            simp [lookup_cons, hb']
      · rw [visit_cons_of_ne ha, lookup_cons, lookup_cons, ih]

/-- With unique keys, the key of the loop maps afterwards to what the body left
there. -/
theorem lookup_visit_self (hl : NodupKeys key l) (hb : KeepsKey key body) :
    lookup key k (visit key k body notFound l).1 =
      (lookup key k l).bind fun a => (body a).1 := by
  induction l with
  | nil => rfl
  | cons a l ih =>
      obtain ⟨ha', hl⟩ := nodupKeys_cons.mp hl
      by_cases ha : key a = k
      · have hnone : lookup key k l = none := by
          rw [lookup_eq_none_iff, ← ha]
          exact ha'
        rw [visit_cons_of_eq ha, lookup_cons, if_pos ha, Option.bind_some]
        cases h : (body a).1 with
        | none => simpa using hnone
        | some b =>
            have hb' : key b = k := by rw [hb a b h, ha]
            simp [lookup_cons, hb']
      · rw [visit_cons_of_ne ha, lookup_cons, if_neg ha, lookup_cons, if_neg ha,
          ih hl]

/-- With unique keys, all that the loop sees of a list is the first match. -/
theorem visit_of_lookup_eq {l' : List α} (hl : NodupKeys key l) (hl' : NodupKeys key l')
    (hb : KeepsKey key body) (h : lookup key k l' = lookup key k l) :
    lookup key k (visit key k body notFound l').1 = lookup key k (visit key k body notFound l).1 ∧
      (visit key k body notFound l').2 = (visit key k body notFound l).2 := by
  constructor
  · rw [lookup_visit_self hl hb, lookup_visit_self hl' hb, h]
  · cases hfound : lookup key k l with
    | none =>
        rw [visit_of_lookup_eq_none hfound, visit_of_lookup_eq_none (h.trans hfound)]
    | some a =>
        rw [visit_snd_of_lookup_eq_some hfound, visit_snd_of_lookup_eq_some (h.trans hfound)]

/-- Every node after the loop was there before, or is the one the body wrote. -/
theorem mem_visit {b : α} (h : b ∈ (visit key k body notFound l).1) :
    b ∈ l ∨ ∃ a ∈ l, key a = k ∧ (body a).1 = some b := by
  induction l with
  | nil => simp at h
  | cons a l ih =>
      by_cases ha : key a = k
      · rw [visit_cons_of_eq ha] at h
        rcases List.mem_append.mp h with h | h
        · right
          exact ⟨a, by simp, ha, by simpa using h⟩
        · left
          simp [h]
      · rw [visit_cons_of_ne ha] at h
        rcases List.mem_cons.mp h with rfl | h
        · simp
        · rcases ih h with h | ⟨c, hc, hck, hcb⟩
          · simp [h]
          · exact Or.inr ⟨c, by simp [hc], hck, hcb⟩

/-- A measure that the body increases by one at most is so increased by the loop. -/
theorem sum_visit_le {size : α → ℕ} (hb : ∀ a b, (body a).1 = some b → size b ≤ size a + 1) :
    ((visit key k body notFound l).1.map size).sum ≤ (l.map size).sum + 1 := by
  induction l with
  | nil => simp
  | cons a l ih =>
      by_cases ha : key a = k
      · rw [visit_cons_of_eq ha]
        cases h : (body a).1 with
        | none =>
            simp only [Option.toList_none, List.nil_append, List.map_cons, List.sum_cons]
            omega
        | some b =>
            have hle := hb a b h
            simp only [Option.toList_some, List.singleton_append, List.map_cons, List.sum_cons]
            omega
      · rw [visit_cons_of_ne ha]
        simp only [List.map_cons, List.sum_cons]
        omega

/-- What holds of all nodes and is kept by the body holds of all nodes after the
loop. -/
theorem forall_mem_visit {P : α → Prop} (hl : ∀ a ∈ l, P a)
    (hbody : ∀ a b, P a → (body a).1 = some b → P b) :
    ∀ b ∈ (visit key k body notFound l).1, P b := by
  intro b hb
  rcases mem_visit hb with hb | ⟨a, ha, -, hab⟩
  · exact hl b hb
  · exact hbody a b (hl a ha) hab

/-- A loop for one key answers the same after a loop for another key. -/
theorem visit_snd_visit {body' : α → Option α × β} {notFound' : β} (hb : KeepsKey key body)
    {k' : κ} (hk : k' ≠ k) :
    (visit key k' body' notFound' (visit key k body notFound l).1).2 =
      (visit key k' body' notFound' l).2 := by
  have hlookup : lookup key k' (visit key k body notFound l).1 = lookup key k' l :=
    lookup_visit_of_ne hb hk
  cases h : lookup key k' l with
  | none =>
      rw [h] at hlookup
      rw [visit_of_lookup_eq_none h, visit_of_lookup_eq_none hlookup]
  | some a =>
      rw [h] at hlookup
      rw [visit_snd_of_lookup_eq_some h, visit_snd_of_lookup_eq_some hlookup]

/-- Loops for different keys commute, whichever nodes they unlink. -/
theorem visit_fst_comm {body' : α → Option α × β} {notFound' : β} (hb : KeepsKey key body)
    (hb' : KeepsKey key body') {k' : κ} (hk : k' ≠ k) :
    (visit key k' body' notFound' (visit key k body notFound l).1).1 =
      (visit key k body notFound (visit key k' body' notFound' l).1).1 := by
  -- a node the loop for `c` has kept is passed over by the loop for another key
  have hskip : ∀ {body : α → Option α × β} {body' : α → Option α × β} {notFound' : β}
      {a : α} {c c' : κ} {l : List α}, KeepsKey key body → key a = c → c' ≠ c →
      (visit key c' body' notFound' ((body a).1.toList ++ l)).1 =
        (body a).1.toList ++ (visit key c' body' notFound' l).1 := by
    intro body body' notFound' a c c' l hb ha hc
    rw [visit_append_of_ne]
    intro b hab
    rw [hb a b (Option.mem_toList.mp hab), ha]
    exact hc.symm
  induction l with
  | nil => rfl
  | cons a l ih =>
      by_cases ha : key a = k
      · have ha' : key a ≠ k' := by
          rw [ha]
          exact hk.symm
        rw [visit_cons_of_eq ha, visit_cons_of_ne ha', visit_cons_of_eq ha]
        exact hskip hb ha hk
      · by_cases ha' : key a = k'
        · rw [visit_cons_of_ne ha, visit_cons_of_eq ha', visit_cons_of_eq ha']
          exact (hskip hb' ha' hk.symm).symm
        · rw [visit_cons_of_ne ha, visit_cons_of_ne ha', visit_cons_of_ne ha',
            visit_cons_of_ne ha, ih]

/-- With unique keys, a loop that rewrites the node it stops at rewrites the nodes with
its key. -/
theorem visit_fst_eq_map {f : α → α} (hl : NodupKeys key l) (hbody : ∀ a, (body a).1 = some (f a)) :
    (visit key k body notFound l).1 = l.map fun a => if key a = k then f a else a := by
  induction l with
  | nil => rfl
  | cons a l ih =>
      obtain ⟨ha', hl⟩ := nodupKeys_cons.mp hl
      by_cases ha : key a = k
      · have hrest : l.map (fun b => if key b = k then f b else b) = l := by
          refine (List.map_congr_left fun b hb => ?_).trans l.map_id
          refine if_neg fun hb' => ha' ?_
          rw [ha, ← hb']
          exact List.mem_map_of_mem hb
        rw [visit_cons_of_eq ha, hbody, List.map_cons, if_pos ha, hrest]
        rfl
      · rw [visit_cons_of_ne ha, List.map_cons, if_neg ha, ih hl]

/-- With unique keys, a loop that unlinks the first match leaves the nodes with other
keys. -/
theorem visit_fst_of_unlinks {a : α} (hl : NodupKeys key l) (h : lookup key k l = some a)
    (hbody : (body a).1 = none) :
    (visit key k body notFound l).1 = l.filter fun b => key b ≠ k := by
  obtain ⟨front, back, rfl, hfront, ha⟩ := exists_append_of_lookup h
  have hback := hl.ne_of_mem_back
  have hkeep : ∀ m : List α, (∀ b ∈ m, key b ≠ k) → m.filter (fun b => key b ≠ k) = m :=
    fun m hm => List.filter_eq_self.mpr fun b hb => decide_eq_true (hm b hb)
  rw [visit_middle hfront ha, hbody, List.filter_append,
    List.filter_cons_of_neg (by simpa using ha), hkeep front hfront, hkeep back (ha ▸ hback)]
  rfl

/-- With unique keys, a loop that rewrites the first match leaves the other nodes as they
are. -/
theorem visit_fst_of_rewrites {a b : α} (hl : NodupKeys key l) (h : lookup key k l = some a)
    (hbody : (body a).1 = some b) :
    (visit key k body notFound l).1 = l.map fun c => if key c = k then b else c := by
  obtain ⟨front, back, rfl, hfront, ha⟩ := exists_append_of_lookup h
  have hback := hl.ne_of_mem_back
  have hkeep : ∀ m : List α, (∀ c ∈ m, key c ≠ k) →
      (m.map fun c => if key c = k then b else c) = m := by
    intro m hm
    exact (List.map_congr_left fun c hc => if_neg (hm c hc)).trans m.map_id
  rw [visit_middle hfront ha, hbody, List.map_append, List.map_cons, if_pos ha,
    hkeep front hfront, hkeep back (ha ▸ hback)]
  rfl

/-- A loop over images whose body does to them what another one does to the nodes. -/
theorem visit_map {γ : Type*} {f : α → γ} {key' : γ → κ} {body' : γ → Option γ × β}
    (hkey : ∀ a, key' (f a) = key a)
    (hbody : ∀ a, body' (f a) = ((body a).1.map f, (body a).2)) :
    visit key' k body' notFound (l.map f) =
      ((visit key k body notFound l).1.map f, (visit key k body notFound l).2) := by
  induction l with
  | nil => rfl
  | cons a l ih =>
      rw [List.map_cons]
      by_cases ha : key a = k
      · rw [visit_cons_of_eq ha, visit_cons_of_eq ((hkey a).trans ha), hbody]
        cases (body a).1 <;> rfl
      · have ha' : key' (f a) ≠ k := fun h => ha ((hkey a).symm.trans h)
        rw [visit_cons_of_ne ha, visit_cons_of_ne ha', ih]
        rfl

theorem lookup_map {γ : Type*} {f : α → γ} {key' : γ → κ} (hkey : ∀ a, key' (f a) = key a) :
    lookup key' k (l.map f) = (lookup key k l).map f := by
  rw [lookup, lookup, List.find?_map]
  simp only [Function.comp_def, hkey]

end Visit

/-- Lists with the same keys in the same order, where the same nodes are found. -/
theorem eq_of_lookup_eq {l l' : List α} (hl : NodupKeys key l) (hkeys : l.map key = l'.map key)
    (hlookup : ∀ k, lookup key k l = lookup key k l') : l = l' := by
  have hl' : NodupKeys key l' := by
    rw [NodupKeys, ← hkeys]
    exact hl
  have hlength : l.length = l'.length := by
    simpa using congrArg List.length hkeys
  refine List.ext_getElem hlength fun i hi hi' => ?_
  have hkey : key l[i] = key l'[i] := by
    simpa [hi, hi'] using congrArg (fun keys => keys[i]?) hkeys
  have hfound := (lookup_eq_some_iff hl).mpr ⟨List.getElem_mem hi, hkey⟩
  rw [hlookup, (lookup_eq_some_iff hl').mpr ⟨List.getElem_mem hi', rfl⟩] at hfound
  exact (Option.some.inj hfound).symm

end KeyedList
