import PeerDirectory.Lib.Run

/-!
# Machines that fall into parts

The state of a machine has a part for every key. Some actions have an owner, a key:
they change the part of their owner only, and what they answer depends on this part
only; the others change no part. Then a run cannot be told, at one part, from the run
of the actions this part owns: what the others do is not noticed.
-/

namespace Parts

variable {σ α ω κ β : Type*}

/-- The parts of a state, the owners of the actions, and what an action does to the part
of its owner. -/
structure Split (σ α ω κ β : Type*) where
  part : σ → κ → β
  owner : α → Option κ
  act : α → β → β × ω

/-- The machine falls into these parts, as long as `Inv` holds and the actions are
`Ok`. -/
structure Split.Splits (p : Split σ α ω κ β) (step : σ → α → Option (σ × ω)) (Inv : σ → Prop)
    (Ok : α → Prop) : Prop where
  keeps : ∀ s a s' o, Inv s → Ok a → step s a = some (s', o) → Inv s'
  own : ∀ s a s' o k, Inv s → Ok a → step s a = some (s', o) → p.owner a = some k →
    (p.part s' k, o) = p.act a (p.part s k)
  frame : ∀ s a s' o k, Inv s → Ok a → step s a = some (s', o) → p.owner a ≠ some k →
    p.part s' k = p.part s k

namespace Split

/-- A part alone, with the answers in order. -/
def alone (p : Split σ α ω κ β) : β → List α → β × List ω
  | b, [] => (b, [])
  | b, a :: as =>
      let r := p.act a b
      let q := alone p r.1 as
      (q.1, r.2 :: q.2)

variable [DecidableEq κ]

/-- The part of `k` owns the action. -/
def owned (p : Split σ α ω κ β) (k : κ) (a : α) : Bool :=
  p.owner a = some k

/-- The answers to the actions that the part of `k` owns. -/
def answersOf (p : Split σ α ω κ β) (k : κ) (as : List α) (os : List ω) : List ω :=
  ((as.zip os).filter fun e => p.owned k e.1).map Prod.snd

variable {p : Split σ α ω κ β} {step : σ → α → Option (σ × ω)} {Inv : σ → Prop} {Ok : α → Prop}

/-- Every part goes through a run as it does alone, on the actions it owns. -/
theorem Splits.answers (h : p.Splits step Inv Ok) {s t : σ} {as : List α} {os : List ω}
    (hs : Inv s) (hok : ∀ a ∈ as, Ok a) (hrun : Run.answers step s as = some (t, os)) (k : κ) :
    (p.part t k, p.answersOf k as os) = p.alone (p.part s k) (as.filter (p.owned k)) := by
  induction as generalizing s os with
  | nil =>
      cases hrun
      rfl
  | cons a as ih =>
      rw [Run.answers, Option.bind_eq_some_iff] at hrun
      obtain ⟨⟨s', o⟩, ha, hrun⟩ := hrun
      obtain ⟨⟨t', os⟩, has, heq⟩ := Option.map_eq_some_iff.mp hrun
      cases heq
      have hoka : Ok a := hok a List.mem_cons_self
      have hrest := ih (h.keeps s a s' o hs hoka ha)
        (fun b hb => hok b (List.mem_cons_of_mem a hb)) has
      obtain ⟨hpart, hanswers⟩ := Prod.mk.inj hrest
      by_cases hk : p.owner a = some k
      · have howned : p.owned k a = true := decide_eq_true hk
        obtain ⟨hown, hanswer⟩ := Prod.mk.inj (h.own s a s' o k hs hoka ha hk)
        rw [List.filter_cons_of_pos howned, alone, ← hown, ← hpart, ← hanswers, ← hanswer]
        simp [answersOf, howned]
      · have howned : p.owned k a = false := decide_eq_false hk
        have hframe := h.frame s a s' o k hs hoka ha hk
        rw [List.filter_cons_of_neg (by simp [howned]), ← hframe, ← hrest]
        simp [answersOf, howned]

theorem answersOf_of_owned {k : κ} {as : List α} {os : List ω} (hlength : os.length ≤ as.length)
    (has : ∀ a ∈ as, p.owned k a = true) : p.answersOf k as os = os := by
  have hall : (as.zip os).filter (fun e => p.owned k e.1) = as.zip os :=
    List.filter_eq_self.mpr fun e he => has e.1 (List.of_mem_zip he).1
  rw [answersOf, hall, List.map_snd_zip hlength]

/-- A run is, at one part, the run of the actions this part owns. -/
theorem Splits.purge (h : p.Splits step Inv Ok) {s t t' : σ} {as : List α} {os os' : List ω}
    (hs : Inv s) (hok : ∀ a ∈ as, Ok a) (hrun : Run.answers step s as = some (t, os)) (k : κ)
    (hrun' : Run.answers step s (as.filter (p.owned k)) = some (t', os')) :
    p.part t' k = p.part t k ∧ os' = p.answersOf k as os := by
  have howned : ∀ a ∈ as.filter (p.owned k), p.owned k a = true :=
    fun a ha => (List.mem_filter.mp ha).2
  have hwhole := h.answers hs hok hrun k
  have hown := h.answers hs (fun a ha => hok a (List.mem_filter.mp ha).1) hrun' k
  rw [List.filter_eq_self.mpr howned, ← hwhole,
    answersOf_of_owned (Run.length_answers hrun').le howned] at hown
  exact Prod.mk.inj hown

end Split

end Parts
