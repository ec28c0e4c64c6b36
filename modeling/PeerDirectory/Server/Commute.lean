import PeerDirectory.Server.Connections

/-!
# Operations on different users commute

Five of the six operations that change the list are one search loop for their
user, and `register_user` puts a node in front. Loops for different users touch
different nodes, so two operations on different users give the same codes in
both orders and leave the same list; only the nodes of two registrations end up
in the order in which they came.
-/

namespace PeerDirectory

/-- The user an operation is about. -/
def Call.username : Call → Bytes
  | .registerUser username => username
  | .unregisterUser username => username
  | .connectUser _ username => username
  | .disconnectUser username => username
  | .registerFileFromUser username _ _ => username
  | .unregisterFileFromUser username _ => username
  | .listUsers username => username
  | .listContent username _ => username

variable {o oa ob : Outcomes} {a b c : Call} {messages : List Node}

/-- The critical section is one search loop. -/
def Call.IsVisit (o : Outcomes) (c : Call) : Prop :=
  ∃ body, KeyedList.KeepsKey Node.name body ∧ ∀ messages, c.body o messages =
    some ((KeyedList.visit Node.name c.username body 1 messages).1,
      .code (KeyedList.visit Node.name c.username body 1 messages).2)

theorem Call.isVisit_or_register (o : Outcomes) (hc : c.initialises = true) :
    c.IsVisit o ∨ ∃ username, c = .registerUser username := by
  cases c with
  | registerUser username => exact Or.inr ⟨username, rfl⟩
  | unregisterUser username => exact Or.inl ⟨_, keepsKey_unregisterUser, fun _ => rfl⟩
  | connectUser port username =>
      exact Or.inl ⟨_, keepsKey_connectNode o.getpeername port, fun _ => rfl⟩
  | disconnectUser username => exact Or.inl ⟨_, keepsKey_disconnectNode, fun _ => rfl⟩
  | registerFileFromUser username file description =>
      exact Or.inl ⟨_, keepsKey_registerFileNode o.mallocFile file description, fun _ => rfl⟩
  | unregisterFileFromUser username file =>
      exact Or.inl ⟨_, keepsKey_unregisterFileNode file, fun _ => rfl⟩
  | listUsers username => cases hc
  | listContent username username2 => cases hc

/-! ## Registrations -/

/-- What a registration adds in front of the list, and its code: they depend only
on whether the name is there. -/
theorem registerUser_adds {username : Bytes} (hfits : FitsField username)
    (malloc : Option Node) (messages : List Node) :
    ∃ added error, (∀ n ∈ added, n.name = username) ∧
      (added = [] ∨ error = 0 ∧ ∃ n, added = [n]) ∧
      ∀ messages', KeyedList.lookup Node.name username messages' =
          KeyedList.lookup Node.name username messages →
        registerUser malloc username messages' = (added ++ messages', error) := by
  cases h : KeyedList.lookup Node.name username messages with
  | some n =>
      refine ⟨[], 1, by simp, Or.inl rfl, fun messages' h' => ?_⟩
      simp only [registerUser, h', List.nil_append]
  | none =>
      cases malloc with
      | none =>
          refine ⟨[], -1, by simp, Or.inl rfl, fun messages' h' => ?_⟩
          simp only [registerUser, h', List.nil_append]
      | some block =>
          set newNode : Node :=
            { block with
              username := CharArray.strncpy maxValueLength username
              ip := block.ip.set 0 0
              port := block.port.set 0 0
              listFiles := [] } with hnew
          have hname : newNode.name = username := hfits.str_strncpy
          refine ⟨[newNode], 0, by simpa using hname, Or.inr ⟨rfl, newNode, rfl⟩,
            fun messages' h' => ?_⟩
          simp only [registerUser, h', List.singleton_append, hnew]

/-! ## Two operations -/

/-- The lists two registrations leave when they succeed in one order and in the
other. -/
def Swapped (a b : Call) (messages m m' : List Node) (ra rb : Result) : Prop :=
  ∃ u v na nb, a = .registerUser u ∧ b = .registerUser v ∧ ra = .code 0 ∧ rb = .code 0 ∧
    m = nb :: na :: messages ∧ m' = na :: nb :: messages

/-- The critical sections of two operations commute on a list. -/
def BodiesCommute (oa ob : Outcomes) (a b : Call) (messages : List Node) : Prop :=
  ∃ m₁ m₂ m₁' m₂' ra rb, a.body oa messages = some (m₁, ra) ∧ b.body ob m₁ = some (m₂, rb) ∧
    b.body ob messages = some (m₁', rb) ∧ a.body oa m₁' = some (m₂', ra) ∧
    (m₂ = m₂' ∨ Swapped a b messages m₂ m₂' ra rb)

theorem BodiesCommute.symm (h : BodiesCommute oa ob a b messages) :
    BodiesCommute ob oa b a messages := by
  obtain ⟨m₁, m₂, m₁', m₂', ra, rb, ha, hb, hb', ha', hm⟩ := h
  refine ⟨m₁', m₂', m₁, m₂, rb, ra, hb', ha', ha, hb, ?_⟩
  rcases hm with hm | ⟨u, v, na, nb, hu, hv, hra, hrb, hm, hm'⟩
  · exact Or.inl hm.symm
  · exact Or.inr ⟨v, u, nb, na, hv, hu, hrb, hra, hm', hm⟩

theorem bodiesCommute_visit_visit (ha : a.IsVisit oa) (hb : b.IsVisit ob)
    (hne : a.username ≠ b.username) : BodiesCommute oa ob a b messages := by
  obtain ⟨body, hkeeps, hbody⟩ := ha
  obtain ⟨body', hkeeps', hbody'⟩ := hb
  refine ⟨_, _, (KeyedList.visit Node.name b.username body' 1 messages).1, _, _, _, hbody _,
    hbody' _, ?_, ?_, Or.inl (KeyedList.visit_fst_comm hkeeps hkeeps' hne.symm)⟩
  · rw [hbody', KeyedList.visit_snd_visit hkeeps hne.symm]
  · rw [hbody, KeyedList.visit_snd_visit hkeeps' hne]

theorem bodiesCommute_register_visit {username : Bytes} (hfits : FitsField username)
    (hb : b.IsVisit ob) (hne : username ≠ b.username) :
    BodiesCommute oa ob (.registerUser username) b messages := by
  obtain ⟨body, hkeeps, hbody⟩ := hb
  obtain ⟨added, error, hnames, -, hregister⟩ :=
    registerUser_adds hfits oa.mallocNode messages
  have hpass : ∀ n ∈ added, n.name ≠ b.username := by
    intro n hn
    rw [hnames n hn]
    exact hne
  have hvisit : ∀ l, KeyedList.visit Node.name b.username body 1 (added ++ l) =
      (added ++ (KeyedList.visit Node.name b.username body 1 l).1,
        (KeyedList.visit Node.name b.username body 1 l).2) :=
    fun _ => KeyedList.visit_append_of_ne hpass
  refine ⟨added ++ messages, _, (KeyedList.visit Node.name b.username body 1 messages).1, _,
    .code error, _, ?_, hbody _, ?_, ?_, Or.inl rfl⟩
  · rw [Call.body, hregister messages rfl]
  · rw [hbody, hvisit]
  · rw [Call.body, hregister _ (KeyedList.lookup_visit_of_ne hkeeps hne), hvisit]

theorem bodiesCommute_register_register {u v : Bytes} (hu : FitsField u) (hv : FitsField v)
    (hne : u ≠ v) : BodiesCommute oa ob (.registerUser u) (.registerUser v) messages := by
  obtain ⟨addedA, errorA, hnamesA, hcasesA, hregisterA⟩ :=
    registerUser_adds hu oa.mallocNode messages
  obtain ⟨addedB, errorB, hnamesB, hcasesB, hregisterB⟩ :=
    registerUser_adds hv ob.mallocNode messages
  have hpassA : ∀ n ∈ addedA, n.name ≠ v := fun n hn => by
    rw [hnamesA n hn]
    exact hne
  have hpassB : ∀ n ∈ addedB, n.name ≠ u := fun n hn => by
    rw [hnamesB n hn]
    exact hne.symm
  refine ⟨addedA ++ messages, addedB ++ (addedA ++ messages), addedB ++ messages,
    addedA ++ (addedB ++ messages), .code errorA, .code errorB, ?_, ?_, ?_, ?_, ?_⟩
  · rw [Call.body, hregisterA messages rfl]
  · rw [Call.body, hregisterB _ (KeyedList.lookup_append_of_ne hpassA messages)]
  · rw [Call.body, hregisterB messages rfl]
  · rw [Call.body, hregisterA _ (KeyedList.lookup_append_of_ne hpassB messages)]
  · rcases hcasesA with rfl | ⟨rfl, na, rfl⟩
    · exact Or.inl rfl
    · rcases hcasesB with rfl | ⟨rfl, nb, rfl⟩
      · exact Or.inl rfl
      · exact Or.inr ⟨u, v, na, nb, rfl, rfl, rfl, rfl, rfl, rfl⟩

theorem bodiesCommute (ha : a.initialises = true) (hb : b.initialises = true) (hfa : a.Fits)
    (hfb : b.Fits) (hne : a.username ≠ b.username) : BodiesCommute oa ob a b messages := by
  rcases Call.isVisit_or_register oa ha with hva | ⟨u, rfl⟩
  · rcases Call.isVisit_or_register ob hb with hvb | ⟨v, rfl⟩
    · exact bodiesCommute_visit_visit hva hvb hne
    · exact (bodiesCommute_register_visit (hfb v (by simp [Call.args])) hva hne.symm).symm
  · have hu : FitsField u := hfa u (by simp [Call.args])
    rcases Call.isVisit_or_register ob hb with hvb | ⟨v, rfl⟩
    · exact bodiesCommute_register_visit hu hvb hne
    · exact bodiesCommute_register_register hu (hfb v (by simp [Call.args])) hne

/-- An operation that tests `inited_list` is its critical section. -/
theorem Call.perform_of_initialises {st : ListState} (hlazy : st.Lazy)
    (hc : c.initialises = true) :
    c.perform o st = (c.body o st.messages).map fun r => (⟨true, r.1⟩, r.2) := by
  cases hinit : st.initedList with
  | true => simp [Call.perform, hc, hinit]
  | false =>
      simp [Call.perform, hc, hinit, hlazy.messages_initList]

/-- Two operations on different users that change the list, run in both orders
from a reachable store: each gives the same result, and the final store is the
same but for the order of the nodes of two successful registrations. -/
theorem calls_commute {st : ListState} (hst : st.Reachable) {oa ob : Outcomes} {a b : Call}
    (ha : a.initialises = true) (hb : b.initialises = true) (hfa : a.Fits) (hfb : b.Fits)
    (hne : a.username ≠ b.username) :
    ∃ st₁ st₂ st₁' st₂' ra rb, a.perform oa st = some (st₁, ra) ∧
      b.perform ob st₁ = some (st₂, rb) ∧ b.perform ob st = some (st₁', rb) ∧
      a.perform oa st₁' = some (st₂', ra) ∧
      (st₂ = st₂' ∨ Swapped a b st.messages st₂.messages st₂'.messages ra rb) := by
  have hlazy := (ListState.valid_of_reachable hst).lazy
  have hinited : ∀ messages, (ListState.mk true messages).Lazy := fun _ h => by cases h
  have hbodies : BodiesCommute oa ob a b st.messages := bodiesCommute ha hb hfa hfb hne
  obtain ⟨m₁, m₂, m₁', m₂', ra, rb, hra, hrb, hrb', hra', hm⟩ := hbodies
  refine ⟨⟨true, m₁⟩, ⟨true, m₂⟩, ⟨true, m₁'⟩, ⟨true, m₂'⟩, ra, rb, ?_, ?_, ?_, ?_, ?_⟩
  · rw [Call.perform_of_initialises hlazy ha, hra, Option.map_some]
  · rw [Call.perform_of_initialises (hinited m₁) hb, hrb, Option.map_some]
  · rw [Call.perform_of_initialises hlazy hb, hrb', Option.map_some]
  · rw [Call.perform_of_initialises (hinited m₁') ha, hra', Option.map_some]
  · exact hm.imp_left fun h => by rw [h]

/-- The user at the head of the list is unregistered and another one publishes a
file. -/
theorem calls_commute_unregister_publish :
    let o := Outcomes.success ⟨10, 0, 0, 1⟩
    let a := Call.unregisterUser [98]
    let b := Call.registerFileFromUser [97] [102] [100]
    ∃ st : ListState, st.Reachable ∧ ∃ st₁ st₂ st₁' st₂' ra rb, a.perform o st = some (st₁, ra) ∧
      b.perform o st₁ = some (st₂, rb) ∧ b.perform o st = some (st₁', rb) ∧
      a.perform o st₁' = some (st₂', ra) ∧
      (st₂ = st₂' ∨ Swapped a b st.messages st₂.messages st₂'.messages ra rb) := by
  intro o a b
  set calls : List (Outcomes × Call) :=
    [(o, .registerUser [97]), (o, .connectUser [56, 48] [97]), (o, .registerUser [98])] with hcalls
  have hfits : ∀ c ∈ calls, c.2.Fits := by
    intro c hc
    simp only [hcalls, List.mem_cons, List.not_mem_nil, or_false] at hc
    rcases hc with rfl | rfl | rfl <;> decide
  have hsome : (Run.answers callStep .empty calls).isSome := by decide +kernel
  obtain ⟨⟨st, log⟩, hrun⟩ := Option.isSome_iff_exists.mp hsome
  have hst : st.Reachable := ⟨calls, log, hfits, hrun⟩
  exact ⟨st, hst, calls_commute hst rfl rfl (by decide) (by decide) (by decide)⟩

end PeerDirectory
