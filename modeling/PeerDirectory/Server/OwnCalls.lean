import PeerDirectory.Lib.Parts
import PeerDirectory.Server.Commute
import PeerDirectory.Server.LazyInit

/-!
# The calls about one user

The six calls that can change the list look for one user, and read and write the node
of this user only. So the store falls into the nodes of its users: along every run a
user gets the answers, and keeps the address and the files, that it would have if all
calls about the others were left out.
-/

namespace PeerDirectory

/-- What the call does to its user, if the list holds nobody else. -/
def Call.alone (o : Outcomes) (c : Call) (user : Option Node) : Option Node × Result :=
  match c.body o user.toList with
  | some (messages, r) => (KeyedList.lookup Node.name c.username messages, r)
  | none => (user, .code 0)

/-- The store as the nodes of its users. A call that can change the list belongs to
the user it is about. -/
def ownCalls : Parts.Split ListState (Outcomes × Call) Result Bytes (Option Node) where
  part := fun st username => KeyedList.lookup Node.name username st.messages
  owner := fun a => if a.2.initialises then some a.2.username else none
  act := fun a user => a.2.alone a.1 user

variable {o : Outcomes} {c : Call} {messages messages' : List Node} {r : Result}

theorem lookup_toList {username : Bytes} {user : Option Node}
    (h : ∀ n ∈ user, n.name = username) :
    KeyedList.lookup Node.name username user.toList = user := by
  cases user with
  | none => rfl
  | some n => rw [Option.toList_some, KeyedList.lookup_cons, if_pos (h n rfl)]

theorem nodupKeys_toList (user : Option Node) : KeyedList.NodupKeys Node.name user.toList := by
  cases user with
  | none => exact List.nodup_nil
  | some n => exact List.nodup_singleton _

/-- The node of its user is all that a call sees of the list. -/
theorem Call.body_eq_alone (hunique : KeyedList.NodupKeys Node.name messages) (hfits : c.Fits)
    (hc : c.initialises = true) (h : c.body o messages = some (messages', r)) :
    (KeyedList.lookup Node.name c.username messages', r) =
      c.alone o (KeyedList.lookup Node.name c.username messages) := by
  set user := KeyedList.lookup Node.name c.username messages with huser
  have hlookup : KeyedList.lookup Node.name c.username user.toList =
      KeyedList.lookup Node.name c.username messages :=
    lookup_toList fun n hn => KeyedList.key_of_lookup (huser ▸ hn)
  rcases c.isVisit_or_register o hc with ⟨body, hkeeps, hbody⟩ | ⟨username, rfl⟩
  · rw [hbody] at h
    cases h
    obtain ⟨hnode, hcode⟩ :=
      @KeyedList.visit_of_lookup_eq _ _ _ _ _ _ body 1 _ _ hunique (nodupKeys_toList user) hkeeps
        hlookup
    simp only [Call.alone, hbody, hnode, hcode]
  · obtain ⟨added, error, hnames, -, hadds⟩ :=
      registerUser_adds (hfits username List.mem_cons_self) o.mallocNode messages
    have hadds' := hadds user.toList hlookup
    rw [Call.body, hadds messages rfl] at h
    cases h
    have hsame : KeyedList.lookup Node.name username (added ++ user.toList) =
        KeyedList.lookup Node.name username (added ++ messages) := by
      cases added with
      | nil => exact hlookup
      | cons n added =>
          have hname := hnames n List.mem_cons_self
          rw [List.cons_append, List.cons_append, KeyedList.lookup_cons, KeyedList.lookup_cons,
            if_pos hname, if_pos hname]
    simp only [Call.alone, Call.body, hadds', Call.username, hsame]

/-- The node of another user is left as it was. -/
theorem Call.lookup_body_of_ne (hfits : c.Fits) {username : Bytes}
    (hne : (if c.initialises then some c.username else none) ≠ some username)
    (h : c.body o messages = some (messages', r)) :
    KeyedList.lookup Node.name username messages' =
      KeyedList.lookup Node.name username messages := by
  cases hc : c.initialises with
  | false => rw [Call.body_of_not_initialises hc h]
  | true =>
      have hother : username ≠ c.username := fun heq => hne (by rw [hc, if_pos rfl, heq])
      rcases c.isVisit_or_register o hc with ⟨body, hkeeps, hbody⟩ | ⟨name, rfl⟩
      · rw [hbody] at h
        cases h
        exact KeyedList.lookup_visit_of_ne hkeeps hother
      · obtain ⟨added, error, hnames, -, hadds⟩ :=
          registerUser_adds (hfits name List.mem_cons_self) o.mallocNode messages
        rw [Call.body, hadds messages rfl] at h
        cases h
        have hpass : ∀ n ∈ added, n.name ≠ username := fun n hn heq =>
          hother (heq.symm.trans (hnames n hn))
        exact KeyedList.lookup_append_of_ne hpass messages

/-- The store falls into the nodes of its users. -/
theorem splits_ownCalls :
    ownCalls.Splits performStep ListState.Valid fun a => a.2.Fits where
  keeps := fun st a st' r hvalid hfits hstep => hvalid.perform hfits hstep
  own := by
    intro st a st' r username hvalid hfits hstep howner
    have hbody := (Call.perform_eq_some hvalid.lazy hstep).1
    cases hc : a.2.initialises with
    | false => simp [ownCalls, hc] at howner
    | true =>
        obtain rfl : a.2.username = username := by simpa [ownCalls, hc] using howner
        exact Call.body_eq_alone hvalid.unique.users hfits hc hbody
  frame := fun st a st' r username hvalid hfits hstep howner =>
    Call.lookup_body_of_ne hfits howner (Call.perform_eq_some hvalid.lazy hstep).1

/-- Calls that can change the list always come back. -/
theorem answers_isSome_of_initialises {st : ListState} (hvalid : st.Valid)
    {calls : List (Outcomes × Call)} (hfits : ∀ a ∈ calls, a.2.Fits)
    (hcalls : ∀ a ∈ calls, a.2.initialises = true) :
    (Run.answers performStep st calls).isSome := by
  induction calls generalizing st with
  | nil => rfl
  | cons a calls ih =>
      have hsome : (performStep st a).isSome := by
        rw [performStep, Call.perform_of_initialises hvalid.lazy (hcalls a List.mem_cons_self),
          Option.isSome_map]
        rcases a.2.isVisit_or_register a.1 (hcalls a List.mem_cons_self) with
          ⟨body, -, hbody⟩ | ⟨username, hregister⟩
        · rw [hbody]
          rfl
        · rw [hregister]
          rfl
      obtain ⟨⟨st', r⟩, hstep⟩ := Option.isSome_iff_exists.mp hsome
      rw [Run.answers_cons hstep, Option.isSome_map]
      exact ih (hvalid.perform (hfits a List.mem_cons_self) hstep)
        (fun b hb => hfits b (List.mem_cons_of_mem a hb))
        fun b hb => hcalls b (List.mem_cons_of_mem a hb)

/-- After every run of calls a user has the node, and has been given the answers, that
the run of the calls about this user alone gives: the calls about other users, and all
listings, are not noticed. -/
theorem own_calls_alone {calls : List (Outcomes × Call)} (hfits : ∀ a ∈ calls, a.2.Fits)
    {st : ListState} {results : List Result}
    (hrun : Run.answers performStep .empty calls = some (st, results)) (username : Bytes) :
    ∃ st', Run.answers performStep .empty
        (calls.filter fun a => a.2.initialises && a.2.username = username) =
          some (st', ((calls.zip results).filter fun e =>
            e.1.2.initialises && e.1.2.username = username).map Prod.snd) ∧
      KeyedList.lookup Node.name username st'.messages =
        KeyedList.lookup Node.name username st.messages := by
  have howned : ∀ a : Outcomes × Call,
      ownCalls.owned username a = (a.2.initialises && a.2.username = username) := by
    intro a
    cases hc : a.2.initialises <;> simp [Parts.Split.owned, ownCalls, hc]
  have hfilter : (fun a : Outcomes × Call => a.2.initialises && a.2.username = username) =
      ownCalls.owned username := funext fun a => (howned a).symm
  have hsome : (Run.answers performStep .empty
      (calls.filter (ownCalls.owned username))).isSome := by
    refine answers_isSome_of_initialises ListState.valid_empty
      (fun a ha => hfits a (List.mem_filter.mp ha).1) fun a ha => ?_
    have := (List.mem_filter.mp ha).2
    rw [howned] at this
    exact (Bool.and_eq_true_iff.mp this).1
  obtain ⟨⟨st', results'⟩, hrun'⟩ := Option.isSome_iff_exists.mp hsome
  obtain ⟨hnode, hresults⟩ :=
    splits_ownCalls.purge ListState.valid_empty hfits hrun username hrun'
  refine ⟨st', ?_, hnode⟩
  rw [hfilter, hrun', hresults, Parts.Split.answersOf]
  simp only [howned]

/-- The calls about `a` among those about `b`: the last one finds the name taken. -/
theorem own_calls_alone_among :
    let calls : List (Outcomes × Call) :=
      [.registerUser [97], .registerUser [98], .connectUser [49] [98], .connectUser [50] [97],
        .listUsers [98], .registerUser [97]].map fun c => (Outcomes.success ⟨10, 0, 0, 1⟩, c)
    ∃ st results st', Run.answers performStep .empty calls = some (st, results) ∧
      Run.answers performStep .empty
        (calls.filter fun a => a.2.initialises && a.2.username = [97]) =
          some (st', [.code 0, .code 0, .code 1]) ∧
      KeyedList.lookup Node.name [97] st'.messages =
        KeyedList.lookup Node.name [97] st.messages := by
  intro calls
  have hfits : ∀ a ∈ calls, a.2.Fits := by decide
  have hend : (Run.answers performStep .empty calls).map (fun q =>
      ((calls.zip q.2).filter fun e => e.1.2.initialises && e.1.2.username = [97]).map Prod.snd) =
        some [.code 0, .code 0, .code 1] := by
    decide +kernel
  obtain ⟨⟨st, results⟩, hrun, hresults⟩ := Option.map_eq_some_iff.mp hend
  obtain ⟨st', hrun', hnode⟩ := own_calls_alone hfits hrun [97]
  rw [hresults] at hrun'
  exact ⟨st, results, st', hrun, hrun', hnode⟩

end PeerDirectory
