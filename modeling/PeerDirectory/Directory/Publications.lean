import PeerDirectory.Server.Connections

/-!
# Publications over whole histories

A file of a user is published by `register_file_from_user`, and withdrawn by
`unregister_file_from_user` or with its user by `unregister_user`. Over any
history of calls, `list_content` lists a file exactly when the latest of these
events that succeeded was a publication, with the description of that one.
-/

namespace PeerDirectory

namespace Directory

/-- The description under which the directory lists a file. -/
def published (d : Directory) (username file : Bytes) : Option Bytes :=
  (d username).bind fun e => e.files file

theorem published_set {d : Directory} {username file n : Bytes} {e : Option Entry} :
    (d.set n e).published username file =
      if username = n then e.bind fun e => e.files file else d.published username file := by
  unfold published set
  by_cases h : username = n
  · subst h
    simp
  · simp [h]

end Directory

/-- What the call means for a file of a user when it succeeds: the file is
published with a description, or withdrawn. -/
def Call.event (username file : Bytes) : Call → Option (Option Bytes)
  | .registerFileFromUser u f description =>
      if u = username ∧ f = file then some (some description) else none
  | .unregisterFileFromUser u f => if u = username ∧ f = file then some none else none
  | .unregisterUser u => if u = username then some none else none
  | _ => none

namespace Directory

/-- A call with this outcome has published or withdrawn the file as its event
says, or was refused and has changed nothing. -/
def Takes (d : Directory) (username file : Bytes) (event : Option (Option Bytes))
    (r : Directory × Answer) : Prop :=
  r.2.error = 0 ∧ r.1.published username file = event.getD (d.published username file) ∨
    r.2.error ≠ 0 ∧ r.1.published username file = d.published username file

variable {d : Directory} {username file : Bytes}

theorem takes_refused {error : Int} (h : error ≠ 0) (event : Option (Option Bytes)) :
    d.Takes username file event (d, .code error) :=
  Or.inr ⟨h, rfl⟩

/-- A call that succeeds without an event for the file keeps its entry of the
directory. -/
theorem takes_none {r : Directory × Answer} (h : r.2.error = 0)
    (hr : r.1.published username file = d.published username file) :
    d.Takes username file none r :=
  Or.inl ⟨h, hr⟩

/-- Replacing the files of a user. -/
theorem takes_set_files {n f : Bytes} {e : Entry} (he : d n = some e)
    (description : Option Bytes) :
    d.Takes username file (if n = username ∧ f = file then some description else none)
      (d.set n (some { e with files := Function.update e.files f description }), .code 0) := by
  refine Or.inl ⟨rfl, ?_⟩
  rw [published_set]
  by_cases h : username = n
  · subst h
    by_cases h' : file = f
    · subst h'
      simp
    · simp [h', Ne.symm h', published, he]
  · simp [h, Ne.symm h]

theorem takes_ifConnected {n : Bytes} {k : Entry → Directory × Answer}
    {event : Option (Option Bytes)}
    (hk : ∀ e, d n = some e → d.Takes username file event (k e)) :
    d.Takes username file event (d.ifConnected n k) := by
  unfold ifConnected
  cases hn : d n with
  | none => exact takes_refused (by decide) event
  | some e =>
      cases ha : e.address with
      | none =>
          simp only [ha]
          exact takes_refused (by decide) event
      | some address =>
          simp only [ha]
          exact hk e hn

/-- A call that succeeds publishes or withdraws the files it is about, and
nothing else changes what is published. -/
theorem takes_step (o : Outcomes) (d : Directory) (c : Call) (username file : Bytes) :
    d.Takes username file (c.event username file) (d.step o c) := by
  cases c with
  | registerUser n =>
      simp only [step, Call.event]
      cases hn : d n with
      | some e => exact takes_refused (by decide) _
      | none =>
          cases o.mallocNode with
          | none => exact takes_refused (by decide) _
          | some block =>
              refine takes_none rfl ?_
              rw [published_set]
              split
              · next h => simp [published, h, hn]
              · rfl
  | unregisterUser n =>
      simp only [step, Call.event]
      cases hn : d n with
      | none => exact takes_refused (by decide) _
      | some e =>
          refine Or.inl ⟨rfl, ?_⟩
          rw [published_set]
          by_cases h : username = n
          · simp [h]
          · rw [if_neg h, if_neg (Ne.symm h), Option.getD_none]
  | connectUser port n =>
      simp only [step, Call.event]
      cases hn : d n with
      | none => exact takes_refused (by decide) _
      | some e =>
          cases ha : e.address with
          | some address =>
              simp only [ha]
              exact takes_refused (by decide) _
          | none =>
              simp only [ha]
              cases o.getpeername with
              | none => exact takes_refused (by decide) _
              | some addr =>
                  refine takes_none rfl ?_
                  rw [published_set]
                  split
                  · next h => simp [published, h, hn]
                  · rfl
  | disconnectUser n =>
      refine takes_ifConnected fun e he => takes_none rfl ?_
      rw [published_set]
      split
      · next h => simp [published, h, he]
      · rfl
  | registerFileFromUser n f description =>
      refine takes_ifConnected fun e he => ?_
      cases hf : e.files f with
      | some description' => exact takes_refused (by decide) _
      | none =>
          cases o.mallocFile with
          | false => exact takes_refused (by decide) _
          | true => exact takes_set_files he (some description)
  | unregisterFileFromUser n f =>
      refine takes_ifConnected fun e he => ?_
      cases hf : e.files f with
      | none => exact takes_refused (by decide) _
      | some description => exact takes_set_files he none
  | listUsers n => exact takes_ifConnected fun e he => takes_none rfl rfl
  | listContent n n2 =>
      refine takes_ifConnected fun e he => ?_
      cases d n2 with
      | none => exact takes_refused (by decide) _
      | some target => exact takes_none rfl rfl

end Directory

/-! ## Histories -/

/-- One call of a history: the call and what it gives back. -/
def historyStep (st : ListState) (a : Outcomes × Call) :
    Option (ListState × (Call × Result)) :=
  (a.2.perform a.1 st).map fun r => (r.1, (a.2, r.2))

/-- The events of a history for a file that succeeded, in order. -/
def events (username file : Bytes) (history : List (Call × Result)) : List (Option Bytes) :=
  history.filterMap fun a => if a.2.error = 0 then a.1.event username file else none

/-- A successful publication of the file. -/
def Publishes (username file : Bytes) (a : Call × Result) : Prop :=
  a.2.error = 0 ∧ ∃ description, a.1 = .registerFileFromUser username file description

/-- A successful deletion of the file or of its user. -/
def Withdraws (username file : Bytes) (a : Call × Result) : Prop :=
  a.2.error = 0 ∧ (a.1 = .unregisterFileFromUser username file ∨ a.1 = .unregisterUser username)

variable {username file : Bytes}

theorem getLast?_events_cons (a : Call × Result) (history : List (Call × Result)) :
    (events username file (a :: history)).getLast? =
      (events username file history).getLast?.or
        (if a.2.error = 0 then a.1.event username file else none) := by
  rw [events, List.filterMap_cons]
  cases hevent : (if a.2.error = 0 then a.1.event username file else none) with
  | none => exact (Option.or_none ..).symm
  | some description =>
      rw [List.getLast?_cons, events]
      cases (history.filterMap _).getLast? <;> rfl

theorem withdraws_of_event {a : Call × Result} (h : a.2.error = 0)
    (hevent : a.1.event username file = some none) : Withdraws username file a := by
  refine ⟨h, ?_⟩
  generalize a.1 = c at hevent
  cases c with
  | unregisterFileFromUser u f =>
      left
      simp only [Call.event, ite_eq_left_iff, reduceCtorEq, imp_false, not_not] at hevent
      rw [hevent.1, hevent.2]
  | unregisterUser u =>
      right
      simp only [Call.event, ite_eq_left_iff, reduceCtorEq, imp_false, not_not] at hevent
      rw [hevent]
  | registerFileFromUser u f description =>
      simp only [Call.event] at hevent
      split at hevent <;> cases hevent
  | _ => cases hevent

/-- Without a withdrawal every event is a publication. -/
theorem ne_none_of_mem_events {history : List (Call × Result)} {description : Option Bytes}
    (hnot : ∀ a ∈ history, ¬ Withdraws username file a)
    (h : description ∈ events username file history) : description ≠ none := by
  rintro rfl
  obtain ⟨a, ha, hevent⟩ := List.mem_filterMap.mp h
  split at hevent
  · next herror => exact hnot a ha (withdraws_of_event herror hevent)
  · cases hevent

/-- The history says what the directory lists. -/
theorem published_history (username file : Bytes) {calls : List (Outcomes × Call)}
    (hfits : ∀ a ∈ calls, a.2.Fits) {s t : ListState} {history : List (Call × Result)}
    (hvalid : s.Valid) (hrun : Run.answers historyStep s calls = some (t, history)) :
    t.Valid ∧ (abstract t.messages).published username file =
      ((events username file history).getLast?).getD
        ((abstract s.messages).published username file) := by
  induction calls generalizing s history with
  | nil =>
      cases hrun
      exact ⟨hvalid, rfl⟩
  | cons a calls ih =>
      rw [Run.answers, Option.bind_eq_some_iff] at hrun
      obtain ⟨⟨s', e⟩, hstep, hrun⟩ := hrun
      obtain ⟨⟨t', rest⟩, hrest, heq⟩ := Option.map_eq_some_iff.mp hrun
      obtain ⟨rfl, rfl⟩ := Prod.mk.inj heq
      obtain ⟨⟨st, r⟩, hperform, heq⟩ := Option.map_eq_some_iff.mp hstep
      obtain ⟨rfl, rfl⟩ := Prod.mk.inj heq
      have ha : a.2.Fits := hfits a (by simp)
      have hvalid' := hvalid.perform ha hperform
      obtain ⟨hbody, -⟩ := Call.perform_eq_some hvalid.lazy hperform
      have href := Call.body_refines hvalid.unique ha hbody
      obtain ⟨ht, hpublished⟩ := ih (fun b hb => hfits b (by simp [hb])) hvalid' hrest
      refine ⟨ht, ?_⟩
      have htakes := Directory.takes_step a.1 (abstract s.messages) a.2 username file
      rw [Directory.Takes, ← href.answer.error_eq, ← href.directory] at htakes
      rw [hpublished, getLast?_events_cons]
      rcases htakes with ⟨hzero, hnow⟩ | ⟨hrefused, hnow⟩
      · rw [hnow, if_pos hzero]
        cases (events username file rest).getLast? <;> rfl
      · rw [hnow, if_neg hrefused, Option.or_none]

/-- A publication succeeds only where the file is not listed. -/
theorem published_of_publishes {s t : ListState} {a : Outcomes × Call} {e : Call × Result}
    (hvalid : s.Valid) (hfits : a.2.Fits) (hstep : historyStep s a = some (t, e))
    (he : Publishes username file e) : (abstract s.messages).published username file = none := by
  obtain ⟨⟨st, r⟩, hperform, heq⟩ := Option.map_eq_some_iff.mp hstep
  obtain ⟨rfl, rfl⟩ := Prod.mk.inj heq
  obtain ⟨hzero, description, hcall⟩ := he
  obtain ⟨hbody, -⟩ := Call.perform_eq_some hvalid.lazy hperform
  have href := Call.body_refines hvalid.unique hfits hbody
  rw [href.answer.error_eq] at hzero
  dsimp only at hcall
  rw [hcall] at hzero
  simp only [Directory.step, Directory.ifConnected] at hzero
  unfold Directory.published
  cases hu : abstract s.messages username with
  | none => rfl
  | some entry =>
      rw [hu] at hzero
      cases hf : entry.files file with
      | none => exact hf
      | some description' =>
          cases haddress : entry.address <;> simp [haddress, hf, Answer.error] at hzero

/-- Between two successful publications of a file there is a withdrawal. -/
theorem withdraws_between {calls : List (Outcomes × Call)} (hfits : ∀ a ∈ calls, a.2.Fits)
    {st : ListState} {before between after : List (Call × Result)} {a b : Call × Result}
    (hrun : Run.answers historyStep .empty calls =
      some (st, before ++ a :: (between ++ b :: after)))
    (ha : Publishes username file a) (hb : Publishes username file b) :
    ∃ c ∈ between, Withdraws username file c := by
  have hsplit : before ++ a :: (between ++ b :: after) =
      (before ++ a :: between) ++ b :: after := by simp
  rw [hsplit] at hrun
  obtain ⟨calls₁, b', calls₂, s₁, s₂, rfl, hrun₁, hstep, -⟩ :=
    Run.answers_eq_append_cons hrun
  obtain ⟨hvalid, hpublished⟩ := published_history username file
    (fun c hc => hfits c (by simp [hc])) ListState.valid_empty hrun₁
  rw [published_of_publishes hvalid (hfits b' (by simp)) hstep hb] at hpublished
  by_contra hnot
  push Not at hnot
  -- the latest event before `b` is the publication `a` or a later one
  have hevent : ∃ description, a.1.event username file = some (some description) := by
    obtain ⟨-, description, hcall⟩ := ha
    exact ⟨description, by simp [hcall, Call.event]⟩
  obtain ⟨description, hevent⟩ := hevent
  have hlast : ∃ d, (events username file (a :: between)).getLast? = some (some d) := by
    rw [getLast?_events_cons, if_pos ha.1, hevent]
    cases hrest : (events username file between).getLast? with
    | none => exact ⟨description, rfl⟩
    | some x =>
        have hx := ne_none_of_mem_events hnot (List.mem_of_getLast? hrest)
        obtain ⟨d, rfl⟩ := Option.ne_none_iff_exists'.mp hx
        exact ⟨d, rfl⟩
  obtain ⟨d, hlast⟩ := hlast
  rw [events, List.filterMap_append, List.getLast?_append, ← events, ← events, hlast]
    at hpublished
  cases hpublished

/-- After every run of calls, `list_content` shows a connected user the file of a
registered one with a description exactly when the latest successful event for
the file is its publication with that description; and between two successful
publications of the file there is a deletion of it or of its user. -/
theorem listed_iff_latest_publication {calls : List (Outcomes × Call)}
    (hfits : ∀ a ∈ calls, a.2.Fits) {st : ListState} {history : List (Call × Result)}
    (hrun : Run.answers historyStep .empty calls = some (st, history))
    (username file : Bytes) :
    (∀ (o : Outcomes) (requester : Bytes) (n target : Node), o.Allocated →
      KeyedList.lookup Node.name requester st.messages = some n → n.connected = true →
      KeyedList.lookup Node.name username st.messages = some target →
      ∃ chain, (Call.listContent requester username).perform o st = some (st, .content chain) ∧
        ∀ description, (file, description) ∈ chain.rows.map ContentFields.row ↔
          (events username file history).getLast? = some (some description)) ∧
    ∀ before between after a b, history = before ++ a :: (between ++ b :: after) →
      Publishes username file a → Publishes username file b →
        ∃ c ∈ between, Withdraws username file c := by
  constructor
  · intro o requester n target ho hn hconnected htarget
    obtain ⟨chain, hchain, -, hrows⟩ := listContent_of_lookup ho hn hconnected htarget
    refine ⟨chain, perform_listContent hchain, fun description => ?_⟩
    obtain ⟨hvalid, hpublished⟩ := published_history username file hfits
      ListState.valid_empty hrun
    have hfiles := hvalid.unique.files target (KeyedList.mem_of_lookup htarget)
    have hrow := (lists_contentRows hfiles).2 (file, description)
    have hentry : (abstract st.messages).published username file = target.entry.files file := by
      rw [Directory.published, abstract_eq_some htarget, Option.bind_some]
    rw [hrows, hrow, Set.mem_ofPred_eq, ← hentry, hpublished]
    cases (events username file history).getLast? <;> simp [Directory.published, abstract,
      ListState.empty]
  · rintro before between after a b rfl ha hb
    exact withdraws_between hfits hrun ha hb

/-- A file is published again after its user was unregistered. -/
theorem listed_iff_latest_publication_again :
    let o := Outcomes.success ⟨10, 0, 0, 1⟩
    let calls : List (Outcomes × Call) :=
      [(o, .registerUser [97]), (o, .connectUser [56, 48] [97]),
        (o, .registerFileFromUser [97] [102] [49]), (o, .registerFileFromUser [97] [102] [50]),
        (o, .unregisterUser [97]), (o, .registerUser [97]), (o, .connectUser [56, 48] [97]),
        (o, .registerFileFromUser [97] [102] [51])]
    ∃ st history, Run.answers historyStep .empty calls = some (st, history) ∧
      (∀ (o : Outcomes) (requester : Bytes) (n target : Node), o.Allocated →
        KeyedList.lookup Node.name requester st.messages = some n → n.connected = true →
        KeyedList.lookup Node.name [97] st.messages = some target →
        ∃ chain, (Call.listContent requester [97]).perform o st = some (st, .content chain) ∧
          ∀ description, ([102], description) ∈ chain.rows.map ContentFields.row ↔
            (events [97] [102] history).getLast? = some (some description)) ∧
      ∀ before between after a b, history = before ++ a :: (between ++ b :: after) →
        Publishes [97] [102] a → Publishes [97] [102] b →
          ∃ c ∈ between, Withdraws [97] [102] c := by
  intro o calls
  have hfits : ∀ a ∈ calls, a.2.Fits := by
    intro a ha
    simp only [calls, List.mem_cons, List.not_mem_nil, or_false] at ha
    rcases ha with rfl | rfl | rfl | rfl | rfl | rfl | rfl | rfl <;> decide
  have hsome : (Run.answers historyStep .empty calls).isSome := by decide +kernel
  obtain ⟨⟨st, history⟩, hrun⟩ := Option.isSome_iff_exists.mp hsome
  exact ⟨st, history, hrun, listed_iff_latest_publication hfits hrun [97] [102]⟩

end PeerDirectory
