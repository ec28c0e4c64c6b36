import PeerDirectory.Directory.Views
import PeerDirectory.Server.StoredStrings

/-!
# What calls can tell apart

Two stores that the program can reach answer all sequences of calls alike exactly
when they have the same view. One direction is the refinement of the view. For the
other one, three calls are asked: `disconnect_user` shows whether a user is
registered and connected; after all users have been connected, `list_users` shows
the users in their order with the addresses that were there before, and
`list_content` their files.
-/

namespace PeerDirectory

/-! ## Runs of calls -/

/-- The answers to a list of calls, as the callers see them. -/
def ListState.answers (st : ListState) (calls : List (Outcomes × Call)) :
    Option (List ViewAnswer) :=
  (Run.answers callStep st calls).map fun r => r.2.map fun called => called.result.answer

/-- A call with strings that fit, for which the response nodes are allocated. -/
def Asked (a : Outcomes × Call) : Prop :=
  a.1.Allocated ∧ a.2.Fits

namespace View

/-- A list of calls on a view. -/
def run (vs : List UserView) : List (Outcomes × Call) → List UserView × List ViewAnswer
  | [] => (vs, [])
  | a :: calls =>
      let r := step a.1 vs a.2
      let q := run r.1 calls
      (q.1, r.2 :: q.2)

theorem run_append_singleton (vs : List UserView) (calls : List (Outcomes × Call))
    (a : Outcomes × Call) :
    (run vs (calls ++ [a])).2 =
      (run vs calls).2 ++ [(step a.1 (run vs calls).1 a.2).2] := by
  induction calls generalizing vs with
  | nil => rfl
  | cons b calls ih =>
      simp only [List.cons_append, run]
      rw [ih]

end View

/-- The answers of the store are those of its view. -/
theorem ListState.answers_eq {st : ListState} (hst : st.Lazy) {calls : List (Outcomes × Call)}
    (hasked : ∀ a ∈ calls, Asked a) :
    st.answers calls = some (View.run (view st.messages) calls).2 := by
  induction calls generalizing st with
  | nil => rfl
  | cons a calls ih =>
      obtain ⟨halloc, hfits⟩ := hasked a (by simp)
      obtain ⟨⟨st', r⟩, hperform⟩ := Option.isSome_iff_exists.mp (Call.perform_isSome halloc a.2 st)
      obtain ⟨hbody, hst'⟩ := Call.perform_eq_some hst hperform
      have hstep : callStep st a = some (st', ⟨st.messages, r, st'.messages⟩) := by
        rw [callStep, hperform]
        rfl
      have hrest := ih hst' fun b hb => hasked b (by simp [hb])
      rw [answers] at hrest ⊢
      obtain ⟨q, hq, hanswers⟩ := Option.map_eq_some_iff.mp hrest
      rw [Run.answers_cons hstep, hq, Option.map_some, Option.map_some, List.map_cons, hanswers,
        View.run, Call.body_view hfits hbody]

/-! ## The calls that are asked -/

/-- The address that users get who are not connected. -/
def here : InAddr := ⟨127, 0, 0, 1⟩

/-- The user after it has been connected, unless it was. -/
def UserView.filled (v : UserView) : UserView :=
  { v with address := some (v.address.getD (inetNtoa here, [])) }

@[simp] theorem UserView.filled_filled (v : UserView) : v.filled.filled = v.filled := rfl

@[simp] theorem UserView.isSome_address_filled (v : UserView) :
    v.filled.address.isSome = true := rfl

/-- All these users are connected. -/
def connectCalls (usernames : List Bytes) : List (Outcomes × Call) :=
  usernames.map fun username => (.success here, .connectUser [] username)

theorem asked_connectCalls {usernames : List Bytes} (h : ∀ u ∈ usernames, FitsField u) :
    ∀ a ∈ connectCalls usernames, Asked a := by
  intro a ha
  obtain ⟨u, hu, rfl⟩ := List.mem_map.mp ha
  refine ⟨Outcomes.allocated_success here, fun s hs => ?_⟩
  rcases List.mem_pair.mp hs with rfl | rfl
  · exact ⟨by simp, by simp [maxValueLength]⟩
  · exact h _ hu

namespace View

variable {vs : List UserView}

theorem step_connectUser (hvs : KeyedList.NodupKeys UserView.name vs) (username : Bytes) :
    (step (.success here) vs (.connectUser [] username)).1 =
      vs.map fun v => if v.name = username then v.filled else v := by
  rw [step]
  refine KeyedList.visit_fst_eq_map hvs fun v => ?_
  cases hv : v.address with
  | none => simp [UserView.filled, hv, Outcomes.success]
  | some address =>
      have hfilled : v.filled = v := by
        cases v
        cases hv
        rfl
      simp [hfilled]

/-- Connecting users fills in what is missing. -/
theorem run_connectCalls (hvs : KeyedList.NodupKeys UserView.name vs) (usernames : List Bytes) :
    (run vs (connectCalls usernames)).1 =
      vs.map fun v => if v.name ∈ usernames then v.filled else v := by
  induction usernames generalizing vs with
  | nil => simp [connectCalls, run]
  | cons username usernames ih =>
      have hname : ∀ v : UserView, (if v.name = username then v.filled else v).name = v.name := by
        intro v
        split <;> rfl
      have hkeys : (vs.map fun v => if v.name = username then v.filled else v).map UserView.name =
          vs.map UserView.name := by
        rw [List.map_map]
        exact List.map_congr_left fun v _ => hname v
      have hvs' : KeyedList.NodupKeys UserView.name
          (vs.map fun v => if v.name = username then v.filled else v) := by
        rw [KeyedList.NodupKeys, hkeys]
        exact hvs
      have hrun : (run vs (connectCalls (username :: usernames))).1 =
          (run (step (.success here) vs (.connectUser [] username)).1
            (connectCalls usernames)).1 := rfl
      rw [hrun, step_connectUser hvs, ih hvs', List.map_map]
      refine List.map_congr_left fun v _ => ?_
      simp only [Function.comp_apply, hname, List.mem_cons]
      by_cases hu : v.name = username <;> by_cases hus : v.name ∈ usernames <;>
        simp [hu, hus]

theorem run_connectCalls_all (hvs : KeyedList.NodupKeys UserView.name vs) {usernames : List Bytes}
    (hall : ∀ v ∈ vs, v.name ∈ usernames) :
    (run vs (connectCalls usernames)).1 = vs.map UserView.filled := by
  rw [run_connectCalls hvs]
  exact List.map_congr_left fun v hv => if_pos (hall v hv)

theorem lookup_filled (username : Bytes) :
    KeyedList.lookup UserView.name username (vs.map UserView.filled) =
      (KeyedList.lookup UserView.name username vs).map UserView.filled :=
  KeyedList.lookup_map fun _ => rfl

/-- Whether the user is registered and connected is seen from `disconnect_user`. -/
theorem step_disconnectUser (o : Outcomes) (username : Bytes) :
    (step o vs (.disconnectUser username)).2 =
      .code (match KeyedList.lookup UserView.name username vs with
        | none => 1
        | some v => if v.address.isSome then 0 else 2) := by
  cases h : KeyedList.lookup UserView.name username vs with
  | none => rw [step, KeyedList.visit_of_lookup_eq_none h]
  | some v =>
      simp only [step, KeyedList.visit_snd_of_lookup_eq_some h, ifConnected]
      split <;> rfl

/-- The users in their order, with their addresses, from `list_users`. -/
theorem step_listUsers_filled (o : Outcomes) {username : Bytes} {v : UserView}
    (hv : KeyedList.lookup UserView.name username vs = some v) :
    (step o (vs.map UserView.filled) (.listUsers username)).2 =
      .users (vs.map fun v => (v.name, v.address.getD (inetNtoa here, []))) := by
  simp only [step, lookup_filled, hv, Option.map_some, UserView.isSome_address_filled, if_true]
  rw [List.filterMap_map]
  refine congrArg ViewAnswer.users ?_
  exact congrFun List.filterMap_eq_map vs

/-- The files of a user from `list_content`. -/
theorem step_listContent_filled (o : Outcomes) {username : Bytes} {v : UserView}
    (hv : KeyedList.lookup UserView.name username vs = some v) :
    (step o (vs.map UserView.filled) (.listContent username username)).2 = .content v.files := by
  simp only [step, lookup_filled, hv, Option.map_some, UserView.isSome_address_filled, if_true]
  rfl

/-- Views that give the same answers to all calls that may be asked. -/
def Alike (vs vs' : List UserView) : Prop :=
  ∀ calls, (∀ a ∈ calls, Asked a) → (run vs calls).2 = (run vs' calls).2

/-- They give the same answer to a call after any others. -/
theorem Alike.last {vs' : List UserView} (h : Alike vs vs') {calls : List (Outcomes × Call)}
    (hcalls : ∀ a ∈ calls, Asked a) {a : Outcomes × Call} (ha : Asked a) :
    (step a.1 (run vs calls).1 a.2).2 = (step a.1 (run vs' calls).1 a.2).2 := by
  have hrun := h (calls ++ [a]) fun b hb => by
    rcases List.mem_append.mp hb with hb | hb
    · exact hcalls b hb
    · exact List.mem_singleton.mp hb ▸ ha
  rw [run_append_singleton, run_append_singleton] at hrun
  exact List.singleton_inj.mp (List.append_inj' hrun rfl).2

/-- No two users have one name, and the names fit. -/
structure Named (vs : List UserView) : Prop where
  unique : KeyedList.NodupKeys UserView.name vs
  fits : ∀ v ∈ vs, FitsField v.name

section Alike

variable {vs' : List UserView}

/-- They have the same users, and the same of them are connected. -/
theorem Alike.connected (h : Alike vs vs') {username : Bytes} (hu : FitsField username) :
    (KeyedList.lookup UserView.name username vs).map (fun v => v.address.isSome) =
      (KeyedList.lookup UserView.name username vs').map fun v => v.address.isSome := by
  have hasked : Asked (Outcomes.success here, .disconnectUser username) :=
    ⟨Outcomes.allocated_success here, by simpa [Call.Fits, Call.args] using hu⟩
  have hcode := @Alike.last vs vs' h [] (by simp) _ hasked
  simp only [run, step_disconnectUser, ViewAnswer.code.injEq] at hcode
  cases hv : KeyedList.lookup UserView.name username vs with
  | none =>
      cases hv' : KeyedList.lookup UserView.name username vs' with
      | none => rfl
      | some v' => cases hc' : v'.address.isSome <;> simp [hv, hv', hc'] at hcode
  | some v =>
      cases hv' : KeyedList.lookup UserView.name username vs' with
      | none => cases hc : v.address.isSome <;> simp [hv, hv', hc] at hcode
      | some v' =>
          cases hc : v.address.isSome <;> cases hc' : v'.address.isSome <;>
            simp_all

/-- A user of the one is a user of the other. -/
theorem Alike.exists_lookup (h : Alike vs vs') {username : Bytes} (hu : FitsField username)
    {v : UserView} (hv : KeyedList.lookup UserView.name username vs = some v) :
    ∃ v', KeyedList.lookup UserView.name username vs' = some v' ∧
      v'.address.isSome = v.address.isSome := by
  have hconnected := h.connected hu
  rw [hv, Option.map_some] at hconnected
  exact Option.map_eq_some_iff.mp hconnected.symm

theorem Alike.symm (h : Alike vs vs') : Alike vs' vs :=
  fun calls hcalls => (h calls hcalls).symm

theorem Alike.mem_names (h : Alike vs vs') (hvs : Named vs) {v : UserView} (hv : v ∈ vs) :
    v.name ∈ vs'.map UserView.name := by
  have hlookup := (KeyedList.lookup_eq_some_iff hvs.unique).mpr ⟨hv, rfl⟩
  obtain ⟨v', hv', -⟩ := h.exists_lookup (hvs.fits v hv) hlookup
  rw [← KeyedList.key_of_lookup hv']
  exact List.mem_map_of_mem (KeyedList.mem_of_lookup hv')

/-- After all their users have been connected, they still answer alike. -/
theorem Alike.filled (h : Alike vs vs') (hvs : Named vs) (hvs' : Named vs')
    {a : Outcomes × Call} (ha : Asked a) :
    (step a.1 (vs.map UserView.filled) a.2).2 = (step a.1 (vs'.map UserView.filled) a.2).2 := by
  have hasked : ∀ b ∈ connectCalls (vs.map UserView.name), Asked b := by
    refine asked_connectCalls fun u hu => ?_
    obtain ⟨v, hv, rfl⟩ := List.mem_map.mp hu
    exact hvs.fits v hv
  have hlast := h.last hasked ha
  rwa [run_connectCalls_all hvs.unique fun v hv => List.mem_map_of_mem hv,
    run_connectCalls_all hvs'.unique fun v hv => h.symm.mem_names hvs' hv] at hlast

/-- They have the same users in the same order, with the same addresses. -/
theorem Alike.rows (h : Alike vs vs') (hvs : Named vs) (hvs' : Named vs') :
    (vs.map fun v => (v.name, v.address.getD (inetNtoa here, []))) =
      vs'.map fun v => (v.name, v.address.getD (inetNtoa here, [])) := by
  cases vs with
  | nil =>
      cases vs' with
      | nil => rfl
      | cons v' vs' => simpa using h.symm.mem_names hvs' List.mem_cons_self
  | cons v vs =>
      have hu : FitsField v.name := hvs.fits v List.mem_cons_self
      have hv := (KeyedList.lookup_eq_some_iff hvs.unique).mpr ⟨List.mem_cons_self, rfl⟩
      obtain ⟨v', hv', -⟩ := h.exists_lookup hu hv
      have hasked : Asked (Outcomes.success here, .listUsers v.name) :=
        ⟨Outcomes.allocated_success here, by simpa [Call.Fits, Call.args] using hu⟩
      have hanswer := h.filled hvs hvs' hasked
      rw [step_listUsers_filled _ hv, step_listUsers_filled _ hv'] at hanswer
      exact ViewAnswer.users.inj hanswer

theorem Alike.names (h : Alike vs vs') (hvs : Named vs) (hvs' : Named vs') :
    vs.map UserView.name = vs'.map UserView.name := by
  simpa [Function.comp_def] using congrArg (List.map Prod.fst) (h.rows hvs hvs')

/-- A user is known to both in the same way. -/
theorem Alike.eq_of_lookup (h : Alike vs vs') (hvs : Named vs) (hvs' : Named vs')
    {username : Bytes} {v v' : UserView} (hv : KeyedList.lookup UserView.name username vs = some v)
    (hv' : KeyedList.lookup UserView.name username vs' = some v') : v = v' := by
  obtain rfl := KeyedList.key_of_lookup hv
  have hname : v'.name = v.name := KeyedList.key_of_lookup hv'
  have hu : FitsField v.name := hvs.fits v (KeyedList.mem_of_lookup hv)
  have hfiles : v.files = v'.files := by
    have hasked : Asked (Outcomes.success here, .listContent v.name v.name) :=
      ⟨Outcomes.allocated_success here, by simpa [Call.Fits, Call.args] using hu⟩
    have hanswer := h.filled hvs hvs' hasked
    rw [step_listContent_filled _ hv, step_listContent_filled _ hv'] at hanswer
    exact ViewAnswer.content.inj hanswer
  have hsome : v.address.isSome = v'.address.isSome := by
    have hconnected := h.connected hu
    rw [hv, hv'] at hconnected
    exact Option.some.inj hconnected
  have haddress : v.address.getD (inetNtoa here, []) = v'.address.getD (inetNtoa here, []) := by
    have hrow := List.mem_map_of_mem (f := fun v : UserView =>
      (v.name, v.address.getD (inetNtoa here, []))) (KeyedList.mem_of_lookup hv)
    rw [h.rows hvs hvs'] at hrow
    obtain ⟨w, hw, hrow⟩ := List.mem_map.mp hrow
    obtain ⟨hwname, hwaddress⟩ := Prod.mk.inj hrow
    have hlookup := (KeyedList.lookup_eq_some_iff hvs'.unique).mpr ⟨hw, hwname⟩
    rw [hv', Option.some.injEq] at hlookup
    rw [hlookup, hwaddress]
  obtain ⟨name, address, files⟩ := v
  obtain ⟨name', address', files'⟩ := v'
  simp only at hname hfiles hsome haddress
  subst hname hfiles
  cases address with
  | none =>
      cases address' with
      | none => rfl
      | some address' => cases hsome
  | some address =>
      cases address' with
      | none => cases hsome
      | some address' => rw [show address = address' from haddress]

/-- Views that answer alike are equal. -/
theorem Alike.eq (h : Alike vs vs') (hvs : Named vs) (hvs' : Named vs') : vs = vs' := by
  refine KeyedList.eq_of_lookup_eq hvs.unique (h.names hvs hvs') fun username => ?_
  cases hv : KeyedList.lookup UserView.name username vs with
  | none =>
      rw [KeyedList.lookup_eq_none_iff, h.names hvs hvs'] at hv
      exact (KeyedList.lookup_eq_none_iff.mpr hv).symm
  | some v =>
      have hu : FitsField username :=
        KeyedList.key_of_lookup hv ▸ hvs.fits v (KeyedList.mem_of_lookup hv)
      obtain ⟨v', hv', -⟩ := h.exists_lookup hu hv
      rw [hv', h.eq_of_lookup hvs hvs' hv hv']

end Alike

end View

/-! ## Stores the program can reach -/

theorem FitsField.name {s : Bytes} (h : FitsField s) :
    FitsField (CharArray.strncpy maxValueLength s).str := by
  rw [h.str_strncpy]
  exact h

/-- The names in a store that can be reached are unique and fit. -/
theorem ListState.named_of_reachable {st : ListState} (h : st.Reachable) :
    View.Named (view st.messages) := by
  obtain ⟨calls, log, hfits, hrun⟩ := h
  have hstep : ∀ (s : ListState) (a : Outcomes × Call) (s' : ListState) (called : Called),
      (s.Lazy ∧ ∀ n ∈ s.messages, FitsField n.name) → a.2.Fits →
      callStep s a = some (s', called) → s'.Lazy ∧ ∀ n ∈ s'.messages, FitsField n.name := by
    rintro s a s' called ⟨hs, hnames⟩ hfits hstep
    obtain ⟨⟨s₁, r⟩, hperform, heq⟩ := Option.map_eq_some_iff.mp hstep
    obtain ⟨rfl, -⟩ := Prod.mk.inj heq
    obtain ⟨hbody, hs'⟩ := Call.perform_eq_some hs hperform
    refine ⟨hs', Call.forall_body hnames ?_ ?_ ?_ ?_ ?_ hbody⟩
    · intro username block hc
      exact (hfits username (by simp [hc, Call.args])).name
    · intro _ _ _ n _ hn _ _ _ _
      exact hn
    · intro n hn
      exact hn
    · intro _ _ _ n _ hn
      exact hn
    · intro n _ hn _
      exact hn
  have hnames := (Run.answers_invariant hstep
    ⟨ListState.lazy_empty, by simp [ListState.empty]⟩ hfits hrun).2
  have hunique := (ListState.valid_of_reachable ⟨calls, log, hfits, hrun⟩).unique.users
  refine ⟨?_, fun v hv => ?_⟩
  · rw [KeyedList.NodupKeys, view, List.map_map]
    exact hunique
  · obtain ⟨n, hn, rfl⟩ := List.mem_map.mp hv
    exact hnames n hn

/-- Two stores that can be reached give the same answers to all sequences of calls,
codes and listings in their order, exactly when they have the same view. -/
theorem answers_eq_iff_view_eq {st st' : ListState} (h : st.Reachable) (h' : st'.Reachable) :
    (∀ calls, (∀ a ∈ calls, Asked a) → st.answers calls = st'.answers calls) ↔
      view st.messages = view st'.messages := by
  have hlazy := (ListState.valid_of_reachable h).lazy
  have hlazy' := (ListState.valid_of_reachable h').lazy
  constructor
  · intro hanswers
    have halike : View.Alike (view st.messages) (view st'.messages) := by
      intro calls hasked
      have hcalls := hanswers calls hasked
      rw [ListState.answers_eq hlazy hasked, ListState.answers_eq hlazy' hasked] at hcalls
      exact Option.some.inj hcalls
    exact halike.eq (ListState.named_of_reachable h) (ListState.named_of_reachable h')
  · intro hview calls hasked
    rw [ListState.answers_eq hlazy hasked, ListState.answers_eq hlazy' hasked, hview]

/-- A user that has published a file, deleted it and disconnected, and one that has
only been registered. -/
theorem answers_eq_iff_view_eq_registered :
    ∃ st st' : ListState, st ≠ st' ∧ st.Reachable ∧ st'.Reachable ∧
      ∀ calls, (∀ a ∈ calls, Asked a) → st.answers calls = st'.answers calls := by
  let used : List (Outcomes × Call) :=
    [.registerUser [97], .connectUser [56, 48] [97], .registerFileFromUser [97] [102] [100],
      .unregisterFileFromUser [97] [102], .disconnectUser [97]].map fun c => (.success here, c)
  let fresh : List (Outcomes × Call) := [(.success here, .registerUser [97])]
  have hsome : (Run.answers callStep .empty used).isSome ∧
      (Run.answers callStep .empty fresh).isSome := by decide +kernel
  obtain ⟨⟨st, log⟩, hused⟩ := Option.isSome_iff_exists.mp hsome.1
  obtain ⟨⟨st', log'⟩, hfresh⟩ := Option.isSome_iff_exists.mp hsome.2
  have hview : (Run.answers callStep .empty used).map (fun r => view r.1.messages) =
      (Run.answers callStep .empty fresh).map fun r => view r.1.messages := by decide +kernel
  have hne : (Run.answers callStep .empty used).map Prod.fst ≠
      (Run.answers callStep .empty fresh).map Prod.fst := by decide +kernel
  rw [hused, hfresh, Option.map_some, Option.map_some] at hview hne
  have hst : st.Reachable := ⟨used, log, by decide +kernel, hused⟩
  have hst' : st'.Reachable := ⟨fresh, log', by decide +kernel, hfresh⟩
  exact ⟨st, st', fun heq => hne (congrArg some heq), hst, hst',
    (answers_eq_iff_view_eq hst hst').mpr (Option.some.inj hview)⟩

end PeerDirectory
