import PeerDirectory.Client.ResultCodes
import PeerDirectory.Server.Serializable

/-!
# Calls of clients at the same time

Clients call their methods at the same time. Each method sends one request on its own
connection, and the handlers of these connections run at the same time as well. If they
leave `buffer` to each other while it is needed, every method that has been answered
gives what it would give in some order of all the calls, one after another: its code,
the rows it prints, and the attributes of its client.
-/

namespace PeerDirectory

namespace Client

/-! ## What a method makes of a reply -/

/-- What a method gives: its code, or a listing with the rows it prints. -/
inductive Shown where
  | code (rc : RC)
  | users (listing : Listing (Str × Str × Str))
  | files (listing : Listing (Str × Str))
deriving DecidableEq

/-- The call of a method, with all that it gives. -/
def Command.show {σ : Type} (env : Environment σ) (c : Command) (st : ClientState) (peer : σ) :
    Outcome Shown × ClientState × σ :=
  match c with
  | .listusers =>
      let r := Client.listusers env st peer
      (r.1.bind fun listing => .returns (.users listing), st, r.2)
  | .listcontent user =>
      let r := Client.listcontent env user st peer
      (r.1.bind fun listing => .returns (.files listing), st, r.2)
  | c =>
      let r := c.run env st peer
      (r.1.bind fun rc => .returns (.code rc), r.2)

/-- The other side gives this reply, whatever it is asked. -/
def Environment.answering (time : StructTime) (port : UInt16) (start : Bool) (reply : Bytes) :
    Environment Unit where
  connectSocket := true
  getTime := some time
  socket := true
  bind := some port
  start := start
  maxStrDigits := .unlimited
  exchange := fun _ _ => some (reply, ())

section Replies

variable {σ : Type} {env : Environment σ} {time : StructTime} {port : UInt16} {st : ClientState}
  {peer peer' : σ} {reply : Bytes} {start : Bool}

/-- What is read of the reply does not depend on who gives it. -/
theorem send_eq_answering (port : UInt16) (start : Bool) {request : Str → Option (List Str)}
    {m : List Str} (htime : env.getTime = some time)
    (hx : env.exchange (encodeMessage m) peer = some (reply, peer'))
    (hm : request (strftime time) = some m) :
    send env request peer = ((send (.answering time port start reply) request ()).1, peer') := by
  have hanswering : send (.answering time port start reply) request () = (readResponse reply, ()) :=
    send_of_exchange rfl hm rfl
  rw [hanswering, send_of_exchange htime hm hx]

/-- A method that sends its request gives what it makes of the reply. -/
theorem Command.show_of_exchange {c : Command} {m : Bytes} (hsent : c.sent time port st = [m])
    (hsocket : env.connectSocket = true) (htime : env.getTime = some time)
    (hgiven : env.socket = true) (hport : env.bind = some port) (hstart : env.start = start)
    (hlimit : env.maxStrDigits = .unlimited) (hx : env.exchange m peer = some (reply, peer')) :
    c.show env st peer =
      ((c.show (.answering time port start reply) st ()).1,
        (c.show (.answering time port start reply) st ()).2.1, peer') := by
  rw [c.sent_eq hsent] at hx
  have hsocket' : (Environment.answering time port start reply).connectSocket = true := rfl
  have hgiven' : (Environment.answering time port start reply).socket = true := rfl
  have hport' : (Environment.answering time port start reply).bind = some port := rfl
  have hstart' : (Environment.answering time port start reply).start = start := rfl
  have hlimit' : (Environment.answering time port start reply).maxStrDigits = .unlimited := rfl
  cases c with
  | register user =>
      simp only [Command.show, Command.run, Client.register, register_sent hsent, hsocket, hsocket',
        Bool.false_eq_true, if_false, if_true]
      rw [send_eq_answering port start htime hx rfl]
  | unregister user =>
      simp only [Command.show, Command.run, Client.unregister, hsocket, hsocket', if_true]
      rw [send_eq_answering port start htime hx rfl]
  | connect user =>
      simp only [Command.show, Command.run, Client.connect, connect_sent hsent, hsocket, hsocket',
        hgiven, hgiven', hport, hport', hstart, hstart', Bool.false_eq_true, if_false, if_true]
      rw [send_eq_answering port start htime hx rfl]
      cases (send (.answering time port start reply)
        (fun t => some (connectMessage t user port)) ()).1 with
      | returns r =>
          dsimp only
          (repeat' split) <;> rfl
      | raises => rfl
      | hangs => rfl
  | disconnect user =>
      simp only [Command.show, Command.run, Client.disconnect, hsocket, hsocket', if_true]
      rw [send_eq_answering port start htime hx rfl]
      cases (send (.answering time port start reply)
        (fun t => some (disconnectMessage t user)) ()).1 with
      | returns r =>
          dsimp only
          cases st.serverSocket.bind ServerSocket.shutdown <;> (repeat' split) <;> rfl
      | raises => rfl
      | hangs => rfl
  | publish fileName description =>
      obtain ⟨hlength, hconnected, user, huser⟩ := publish_sent hsent
      rw [huser] at hx
      simp only [Command.show, Command.run, Client.publish, hlength, hconnected, huser, hsocket,
        hsocket', Bool.false_eq_true, Bool.not_true, if_false, if_true, Option.map_some]
      rw [send_eq_answering port start htime hx rfl]
  | delete fileName =>
      obtain ⟨hlength, hconnected, user, huser⟩ := delete_sent hsent
      rw [huser] at hx
      simp only [Command.show, Command.run, Client.delete, hlength, hconnected, huser, hsocket,
        hsocket', Bool.false_eq_true, Bool.not_true, if_false, if_true, Option.map_some]
      rw [send_eq_answering port start htime hx rfl]
  | listusers =>
      obtain ⟨hconnected, user, huser⟩ := listusers_sent hsent
      rw [huser] at hx
      simp only [Command.show, Client.listusers, hconnected, huser, hsocket, hsocket', hlimit,
        hlimit', Bool.false_eq_true, Bool.not_true, if_false, if_true, Option.map_some]
      rw [send_eq_answering port start htime hx rfl]
  | listcontent target =>
      obtain ⟨hconnected, user, huser⟩ := listcontent_sent hsent
      rw [huser] at hx
      simp only [Command.show, Client.listcontent, hconnected, huser, hsocket, hsocket', hlimit,
        hlimit', Bool.false_eq_true, Bool.not_true, if_false, if_true, Option.map_some]
      rw [send_eq_answering port start htime hx rfl]

end Replies

/-! ## Callers -/

/-- A client that calls a method, with what the system answers to it and to its
handler. A `connect` has its socket, or it would send no request. -/
structure Caller where
  command : Command
  client : ClientState
  time : StructTime
  port : UInt16
  start : Bool
  outcomes : Outcomes

namespace Caller

def message (p : Caller) : List Str :=
  p.command.message (strftime p.time) (p.client.user.getD []) p.port

/-- Its connection to the server. -/
def connection (p : Caller) : Connection :=
  .ofStream (encodeMessage p.message) p.outcomes

/-- What the method gives, if the server handles its connection alone. -/
def call (p : Caller) (g : Shared) : Option (Shared × Outcome Shown × ClientState) :=
  let env := (Environment.server p.time p.port p.outcomes).granting true p.start
  let r := p.command.show env p.client g
  some (r.2.2, r.1, r.2.1)

/-- What the method gives, if this is the reply. -/
def sees (p : Caller) (reply : Bytes) : Outcome Shown × ClientState :=
  let r := p.command.show (.answering p.time p.port p.start reply) p.client ()
  (r.1, r.2.1)

/-- The method sends its request, with arguments that are received whole, and the
memory for the answer is granted. -/
structure Asks (p : Caller) : Prop where
  sent : p.command.sent p.time p.port p.client = [encodeMessage p.message]
  whole : ∀ a ∈ p.command.arguments (p.client.user.getD []), Char.ofNat 0 ∉ a ∧ ReceivedWhole a
  allocated : p.outcomes.Allocated

variable {p : Caller} {g g' : Shared} {h : Handler}

/-- The request is complete. -/
theorem Asks.requests (hp : p.Asks) : ∃ op fields c, p.connection.Requests op fields c := by
  have hmessage := p.command.map_encode_message (strftime p.time) (p.client.user.getD []) p.port
  have hfits := (p.command.fitsLine_message_iff p.time (p.client.user.getD []) p.port).mpr
    fun a ha => (fitsLine_encode_iff (hp.whole a ha).1).mpr (hp.whole a ha).2
  rw [hmessage] at hfits
  have hnamed : ∃ c, p.command.operation.namedCall (Text.encode (strftime p.time) ::
      ((p.command.arguments (p.client.user.getD [])).map Text.encode ++
        (p.command.portField p.port).map Text.encode)) = some c := by
    cases p.command <;> exact ⟨_, rfl⟩
  obtain ⟨c, hc⟩ := hnamed
  refine ⟨p.command.operation, _, c, ?_, fun f hf => hfits f (List.mem_cons_of_mem _ hf), hc, rfl⟩
  rw [encodeRequest, ← hmessage]
  rfl

/-- The method sees what the handler of its connection sends. -/
theorem Asks.call_of_treatRequest (hp : p.Asks)
    (htreat : treatRequest p.connection g = some (g', h)) :
    p.call g = some (g', p.sees h.sent) := by
  have hx : ((Environment.server p.time p.port p.outcomes).granting true p.start).exchange
      (encodeMessage p.message) g = some (h.sent, g') :=
    Option.map_eq_some_iff.mpr ⟨(g', h), htreat, rfl⟩
  have hstart : ((Environment.server p.time p.port p.outcomes).granting true p.start).start =
      p.start := rfl
  have hshow := Command.show_of_exchange hp.sent rfl rfl rfl rfl hstart rfl hx
  rw [call, hshow, sees]

end Caller

end Client

/-! ## All at the same time -/

open Client

variable {ι : Type} [DecidableEq ι] {callers : ι → Caller} {order : List ι} {s : HandlerSystem ι}

/-- Methods of clients are called at the same time, and every step of a handler leaves
`buffer` as it is while another one still needs it. Then there is an order of the calls,
in which one that has been answered comes before one that is handled later, such that the
calls, one after another, leave the same directory, and every method that has been
answered gives what it gives there. -/
theorem calls_serializable (hasks : ∀ i, (callers i).Asks) :
    let conns := fun i => (callers i).connection
    Run.Guarded (HandlerSystem.step conns) (HandlerSystem.LeavesBuffer conns)
      (.init conns .init) order →
    Run.run (HandlerSystem.step conns) (.init conns .init) order = some s →
    ∃ (serial : List ι) (g : Shared) (seen : List (Outcome Shown × ClientState)),
      serial.Nodup ∧
      Run.answers (fun g i => (callers i).call g) .init serial = some (g, seen) ∧
      view g.store.messages = view s.shared.store.messages ∧
      (∀ i, s.code i = .statements [] →
        (i, (callers i).sees (s.handlers i).sent) ∈ serial.zip seen) ∧
      ∀ before after t i j, order = before ++ after →
        Run.run (HandlerSystem.step conns) (.init conns .init) before = some t →
          t.code i = .statements [] → t.code j = .entry → j ∈ serial →
            [i, j].Sublist serial := by
  intro conns hleaves hrun
  obtain ⟨g, handlers, h⟩ := HandlerSystem.serialized_of_run (fun i => (hasks i).requests)
    (fun i => ⟨(hasks i).allocated, rfl⟩) hleaves hrun
  set serial := (HandlerSystem.history conns (.init conns .init) order).map Prod.fst
  have hcalls : Run.answers (fun g i => (callers i).call g) .init serial =
      some (g, serial.zipWith (fun i h => (callers i).sees h.sent) handlers) :=
    Run.answers_zipWith (fun g i _ g' h htreat => (hasks i).call_of_treatRequest htreat) h.answers
  refine ⟨serial, g, _, h.nodup, hcalls, h.view, fun i hleft => ?_, h.inOrder⟩
  have hmem : i ∈ serial := not_not.mp fun hnot => (h.others i hnot).2 hleft
  have hlength : handlers.length = serial.length := Run.length_answers h.answers
  obtain ⟨n, hn, rfl⟩ := List.mem_iff_getElem.mp hmem
  have hpair : (serial[n], handlers[n]) ∈ serial.zip handlers :=
    List.mem_iff_getElem.mpr ⟨n, by simp [hlength, hn], by simp⟩
  rw [(h.sent _ _ hpair).2 hleft]
  exact List.mem_iff_getElem.mpr ⟨n, by simp [hlength, hn], by simp⟩

/-- Two clients register the user `a`. -/
def registerTwice (time : StructTime) (_ : Bool) : Caller where
  command := .register ['a']
  client := .init
  time := time
  port := 80
  start := true
  outcomes := .success ⟨10, 0, 0, 1⟩

/-- The handler of the second client starts when the first one has made its call, and
both have left when either has answered. One client is told that the user exists. -/
theorem calls_serializable_registerTwice :
    let callers := registerTwice ⟨2023, 12, 1, 10, 0, 0⟩
    let conns := fun i => (callers i).connection
    ∃ s, Run.run (HandlerSystem.step conns) (.init conns .init)
        (List.replicate 11 true ++ List.replicate 11 false ++ [true, false, true, false]) = some s ∧
      ∃ (serial : List Bool) (g : Shared) (seen : List (Outcome Shown × ClientState)),
        Run.answers (fun g i => (callers i).call g) .init serial = some (g, seen) ∧
        (true, (.returns (.code .ok), .init)) ∈ serial.zip seen ∧
        (false, (.returns (.code .error), .init)) ∈ serial.zip seen := by
  intro callers conns
  have hend : (Run.run (HandlerSystem.step conns) (.init conns .init)
      (List.replicate 11 true ++ List.replicate 11 false ++ [true, false, true, false])).map
        (fun s => ((s.code true, s.code false), (s.handlers true).sent, (s.handlers false).sent)) =
      some ((.statements [], .statements []), [48, 0], [49, 0]) := by
    decide +kernel
  have happart : Run.Guarded (HandlerSystem.step conns) HandlerSystem.Apart (.init conns .init)
      (List.replicate 11 true ++ List.replicate 11 false ++ [true, false, true, false]) := by
    decide +kernel
  have hasks : ∀ i, (callers i).Asks := by
    refine fun i => ⟨by cases i <;> decide +kernel, fun a ha => ?_, Outcomes.allocated_success _⟩
    rw [List.mem_singleton.mp ha]
    decide +kernel
  have hok : (callers true).sees [48, 0] = (.returns (.code .ok), .init) := by
    decide +kernel
  have herror : (callers false).sees [49, 0] = (.returns (.code .error), .init) := by
    decide +kernel
  obtain ⟨s, hs, heq⟩ := Option.map_eq_some_iff.mp hend
  obtain ⟨hcode, hsent⟩ := Prod.mk.inj heq
  obtain ⟨htrue, hfalse⟩ := Prod.mk.inj hcode
  obtain ⟨hsent, hsent'⟩ := Prod.mk.inj hsent
  obtain ⟨serial, g, seen, -, hcalls, -, hseen, -⟩ :=
    calls_serializable hasks (happart.mono fun _ _ h => h.leavesBuffer) hs
  refine ⟨s, hs, serial, g, seen, hcalls, ?_, ?_⟩
  · rw [← hok, ← hsent]
    exact hseen true htrue
  · rw [← herror, ← hsent']
    exact hseen false hfalse

end PeerDirectory
