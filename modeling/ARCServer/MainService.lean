import ARCServer.GuestReplies
import ARCServer.MainLoop
import ARCServer.RequestAccounting

/-! What the clients of the program get, whatever the others do: their own frames in order,
one verdict for each request to the compare server, and the pictures that the guest server
holds at that moment. -/

namespace ARCServer.MainService

open InterleavedPrograms RequestHandlers RequestEffects RequestAccounting MainLoop
open CompareServer (noReply)
open FrameCodec (okReply)
open FrameCodec (Service)
open ConnectionLoop MachineIntegers

variable {initEngine : ℕ → Int} {database : Server} {ip : ℕ → String} {events : Events}

theorem betweenEvents_of_main {s : State} (h : main initEngine database ip events = .ok s) :
    BetweenEvents initEngine database s.shared := by
  refine run_keeps_shared (betweenEvents_launched initEngine database)
    (fun service conn connected _ => betweenEvents_onConnection service conn connected) ?_ h
  intro service conn message outcome s reply s' quiet answered
  obtain ⟨reply', t, answered', kept⟩ :=
    @onStringMessage_between _ _ ip _ quiet conn message outcome
  cases answered.symm.trans answered'
  exact kept

theorem requests_of_main (keeps : PoolExclusivity.Requests → Prop)
    (first : keeps (DeadlockFreedom.opened initEngine database))
    (served : ∀ c d request past ret,
      (∃ moves, arcServer.run (DeadlockFreedom.opened initEngine database) moves = some c) →
        keeps c → (ProgramsAlone.alone arcServer c.threads.length fun _ _ _ => True).Completes
            request.handler c.shared past ret d.shared →
          d.threads = c.threads ++ [⟨request, .ret ret, past⟩] → keeps d)
    {s : State} (h : main initEngine database ip events = .ok s) : keeps s.shared.requests := by
  refine (run_keeps (fun _ s =>
    BetweenEvents initEngine database s.shared ∧ keeps s.shared.requests)
    ⟨betweenEvents_launched initEngine database, first⟩ ?_ h).2
  rintro events event s s' ⟨quiet, holds⟩ stepped
  cases stepped with
  | accept kind => exact ⟨betweenEvents_onConnection _ _ _ quiet, holds⟩
  | close at_i up => exact ⟨betweenEvents_onConnection _ _ _ quiet, holds⟩
  | waits outcome at_i up next => exact ⟨quiet, holds⟩
  | @answers conn p bytes rest reply message outcome p' at_i up next answered =>
    change onStringMessage ip conn message outcome s.shared = some (reply, p') at answered
    obtain ⟨_, q, answered', kept⟩ := @onStringMessage_between _ _ ip _ quiet conn message outcome
    cases answered.symm.trans answered'
    refine ⟨kept, ?_⟩
    unfold onStringMessage at answered
    cases compare : compareRequest (ip conn) message with
    | some request =>
      rw [compare] at answered
      obtain ⟨⟨ret, d⟩, ran, same⟩ := Option.map_eq_some_iff.mp answered
      cases same
      obtain ⟨⟨past, ret', t⟩, executed, same⟩ := Option.map_eq_some_iff.mp ran
      cases same
      exact served s.shared.requests _ request past _ quiet.requests holds
        (SerialRuns.completes_of_execute executed) rfl
    | none =>
      rw [compare] at answered
      cases guest : guestRequest message with
      | some request =>
        rw [guest] at answered
        obtain ⟨ran, -, same⟩ := Option.map_eq_some_iff.mp answered
        cases same
        exact holds
      | none =>
        rw [guest] at answered
        cases answered
        exact holds

section Visit

def calm : Surroundings := ⟨fun _ => FaceSdk.oneFace [1, 2], fun _ => GuestConcurrency.noon⟩

def visits : Events :=
  [.accept .compare, .accept .guest, .read 1 [14, 0, 0, 0, 0x61, 0x70, 0x70] calm,
    .read 0 [13, 0, 0, 0, 0x61, 0x64, 0x64, 0x67, 1, 0, 0, 0, 0xff] calm,
    .read 1 [0x6c, 7, 0, 0, 0, 1, 2] calm,
    .read 1 [12, 0, 0, 0, 0x71, 0x75, 0x72, 0x79, 7, 0, 0, 0] calm, .close 0]

theorem visit_calls :
    ((main (fun _ => 0) HandlerOutcomes.idleServer (fun _ => "gate") visits).toOption.map fun s =>
      s.calls.map fun call => (call.request, call.reply)) =
        some [(.addg [0xff] 1 1, okReply), (.add [1, 2] 2 7, okReply),
          (.query 7, [6, 0, 0, 0, 1, 2])] := by decide +kernel

theorem ok_of_toOption {ε α : Type} {x : Except ε α} {a : α} (h : x.toOption = some a) :
    x = .ok a := by
  cases x with
  | error e => cases h
  | ok b =>
    cases h
    rfl

theorem visit_runs : ∃ s, main (fun _ => 0) HandlerOutcomes.idleServer (fun _ => "gate") visits =
    .ok s ∧ (s.calls.map fun call => (call.request, call.reply)) =
      [(.addg [0xff] 1 1, okReply), (.add [1, 2] 2 7, okReply),
        (.query 7, [6, 0, 0, 0, 1, 2])] := by
  obtain ⟨s, ran, calls⟩ := Option.map_eq_some_iff.mp visit_calls
  exact ⟨s, ok_of_toOption ran, calls⟩

end Visit

section Connections

abbrev Peers := List (Peer Service Byte FrameCodec.Request)

def UpAs (service : Service) (peers : Peers) (conn : ℕ) : Prop :=
  ∃ p, peers[conn]? = some p ∧ p.up = true ∧ p.kind = service

def Connected (s : State) : Prop :=
  ∀ service conn, conn ∈ s.shared.connections service ↔ UpAs service s.peers conn

variable {service other : Service} {conn c i : ℕ} {peers : Peers}

theorem mem_onConnection {connected : Bool} {s : Process} :
    c ∈ (onConnection service conn connected s).connections other ↔
      if other = service ∧ c = conn then connected = true else c ∈ s.connections other := by
  by_cases same : other = service
  · subst same
    cases connected with
    | true => by_cases here : c = conn <;> simp [onConnection, here]
    | false => by_cases here : c = conn <;> simp [onConnection, here]
  · simp [onConnection, same]

theorem upAs_append (p : Peer Service Byte FrameCodec.Request) :
    UpAs service (peers ++ [p]) c ↔
      if c = peers.length then p.up = true ∧ p.kind = service else UpAs service peers c := by
  split
  · next last =>
    unfold UpAs
    rw [last, List.getElem?_concat_length]
    exact ⟨fun ⟨q, same, here⟩ => Option.some.inj same ▸ here, fun here => ⟨p, rfl, here⟩⟩
  · next other =>
    unfold UpAs
    by_cases old : c < peers.length
    · rw [List.getElem?_append_left old]
    · have far : (peers ++ [p]).length ≤ c := by
        rw [List.length_append, List.length_singleton]
        omega
      rw [List.getElem?_eq_none far, List.getElem?_eq_none (not_lt.mp old)]

theorem upAs_set {p : Peer Service Byte FrameCodec.Request} (at_i : peers[i]? = some p)
    (q : Peer Service Byte FrameCodec.Request) :
    UpAs service (peers.set i q) c ↔
      if c = i then q.up = true ∧ q.kind = service else UpAs service peers c := by
  have inside := (List.getElem?_eq_some_iff.mp at_i).1
  split
  · next same =>
    unfold UpAs
    rw [same, List.getElem?_set_self inside]
    exact ⟨fun ⟨r, same, here⟩ => Option.some.inj same ▸ here, fun here => ⟨q, rfl, here⟩⟩
  · next other =>
    unfold UpAs
    rw [List.getElem?_set_ne (Ne.symm other)]

theorem upAs_same {p q : Peer Service Byte FrameCodec.Request} (at_i : peers[i]? = some p)
    (up : q.up = p.up) (kind : q.kind = p.kind) :
    UpAs service (peers.set i q) c ↔ UpAs service peers c := by
  rw [upAs_set at_i, up, kind]
  split
  · next same =>
    rw [same]
    exact ⟨fun here => ⟨p, at_i, here⟩, fun ⟨r, there, here⟩ =>
      Option.some.inj (at_i.symm.trans there) ▸ here⟩
  · exact Iff.rfl

theorem connections_onStringMessage {message : FrameCodec.Request} {outcome : Surroundings}
    {s s' : Process} {reply : List Byte}
    (h : onStringMessage ip conn message outcome s = some (reply, s')) :
    s'.connections = s.connections := by
  unfold onStringMessage at h
  split at h
  · obtain ⟨served, -, same⟩ := Option.map_eq_some_iff.mp h
    cases same
    rfl
  · obtain ⟨served, -, same⟩ := Option.map_eq_some_iff.mp h
    cases same
    rfl
  · cases h
    rfl

theorem Connected.step {s s' : State} {event : ConnectionLoop.Event Service Byte Surroundings}
    (h : Connected s) (stepped : Stepped (callbacks ip) s event s') : Connected s' := by
  intro other c
  have before := h other c
  cases stepped with
  | accept kind =>
    change c ∈ (onConnection kind s.peers.length true s.shared).connections other ↔ _
    rw [mem_onConnection, upAs_append, before]
    by_cases last : c = s.peers.length
    · have absent : ¬ UpAs other s.peers s.peers.length := fun ⟨p, at_end, _⟩ => by
        rw [List.getElem?_eq_none le_rfl] at at_end
        cases at_end
      by_cases same : other = kind
      · simp [last, same]
      · simp [last, same, absent, Ne.symm same]
    · simp [last]
  | @close i p at_i up =>
    change c ∈ (onConnection p.kind i false s.shared).connections other ↔
      UpAs other (s.peers.set i _) c
    rw [mem_onConnection, upAs_set at_i, before]
    by_cases here : c = i
    · subst here
      have only : UpAs other s.peers c → other = p.kind := fun ⟨q, at_c, _, kind⟩ => by
        rw [at_i] at at_c
        cases at_c
        exact kind.symm
      by_cases same : other = p.kind
      · simp [same]
      · simp [same, mt only same]
    · simp [here]
  | waits outcome at_i up next =>
    refine before.trans (Iff.symm ?_)
    apply upAs_same at_i <;> rfl
  | @answers i p bytes rest reply request outcome shared at_i up next answer =>
    rw [← connections_onStringMessage answer] at before
    refine before.trans (Iff.symm ?_)
    apply upAs_same at_i <;> rfl

theorem connected_of_main {s : State} (h : main initEngine database ip events = .ok s) :
    Connected s := by
  refine run_keeps (fun _ s => Connected s) (fun service conn => ?_)
    (fun events event s s' connected stepped => connected.step stepped) h
  refine iff_of_false (Finset.notMem_empty conn) ?_
  rintro ⟨p, none, -⟩
  cases none

end Connections

section Verdicts

def Dispatched (s : State) : Prop := ∀ call ∈ s.calls, Belongs call.kind call.request ∧
  (call.kind = .compare → call.reply = okReply ∨ call.reply = noReply)

theorem reply_of_compare {conn : ℕ} {message : FrameCodec.Request} {outcome : Surroundings}
    {s s' : Process} {reply : List Byte} (own : Belongs .compare message)
    (h : onStringMessage ip conn message outcome s = some (reply, s')) :
    reply = okReply ∨ reply = noReply := by
  have some_request : ∃ request, compareRequest (ip conn) message = some request := by
    cases message with
    | comp data len => exact ⟨_, rfl⟩
    | addu data len id => exact ⟨_, rfl⟩
    | addg data len id => exact ⟨_, rfl⟩
    | add data len id => exact own.elim
    | query id => exact own.elim
  obtain ⟨request, same⟩ := some_request
  rw [onStringMessage, same] at h
  obtain ⟨served, -, same⟩ := Option.map_eq_some_iff.mp h
  cases same
  split
  · exact .inl rfl
  · exact .inr rfl

theorem dispatched_of_main {s : State} (h : main initEngine database ip events = .ok s) :
    Dispatched s := by
  refine run_keeps (fun _ s => Dispatched s) (fun call mem => absurd mem List.not_mem_nil) ?_ h
  intro events event s s' dispatched stepped
  cases stepped with
  | accept kind => exact dispatched
  | close at_i up => exact dispatched
  | waits outcome at_i up next => exact dispatched
  | @answers i p bytes rest reply request outcome shared at_i up next answer =>
    intro call mem
    rcases List.mem_append.mp mem with old | new
    · exact dispatched call old
    · rw [List.mem_singleton.mp new]
      have own : Belongs p.kind request := belongs_of_onMessage next
      refine ⟨own, fun compare => reply_of_compare ?_ answer⟩
      exact (show p.kind = .compare from compare) ▸ own

end Verdicts

structure Serves (events : Events) (s : State) : Prop where
  streams : ∀ (i : ℕ) p, s.peers[i]? = some p →
    FrameStream.run p.kind.onMessage (readsOf i events) = .ok p.stream
  replies : ∀ (i : ℕ) p, s.peers[i]? = some p →
    p.stream.delivered = (callsOf i s.calls).map Call.request ∧
      p.sent = (callsOf i s.calls).flatMap Call.reply
  verdicts : ∀ call ∈ s.calls, call.kind = .compare → call.reply = okReply ∨ call.reply = noReply
  connected : Connected s
  rest : ServersAtRest s.shared

/-- After any events on any connections: each connection has handed over the frames of its
own reads and got the replies to these in order, each of one verdict on the compare
server; both servers know who is connected, and no engine, permit or lock is held. -/
theorem main_serves {s : State} (h : main initEngine database ip events = .ok s) :
    Serves events s := by
  have isolated := isolated_of_run h
  refine ⟨fun i p at_i => (isolated.served i p at_i).stream, fun i p at_i => ?_,
    fun call mem => (dispatched_of_main h call mem).2, connected_of_main h,
      (betweenEvents_of_main h).atRest⟩
  exact ⟨(isolated.served i p at_i).delivered, (isolated.served i p at_i).sent⟩

theorem visit_serves : ∃ s, main (fun _ => 0) HandlerOutcomes.idleServer (fun _ => "gate") visits =
    .ok s ∧ Serves visits s := by
  obtain ⟨s, ran, -⟩ := visit_runs
  exact ⟨s, ran, main_serves ran⟩

section Log

def compareCalls (ip : ℕ → String) (s : State) : List (Request × List Byte) :=
  s.calls.filterMap fun call =>
    (compareRequest (ip call.peer) call.request).map fun request => (request, call.reply)

def Answers (call : Request × List Byte) (t : PoolExclusivity.RequestThread) : Prop :=
  t.request = call.1 ∧ ∃ ret, t.code = .ret ret ∧ call.2 = verdict ret

structure Recorded (initEngine : ℕ → Int) (database : Server) (ip : ℕ → String) (s : State) :
    Prop where
  quiet : BetweenEvents initEngine database s.shared
  served : List.Forall₂ Answers (compareCalls ip s) s.shared.requests.threads

theorem Recorded.answers {s : State} (h : Recorded initEngine database ip s) {peers : Peers}
    {kind : Service} {i : ℕ} {message : FrameCodec.Request} {outcome : Surroundings}
    {reply : List Byte} {shared : Process}
    (answer : onStringMessage ip i message outcome s.shared = some (reply, shared)) :
    Recorded initEngine database ip
      ⟨peers, s.calls ++ [⟨kind, i, message, outcome, reply⟩], shared⟩ := by
  have calls : compareCalls ip ⟨peers, s.calls ++ [⟨kind, i, message, outcome, reply⟩], shared⟩ =
      compareCalls ip s ++
        ((compareRequest (ip i) message).map fun request => (request, reply)).toList := by
    rw [compareCalls, List.filterMap_append, compareCalls, List.filterMap_cons, List.filterMap_nil]
    cases compareRequest (ip i) message <;> rfl
  unfold onStringMessage at answer
  cases compare : compareRequest (ip i) message with
  | some request =>
    rw [compare] at answer
    obtain ⟨ret, d, past, answer', grown, quiet⟩ := onCompare_spec h.quiet request outcome
    cases answer.symm.trans answer'
    refine ⟨quiet, ?_⟩
    rw [calls, compare]
    dsimp only
    rw [grown]
    exact List.rel_append h.served (.cons ⟨rfl, ret, rfl, rfl⟩ .nil)
  | none =>
    rw [compare] at answer
    cases guest : guestRequest message with
    | some request =>
      rw [guest] at answer
      obtain ⟨d, answer', -, quiet⟩ := onGuest_spec h.quiet request outcome
      cases answer.symm.trans answer'
      refine ⟨quiet, ?_⟩
      rw [calls, compare]
      exact (List.append_nil (compareCalls ip s)).symm ▸ h.served
    | none =>
      rw [guest] at answer
      cases answer
      refine ⟨h.quiet, ?_⟩
      rw [calls, compare]
      exact (List.append_nil (compareCalls ip s)).symm ▸ h.served

theorem recorded_of_main {s : State} (h : main initEngine database ip events = .ok s) :
    Recorded initEngine database ip s := by
  refine run_keeps (fun _ s => Recorded initEngine database ip s)
    ⟨betweenEvents_launched initEngine database, .nil⟩ ?_ h
  intro events event s s' recorded stepped
  cases stepped with
  | accept kind => exact ⟨betweenEvents_onConnection _ _ _ recorded.quiet, recorded.served⟩
  | close at_i up => exact ⟨betweenEvents_onConnection _ _ _ recorded.quiet, recorded.served⟩
  | waits outcome at_i up next => exact ⟨recorded.quiet, recorded.served⟩
  | answers at_i up next answer => exact recorded.answers answer

theorem Recorded.thread {s : State} (h : Recorded initEngine database ip s) {k : ℕ}
    {call : Request × List Byte} (at_k : (compareCalls ip s)[k]? = some call) :
    ∃ t, s.shared.requests.threads[k]? = some t ∧ Answers call t := by
  obtain ⟨inside, rfl⟩ := List.getElem?_eq_some_iff.mp at_k
  have there : k < s.shared.requests.threads.length := h.served.length_eq ▸ inside
  exact ⟨_, List.getElem?_eq_getElem there, h.served.get inside there⟩

theorem Recorded.call {s : State} (h : Recorded initEngine database ip s) {k : ℕ}
    {t : PoolExclusivity.RequestThread} (at_k : s.shared.requests.threads[k]? = some t) :
    ∃ call, (compareCalls ip s)[k]? = some call ∧ Answers call t := by
  obtain ⟨inside, rfl⟩ := List.getElem?_eq_some_iff.mp at_k
  have there : k < (compareCalls ip s).length := h.served.length_eq ▸ inside
  exact ⟨_, List.getElem?_eq_getElem there, h.served.get there inside⟩

def Logged (database : Server) (calls : List (Request × List Byte)) (s : Server) : Prop :=
  ∃ log : Log, Made database (log.map Prod.snd) s ∧ (∀ entry ∈ log, entry.1 < calls.length) ∧
    ∀ (k : ℕ) request reply, calls[k]? = some (request, reply) →
      (ofRequest k log = [] ∨
        reply = okReply ∧ ∃ change, Targets k request change ∧ ofRequest k log = [change]) ∧
      ∀ data id, request = .addFeatureG data id → reply = okReply → ofRequest k log ≠ []

theorem verdict_eq_okReply (ret : Int) : verdict ret = okReply ↔ ret = 0 := by
  unfold verdict
  split
  · next zero => exact iff_of_true rfl zero
  · next nonzero => exact iff_of_false (by decide) nonzero

/-- After any events on any connections, the tables and the guest cache hold what the
messages answered with "ok" have changed, each at most once, for its own id and under
the address of its own gate, and nothing else. -/
theorem main_logged {s : State} (h : main initEngine database ip events = .ok s) :
    Logged database (compareCalls ip s) s.shared.requests.shared := by
  have recorded := recorded_of_main h
  obtain ⟨moves, reached⟩ := recorded.quiet.requests
  obtain ⟨log, made, numbers, own⟩ := serialised_of_run reached
  refine ⟨log, ⟨made.cache, made.cache_guest, made.userInformation, made.userImport⟩,
    fun entry mem => ?_, fun k request reply at_k => ?_⟩
  · rw [recorded.served.length_eq]
    exact numbers entry mem
  · obtain ⟨t, at_t, asked, ret, code, answer⟩ := recorded.thread at_k
    obtain rfl : t.request = request := asked
    obtain rfl : reply = verdict ret := answer
    have keeps := own k t at_t
    refine ⟨?_, fun data id guest accepted => ?_⟩
    · by_cases zero : ret = 0
      · exact keeps.once.imp_right fun made => ⟨(verdict_eq_okReply ret).mpr zero, made⟩
      · exact .inl (keeps.refused ret code zero)
    · rw [(verdict_eq_okReply ret).mp accepted] at code
      exact keeps.stored data id guest code

theorem visit_logged : ∃ s, main (fun _ => 0) HandlerOutcomes.idleServer (fun _ => "gate") visits =
    .ok s ∧ Logged HandlerOutcomes.idleServer (compareCalls (fun _ => "gate") s)
      s.shared.requests.shared := by
  obtain ⟨s, ran, -⟩ := visit_runs
  exact ⟨s, ran, main_logged ran⟩

end Log

section Pictures

open GuestServer GuestReplies FrameCodec

abbrev Calls := List (Call Service Byte FrameCodec.Request Surroundings)

def listAfter (guestList : List GuestPic)
    (call : Call Service Byte FrameCodec.Request Surroundings) : List GuestPic :=
  match guestRequest call.request with
  | some request => (GuestSerial.plain call.outcome.clock guestList request).guestList
  | none => guestList

def listed (calls : Calls) : List GuestPic := calls.foldl listAfter []

theorem listed_concat (calls : Calls) (call : Call Service Byte FrameCodec.Request Surroundings) :
    listed (calls ++ [call]) = listAfter (listed calls) call := by
  rw [listed, List.foldl_append]
  rfl

structure Listed (initEngine : ℕ → Int) (database : Server) (s : State) : Prop where
  quiet : BetweenEvents initEngine database s.shared
  list : s.shared.guests.shared.data.pics = listed s.calls
  replies : ∀ (k : ℕ) call request, s.calls[k]? = some call →
    guestRequest call.request = some request → call.reply =
      (GuestSerial.plain call.outcome.clock (listed (s.calls.take k)) request).sent.flatten

theorem Listed.concat {s : State} (h : Listed initEngine database s) {peers : Peers}
    {call : Call Service Byte FrameCodec.Request Surroundings} {shared : Process}
    (quiet : BetweenEvents initEngine database shared)
    (list : shared.guests.shared.data.pics = listAfter (listed s.calls) call)
    (reply : ∀ request, guestRequest call.request = some request → call.reply =
      (GuestSerial.plain call.outcome.clock (listed s.calls) request).sent.flatten) :
    Listed initEngine database ⟨peers, s.calls ++ [call], shared⟩ := by
  refine ⟨quiet, list.trans (listed_concat s.calls call).symm, fun k call' request at_k asked => ?_⟩
  by_cases old : k < s.calls.length
  · rw [List.take_append_of_le_length old.le]
    exact h.replies k call' request ((List.getElem?_append_left old).symm.trans at_k) asked
  · have inside := (List.getElem?_eq_some_iff.mp at_k).1
    rw [List.length_append, List.length_singleton] at inside
    obtain rfl : k = s.calls.length := by omega
    obtain rfl := Option.some.inj (List.getElem?_concat_length.symm.trans at_k)
    rw [List.take_left]
    exact reply request asked

theorem Listed.answers {s : State} (h : Listed initEngine database s) {peers : Peers}
    {kind : Service} {i : ℕ} {message : FrameCodec.Request} {outcome : Surroundings}
    {reply : List Byte} {shared : Process}
    (answer : onStringMessage ip i message outcome s.shared = some (reply, shared)) :
    Listed initEngine database
      ⟨peers, s.calls ++ [⟨kind, i, message, outcome, reply⟩], shared⟩ := by
  unfold onStringMessage at answer
  cases compare : compareRequest (ip i) message with
  | some request =>
    rw [compare] at answer
    obtain ⟨ret, d, past, answer', -, quiet⟩ := onCompare_spec h.quiet request outcome
    cases answer.symm.trans answer'
    have other : guestRequest message = none := by
      cases message <;> first | rfl | cases compare
    refine h.concat quiet ?_ fun request asked => ?_
    · rw [listAfter, other]
      exact h.list
    · rw [other] at asked
      cases asked
  | none =>
    rw [compare] at answer
    cases guest : guestRequest message with
    | some request =>
      rw [guest] at answer
      obtain ⟨d, answer', list, quiet⟩ := onGuest_spec h.quiet request outcome
      cases answer.symm.trans answer'
      rw [h.list] at list
      refine h.concat quiet ?_ fun request' asked => ?_
      · rw [listAfter, guest]
        exact list
      · cases guest.symm.trans asked
        rw [h.list]
    | none =>
      rw [guest] at answer
      cases answer
      refine h.concat h.quiet ?_ fun request asked => ?_
      · rw [listAfter, guest]
        exact h.list
      · rw [guest] at asked
        cases asked

theorem listed_of_main {s : State} (h : main initEngine database ip events = .ok s) :
    Listed initEngine database s := by
  refine run_keeps (fun _ s => Listed initEngine database s)
    ⟨betweenEvents_launched initEngine database, rfl, fun k call request none => by cases none⟩ ?_ h
  intro events event s s' listed stepped
  cases stepped with
  | accept kind =>
    exact ⟨betweenEvents_onConnection _ _ _ listed.quiet, listed.list, listed.replies⟩
  | close at_i up =>
    exact ⟨betweenEvents_onConnection _ _ _ listed.quiet, listed.list, listed.replies⟩
  | waits outcome at_i up next => exact ⟨listed.quiet, listed.list, listed.replies⟩
  | answers at_i up next answer => exact listed.answers answer

/-- No connection has brought more bytes than a buffer can count. -/
def Small (events : Events) : Prop :=
  ∀ i, (readsOf i events).flatten.length < 9223372036854775808

theorem small_of_concat {event : ConnectionLoop.Event Service Byte Surroundings}
    (small : Small (events ++ [event])) : Small events := by
  intro i
  have whole := small i
  rw [readsOf_concat, List.flatten_append, List.length_append] at whole
  omega

theorem visit_small : Small visits := by
  intro i
  have total : (readsOf i visits).flatten.length ≤ 39 := by
    by_cases gate : i = 0
    · subst gate
      decide
    by_cases guest : i = 1
    · subst guest
      decide
    have none : readsOf i visits = [] := by simp [readsOf, visits, Ne.symm gate, Ne.symm guest]
    rw [none]
    exact Nat.zero_le _
  omega

def Framed (calls : Calls) : Prop :=
  ∀ call ∈ calls, ∀ data len id, call.request = .add data len id → WellFormed len data

theorem framed_of_main {s : State} (h : main initEngine database ip events = .ok s)
    (small : Small events) : Framed s.calls := by
  have initial : Isolated (callbacks ip) [] ⟨[], [], launched initEngine database⟩ :=
    isolated_of_run rfl
  refine (run_keeps (fun events s => Isolated (callbacks ip) events s ∧
    (Small events → Framed s.calls)) ⟨initial, fun _ call mem => absurd mem List.not_mem_nil⟩
      ?_ h).2 small
  rintro events event s s' ⟨isolated, framed⟩ stepped
  refine ⟨isolated.step stepped, fun small => ?_⟩
  have before := framed (small_of_concat small)
  cases stepped with
  | accept kind => exact before
  | close at_i up => exact before
  | waits outcome at_i up next => exact before
  | @answers i p bytes rest reply request outcome shared at_i up next answer =>
    intro call mem data len id add
    rcases List.mem_append.mp mem with old | new
    · exact before call old data len id add
    · rw [List.mem_singleton.mp new] at add
      obtain rfl : request = .add data len id := add
      have own : Belongs p.kind (.add data len id) := belongs_of_onMessage next
      have guest : p.kind = .guest := by
        cases kind : p.kind with
        | compare =>
          rw [kind] at own
          exact own.elim
        | guest => rfl
      have next' : p.kind.onMessage (p.stream.unread ++ bytes) =
        .ok (some (.add data len id), rest) := next
      rw [guest] at next'
      have held := FrameStream.run_unread_length_le
        (fun buf out rest h => (CodecSafety.consumes_onMessage p.kind buf out rest h).length_le)
        (readsOf i events) (isolated.served i p at_i).stream
      refine wellFormed_of_onMessage ?_ next'
      have whole := small i
      rw [readsOf_self, List.flatten_append, List.length_append, List.flatten_singleton] at whole
      rw [List.length_append]
      omega

theorem wellFormed_of_mem_listed {calls : Calls} (framed : Framed calls) {pic : GuestPic}
    (mem : pic ∈ listed calls) : WellFormed pic.len_pic pic.data := by
  induction calls using List.reverseRecOn with
  | nil => exact absurd mem List.not_mem_nil
  | append_singleton calls call ih =>
    have earlier := ih fun call old => framed call (List.mem_append_left _ old)
    rw [listed_concat, listAfter] at mem
    cases message : call.request with
    | add data len id =>
      rw [message] at mem
      have kept := (GuestClearing.clearList_suffix _ _ _).subset mem
      rcases List.mem_append.mp kept with old | new
      · exact earlier old
      · rw [List.mem_singleton.mp new]
        have last := List.mem_append_right calls (List.mem_singleton_self call)
        exact framed call last data len id message
    | query id =>
      rw [message] at mem
      exact earlier mem
    | comp data len =>
      rw [message] at mem
      exact earlier mem
    | addu data len id =>
      rw [message] at mem
      exact earlier mem
    | addg data len id =>
      rw [message] at mem
      exact earlier mem

/-- After any events on any connections, the bytes that answer a query tell its client
which pictures of the id the guest server held when it was asked. -/
theorem main_query_decodable {s : State} (h : main initEngine database ip events = .ok s)
    (small : Small events) {k : ℕ} {call : Call Service Byte FrameCodec.Request Surroundings}
    (at_k : s.calls[k]? = some call) {id : Int} (query : call.request = .query id) :
    decodeReply call.reply =
      some (((listed (s.calls.take k)).filter fun pic => id = pic.id).map GuestPic.data) := by
  have framed := framed_of_main h small
  rw [(listed_of_main h).replies k call (.qury id) at_k (by rw [query]; rfl)]
  rw [GuestSerial.plain, query_sent]
  refine decodeReply_reply _ fun pic mem => ?_
  have earlier : Framed (s.calls.take k) := fun call old => framed call (List.mem_of_mem_take old)
  exact wellFormed_of_mem_listed earlier (List.mem_of_mem_filter mem)

theorem visit_query_decodable : ∃ s call, s.calls[2]? = some call ∧
    main (fun _ => 0) HandlerOutcomes.idleServer (fun _ => "gate") visits = .ok s ∧
      GuestReplies.decodeReply call.reply = some (((listed (s.calls.take 2)).filter fun pic =>
        7 = pic.id).map GuestServer.GuestPic.data) := by
  obtain ⟨s, ran, calls⟩ := visit_runs
  have third : (s.calls.map fun call => (call.request, call.reply))[2]? =
      some (.query 7, [6, 0, 0, 0, 1, 2]) := by rw [calls]; rfl
  rw [List.getElem?_map] at third
  obtain ⟨call, at_two, asked⟩ := Option.map_eq_some_iff.mp third
  exact ⟨s, call, at_two, ran,
    main_query_decodable ran visit_small at_two (congrArg Prod.fst asked)⟩

end Pictures

end ARCServer.MainService
