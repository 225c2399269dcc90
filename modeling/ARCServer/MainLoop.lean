import ARCServer.CodecSafety
import ARCServer.CompareServer
import ARCServer.ConnectionLoop
import ARCServer.DeadlockFreedom
import ARCServer.GuestSerial
import Mathlib.Data.Finset.Basic

/-! The program: one event loop with the compare server and the guest server on it. Every
callback runs to its end on the thread of the loop. -/

namespace ARCServer.MainLoop

open InterleavedPrograms EnginePool RequestHandlers PoolExclusivity DeadlockFreedom
open CompareServer (noReply)
open FrameCodec (okReply)
open DataRefinement (bind_ok bind_error)
open FrameCodec (Service)
open ConnectionLoop SerialRuns MachineIntegers

structure Surroundings where
  sdk : ℕ → FaceSdk.Outside
  clock : ℕ → GuestHandlers.Outside

structure Process where
  requests : Requests
  guests : GuestConcurrency.Calls
  connections : Service → Finset ℕ

/-- `onConnection` of both servers. Nothing else refers to the list, so it is never copied. -/
def onConnection (service : Service) (conn : ℕ) (connected : Bool) (s : Process) : Process :=
  let connections_ := s.connections service
  let connections_ := if connected then insert conn connections_ else connections_.erase conn
  { s with connections := Function.update s.connections service connections_ }

def onCompare (request : Request) (outcome : Surroundings) (s : Process) :
    Option (List Byte × Process) :=
  (serve arcServer s.requests request outcome.sdk).map fun served =>
    (if served.1 = 0 then okReply else noReply, { s with requests := served.2 })

def onGuest (request : GuestHandlers.Request) (outcome : Surroundings) (s : Process) :
    Option (List Byte × Process) :=
  (serve GuestHandlers.guestServer s.guests request outcome.clock).map fun served =>
    (served.1.flatten, { s with guests := served.2 })

def compareRequest (ip : String) : FrameCodec.Request → Option Request
  | .comp data len => some (.compareFace (data.take len.toNat) ip)
  | .addu data len id => some (.addFeature (data.take len.toNat) id)
  | .addg data len id => some (.addFeatureG (data.take len.toNat) id)
  | _ => none

def guestRequest : FrameCodec.Request → Option GuestHandlers.Request
  | .add data len id => some (.appl data len id)
  | .query id => some (.qury id)
  | _ => none

def onStringMessage (ip : ℕ → String) (conn : ℕ) (message : FrameCodec.Request)
    (outcome : Surroundings) (s : Process) : Option (List Byte × Process) :=
  match compareRequest (ip conn) message, guestRequest message with
  | some request, _ => onCompare request outcome s
  | none, some request => onGuest request outcome s
  | none, none => some ([], s)

/-- The callbacks set in the constructors; `ip` has the addresses of the peers. -/
def callbacks (ip : ℕ → String) :
    Callbacks Service Byte FrameCodec.Request FrameCodec.Fault Surroundings Process where
  onConnection := onConnection
  next := Service.onMessage
  answer _ := onStringMessage ip

def launched (initEngine : ℕ → Int) (database : Server) : Process :=
  ⟨opened initEngine database, GuestConcurrency.opened, fun _ => ∅⟩

abbrev Events := List (ConnectionLoop.Event Service Byte Surroundings)

abbrev State := Loop Service Byte FrameCodec.Request Surroundings Process

/-- `main` up to the given events. -/
def main (initEngine : ℕ → Int) (database : Server) (ip : ℕ → String) (events : Events) :
    Except (Stop FrameCodec.Fault) State :=
  (callbacks ip).run (launched initEngine database) events

section Callbacks

variable {initEngine : ℕ → Int} {database : Server} {ip : ℕ → String} {s s' : Process}

/-- Between two events all requests are through, and both servers are in a state that
their interleaved runs can come to. -/
structure BetweenEvents (initEngine : ℕ → Int) (database : Server) (s : Process) : Prop where
  requests : ∃ moves, arcServer.run (opened initEngine database) moves = some s.requests
  served : Idle s.requests
  guests : GuestSerial.Reached s.guests
  answered : Idle s.guests

theorem betweenEvents_launched (initEngine : ℕ → Int) (database : Server) :
    BetweenEvents initEngine database (launched initEngine database) :=
  ⟨⟨[], rfl⟩, fun _ mem => absurd mem List.not_mem_nil, ⟨[], rfl⟩,
    fun _ mem => absurd mem List.not_mem_nil⟩

theorem betweenEvents_onConnection (service : Service) (conn : ℕ) (connected : Bool)
    (h : BetweenEvents initEngine database s) :
    BetweenEvents initEngine database (onConnection service conn connected s) :=
  ⟨h.requests, h.served, h.guests, h.answered⟩

theorem lively_arcServer (initEngine : ℕ → Int) (database : Server) :
    Lively arcServer fun c =>
      ∃ moves, arcServer.run (opened initEngine database) moves = some c := by
  refine ⟨?_, ?_⟩
  · rintro c m d ⟨moves, reached⟩ moved
    refine ⟨moves ++ [m], ?_⟩
    rw [arcServer.run_concat, reached]
    exact moved
  · rintro c i t ⟨moves, reached⟩ at_i running others outcome
    have live := ((always_coordinated initEngine database moves).last arcServer reached).live
    have unfinished : ¬ Finished t := fun ⟨ret, code⟩ => running ret code
    obtain ⟨j, u, at_j, still, enabled⟩ :=
      live.progress ⟨t, List.mem_of_getElem? at_i, unfinished⟩
    by_cases same : j = i
    · exact same ▸ enabled outcome
    · exact absurd (others j u at_j same) still

def verdict (ret : Int) : List Byte := if ret = 0 then okReply else noReply

theorem onCompare_spec (h : BetweenEvents initEngine database s) (request : Request)
    (outcome : Surroundings) :
    ∃ ret d past, onCompare request outcome s = some (verdict ret, { s with requests := d }) ∧
      d.threads = s.requests.threads ++ [⟨request, .ret ret, past⟩] ∧
        BetweenEvents initEngine database { s with requests := d } := by
  obtain ⟨⟨ret, d⟩, served⟩ := Option.isSome_iff_exists.mp
    (serve_isSome (lively_arcServer initEngine database) h.served h.requests request outcome.sdk)
  obtain ⟨past, grown⟩ := serve_threads served
  refine ⟨ret, d, past, ?_, grown, reached_serve h.requests served, h.served.serve served,
    h.guests, h.answered⟩
  rw [onCompare, served]
  rfl

theorem onGuest_spec (h : BetweenEvents initEngine database s) (request : GuestHandlers.Request)
    (outcome : Surroundings) :
    ∃ d, onGuest request outcome s = some
        ((GuestSerial.plain outcome.clock s.guests.shared.data.pics request).sent.flatten,
          { s with guests := d }) ∧
      d.shared.data.pics =
        (GuestSerial.plain outcome.clock s.guests.shared.data.pics request).guestList ∧
      BetweenEvents initEngine database { s with guests := d } := by
  obtain ⟨d, served, list⟩ := GuestSerial.serve_plain h.guests h.answered request outcome.clock
  refine ⟨d, ?_, list, h.requests, h.served, reached_serve h.guests served,
    h.answered.serve served⟩
  rw [onGuest, served]
  rfl

theorem onStringMessage_between (h : BetweenEvents initEngine database s) (conn : ℕ)
    (message : FrameCodec.Request) (outcome : Surroundings) :
    ∃ reply s', onStringMessage ip conn message outcome s = some (reply, s') ∧
      BetweenEvents initEngine database s' := by
  unfold onStringMessage
  cases compareRequest (ip conn) message with
  | some request =>
    obtain ⟨ret, d, past, answer, -, quiet⟩ := onCompare_spec h request outcome
    exact ⟨_, _, answer, quiet⟩
  | none =>
    cases guestRequest message with
    | some request =>
      obtain ⟨d, answer, -, quiet⟩ := onGuest_spec h request outcome
      exact ⟨_, _, answer, quiet⟩
    | none => exact ⟨[], s, rfl, h⟩

end Callbacks

/-- Whatever happens on the connections, no callback waits for ever. -/
theorem main_never_blocks (initEngine : ℕ → Int) (database : Server) (ip : ℕ → String)
    (events : Events) : main initEngine database ip events ≠ .error .blocked :=
  run_not_blocked (betweenEvents_launched initEngine database)
    (fun service conn connected _ => betweenEvents_onConnection service conn connected)
    (fun _ conn message outcome _ quiet => onStringMessage_between quiet conn message outcome)
    events

section Rest

variable {initEngine : ℕ → Int} {database : Server} {s : Process}

structure ServersAtRest (s : Process) : Prop where
  permits : s.requests.shared.pool.sem = semPermits
  mutex : s.requests.shared.pool.mutex = false
  engines : s.requests.shared.pool.enginespoll.Perm (List.range cMaxNum)
  lock_user : s.requests.shared.lock_user = .free
  lock_guest : s.requests.shared.lock_guest = .free
  lock : s.guests.shared.lock = .free
  proper : s.guests.shared.data.misused = false

theorem BetweenEvents.atRest (h : BetweenEvents initEngine database s) : ServersAtRest s := by
  obtain ⟨moves, reached⟩ := h.requests
  have coordinated := (always_coordinated initEngine database moves).last arcServer reached
  have idle : ∀ phase ∈ (sessions s.requests).map RequestSession.Session.phase, phase = .idle :=
    forall_phases fun t mem => by
      by_contra busy
      exact coordinated.unfinished_of_phase mem busy (h.served t mem)
  have none_busy : ((sessions s.requests).map RequestSession.Session.phase).countP Phase.busy = 0 :=
    List.countP_eq_zero.mpr fun phase mem => by rw [idle phase mem]; decide
  have none_held :
      ((sessions s.requests).map RequestSession.Session.phase).filterMap Phase.engine = [] :=
    List.filterMap_eq_nil_iff.mpr fun phase mem => by rw [idle phase mem]; rfl
  obtain ⟨mutex, user, guest⟩ := coordinated.live.at_rest h.served
  have permits := coordinated.pool.permits
  have engines := coordinated.pool.engines
  rw [none_busy, Nat.add_zero] at permits
  rw [none_held, List.append_nil] at engines
  have guests := GuestSerial.callsAtRest_of_reached h.guests h.answered
  exact ⟨permits, mutex, engines, user, guest, guests.lock, guests.settled.proper⟩

end Rest

section Messages

open FrameCodec

def Belongs : Service → FrameCodec.Request → Prop
  | .compare, .comp _ _ | .compare, .addu _ _ _ | .compare, .addg _ _ _ => True
  | .guest, .add _ _ _ | .guest, .query _ => True
  | _, _ => False

def Yields {α : Type} (x : Buffered α) (post : α → Prop) : Prop :=
  ∀ buf a rest, x buf = .ok (a, rest) → post a

theorem Yields.pure {α : Type} {post : α → Prop} {a : α} (h : post a) :
    Yields (pure a : Buffered α) post := by
  rintro buf b rest ⟨⟩
  exact h

theorem Yields.bind {α κ : Type} {x : Buffered α} {f : α → Buffered κ} {post : κ → Prop}
    (h : ∀ a, Yields (f a) post) : Yields (x >>= f) post := by
  intro buf b rest ran
  cases first : x buf with
  | error fault =>
    rw [bind_error first] at ran
    cases ran
  | ok r =>
    obtain ⟨a, middle⟩ := r
    rw [bind_ok first] at ran
    exact h a middle b rest ran

theorem yields_dispatch (service : Service) (len flag : Int) :
    Yields (service.dispatch len flag) fun out => ∀ m ∈ out, Belongs service m := by
  have nothing : ∀ m ∈ (none : Option FrameCodec.Request), Belongs service m := fun m mem => by
    cases mem
  have one (m : FrameCodec.Request) (h : Belongs service m) : ∀ m' ∈ some m, Belongs service m' :=
    fun m' mem => Option.some.inj mem ▸ h
  rw [dispatch_eq]
  cases service with
  | compare =>
    simp only [Service.layout]
    split_ifs
    · exact .bind fun image => .pure (one _ trivial)
    · exact .bind fun id => .bind fun image => .pure (one _ trivial)
    · exact .bind fun id => .bind fun image => .pure (one _ trivial)
    · exact .pure nothing
  | guest =>
    simp only [Service.layout]
    split_ifs
    · exact .bind fun id => .bind fun image => .pure (one _ trivial)
    · exact .bind fun id => .pure (one _ trivial)
    · exact .pure nothing

theorem yields_onMessage (service : Service) :
    Yields service.onMessage fun out => ∀ m ∈ out, Belongs service m := by
  have nothing : ∀ m ∈ (none : Option FrameCodec.Request), Belongs service m := fun m mem => by
    cases mem
  rw [Service.onMessage_eq]
  refine .bind fun n => ?_
  split
  · refine .bind fun len => .bind fun n => ?_
    split
    · exact .bind fun _ => .bind fun flag_be32 => .bind fun _ => yields_dispatch service _ _
    · exact .pure nothing
  · exact .pure nothing

theorem belongs_of_onMessage {service : Service} {buf rest : Buffer} {message : FrameCodec.Request}
    (h : service.onMessage buf = .ok (some message, rest)) : Belongs service message :=
  yields_onMessage service buf _ rest h message rfl

end Messages

end ARCServer.MainLoop
