import ARCServer.FrameStream

/-! One thread that serves any number of connections over shared state. An event is a new
connection, bytes on one of them, or its end; it is handled to the end before the next.
Kinds of connections, symbols, requests, replies and states are arbitrary types. -/

namespace ARCServer.ConnectionLoop

open FrameStream

variable {κ β γ ε ω σ : Type*}

/-- What the callbacks of a server do. `answer` gives the reply to a request of a peer and
the new state; it is `none` if the callback never returns. -/
structure Callbacks (κ β γ ε ω σ : Type*) where
  onConnection : κ → ℕ → Bool → σ → σ
  next : κ → Handler β γ ε
  answer : κ → ℕ → γ → ω → σ → Option (List β × σ)

inductive Stop (ε : Type*)
  | fault (e : ε)
  | blocked
  /-- An event of a connection that is not up, which the library never delivers. -/
  | stray
  deriving DecidableEq, Repr

structure Peer (κ β γ : Type*) where
  kind : κ
  up : Bool
  stream : Connection β γ
  sent : List β

structure Call (κ β γ ω : Type*) where
  kind : κ
  peer : ℕ
  request : γ
  outcome : ω
  reply : List β

structure Loop (κ β γ ω σ : Type*) where
  peers : List (Peer κ β γ)
  calls : List (Call κ β γ ω)
  shared : σ

inductive Event (κ β ω : Type*)
  | accept (kind : κ)
  | read (i : ℕ) (bytes : List β) (outcome : ω)
  | close (i : ℕ)

variable (C : Callbacks κ β γ ε ω σ)

def Callbacks.read (s : Loop κ β γ ω σ) (i : ℕ) (p : Peer κ β γ) (bytes : List β) (outcome : ω) :
    Except (Stop ε) (Loop κ β γ ω σ) :=
  match C.next p.kind (p.stream.unread ++ bytes) with
  | .error e => .error (.fault e)
  | .ok (none, rest) =>
    .ok { s with peers := s.peers.set i { p with stream := ⟨rest, p.stream.delivered⟩ } }
  | .ok (some request, rest) =>
    match C.answer p.kind i request outcome s.shared with
    | none => .error .blocked
    | some (reply, shared) =>
      .ok ⟨s.peers.set i ⟨p.kind, p.up, ⟨rest, p.stream.delivered ++ [request]⟩, p.sent ++ reply⟩,
        s.calls ++ [⟨p.kind, i, request, outcome, reply⟩], shared⟩

def Callbacks.close (s : Loop κ β γ ω σ) (i : ℕ) (p : Peer κ β γ) : Loop κ β γ ω σ :=
  { s with
    peers := s.peers.set i { p with up := false }
    shared := C.onConnection p.kind i false s.shared }

def Loop.peer (s : Loop κ β γ ω σ) (i : ℕ) : Option (Peer κ β γ) := (s.peers[i]?).filter Peer.up

def Callbacks.step (s : Loop κ β γ ω σ) : Event κ β ω → Except (Stop ε) (Loop κ β γ ω σ)
  | .accept kind => .ok { s with
      peers := s.peers ++ [⟨kind, true, ⟨[], []⟩, []⟩]
      shared := C.onConnection kind s.peers.length true s.shared }
  | .read i bytes outcome =>
    match s.peer i with
    | none => .error .stray
    | some p => C.read s i p bytes outcome
  | .close i =>
    match s.peer i with
    | none => .error .stray
    | some p => .ok (C.close s i p)

def Callbacks.run (first : σ) (events : List (Event κ β ω)) :
    Except (Stop ε) (Loop κ β γ ω σ) :=
  events.foldlM C.step ⟨[], [], first⟩

inductive Stepped (s : Loop κ β γ ω σ) : Event κ β ω → Loop κ β γ ω σ → Prop
  | accept (kind : κ) : Stepped s (.accept kind) { s with
      peers := s.peers ++ [⟨kind, true, ⟨[], []⟩, []⟩]
      shared := C.onConnection kind s.peers.length true s.shared }
  | close {i : ℕ} {p : Peer κ β γ} (at_i : s.peers[i]? = some p) (up : p.up = true) :
      Stepped s (.close i) (C.close s i p)
  | waits {i : ℕ} {p : Peer κ β γ} {bytes rest : List β} (outcome : ω)
      (at_i : s.peers[i]? = some p) (up : p.up = true)
      (next : C.next p.kind (p.stream.unread ++ bytes) = .ok (none, rest)) :
      Stepped s (.read i bytes outcome)
        { s with peers := s.peers.set i { p with stream := ⟨rest, p.stream.delivered⟩ } }
  | answers {i : ℕ} {p : Peer κ β γ} {bytes rest reply : List β} {request : γ} {outcome : ω}
      {shared : σ} (at_i : s.peers[i]? = some p) (up : p.up = true)
      (next : C.next p.kind (p.stream.unread ++ bytes) = .ok (some request, rest))
      (answer : C.answer p.kind i request outcome s.shared = some (reply, shared)) :
      Stepped s (.read i bytes outcome)
        ⟨s.peers.set i ⟨p.kind, p.up, ⟨rest, p.stream.delivered ++ [request]⟩, p.sent ++ reply⟩,
          s.calls ++ [⟨p.kind, i, request, outcome, reply⟩], shared⟩

section Steps

variable {C} {s s' : Loop κ β γ ω σ} {event : Event κ β ω}

theorem peer_eq_some {i : ℕ} {p : Peer κ β γ} (h : s.peer i = some p) :
    s.peers[i]? = some p ∧ p.up = true := by
  have found := Option.filter_eq_some_iff.mp h
  exact ⟨found.1, found.2⟩

theorem stepped_of_step (h : C.step s event = .ok s') : Stepped C s event s' := by
  cases event with
  | accept kind =>
    cases h
    exact .accept kind
  | read i bytes outcome =>
    simp only [Callbacks.step] at h
    cases peer : s.peer i with
    | none =>
      rw [peer] at h
      cases h
    | some p =>
      obtain ⟨at_i, up⟩ := peer_eq_some peer
      simp only [peer, Callbacks.read] at h
      cases next : C.next p.kind (p.stream.unread ++ bytes) with
      | error e =>
        rw [next] at h
        cases h
      | ok r =>
        obtain ⟨out, rest⟩ := r
        cases out with
        | none =>
          rw [next] at h
          cases h
          exact .waits outcome at_i up next
        | some request =>
          simp only [next] at h
          cases answer : C.answer p.kind i request outcome s.shared with
          | none =>
            rw [answer] at h
            cases h
          | some answered =>
            rw [answer] at h
            cases h
            exact .answers at_i up next answer
  | close i =>
    simp only [Callbacks.step] at h
    cases peer : s.peer i with
    | none =>
      rw [peer] at h
      cases h
    | some p =>
      obtain ⟨at_i, up⟩ := peer_eq_some peer
      rw [peer] at h
      cases h
      exact .close at_i up

theorem step_not_blocked (answers : ∀ kind i request outcome,
    (C.answer kind i request outcome s.shared).isSome) : C.step s event ≠ .error .blocked := by
  cases event with
  | accept kind => exact nofun
  | close i =>
    simp only [Callbacks.step]
    cases s.peer i with
    | none => exact nofun
    | some p => exact nofun
  | read i bytes outcome =>
    simp only [Callbacks.step]
    cases s.peer i with
    | none => exact nofun
    | some p =>
      simp only [Callbacks.read]
      cases C.next p.kind (p.stream.unread ++ bytes) with
      | error e => exact nofun
      | ok r =>
        obtain ⟨out, rest⟩ := r
        cases out with
        | none => exact nofun
        | some request =>
          obtain ⟨answered, done⟩ := Option.isSome_iff_exists.mp (answers p.kind i request outcome)
          simp only [done]
          exact nofun

end Steps

section Runs

variable {C} {first : σ} {events : List (Event κ β ω)}

theorem run_concat (events : List (Event κ β ω)) (event : Event κ β ω) :
    C.run first (events ++ [event]) = (C.run first events).bind fun s => C.step s event := by
  unfold Callbacks.run
  rw [List.foldlM_append]
  cases List.foldlM C.step ⟨[], [], first⟩ events with
  | error e => rfl
  | ok s =>
    simp only [Except.bind, bind, List.foldlM_cons, List.foldlM_nil]
    cases C.step s event <;> rfl

/-- What holds at first and is kept by every event holds after every run. -/
theorem run_keeps (inv : List (Event κ β ω) → Loop κ β γ ω σ → Prop)
    (initial : inv [] ⟨[], [], first⟩)
    (step : ∀ events event s s', inv events s → Stepped C s event s' → inv (events ++ [event]) s')
    {s : Loop κ β γ ω σ} (h : C.run first events = .ok s) : inv events s := by
  induction events using List.reverseRecOn generalizing s with
  | nil =>
    cases h
    exact initial
  | append_singleton events event ih =>
    rw [run_concat] at h
    cases before : C.run first events with
    | error e =>
      rw [before] at h
      cases h
    | ok t =>
      rw [before] at h
      exact step events event t s (ih before) (stepped_of_step h)

theorem run_keeps_shared {inv : σ → Prop} (initial : inv first)
    (onConnection : ∀ kind i up s, inv s → inv (C.onConnection kind i up s))
    (answer : ∀ kind i request outcome s reply s', inv s →
      C.answer kind i request outcome s = some (reply, s') → inv s')
    {s : Loop κ β γ ω σ} (h : C.run first events = .ok s) : inv s.shared := by
  refine run_keeps (fun _ s => inv s.shared) initial ?_ h
  intro events event s s' holds stepped
  cases stepped with
  | accept kind => exact onConnection _ _ _ _ holds
  | close at_i up => exact onConnection _ _ _ _ holds
  | waits outcome at_i up next => exact holds
  | answers at_i up next done => exact answer _ _ _ _ _ _ _ holds done

theorem run_not_blocked {inv : σ → Prop} (initial : inv first)
    (onConnection : ∀ kind i up s, inv s → inv (C.onConnection kind i up s))
    (answer : ∀ kind i request outcome s, inv s →
      ∃ reply s', C.answer kind i request outcome s = some (reply, s') ∧ inv s')
    (events : List (Event κ β ω)) : C.run first events ≠ .error .blocked := by
  induction events using List.reverseRecOn with
  | nil => exact nofun
  | append_singleton events event ih =>
    rw [run_concat]
    cases before : C.run first events with
    | error e =>
      rw [before] at ih
      intro same
      cases same
      exact ih rfl
    | ok s =>
      refine step_not_blocked fun kind i request outcome => ?_
      have holds : inv s.shared := by
        refine run_keeps_shared initial onConnection ?_ before
        intro kind i request outcome s reply s' holds done
        obtain ⟨reply', t, done', kept⟩ := answer kind i request outcome s holds
        rw [done] at done'
        cases done'
        exact kept
      obtain ⟨reply, t, done, -⟩ := answer kind i request outcome s.shared holds
      rw [done]
      rfl

end Runs

section Isolation

def readsOf (i : ℕ) (events : List (Event κ β ω)) : List (List β) :=
  events.filterMap fun
    | .read j bytes _ => if j = i then some bytes else none
    | _ => none

def callsOf (i : ℕ) (calls : List (Call κ β γ ω)) : List (Call κ β γ ω) :=
  calls.filter fun call => call.peer = i

structure Served (events : List (Event κ β ω)) (calls : List (Call κ β γ ω)) (i : ℕ)
    (p : Peer κ β γ) : Prop where
  stream : FrameStream.run (C.next p.kind) (readsOf i events) = .ok p.stream
  delivered : p.stream.delivered = (callsOf i calls).map Call.request
  sent : p.sent = (callsOf i calls).flatMap Call.reply
  kind : ∀ call ∈ callsOf i calls, call.kind = p.kind

structure Isolated (events : List (Event κ β ω)) (s : Loop κ β γ ω σ) : Prop where
  served : ∀ (i : ℕ) p, s.peers[i]? = some p → Served C events s.calls i p
  reads : ∀ i, s.peers.length ≤ i → readsOf i events = []
  calls : ∀ call ∈ s.calls, call.peer < s.peers.length

variable {C} {events : List (Event κ β ω)} {calls : List (Call κ β γ ω)} {i j : ℕ} {p : Peer κ β γ}

theorem readsOf_concat (event : Event κ β ω) :
    readsOf i (events ++ [event]) = readsOf i events ++ readsOf i [event] :=
  List.filterMap_append

theorem readsOf_self (bytes : List β) (outcome : ω) :
    readsOf i (events ++ [.read i bytes outcome]) = readsOf i events ++ [bytes] := by
  rw [readsOf_concat]
  congr 1
  exact List.filterMap_cons_some (if_pos rfl)

theorem readsOf_other (other : j ≠ i) (bytes : List β) (outcome : ω) :
    readsOf i (events ++ [.read j bytes outcome]) = readsOf i events := by
  rw [readsOf_concat]
  have nothing : readsOf i [(.read j bytes outcome : Event κ β ω)] = [] :=
    List.filterMap_cons_none (if_neg other)
  rw [nothing, List.append_nil]

theorem readsOf_silent {event : Event κ β ω} (silent : readsOf i [event] = []) :
    readsOf i (events ++ [event]) = readsOf i events := by
  rw [readsOf_concat, silent, List.append_nil]

theorem callsOf_self (call : Call κ β γ ω) :
    callsOf call.peer (calls ++ [call]) = callsOf call.peer calls ++ [call] := by
  have own : [call].filter (fun other => other.peer = call.peer) = [call] :=
    List.filter_cons_of_pos (decide_eq_true rfl)
  rw [callsOf, List.filter_append, own]
  rfl

theorem callsOf_other {call : Call κ β γ ω} (other : call.peer ≠ i) :
    callsOf i (calls ++ [call]) = callsOf i calls := by
  rw [callsOf, List.filter_append, List.filter_cons_of_neg (by simpa using other)]
  exact List.append_nil _

theorem callsOf_absent (absent : ∀ call ∈ calls, call.peer ≠ i) : callsOf i calls = [] :=
  List.filter_eq_nil_iff.mpr fun call mem => by simpa using absent call mem

theorem Served.waits {bytes rest : List β} {outcome : ω} (h : Served C events calls i p)
    (next : C.next p.kind (p.stream.unread ++ bytes) = .ok (none, rest)) :
    Served C (events ++ [.read i bytes outcome]) calls i
      { p with stream := ⟨rest, p.stream.delivered⟩ } := by
  refine ⟨?_, h.delivered, h.sent, h.kind⟩
  rw [readsOf_self, FrameStream.run_concat, h.stream]
  simp only [Except.bind, FrameStream.receive, next, Option.toList_none, List.append_nil]

theorem Served.answers {bytes rest reply : List β} {request : γ} {outcome : ω}
    (h : Served C events calls i p)
    (next : C.next p.kind (p.stream.unread ++ bytes) = .ok (some request, rest)) :
    Served C (events ++ [.read i bytes outcome])
      (calls ++ [⟨p.kind, i, request, outcome, reply⟩]) i
      ⟨p.kind, p.up, ⟨rest, p.stream.delivered ++ [request]⟩, p.sent ++ reply⟩ := by
  have own : callsOf i (calls ++ [⟨p.kind, i, request, outcome, reply⟩]) =
      callsOf i calls ++ [⟨p.kind, i, request, outcome, reply⟩] :=
    callsOf_self (⟨p.kind, i, request, outcome, reply⟩ : Call κ β γ ω)
  refine ⟨?_, ?_, ?_, ?_⟩
  · rw [readsOf_self, FrameStream.run_concat, h.stream]
    simp only [Except.bind, FrameStream.receive, next, Option.toList_some]
  · rw [own, List.map_append, ← h.delivered]
    rfl
  · rw [own, List.flatMap_append, ← h.sent, List.flatMap_singleton]
  · rw [own]
    intro call mem
    rcases List.mem_append.mp mem with old | new
    · exact h.kind call old
    · rw [List.mem_singleton.mp new]

theorem Served.elsewhere {event : Event κ β ω} {more : List (Call κ β γ ω)}
    (h : Served C events calls i p) (silent : readsOf i (events ++ [event]) = readsOf i events)
    (same : callsOf i more = callsOf i calls) : Served C (events ++ [event]) more i p :=
  ⟨silent ▸ h.stream, same ▸ h.delivered, same ▸ h.sent, same ▸ h.kind⟩

theorem Isolated.step {s s' : Loop κ β γ ω σ} {event : Event κ β ω} (h : Isolated C events s)
    (stepped : Stepped C s event s') : Isolated C (events ++ [event]) s' := by
  cases stepped with
  | accept kind =>
    have silent (i : ℕ) : readsOf i (events ++ [.accept kind]) = readsOf i events :=
      readsOf_silent (List.filterMap_cons_none rfl)
    refine ⟨fun i p at_i => ?_, fun i later => ?_, fun call mem => ?_⟩
    · by_cases old : i < s.peers.length
      · have before := (List.getElem?_append_left old).symm.trans at_i
        exact (h.served i p before).elsewhere (silent i) rfl
      · have later : s.peers.length ≤ i := not_lt.mp old
        have new := List.mem_of_getElem? ((List.getElem?_append_right later).symm.trans at_i)
        rw [List.mem_singleton.mp new]
        have none : callsOf i s.calls = [] :=
          callsOf_absent fun call mem => Nat.ne_of_lt (lt_of_lt_of_le (h.calls call mem) later)
        refine ⟨?_, ?_, ?_, ?_⟩
        · rw [silent, h.reads i later]
          rfl
        · rw [none]
          rfl
        · rw [none]
          rfl
        · rw [none]
          exact fun call mem => absurd mem List.not_mem_nil
    · rw [List.length_append] at later
      exact (silent i).trans (h.reads i (le_trans (Nat.le_add_right _ _) later))
    · rw [List.length_append]
      exact Nat.lt_add_right 1 (h.calls call mem)
  | @close i p at_i up =>
    have silent (j : ℕ) : readsOf j (events ++ [.close i]) = readsOf j events :=
      readsOf_silent (List.filterMap_cons_none rfl)
    have inside := (List.getElem?_eq_some_iff.mp at_i).1
    refine ⟨fun j q at_j => ?_, fun j later => ?_, fun call mem => ?_⟩
    · by_cases same : i = j
      · subst same
        obtain rfl := Option.some.inj ((List.getElem?_set_self inside).symm.trans at_j)
        have before := (h.served i p at_i).elsewhere (silent i) rfl
        exact ⟨before.stream, before.delivered, before.sent, before.kind⟩
      · have before := (List.getElem?_set_ne same).symm.trans at_j
        exact (h.served j q before).elsewhere (silent j) rfl
    · rw [Callbacks.close, List.length_set] at later
      exact (silent j).trans (h.reads j later)
    · rw [Callbacks.close, List.length_set]
      exact h.calls call mem
  | @waits i p bytes rest outcome at_i up next =>
    have inside := (List.getElem?_eq_some_iff.mp at_i).1
    refine ⟨fun j q at_j => ?_, fun j later => ?_, fun call mem => ?_⟩
    · by_cases same : i = j
      · subst same
        obtain rfl := Option.some.inj ((List.getElem?_set_self inside).symm.trans at_j)
        exact (h.served i p at_i).waits next
      · have before := (List.getElem?_set_ne same).symm.trans at_j
        exact (h.served j q before).elsewhere (readsOf_other same bytes outcome) rfl
    · rw [List.length_set] at later
      rw [readsOf_other (Nat.ne_of_lt (lt_of_lt_of_le inside later)) bytes outcome]
      exact h.reads j later
    · rw [List.length_set]
      exact h.calls call mem
  | @answers i p bytes rest reply request outcome shared at_i up next answer =>
    have inside := (List.getElem?_eq_some_iff.mp at_i).1
    refine ⟨fun j q at_j => ?_, fun j later => ?_, fun call mem => ?_⟩
    · by_cases same : i = j
      · subst same
        obtain rfl := Option.some.inj ((List.getElem?_set_self inside).symm.trans at_j)
        exact (h.served i p at_i).answers next
      · have before := (List.getElem?_set_ne same).symm.trans at_j
        exact (h.served j q before).elsewhere (readsOf_other same bytes outcome)
          (callsOf_other same)
    · rw [List.length_set] at later
      rw [readsOf_other (Nat.ne_of_lt (lt_of_lt_of_le inside later)) bytes outcome]
      exact h.reads j later
    · rw [List.length_set]
      rcases List.mem_append.mp mem with old | new
      · exact h.calls call old
      · rw [List.mem_singleton.mp new]
        exact inside

/-- In every run each connection is served as if it were the only one. -/
theorem isolated_of_run {first : σ} {s : Loop κ β γ ω σ} (h : C.run first events = .ok s) :
    Isolated C events s :=
  run_keeps (Isolated C)
    ⟨fun _ _ none => (by cases none), fun _ _ => rfl, fun _ mem => absurd mem List.not_mem_nil⟩
    (fun events event s s' isolated stepped => isolated.step stepped) h

end Isolation

end ARCServer.ConnectionLoop
