import ARCServer.GuestConcurrency
import ARCServer.SerialRuns

/-! The guest server's handlers one after another. Access by access, with its iterators and
blocks, a handler that runs alone does what the plain handler does to the plain list. -/

namespace ARCServer.GuestSerial

open InterleavedPrograms GuardedData GuestServer GuestHandlers GuestVisits SerialRuns
open MachineIntegers
open RequestHandlers (ReadWriteLock)
open FrameCodec (okReply)

section Loops

variable {i : ℕ} {d : Store} {l : ReadWriteLock} {outcomes : ℕ → Outside}

theorem executes_access {a : Access} {α : Type} {next : a.Response → Handler α} {d d' : Store}
    {r : a.Response} {s : Guarded Store} {b : α}
    (answer : access i a (outcomes 0) d = (r, d'))
    (rest : Executes (guestServer.step i) (next r) (fun n => outcomes (n + 1)) ⟨l, d'⟩ b s) :
    Executes (guestServer.step i) (.step (.access a) next) outcomes ⟨l, d⟩ b s := by
  have taken : guestServer.step i (.access a) (outcomes 0) ⟨l, d⟩ = some (r, ⟨l, d'⟩) := by
    change some ((access i a (outcomes 0) d).1,
      (⟨l, (access i a (outcomes 0) d).2⟩ : Guarded Store)) = _
    rw [answer]
  exact Executes.step taken rest

theorem executes_clearLoop {curTime : QTime} {fuel : ℕ} {it : Iterator}
    (h : Scanning curTime fuel it d) (outcomes : ℕ → Outside) :
    ∃ d', Executes (guestServer.step i) (clearLoop curTime fuel it) outcomes ⟨l, d⟩ () ⟨l, d'⟩ ∧
      Settled d' ∧ d'.changes = d.changes := by
  induction fuel generalizing it d outcomes with
  | zero => exact absurd h.rounds (Nat.not_lt_zero _)
  | succ fuel ih =>
    cases it with
    | none => exact ⟨d, executes_access rfl (.ret () _ _), h.settled_of_end, rfl⟩
    | some it =>
      obtain ⟨pic, rest, list⟩ := begin_eq_some h.front
      have place : d.guestList = [] ++ ⟨it, pic⟩ :: rest := list
      have front : access i (.deref it) (outcomes 0) d = (pic, d) := deref_middle h.toClean place
      have looked : Seen curTime fuel it (access i (.deref it) (outcomes 0) d).1
          (access i (.deref it) (outcomes 0) d).2 := h.deref
      rw [front] at looked
      by_cases old : pic.addTime ≤ curTime
      · obtain ⟨rest', released⟩ :
            ∃ rest', Released curTime fuel it rest' (access i (.free it) (outcomes 1) d).2 :=
          looked.free old
        have erased : Scanning curTime fuel (begin rest')
            (access i (.erase it) (outcomes 3) (access i (.free it) (outcomes 1) d).2).2 :=
          released.erase
        obtain ⟨d', ran, settled, same⟩ := ih erased fun n => outcomes (n + 4)
        refine ⟨d', executes_access front ?_, settled, same⟩
        change Executes _ (if pic.addTime ≤ curTime then _ else _) _ _ _ _
        rw [if_pos old]
        exact executes_access rfl (executes_access released.advance (executes_access rfl ran))
      · refine ⟨d, executes_access front ?_, looked.settled_of_fresh old, rfl⟩
        change Executes _ (if pic.addTime ≤ curTime then _ else _) _ _ _ _
        rw [if_neg old]
        exact .ret () _ _

theorem executes_queryLoop {id : Int} {fuel : ℕ} {it : Iterator} {flag : ℕ}
    {sent : List (List Byte)} (settled : Settled d) (h : Walking id fuel it flag sent d)
    (outcomes : ℕ → Outside) :
    ∃ r : ℕ × List (List Byte), Executes (guestServer.step i) (queryLoop id fuel it flag sent)
      outcomes ⟨l, d⟩ r ⟨l, d⟩ ∧ Phase.total r.1 r.2 = (onStringMessageQuery id d.pics).sent := by
  induction fuel generalizing it flag sent outcomes with
  | zero => exact ⟨(flag, sent), .ret _ _ _, h.answer (.inl rfl)⟩
  | succ fuel ih =>
    cases it with
    | none => exact ⟨(flag, sent), .ret _ _ _, h.answer (.inr rfl)⟩
    | some it =>
      have looked : Looked id fuel it (access i (.deref it) (outcomes 0) d).1 flag sent
          (access i (.deref it) (outcomes 0) d).2 := h.deref settled
      obtain ⟨done, todo, list, front, -⟩ := h.place
      obtain ⟨pic, rest, rfl⟩ := begin_eq_some front
      have here : access i (.deref it) (outcomes 0) d = (pic, d) :=
        deref_middle settled.toClean list
      rw [here] at looked
      by_cases same : id = pic.id
      · have loaded : PicLoaded id fuel it (flag + 1)
            (sent ++
              [hostBytes (toInt32 (pic.len_pic + 4)), (access i (.load it) (outcomes 1) d).1])
            (access i (.load it) (outcomes 1) d).2 := looked.load settled same
        have bytes : access i (.load it) (outcomes 1) d = (pic.data.take pic.len_pic.toNat, d) :=
          load_middle settled.toClean list
        have advanced : access i (.advance it) (outcomes 2) d = (begin rest, d) :=
          advance_middle settled.distinct list
        rw [bytes] at loaded
        have walking : Walking id fuel (access i (.advance it) (outcomes 2) d).1 (flag + 1) _
          (access i (.advance it) (outcomes 2) d).2 := loaded.advance settled
        rw [advanced] at walking
        obtain ⟨r, ran, total⟩ := ih walking fun n => outcomes (n + 3)
        refine ⟨r, executes_access here ?_, total⟩
        change Executes _ (if id = pic.id then _ else _) _ _ _ _
        rw [if_pos same]
        exact executes_access bytes (executes_access advanced ran)
      · have advanced : access i (.advance it) (outcomes 1) d = (begin rest, d) :=
          advance_middle settled.distinct list
        have walking : Walking id fuel (access i (.advance it) (outcomes 1) d).1 flag sent
          (access i (.advance it) (outcomes 1) d).2 := looked.advance settled same
        rw [advanced] at walking
        obtain ⟨r, ran, total⟩ := ih walking fun n => outcomes (n + 2)
        refine ⟨r, executes_access here ?_, total⟩
        change Executes _ (if id = pic.id then _ else _) _ _ _ _
        rw [if_neg same]
        exact executes_access advanced ran

end Loops

section Handlers

variable {i : ℕ} {d : Store}

theorem currentTime_val (t : QTime) : GuestServer.currentTime t.val = t :=
  Fin.ext (Nat.mod_eq_of_lt t.isLt)

/-- A request that stores a picture reads the clock first, and again before it scans. -/
def plain (outcomes : ℕ → Outside) (guestList : List GuestPic) : Request → Outcome
  | .appl data len id =>
    onStringMessageAdd data len id (outcomes 0).time.val (outcomes 6).time.val true guestList
  | .qury id => onStringMessageQuery id guestList

theorem executes_clearList (settled : Settled d) (outcomes : ℕ → Outside) :
    ∃ d', Executes (guestServer.step i) (GuestHandlers.clearList retainTime) outcomes ⟨.free, d⟩ ()
        ⟨.free, d'⟩ ∧
      Settled d' ∧
        d'.changes = d.changes ++ [.clear (addSecs (outcomes 1).time (-retainTime))] := by
  have scanning := settled.scan (addSecs (outcomes 1).time (-retainTime))
  obtain ⟨d', ran, settled', same⟩ := executes_clearLoop (i := i) (l := ⟨0, true, 0⟩) scanning
    fun n => outcomes (n + 3)
  refine ⟨d', ?_, settled', same⟩
  refine .step (r := true) (t := ⟨⟨0, true, 0⟩, d⟩) rfl ?_
  refine .step (r := (outcomes 1).time) (t := ⟨⟨0, true, 0⟩, d⟩) rfl (.step rfl ?_)
  exact ran.bind fun later => .step rfl (.ret () _ _)

theorem executes_appl (settled : Settled d) (unused : Unused i d) (data : List Byte) (len id : Int)
    (outcomes : ℕ → Outside) :
    ∃ d', Executes (guestServer.step i) (onStringMessage_add data len id) outcomes ⟨.free, d⟩
        [okReply] ⟨.free, d'⟩ ∧
      Settled d' ∧ d'.pics = (plain outcomes d.pics (.appl data len id)).guestList := by
  have pushed : Settled
      (access i (.pushBack ⟨len, data, id, (outcomes 0).time⟩) (outcomes 3) d).2 :=
    (settled.pushBack unused _).1
  obtain ⟨d', ran, settled', changes⟩ :=
    executes_clearList (i := i) pushed fun n => outcomes (n + 5)
  refine ⟨d', ?_, settled', ?_⟩
  · refine .step (r := (outcomes 0).time) (t := ⟨.free, d⟩) rfl ?_
    refine .step (t := ⟨⟨0, false, 1⟩, d⟩) rfl (.step (t := ⟨⟨0, true, 0⟩, d⟩) rfl ?_)
    refine .step rfl (.step (t := ⟨.free, _⟩) rfl ?_)
    exact ran.bind fun later => .ret _ _ _
  · have plainly := replay_add_clear d.changes data len id (outcomes 0).time.val
      (outcomes 6).time.val
    rw [currentTime_val, currentTime_val, ← settled.list] at plainly
    rw [plain, ← plainly, settled'.list, changes]
    exact congrArg replay (List.append_assoc d.changes [_] [_])

theorem executes_qury (settled : Settled d) (id : Int) (outcomes : ℕ → Outside) :
    Executes (guestServer.step i) (onStringMessage_query id) outcomes ⟨.free, d⟩
      (onStringMessageQuery id d.pics).sent ⟨.free, d⟩ := by
  have walking : Walking id (d.guestList.length + 1) (begin d.guestList) 0 [] d :=
    ⟨[], d.guestList, rfl, rfl, Nat.lt_succ_self _, rfl⟩
  obtain ⟨r, ran, total⟩ := executes_queryLoop (i := i) (l := ⟨1, false, 0⟩) settled walking
    fun n => outcomes (n + 2)
  rw [← total]
  refine .step rfl (.step rfl ?_)
  exact ran.bind fun later => .step rfl (.ret _ _ _)

theorem executes_plain (settled : Settled d) (unused : Unused i d) (request : Request)
    (outcomes : ℕ → Outside) :
    ∃ d', Executes (guestServer.step i) (guestServer.handler request) outcomes ⟨.free, d⟩
        (plain outcomes d.pics request).sent ⟨.free, d'⟩ ∧
      d'.pics = (plain outcomes d.pics request).guestList := by
  cases request with
  | appl data len id =>
    obtain ⟨d', ran, -, list⟩ := executes_appl settled unused data len id outcomes
    exact ⟨d', ran, list⟩
  | qury id => exact ⟨d, executes_qury settled id outcomes, rfl⟩

end Handlers

section Runs

open GuestConcurrency

def Reached (c : Calls) : Prop := ∃ moves, guestServer.run opened moves = some c

variable {c d : Calls}

structure CallsAtRest (c : Calls) : Prop where
  lock : c.shared.lock = .free
  settled : Settled c.shared.data
  unused : Unused c.threads.length c.shared.data

theorem finished_idle {request : Request} {sent : List (List Byte)} {φ : Phase}
    (h : finished request sent φ) : φ.role = .none := by
  cases request with
  | appl data len id =>
    rw [h.2]
    rfl
  | qury id =>
    rw [show φ = .answered sent from h]
    rfl

theorem callsAtRest_of_reached (reached : Reached c) (idle : Idle c) : CallsAtRest c := by
  obtain ⟨moves, ran⟩ := reached
  have consistent := (always_consistent moves).last guestServer ran
  have roles : ∀ ρ ∈ (phases c).map Phase.role, ρ = .none := by
    intro ρ mem
    obtain ⟨φ, of_phase, rfl⟩ := List.mem_map.mp mem
    obtain ⟨t, of_thread, rfl⟩ := List.mem_map.mp of_phase
    obtain ⟨sent, code⟩ := idle t of_thread
    have follows := consistent.disciplined t of_thread
    rw [code] at follows
    exact finished_idle follows
  have lock := consistent.holds.lock.eq_free roles
  refine ⟨lock, consistent.holds.settled (by rw [lock]; rfl), ?_⟩
  have far : (phases c).length ≤ c.threads.length := by rw [phases, System.locals, List.length_map]
  exact consistent.holds.coming c.threads.length far (.appl [] 0 0)

theorem serve_plain (reached : Reached c) (idle : Idle c) (request : Request)
    (outcomes : ℕ → Outside) :
    ∃ d, serve guestServer c request outcomes =
        some ((plain outcomes c.shared.data.pics request).sent, d) ∧
      d.shared.data.pics = (plain outcomes c.shared.data.pics request).guestList := by
  obtain ⟨lock, settled, unused⟩ := callsAtRest_of_reached reached idle
  obtain ⟨⟨l, s⟩, threads⟩ := c
  obtain rfl : l = .free := lock
  obtain ⟨s', ran, list⟩ := executes_plain settled unused request outcomes
  obtain ⟨past, served⟩ := ran.serve
  exact ⟨_, served, list⟩

def plainRun (guestList : List GuestPic) :
    List (Request × (ℕ → Outside)) → List (List (List Byte)) × List GuestPic
  | [] => ([], guestList)
  | (request, outcomes) :: rest =>
    let outcome := plain outcomes guestList request
    let later := plainRun outcome.guestList rest
    (outcome.sent :: later.1, later.2)

theorem serveAll_plain (reached : Reached c) (idle : Idle c)
    (requests : List (Request × (ℕ → Outside))) :
    ∃ d, serveAll guestServer c requests = some ((plainRun c.shared.data.pics requests).1, d) ∧
      d.shared.data.pics = (plainRun c.shared.data.pics requests).2 := by
  induction requests generalizing c with
  | nil => exact ⟨c, rfl, rfl⟩
  | cons next rest ih =>
    obtain ⟨request, outcomes⟩ := next
    obtain ⟨d, served, list⟩ := serve_plain reached idle request outcomes
    obtain ⟨e, later, final⟩ := ih (reached_serve reached served) (idle.serve served)
    rw [list] at later final
    refine ⟨e, ?_, final⟩
    rw [serveAll, served, Option.bind_some, later]
    rfl

/-- Any requests, served one after another: the handlers with their lock, their iterators
and their blocks send what the plain handlers send, and end with the same list. -/
theorem serial_refines_plain (requests : List (Request × (ℕ → Outside))) :
    ∃ d, serveAll guestServer opened requests = some ((plainRun [] requests).1, d) ∧
      d.shared.data.pics = (plainRun [] requests).2 :=
  serveAll_plain ⟨[], rfl⟩ (fun _ mem => absurd mem List.not_mem_nil) requests

end Runs

end ARCServer.GuestSerial
