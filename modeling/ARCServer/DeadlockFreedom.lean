import ARCServer.RequestLocks
import ARCServer.PoolExclusivity

/-! No request waits for ever because of the others alone. Whoever holds a read-write lock
waits for nothing, a writer in the queue only for holders, a request in the mutex for
nothing, and a request with a permit only for the mutex. -/

namespace ARCServer.DeadlockFreedom

open InterleavedPrograms EnginePool FaceSdk RequestHandlers RequestSession PoolExclusivity
  RequestLocks

def opened (initEngine : ℕ → Int) (s : Server) : Requests :=
  started initEngine { s with lock_user := .free, lock_guest := .free }

abbrev lockOf (t : RequestThread) : LockPhase := System.localState locking (fun _ => .none) t

abbrev lockPhases (c : Requests) : List LockPhase := System.locals locking (fun _ => .none) c

structure Coordinated (c : Requests) : Prop where
  inSession : System.Disciplined session Session.start (fun _ _ φ => φ.phase = .idle) c
  pool : Sound c.shared.pool ((sessions c).map Session.phase)
  inLocking : System.Disciplined locking (fun _ => .none) (fun _ _ φ => φ = .none) c
  locks : LocksSound c.shared (lockPhases c)

theorem always_coordinated (initEngine : ℕ → Int) (s : Server) (moves : Run) :
    arcServer.Always Coordinated (opened initEngine s) moves := by
  intro k d reached
  obtain ⟨inSession, pool⟩ := always_sound initEngine _ moves k d reached
  obtain ⟨inLocking, locks⟩ := arcServer.always_locals locking_handler LocksSound
    (fun s φs request h => h.arrive)
    (fun c i outside φ act r s' at_i _ hstep adm _ h => h.step at_i adm hstep)
    ⟨.initial, .initial⟩ (arcServer.eachMove_true (opened initEngine s) moves) k d reached
  exact ⟨inSession, pool, inLocking, locks⟩

/-- The request can take its next step, whatever the SDK and the database answer. -/
def Ready (c : Requests) (t : RequestThread) : Prop :=
  ∃ act next, t.code = .step act next ∧
    ∀ i outside, (arcServer.step i act outside c.shared).isSome

section Ready

variable {c : Requests} {t : RequestThread}

theorem forall_roles {role : LockPhase → Role} {P : Role → Prop}
    (h : ∀ u ∈ c.threads, P (role (lockOf u))) : ∀ ρ ∈ (lockPhases c).map role, P ρ :=
  List.forall_mem_map.mpr (List.forall_mem_map.mpr h)

theorem forall_phases {P : Phase → Prop} (h : ∀ u ∈ c.threads, P (sessionOf u).phase) :
    ∀ phase ∈ (sessions c).map Session.phase, P phase :=
  List.forall_mem_map.mpr (List.forall_mem_map.mpr h)

theorem move_isSome_of_ready {i : ℕ} (at_i : c.threads[i]? = some t) (ready : Ready c t)
    (outside : Outside) : (arcServer.move c (.act i outside)).isSome := by
  obtain ⟨act, next, code, enabled⟩ := ready
  obtain ⟨⟨r, s⟩, step⟩ := Option.isSome_iff_exists.mp (enabled i outside)
  obtain ⟨d, moved, -⟩ := arcServer.move_of_nextAction (System.nextAction_eq at_i code) step
  rw [moved]
  rfl

theorem db_enabled {a : DbAction} {s : Server}
    (user : a = .lockUserForRead → s.lock_user.lockForRead.isSome)
    (guest : a = .lockGuestForRead → s.lock_guest.lockForRead.isSome)
    (write : a = .lockGuestForWrite → s.lock_guest.lockForWrite.isSome) (i : ℕ)
    (outside : Outside) : (arcServer.step i (.db a) outside s).isSome := by
  change (a.step i outside s).isSome
  cases a with
  | lockUserForRead => exact (Option.isSome_map ..).trans (user rfl)
  | lockGuestForRead => exact (Option.isSome_map ..).trans (guest rfl)
  | lockGuestForWrite => exact (Option.isSome_map ..).trans (write rfl)
  | _ => rfl

theorem ready_of_enabled (unfinished : ¬ Finished t)
    (pool : ∀ a next, t.code = .step (.pool a) next → (c.shared.pool.step a).isSome)
    (db : ∀ a next, t.code = .step (.db a) next →
      ∀ i outside, (arcServer.step i (.db a) outside c.shared).isSome) : Ready c t := by
  cases code : t.code with
  | ret a => exact absurd ⟨a, code⟩ unfinished
  | step act next =>
    refine ⟨act, next, code, fun i outside => ?_⟩
    cases act with
    | pool a => exact (Option.isSome_map ..).trans (pool a next code)
    | sdk a => rfl
    | db a => exact db a next code i outside

theorem Coordinated.admits_locking (h : Coordinated c) (mem : t ∈ c.threads) {act : Action}
    {next : act.Response → Handler Int} (code : t.code = .step act next) :
    locking.admits (lockOf t) act := by
  have follows := h.inLocking t mem
  rw [code] at follows
  exact follows.1

theorem Coordinated.admits_pool (h : Coordinated c) (mem : t ∈ c.threads) {a : PoolAction}
    {next : a.Response → Handler Int} (code : t.code = .step (.pool a) next) :
    (sessionOf t).phase.admits a := by
  have follows := h.inSession t mem
  rw [code] at follows
  exact follows.1.1

theorem Coordinated.unfinished_of_lock (h : Coordinated c) (mem : t ∈ c.threads)
    (lock : lockOf t ≠ .none) : ¬ Finished t := by
  rintro ⟨ret, code⟩
  have follows := h.inLocking t mem
  rw [code] at follows
  exact lock follows

theorem Coordinated.unfinished_of_phase (h : Coordinated c) (mem : t ∈ c.threads)
    (busy : (sessionOf t).phase ≠ .idle) : ¬ Finished t := by
  rintro ⟨ret, code⟩
  have follows := h.inSession t mem
  rw [code] at follows
  exact busy follows

theorem Coordinated.ready_of_holder (h : Coordinated c) (mem : t ∈ c.threads)
    (holds : lockOf t ≠ .none) (granted : lockOf t ≠ .awaitsGuest) : Ready c t := by
  refine ready_of_enabled (h.unfinished_of_lock mem holds) ?_ ?_
  · intro a next code
    exact absurd (h.admits_locking mem code) holds
  · intro a next code
    have adm := h.admits_locking mem code
    refine db_enabled ?_ ?_ ?_
    · rintro rfl
      exact absurd adm holds
    · rintro rfl
      exact absurd adm holds
    · rintro rfl
      exact absurd adm granted

theorem Coordinated.ready_of_queued (h : Coordinated c) (mem : t ∈ c.threads)
    (queued : lockOf t = .awaitsGuest)
    (unheld : ∀ u ∈ c.threads, lockOf u = .none ∨ lockOf u = .awaitsGuest) : Ready c t := by
  have holds : lockOf t ≠ .none := by
    rw [queued]
    decide
  have free : c.shared.lock_guest.readers = 0 ∧ c.shared.lock_guest.writer = false := by
    refine h.locks.guest.unheld (forall_roles fun u there => ?_)
    rcases unheld u there with none | awaits
    · rw [none]
      decide
    · rw [awaits]
      decide
  refine ready_of_enabled (h.unfinished_of_lock mem holds) ?_ ?_
  · intro a next code
    exact absurd (h.admits_locking mem code) holds
  · intro a next code
    have adm := h.admits_locking mem code
    refine db_enabled ?_ ?_ ?_
    · rintro rfl
      exact absurd adm holds
    · rintro rfl
      exact absurd adm holds
    · intro _
      simp [ReadWriteLock.lockForWrite, free.1, free.2]

theorem Coordinated.locks_free (h : Coordinated c) (idle : ∀ u ∈ c.threads, lockOf u = .none) :
    c.shared.lock_user = .free ∧ c.shared.lock_guest = .free := by
  constructor
  · refine h.locks.user.eq_free (forall_roles fun u there => ?_)
    rw [idle u there]
    rfl
  · refine h.locks.guest.eq_free (forall_roles fun u there => ?_)
    rw [idle u there]
    rfl

theorem Coordinated.unlocked (h : Coordinated c)
    (outside : ∀ u ∈ c.threads, ¬ (sessionOf u).phase.inMutex = true) :
    c.shared.pool.mutex = false := by
  have none_inside : ((sessions c).map Session.phase).countP Phase.inMutex = 0 :=
    List.countP_eq_zero.mpr (forall_phases outside)
  have count := h.pool.mutex
  cases held : c.shared.pool.mutex with
  | false => rfl
  | true =>
    rw [none_inside, held, if_pos rfl] at count
    cases count

theorem Coordinated.pool_enabled (h : Coordinated c) (mem : t ∈ c.threads) {a : PoolAction}
    (adm : (sessionOf t).phase.admits a) (lock : a = .lock → c.shared.pool.mutex = false)
    (acquire : a = .acquire → c.shared.pool.sem ≠ 0) : (c.shared.pool.step a).isSome := by
  cases a with
  | acquire => simp [Pool.step, acquire rfl]
  | lock => simp [Pool.step, lock rfl]
  | release | unlock | push e => rfl
  | top =>
    obtain ⟨busy, none⟩ := phase_of_admits adm (.inl rfl)
    have stack := h.pool.enginespoll_ne_nil (phase_mem mem) busy none
    rw [Pool.step, Option.isSome_map, List.isSome_head?]
    simpa using stack
  | pop =>
    obtain ⟨busy, none⟩ := phase_of_admits adm (.inr rfl)
    have stack := h.pool.enginespoll_ne_nil (phase_mem mem) busy none
    cases top : c.shared.pool.enginespoll with
    | nil => exact absurd top stack
    | cons e rest => simp [Pool.step, top]

theorem Coordinated.ready_of_pool (h : Coordinated c) (mem : t ∈ c.threads)
    (unfinished : ¬ Finished t) (idle : ∀ u ∈ c.threads, lockOf u = .none)
    (pool : ∀ a, (sessionOf t).phase.admits a →
      (a = .lock → c.shared.pool.mutex = false) ∧ (a = .acquire → c.shared.pool.sem ≠ 0)) :
    Ready c t := by
  obtain ⟨user, guest⟩ := h.locks_free idle
  refine ready_of_enabled unfinished ?_ ?_
  · intro a next code
    have adm := h.admits_pool mem code
    exact h.pool_enabled mem adm (pool a adm).1 (pool a adm).2
  · intro a next code
    refine db_enabled (fun _ => ?_) (fun _ => ?_) fun _ => ?_
    · rw [user]
      rfl
    · rw [guest]
      rfl
    · rw [guest]
      rfl

theorem admits_inMutex {phase : Phase} {a : PoolAction} (inside : phase.inMutex = true)
    (adm : phase.admits a) : a ≠ .lock ∧ a ≠ .acquire := by
  match phase, a, adm with
  | .locked, .top, _ | .seen _, .pop, _ | .popped _, .unlock, _ | .returning _, .push _, _
  | .pushed, .unlock, _ => exact ⟨by simp, by simp⟩
  | .idle, .acquire, _ | .acquired, .lock, _ | .holding _, .lock, _
  | .unlocked, .release, _ => cases inside

/-- As long as no request has begun to ask for an engine, there are permits. -/
theorem Coordinated.permits_left (h : Coordinated c)
    (idle : ∀ u ∈ c.threads, (sessionOf u).phase = .idle) : c.shared.pool.sem ≠ 0 := by
  have none_busy : ((sessions c).map Session.phase).countP Phase.busy = 0 := by
    refine List.countP_eq_zero.mpr (forall_phases fun u there => ?_)
    rw [idle u there]
    decide
  have permits := h.pool.permits
  rw [none_busy, semPermits] at permits
  omega

theorem admits_busy {phase : Phase} {a : PoolAction} (busy : phase ≠ .idle)
    (adm : phase.admits a) : a ≠ .acquire := by
  rintro rfl
  revert adm busy
  cases phase <;> simp [Phase.admits]

theorem Coordinated.exists_ready_of_idle (h : Coordinated c)
    (unfinished : ∃ t ∈ c.threads, ¬ Finished t) (idle : ∀ u ∈ c.threads, lockOf u = .none) :
    ∃ t ∈ c.threads, ¬ Finished t ∧ Ready c t := by
  -- Who is in the mutex comes before who has a permit.
  by_cases mutex : ∃ t ∈ c.threads, (sessionOf t).phase.inMutex = true
  · obtain ⟨t, mem, inside⟩ := mutex
    have busy : (sessionOf t).phase ≠ .idle := by
      intro phase
      rw [phase] at inside
      cases inside
    have here := h.unfinished_of_phase mem busy
    refine ⟨t, mem, here, h.ready_of_pool mem here idle fun a adm => ?_⟩
    obtain ⟨not_lock, not_acquire⟩ := admits_inMutex inside adm
    exact ⟨fun same => absurd same not_lock, fun same => absurd same not_acquire⟩
  have unlocked := h.unlocked fun u there => fun inside => mutex ⟨u, there, inside⟩
  by_cases permit : ∃ t ∈ c.threads, (sessionOf t).phase ≠ .idle
  · obtain ⟨t, mem, busy⟩ := permit
    have here := h.unfinished_of_phase mem busy
    refine ⟨t, mem, here, h.ready_of_pool mem here idle fun a adm => ⟨fun _ => unlocked, ?_⟩⟩
    exact fun same => absurd same (admits_busy busy adm)
  · obtain ⟨t, mem, here⟩ := unfinished
    have permits := h.permits_left fun u there =>
      not_not.mp fun busy => permit ⟨u, there, busy⟩
    exact ⟨t, mem, here,
      h.ready_of_pool mem here idle fun a _ => ⟨fun _ => unlocked, fun _ => permits⟩⟩

theorem Coordinated.exists_ready (h : Coordinated c) (unfinished : ∃ t ∈ c.threads, ¬ Finished t) :
    ∃ t ∈ c.threads, ¬ Finished t ∧ Ready c t := by
  -- From the inside out: who holds a lock, who is first in its queue, then the pool.
  by_cases holder : ∃ t ∈ c.threads, lockOf t ≠ .none ∧ lockOf t ≠ .awaitsGuest
  · obtain ⟨t, mem, holds, granted⟩ := holder
    exact ⟨t, mem, h.unfinished_of_lock mem holds, h.ready_of_holder mem holds granted⟩
  have unheld : ∀ u ∈ c.threads, lockOf u = .none ∨ lockOf u = .awaitsGuest := by
    intro u there
    by_contra other
    exact holder ⟨u, there, not_or.mp other⟩
  by_cases queue : ∃ t ∈ c.threads, lockOf t = .awaitsGuest
  · obtain ⟨t, mem, queued⟩ := queue
    have waits : lockOf t ≠ .none := by
      rw [queued]
      decide
    exact ⟨t, mem, h.unfinished_of_lock mem waits, h.ready_of_queued mem queued unheld⟩
  · exact h.exists_ready_of_idle unfinished fun u there =>
      (unheld u there).resolve_right fun queued => queue ⟨u, there, queued⟩

end Ready

structure Live (c : Requests) : Prop where
  progress : (∃ t ∈ c.threads, ¬ Finished t) → ∃ (i : ℕ) (t : RequestThread),
    c.threads[i]? = some t ∧ ¬ Finished t ∧
      ∀ outside, (arcServer.move c (.act i outside)).isSome
  at_rest : (∀ t ∈ c.threads, Finished t) → c.shared.pool.mutex = false ∧
    c.shared.lock_user = .free ∧ c.shared.lock_guest = .free

theorem Coordinated.live {c : Requests} (h : Coordinated c) : Live c := by
  refine ⟨fun unfinished => ?_, fun finished => ?_⟩
  · obtain ⟨t, mem, here, ready⟩ := h.exists_ready unfinished
    obtain ⟨i, at_i⟩ := List.mem_iff_getElem?.mp mem
    exact ⟨i, t, at_i, here, move_isSome_of_ready at_i ready⟩
  · refine ⟨h.unlocked fun t mem inside => ?_, h.locks_free fun t mem => ?_⟩
    · refine h.unfinished_of_phase mem (fun idle => ?_) (finished t mem)
      rw [idle] at inside
      cases inside
    · by_contra lock
      exact h.unfinished_of_lock mem lock (finished t mem)

/-- In every state of every run an unfinished request can take its next step, and when
all have finished the mutex and both locks are free. -/
theorem always_live (initEngine : ℕ → Int) (s : Server) (moves : Run) :
    arcServer.Always Live (opened initEngine s) moves := fun k d reached =>
  (always_coordinated initEngine s moves k d reached).live

end ARCServer.DeadlockFreedom
