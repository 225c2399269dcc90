import ARCServer.SharedEngines
import Mathlib.Algebra.Order.BigOperators.Group.List
import Mathlib.Algebra.Order.Ring.Nat

/-! Ten permits for all objects. Every object sees what it would see alone with ten
permits of its own: at most ten of its requests are past the semaphore, so they never
get below the ten indices that were pushed last. -/

namespace ARCServer.SharedPermits

open InterleavedPrograms EnginePool FaceSdk RequestHandlers RequestSession PoolExclusivity
  RequestLocks DeadlockFreedom WorkingEngines SharedEngines

def busy (c : Requests) : ℕ := ((sessions c).map Session.phase).countP Phase.busy

/-- The object with ten permits of its own and nothing below the indices `live`. -/
def alone (c : Requests) (live : List ℕ) : Requests :=
  ⟨{ c.shared with pool := ⟨semPermits - busy c, c.shared.pool.mutex, live⟩ }, c.threads⟩

section Coordinated

variable {c c' : Requests}

theorem coordinated_congr (h : Coordinated c) (threads : c'.threads = c.threads)
    (pool : c'.shared.pool = c.shared.pool) (user : c'.shared.lock_user = c.shared.lock_user)
    (guest : c'.shared.lock_guest = c.shared.lock_guest) : Coordinated c' := by
  obtain ⟨s', threads'⟩ := c'
  cases threads
  refine ⟨h.inSession, ?_, h.inLocking, ?_, ?_⟩
  · rw [pool]
    exact h.pool
  · rw [user]
    exact h.locks.user
  · rw [guest]
    exact h.locks.guest

theorem coordinated_move (h : Coordinated c) {m : Move Request Outside}
    (hm : arcServer.move c m = some c') : Coordinated c' := by
  refine ⟨h.inSession.move arcServer follows_handler hm, ?_,
    h.inLocking.move arcServer locking_handler hm, ?_⟩
  · cases m with
    | start request =>
      cases hm
      rw [sessions, System.locals, List.map_append, List.map_append]
      exact h.pool.arrive
    | act i outside =>
      obtain ⟨t, act, next, r, s, at_i, code, step, rfl⟩ := arcServer.move_act hm
      rw [sessions, System.locals_set]
      exact sound_step h.pool (System.locals_getElem? at_i) (h.inSession.admits at_i code) step
  · cases m with
    | start request =>
      cases hm
      rw [lockPhases, System.locals, List.map_append]
      exact h.locks.arrive
    | act i outside =>
      obtain ⟨t, act, next, r, s, at_i, code, step, rfl⟩ := arcServer.move_act hm
      rw [lockPhases, System.locals_set]
      exact h.locks.step (System.locals_getElem? at_i) (h.inLocking.admits at_i code) step

end Coordinated

section Pool

variable {pool pool' : Pool} {phase : Phase} {a : PoolAction} {r : a.Response} {n n' : ℕ}
  {live buried : List ℕ}

theorem step_alone (adm : phase.admits a) (hs : pool.step a = some (r, pool'))
    (stack : pool.enginespoll = live ++ buried) (few : pool.sem + n ≤ semPermits)
    (nonempty : phase.busy → phase.engine = none → live ≠ [])
    (count : n' + (if phase.busy then 1 else 0) = n + if (phase.next a r).busy then 1 else 0) :
    ∃ live', pool'.enginespoll = live' ++ buried ∧ pool'.sem + n' = pool.sem + n ∧
      Pool.step a ⟨semPermits - n, pool.mutex, live⟩ =
        some (r, ⟨semPermits - n', pool'.mutex, live'⟩) := by
  match phase, a, adm with
  | .idle, .acquire, _ =>
    obtain ⟨some_left, rfl⟩ := step_acquire hs
    have grown : n' = n + 1 := count
    refine ⟨live, stack, by dsimp only; omega, ?_⟩
    rw [Pool.step, if_neg (by dsimp only; omega), grown]
    rfl
  | .acquired, .lock, _ =>
    obtain ⟨free, rfl⟩ := step_lock hs
    have same : n' = n := Nat.add_right_cancel count
    refine ⟨live, stack, by rw [same], ?_⟩
    rw [Pool.step, if_neg (by simp [free]), same]
  | .locked, .top, _ =>
    obtain ⟨head, rfl⟩ := step_top hs
    have same : n' = n := Nat.add_right_cancel count
    refine ⟨live, stack, by rw [same], ?_⟩
    rw [stack, List.head?_append_of_ne_nil _ (nonempty rfl rfl)] at head
    rw [Pool.step, head, same]
    rfl
  | .seen e, .pop, _ =>
    obtain ⟨top, rest, all, rfl⟩ := step_pop hs
    have same : n' = n := Nat.add_right_cancel count
    obtain ⟨e', live', rfl⟩ := List.exists_cons_of_ne_nil (nonempty rfl rfl)
    rw [stack, List.cons_append] at all
    cases all
    exact ⟨live', rfl, by rw [same], by rw [Pool.step, same]⟩
  | .popped e, .unlock, _ | .pushed, .unlock, _ =>
    cases hs
    have same : n' = n := Nat.add_right_cancel count
    exact ⟨live, stack, by rw [same], by rw [Pool.step, same]⟩
  | .holding e, .lock, _ =>
    obtain ⟨free, rfl⟩ := step_lock hs
    have same : n' = n := Nat.add_right_cancel count
    refine ⟨live, stack, by rw [same], ?_⟩
    rw [Pool.step, if_neg (by simp [free]), same]
  | .returning e, .push e', _ =>
    cases hs
    have same : n' = n := Nat.add_right_cancel count
    refine ⟨e' :: live, ?_, by rw [same], by rw [Pool.step, same]⟩
    rw [stack, List.cons_append]
  | .unlocked, .release, _ =>
    cases hs
    have less : n' + 1 = n := count
    have given : semPermits - n' = semPermits - n + 1 := by omega
    refine ⟨live, stack, by dsimp only; omega, ?_⟩
    rw [Pool.step, given]

end Pool

section Alone

variable {s s' : Server} {i : ℕ} {outside : Outside}

theorem step_sdk_alone {a : SdkAction} {r : a.Response}
    (hs : arcServer.step i (.sdk a) outside s = some (r, s')) (pool : Pool) :
    s'.pool = s.pool ∧
      arcServer.step i (.sdk a) outside { s with pool } = some (r, { s' with pool }) := by
  cases hs
  exact ⟨rfl, rfl⟩

theorem step_db_alone {a : DbAction} {r : a.Response}
    (hs : arcServer.step i (.db a) outside s = some (r, s')) (pool : Pool) :
    s'.pool = s.pool ∧
      arcServer.step i (.db a) outside { s with pool } = some (r, { s' with pool }) := by
  refine ⟨(step_db hs).pool, ?_⟩
  change a.step i outside s = some (r, s') at hs
  change a.step i outside { s with pool } = some (r, { s' with pool })
  cases a with
  | lockUserForRead | lockGuestForRead | lockGuestForWrite =>
    obtain ⟨l, locked, same⟩ := Option.map_eq_some_iff.mp hs
    cases same
    exact Option.map_eq_some_iff.mpr ⟨l, locked, rfl⟩
  | updateUser id len feature =>
    cases hs
    cases exec : outside.exec <;> simp [DbAction.step, exec]
  | insertImport id type ip =>
    cases hs
    cases exec : outside.exec <;> simp [DbAction.step, exec]
  | _ =>
    cases hs
    rfl

variable {c c' : Requests} {live buried : List ℕ}

theorem live_ne_nil (h : Coordinated (alone c live)) {t : RequestThread} (mem : t ∈ c.threads)
    (past : (sessionOf t).phase.busy) (none : (sessionOf t).phase.engine = none) : live ≠ [] :=
  h.pool.enginespoll_ne_nil (phase_mem (c := alone c live) mem) past none

theorem move_alone (h : Coordinated (alone c live))
    (stack : c.shared.pool.enginespoll = live ++ buried)
    (few : c.shared.pool.sem + busy c ≤ semPermits) {m : Move Request Outside}
    (hm : arcServer.move c m = some c') :
    ∃ live', c'.shared.pool.enginespoll = live' ++ buried ∧
      c'.shared.pool.sem + busy c' = c.shared.pool.sem + busy c ∧
      arcServer.move (alone c live) m = some (alone c' live') := by
  cases m with
  | start request =>
    cases hm
    have same : busy ⟨c.shared, c.threads ++ [⟨request, arcServer.handler request, []⟩]⟩ =
        busy c := by
      rw [busy, sessions, System.locals, List.map_append, List.map_append, List.countP_append]
      rfl
    refine ⟨live, stack, congrArg (c.shared.pool.sem + ·) same, ?_⟩
    rw [alone, alone]
    dsimp only [System.move]
    rw [same]
  | act i outside =>
    obtain ⟨t, act, next, r, s, at_i, code, step, rfl⟩ := arcServer.move_act hm
    have adm := h.inSession.admits at_i code
    have phase_i : ((sessions c).map Session.phase)[i]? = some (sessionOf t).phase := by
      rw [List.getElem?_map, System.locals_getElem? at_i]
      rfl
    have count : busy ⟨s, c.threads.set i ⟨t.request, next r, t.past ++ [⟨act, r⟩]⟩⟩ +
        (if (sessionOf t).phase.busy then 1 else 0) =
          busy c + if (session.next (sessionOf t) act r).phase.busy then 1 else 0 := by
      rw [busy, sessions, System.locals_set, List.map_set]
      exact countP_set phase_i Phase.busy _
    suffices own : ∃ live' pool', s.pool.enginespoll = live' ++ buried ∧
        s.pool.sem + busy ⟨s, c.threads.set i ⟨t.request, next r, t.past ++ [⟨act, r⟩]⟩⟩ =
          c.shared.pool.sem + busy c ∧
        pool' = ⟨semPermits - busy ⟨s, c.threads.set i ⟨t.request, next r,
          t.past ++ [⟨act, r⟩]⟩⟩, s.pool.mutex, live'⟩ ∧
        arcServer.step i act outside (alone c live).shared = some (r, { s with pool := pool' }) by
      obtain ⟨live', pool', stack', permits, rfl, step'⟩ := own
      refine ⟨live', stack', permits, ?_⟩
      simp only [System.move, alone] at step' ⊢
      simp only [at_i, code, step']
    cases act with
    | pool a =>
      obtain ⟨pool, hpool, rfl⟩ := step_pool step
      obtain ⟨live', stack', permits, step'⟩ := step_alone adm.1 hpool stack few
        (live_ne_nil h (List.mem_of_getElem? at_i)) count
      exact ⟨live', _, stack', permits, rfl, step_pool_eq _ i outside step'⟩
    | sdk a =>
      rw [next_phase_sdk] at count
      have same := Nat.add_right_cancel count
      obtain ⟨pool, step'⟩ := step_sdk_alone step ⟨semPermits - busy c, c.shared.pool.mutex, live⟩
      exact ⟨live, _, pool ▸ stack, by rw [pool, same], by rw [pool, same], step'⟩
    | db a =>
      rw [next_phase_db] at count
      have same := Nat.add_right_cancel count
      obtain ⟨pool, step'⟩ := step_db_alone step ⟨semPermits - busy c, c.shared.pool.mutex, live⟩
      exact ⟨live, _, pool ▸ stack, by rw [pool, same], by rw [pool, same], step'⟩

end Alone

section Rest

theorem sound_idle (n : ℕ) :
    Sound ⟨semPermits, false, (List.range cMaxNum).reverse⟩ (List.replicate n .idle) := by
  induction n with
  | zero =>
    have initial := Sound.initial fun _ => 0
    rw [EnginePool.startEngines_pool] at initial
    exact initial
  | succ n ih =>
    rw [List.replicate_succ']
    exact ih.arrive

theorem locksSound_idle {s : Server} (user : s.lock_user = .free) (guest : s.lock_guest = .free)
    (n : ℕ) : LocksSound s (List.replicate n .none) := by
  induction n with
  | zero => exact ⟨user ▸ .initial, guest ▸ .initial⟩
  | succ n ih =>
    rw [List.replicate_succ']
    exact ih.arrive

variable {c : Requests}

theorem coordinated_rest
    (inSession : System.Disciplined session Session.start (fun _ _ φ => φ.phase = .idle) c)
    (inLocking : System.Disciplined locking (fun _ => .none) (fun _ _ φ => φ = .none) c)
    (finished : ∀ t ∈ c.threads, Finished t) (user : c.shared.lock_user = .free)
    (guest : c.shared.lock_guest = .free)
    (pool : c.shared.pool = ⟨semPermits, false, (List.range cMaxNum).reverse⟩) : Coordinated c := by
  have idle : (sessions c).map Session.phase =
      List.replicate ((sessions c).map Session.phase).length .idle := by
    refine List.eq_replicate_of_mem (forall_phases fun t mem => ?_)
    obtain ⟨ret, code⟩ := finished t mem
    have follows := inSession t mem
    rw [code] at follows
    exact follows
  have none : lockPhases c = List.replicate (lockPhases c).length .none := by
    refine List.eq_replicate_of_mem (List.forall_mem_map.mpr fun t mem => ?_)
    obtain ⟨ret, code⟩ := finished t mem
    have follows := inLocking t mem
    rw [code] at follows
    exact follows
  refine ⟨inSession, ?_, inLocking, ?_⟩
  · rw [pool, idle]
    exact sound_idle _
  · rw [none]
    exact locksSound_idle user guest _

theorem busy_of_finished {live : List ℕ} (h : Coordinated (alone c live))
    (finished : ∀ t ∈ c.threads, Finished t) : busy c = 0 := by
  refine List.countP_eq_zero.mpr (forall_phases fun t mem past => ?_)
  refine h.unfinished_of_phase mem (fun idle => ?_) (finished t mem)
  rw [idle] at past
  cases past

end Rest

def Stocked (c : Requests) : Prop :=
  ∃ live buried, c.shared.pool.enginespoll = live ++ buried ∧ Coordinated (alone c live)

structure Shares (p : Process) : Prop where
  permits : p.sem + (p.objects.map fun object => busy object.requests).sum = semPermits
  stocked : ∀ object ∈ p.objects, Stocked object.requests

section Shares

variable {p q : Process}

theorem stocked_seen (p : Process) {object : ARCFaceEngines} (h : Stocked object.requests) :
    Stocked (p.seen object) := by
  obtain ⟨live, buried, stack, coordinated⟩ := h
  exact ⟨live, buried, stack, coordinated_congr coordinated rfl rfl rfl rfl⟩

theorem stocked_new (exec : Bool) (memory : FaceSdk.Memory) (rows : List UserRow)
    (imports : List ImportRow) (o : ℕ → EngineLifecycle.InitOutcome)
    (heap : EngineLifecycle.Heap) :
    Stocked ((ARCFaceEngines.new exec memory rows imports).startEngines o heap).2.1.requests := by
  refine ⟨(List.range cMaxNum).reverse, [], ?_, ?_⟩
  · rw [SharedEngines.startEngines_pool]
    rfl
  · have empty : ∀ t ∈ ([] : List RequestThread), Finished t := fun _ mem =>
      absurd mem List.not_mem_nil
    refine coordinated_rest (fun _ mem => absurd mem List.not_mem_nil)
      (fun _ mem => absurd mem List.not_mem_nil) empty rfl rfl ?_
    rw [alone, SharedEngines.startEngines_pool]
    rfl

/-- Starting the engines again buries what lies on the stack. -/
theorem stocked_start {object : ARCFaceEngines} (h : Stocked object.requests)
    (rest : object.AtRest) (o : ℕ → EngineLifecycle.InitOutcome)
    (heap : EngineLifecycle.Heap) : Stocked (object.startEngines o heap).2.1.requests := by
  obtain ⟨live, buried, stack, coordinated⟩ := h
  obtain ⟨mutex, user, guest⟩ := coordinated.live.at_rest rest
  refine ⟨(List.range cMaxNum).reverse, object.requests.shared.pool.enginespoll, ?_, ?_⟩
  · rw [SharedEngines.startEngines_pool]
  · refine coordinated_rest coordinated.inSession coordinated.inLocking rest user guest ?_
    have idle := busy_of_finished coordinated rest
    have none_busy : busy (object.startEngines o heap).2.1.requests = 0 := idle
    rw [alone, none_busy, SharedEngines.startEngines_pool]
    exact congrArg (fun mutex => Pool.mk semPermits mutex _) mutex

theorem sum_set {α : Type} {l : List α} {i : ℕ} {a : α} (at_i : l[i]? = some a) (f : α → ℕ)
    (b : α) : ((l.set i b).map f).sum + f a = (l.map f).sum + f b := by
  obtain ⟨u, v, rfl, changed⟩ := split_at_index at_i
  rw [changed]
  simp only [List.map_append, List.map_cons, List.sum_append, List.sum_cons]
  omega

theorem Shares.start (h : Shares p) {k : ℕ} {object : ARCFaceEngines}
    (at_k : p.objects[k]? = some object) (after : ARCFaceEngines)
    (threads : after.requests.threads = object.requests.threads)
    (stocked : Stocked after.requests) (heap : EngineLifecycle.Heap) :
    Shares { p with objects := p.objects.set k after, heap } := by
  have same : busy after.requests = busy object.requests := by
    rw [busy, sessions, System.locals, threads]
    rfl
  have sum := sum_set at_k (fun object => busy object.requests) after
  rw [same] at sum
  refine ⟨?_, fun other mem => ?_⟩
  · rw [Nat.add_right_cancel sum]
    exact h.permits
  · rcases List.mem_or_eq_of_mem_set mem with old | rfl
    · exact h.stocked other old
    · exact stocked

theorem Shares.few (h : Shares p) {object : ARCFaceEngines} (mem : object ∈ p.objects) :
    p.sem + busy object.requests ≤ semPermits := by
  have part : busy object.requests ≤ (p.objects.map fun object => busy object.requests).sum :=
    List.single_le_sum (fun _ _ => Nat.zero_le _) _ (List.mem_map.mpr ⟨object, mem, rfl⟩)
  have permits := h.permits
  omega

theorem Shares.request (h : Shares p) {k : ℕ} {object : ARCFaceEngines}
    (at_k : p.objects[k]? = some object) {m : Move Request Outside} {c : Requests}
    (hm : arcServer.move (p.seen object) m = some c) : Shares (p.settle k object c) := by
  have mem := List.mem_of_getElem? at_k
  obtain ⟨live, buried, stack, coordinated⟩ := stocked_seen p (h.stocked object mem)
  obtain ⟨live', stack', permits, alone⟩ := move_alone coordinated stack (h.few mem) hm
  have sum := sum_set at_k (fun object => busy object.requests) { object with requests := c }
  have before := h.permits
  have own : c.shared.pool.sem + busy c = p.sem + busy object.requests := permits
  refine ⟨?_, fun other there => ?_⟩
  · dsimp only at sum
    dsimp only [Process.settle]
    omega
  · rcases List.mem_or_eq_of_mem_set there with old | rfl
    · exact h.stocked other old
    · exact ⟨live', buried, stack', coordinated_move coordinated alone⟩

theorem Shares.next (h : Shares p) (step : p.Next q) : Shares q := by
  obtain ⟨m, orderly, moved⟩ := step
  cases m with
  | create exec memory o =>
    cases moved
    refine ⟨?_, fun object mem => ?_⟩
    · rw [List.map_append, List.sum_append]
      exact h.permits
    · rcases List.mem_append.mp mem with old | new
      · exact h.stocked object old
      · rw [List.mem_singleton.mp new]
        exact stocked_new ..
  | startEngines k o =>
    obtain ⟨object, at_k, rfl⟩ := Option.map_eq_some_iff.mp moved
    have stocked := h.stocked object (List.mem_of_getElem? at_k)
    have started := stocked_start stocked (orderly object at_k) o p.heap
    exact h.start at_k (object.startEngines o p.heap).2.1 rfl started _
  | stopEngines k o =>
    obtain ⟨object, at_k, rfl⟩ := Option.map_eq_some_iff.mp moved
    have stocked := h.stocked object (List.mem_of_getElem? at_k)
    exact h.start at_k (object.stopEngines o p.heap).2.1 rfl stocked _
  | request k m =>
    obtain ⟨object, at_k, moved⟩ := Option.bind_eq_some_iff.mp moved
    obtain ⟨c, hm, rfl⟩ := Option.map_eq_some_iff.mp moved
    exact h.request at_k hm

theorem Shares.leads (h : Shares p) (run : p.Leads q) : Shares q := by
  induction run with
  | refl => exact h
  | tail _ step ih => exact ih.next step

theorem Shares.launched (rows : List UserRow) (imports : List ImportRow) :
    Shares (.launched rows imports) :=
  ⟨rfl, fun _ mem => absurd mem List.not_mem_nil⟩

end Shares

section Lent

structure Lent (p : Process) : Prop where
  top_ready : ∀ object ∈ p.objects, ∀ t ∈ object.requests.threads, AtTop t →
    object.requests.shared.pool.enginespoll ≠ []
  one_owner : ∀ object ∈ p.objects, ∀ (i j : ℕ) t u e,
    object.requests.threads[i]? = some t → object.requests.threads[j]? = some u →
      heldBy t = some e → heldBy u = some e → i = j
  accounted : ∀ object ∈ p.objects, ∃ live buried,
    object.requests.shared.pool.enginespoll = live ++ buried ∧
      (live ++ object.requests.threads.filterMap heldBy).Perm (List.range cMaxNum)
  permits : p.sem + (p.objects.map fun object =>
    (object.requests.threads.filterMap heldBy).length).sum ≤ semPermits
  at_rest : ∀ object ∈ p.objects, object.AtRest →
    object.requests.shared.pool.mutex = false ∧
      object.requests.shared.lock_user = .free ∧ object.requests.shared.lock_guest = .free
  all_at_rest : (∀ object ∈ p.objects, object.AtRest) → p.sem = semPermits

theorem held_le_busy (c : Requests) : (c.threads.filterMap heldBy).length ≤ busy c := by
  rw [← filterMap_heldBy, busy, busy_split]
  exact Nat.le_add_right _ _

theorem Shares.lent {p : Process} (h : Shares p) : Lent p := by
  have exclusive : ∀ object ∈ p.objects, ∃ live buried,
      object.requests.shared.pool.enginespoll = live ++ buried ∧
        Exclusive (alone object.requests live) := by
    intro object mem
    obtain ⟨live, buried, stack, coordinated⟩ := h.stocked object mem
    exact ⟨live, buried, stack, exclusive_of_sound coordinated.inSession coordinated.pool⟩
  refine ⟨fun object mem t there atTop => ?_, fun object mem => ?_, fun object mem => ?_, ?_,
    fun object mem rest => ?_, fun rest => ?_⟩
  · obtain ⟨live, buried, stack, own⟩ := exclusive object mem
    have ready : live ≠ [] := own.top_ready t there atTop
    rw [stack]
    exact List.append_ne_nil_of_left_ne_nil ready buried
  · obtain ⟨live, buried, stack, own⟩ := exclusive object mem
    exact own.one_owner
  · obtain ⟨live, buried, stack, own⟩ := exclusive object mem
    exact ⟨live, buried, stack, own.accounted⟩
  · have held : (p.objects.map fun object =>
        (object.requests.threads.filterMap heldBy).length).sum ≤
          (p.objects.map fun object => busy object.requests).sum :=
      List.sum_le_sum fun object _ => held_le_busy object.requests
    have permits := h.permits
    omega
  · obtain ⟨live, buried, stack, coordinated⟩ := h.stocked object mem
    exact coordinated.live.at_rest rest
  · have none_busy : (p.objects.map fun object => busy object.requests).sum = 0 := by
      refine List.sum_eq_zero (List.forall_mem_map.mpr fun object mem => ?_)
      obtain ⟨live, buried, stack, coordinated⟩ := h.stocked object mem
      exact busy_of_finished coordinated (rest object mem)
    have permits := h.permits
    omega

/-- However the objects share the permits and however often they are started again, no
request meets an empty stack and no engine has two owners. -/
theorem always_lent (rows : List UserRow) (imports : List ImportRow) (p : Process)
    (run : (Process.launched rows imports).Leads p) : Lent p :=
  ((Shares.launched rows imports).leads run).lent

def everythingStarts (_ : ℕ) : EngineLifecycle.InitOutcome := ⟨true, .ok 1, true, .ok 2⟩

theorem leads_restarted : ∃ p, (Process.launched [] []).Leads p ∧
    p.objects.map (fun object => object.requests.shared.pool.enginespoll) =
      [(List.range 10).reverse ++ (List.range 10).reverse] ∧
    ∃ object ∈ p.objects, ¬ object.AtRest := by
  refine ⟨_, .tail (.tail (.tail (.tail .refl
    ⟨.create true (fun _ _ => 0) everythingStarts, trivial, rfl⟩)
    ⟨.stopEngines 0 fun _ => ⟨0, 0⟩, fun object at_0 => ?_, rfl⟩)
    ⟨.startEngines 0 everythingStarts, fun object at_0 => ?_, rfl⟩)
    ⟨.request 0 (.start (.addFeature [] 0)), trivial, rfl⟩, by decide, ?_⟩
  · cases at_0
    exact fun t mem => absurd mem List.not_mem_nil
  · cases at_0
    exact fun t mem => absurd mem List.not_mem_nil
  · refine ⟨_, List.mem_cons_self, fun rest => ?_⟩
    obtain ⟨ret, code⟩ := rest _ List.mem_cons_self
    cases code

theorem restarted_lent : ∃ p, (Process.launched [] []).Leads p ∧
    p.objects.map (fun object => object.requests.shared.pool.enginespoll) =
      [(List.range 10).reverse ++ (List.range 10).reverse] ∧ Lent p := by
  obtain ⟨p, run, stack, -⟩ := leads_restarted
  exact ⟨p, run, stack, always_lent [] [] p run⟩

def takeEngine (i : ℕ) : List ProcessMove :=
  .request 0 (.start (.addFeature [] 0)) :: List.replicate 5 (.request 0 (.act i (oneFace [])))

/-- Engines that are started under a request are handed out again. -/
example : ((.create true (fun _ _ => 0) everythingStarts :: takeEngine 0 ++
      .startEngines 0 everythingStarts :: takeEngine 1).foldlM Process.move
        (.launched [] [])).map
    (fun p => p.objects.map fun object => object.requests.threads.map heldBy) =
      some [[some 9, some 9]] := by
  decide

end Lent

section Progress

variable {c : Requests} {live buried : List ℕ} {t : RequestThread}

theorem ready_of_alone (stack : c.shared.pool.enginespoll = live ++ buried)
    (ready : Ready (alone c live) t)
    (permit : (∀ next, t.code ≠ .step (.pool .acquire) next) ∨ c.shared.pool.sem ≠ 0) :
    Ready c t := by
  obtain ⟨act, next, code, enabled⟩ := ready
  refine ⟨act, next, code, fun i outside => ?_⟩
  have own := enabled i outside
  cases act with
  | sdk a => rfl
  | db a =>
    obtain ⟨⟨r, s⟩, step⟩ := Option.isSome_iff_exists.mp own
    exact Option.isSome_iff_exists.mpr ⟨_, (step_db_alone step c.shared.pool).2⟩
  | pool a =>
    refine (Option.isSome_map ..).trans ?_
    replace own := (Option.isSome_map ..).symm.trans own
    cases a with
    | acquire =>
      have some_left := permit.resolve_left fun none => none next code
      simp [Pool.step, some_left]
    | lock =>
      cases mutex : c.shared.pool.mutex with
      | false => simp [Pool.step, mutex]
      | true => simp [Pool.step, alone, mutex] at own
    | release | unlock | push e => rfl
    | top =>
      cases live with
      | nil => cases own
      | cons e rest => simp [Pool.step, stack]
    | pop =>
      cases live with
      | nil => cases own
      | cons e rest => simp [Pool.step, stack]

theorem exists_ready_past (h : Coordinated c)
    (past : ∃ t ∈ c.threads, (sessionOf t).phase ≠ .idle) :
    ∃ t ∈ c.threads, Ready c t ∧ ∀ next, t.code ≠ .step (.pool .acquire) next := by
  have busy_ready : ∀ t ∈ c.threads, (sessionOf t).phase ≠ .idle → Ready c t →
      ∃ t ∈ c.threads, Ready c t ∧ ∀ next, t.code ≠ .step (.pool .acquire) next :=
    fun t mem busy ready =>
      ⟨t, mem, ready, fun next code => admits_busy busy (h.admits_pool mem code) rfl⟩
  have lock_ready : ∀ t ∈ c.threads, lockOf t ≠ .none → Ready c t →
      ∃ t ∈ c.threads, Ready c t ∧ ∀ next, t.code ≠ .step (.pool .acquire) next :=
    fun t mem holds ready =>
      ⟨t, mem, ready, fun next code => holds (h.admits_locking mem code)⟩
  -- Who holds a lock, who is in its queue, who is in the mutex, who has a permit.
  by_cases holder : ∃ t ∈ c.threads, lockOf t ≠ .none ∧ lockOf t ≠ .awaitsGuest
  · obtain ⟨t, mem, holds, granted⟩ := holder
    exact lock_ready t mem holds (h.ready_of_holder mem holds granted)
  have unheld : ∀ u ∈ c.threads, lockOf u = .none ∨ lockOf u = .awaitsGuest := by
    intro u there
    by_contra other
    exact holder ⟨u, there, not_or.mp other⟩
  by_cases queue : ∃ t ∈ c.threads, lockOf t = .awaitsGuest
  · obtain ⟨t, mem, queued⟩ := queue
    exact lock_ready t mem (by rw [queued]; decide) (h.ready_of_queued mem queued unheld)
  have idle : ∀ u ∈ c.threads, lockOf u = .none := fun u there =>
    (unheld u there).resolve_right fun queued => queue ⟨u, there, queued⟩
  by_cases mutex : ∃ t ∈ c.threads, (sessionOf t).phase.inMutex = true
  · obtain ⟨t, mem, inside⟩ := mutex
    have busy : (sessionOf t).phase ≠ .idle := by
      intro phase
      rw [phase] at inside
      cases inside
    refine busy_ready t mem busy (h.ready_of_pool mem (h.unfinished_of_phase mem busy) idle ?_)
    intro a adm
    obtain ⟨not_lock, not_acquire⟩ := admits_inMutex inside adm
    exact ⟨fun same => absurd same not_lock, fun same => absurd same not_acquire⟩
  have unlocked := h.unlocked fun u there inside => mutex ⟨u, there, inside⟩
  obtain ⟨t, mem, busy⟩ := past
  refine busy_ready t mem busy (h.ready_of_pool mem (h.unfinished_of_phase mem busy) idle ?_)
  exact fun a adm => ⟨fun _ => unlocked, fun same => absurd same (admits_busy busy adm)⟩

theorem Shares.exists_ready {p : Process} (h : Shares p)
    (unfinished : ∃ object ∈ p.objects, ¬ object.AtRest) :
    ∃ object ∈ p.objects, ∃ t ∈ object.requests.threads, Ready (p.seen object) t := by
  by_cases past : ∃ object ∈ p.objects, ∃ t ∈ object.requests.threads,
      (sessionOf t).phase ≠ .idle
  · obtain ⟨object, mem, past⟩ := past
    obtain ⟨live, buried, stack, coordinated⟩ := stocked_seen p (h.stocked object mem)
    obtain ⟨t, there, ready, waits⟩ := exists_ready_past coordinated past
    exact ⟨object, mem, t, there, ready_of_alone stack ready (.inl waits)⟩
  · have idle : ∀ object ∈ p.objects, ∀ t ∈ object.requests.threads,
        (sessionOf t).phase = .idle := fun object mem t there =>
      not_not.mp fun busy => past ⟨object, mem, t, there, busy⟩
    have none_busy : (p.objects.map fun object => busy object.requests).sum = 0 := by
      refine List.sum_eq_zero (List.forall_mem_map.mpr fun object mem => ?_)
      refine List.countP_eq_zero.mpr (forall_phases fun t there => ?_)
      rw [idle object mem t there]
      decide
    have permits : p.sem ≠ 0 := by
      have total := h.permits
      rw [none_busy, semPermits] at total
      omega
    obtain ⟨object, mem, moving⟩ := unfinished
    obtain ⟨live, buried, stack, coordinated⟩ := stocked_seen p (h.stocked object mem)
    obtain ⟨t, there, here⟩ : ∃ t ∈ object.requests.threads, ¬ Finished t := by
      simpa [ARCFaceEngines.AtRest] using moving
    obtain ⟨t, there, -, ready⟩ := coordinated.exists_ready ⟨t, there, here⟩
    exact ⟨object, mem, t, there, ready_of_alone stack ready (.inr permits)⟩

/-- As long as a request of any object is not over, some request can take its next step,
whatever decoder, SDK and database answer. -/
theorem always_some_request_moves (rows : List UserRow) (imports : List ImportRow) (p : Process)
    (run : (Process.launched rows imports).Leads p)
    (unfinished : ∃ object ∈ p.objects, ¬ object.AtRest) :
    ∃ k i, ∀ outside, (p.move (.request k (.act i outside))).isSome := by
  obtain ⟨object, mem, t, there, ready⟩ :=
    ((Shares.launched rows imports).leads run).exists_ready unfinished
  obtain ⟨k, at_k⟩ := List.mem_iff_getElem?.mp mem
  obtain ⟨i, at_i⟩ := List.mem_iff_getElem?.mp there
  have seen_i : (p.seen object).threads[i]? = some t := at_i
  refine ⟨k, i, fun outside => ?_⟩
  obtain ⟨c, moved⟩ := Option.isSome_iff_exists.mp (move_isSome_of_ready seen_i ready outside)
  rw [Process.move, at_k, Option.bind_some, moved]
  rfl

theorem restarted_moves : ∃ p, (Process.launched [] []).Leads p ∧
    ∃ k i, ∀ outside, (p.move (.request k (.act i outside))).isSome := by
  obtain ⟨p, run, -, unfinished⟩ := leads_restarted
  exact ⟨p, run, always_some_request_moves [] [] p run unfinished⟩

end Progress

end ARCServer.SharedPermits
