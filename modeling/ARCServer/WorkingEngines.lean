import ARCServer.EngineLifecycle
import ARCServer.FeatureMemory

/-! Which engines the pool hands out. Start-up puts every index on the stack whatever
became of its engine, and nothing looks at the combined result afterwards. -/

namespace ARCServer.WorkingEngines

open InterleavedPrograms EnginePool EngineLifecycle FaceSdk RequestHandlers RequestSession
  PoolExclusivity FeatureMemory

def startUp (o : ℕ → InitOutcome) (i : ℕ) : Int × ARCFaceEngine :=
  ((initEngine (o i) .new .empty).1, (initEngine (o i) .new .empty).2.1)

def served (o : ℕ → InitOutcome) (s : Server) : Requests :=
  started (fun i => (startUp o i).1) s

structure Working (o : ℕ → InitOutcome) (e : ℕ) : Prop where
  returned : (startUp o e).1 = 0
  initialised : Initialised (o e) (startUp o e).2

theorem working_iff (o : ℕ → InitOutcome) (e : ℕ) : Working o e ↔ (o e).Succeeds := by
  constructor
  · intro working
    exact (initEngine_zero_iff (o e) .empty).mp working.returned
  · intro succeeds
    exact ⟨(initEngine_zero_iff (o e) .empty).mpr succeeds, initialised_of_succeeds succeeds _⟩

theorem lor_zero : (-1 : Int).lor 0 = -1 := congrArg Int.negSucc Nat.bitwise_zero

theorem zero_lor : (0 : Int).lor (-1) = -1 := congrArg Int.negSucc Nat.bitwise_zero

section Loop

variable {o : ℕ → InitOutcome} {res : Int}

theorem lor_startUp (i : ℕ) (started : res = 0 ∨ res = -1) :
    (res.lor (startUp o i).1 = 0 ∨ res.lor (startUp o i).1 = -1) ∧
      (res.lor (startUp o i).1 = 0 ↔ res = 0 ∧ (o i).Succeeds) := by
  rcases initEngine_new (o i) .empty with ⟨succeeds, ret, -⟩ | ⟨fails, ret⟩
  · rw [startUp, ret]
    rcases started with zero | minus
    · rw [zero]
      exact ⟨.inl rfl, iff_of_true rfl ⟨rfl, succeeds⟩⟩
    · rw [minus, lor_zero]
      exact ⟨.inr rfl, iff_of_false (by decide) fun h => absurd h.1 (by decide)⟩
  · rw [startUp, ret]
    have failed : res.lor (-1) = -1 := by
      rcases started with zero | minus
      · rw [zero, zero_lor]
      · rw [minus]
        rfl
    rw [failed]
    exact ⟨.inr rfl, iff_of_false (by decide) fun h => fails h.2⟩

theorem startEngines_loop (l : List ℕ) (pool : Pool) (started : res = 0 ∨ res = -1) :
    (l.foldl (fun s i => (s.1.lor (startUp o i).1,
      { s.2 with enginespoll := i :: s.2.enginespoll })) (res, pool)).1 = 0 ↔
        res = 0 ∧ ∀ i ∈ l, (o i).Succeeds := by
  induction l generalizing res pool with
  | nil => simp
  | cons i l ih =>
    obtain ⟨still, both⟩ := lor_startUp (o := o) i started
    rw [List.foldl_cons, ih _ still, both, List.forall_mem_cons, and_assoc]

end Loop

/-- What `startEngines` returns would tell whether every engine works. -/
theorem startEngines_result (o : ℕ → InitOutcome) (pool : Pool) :
    (startEngines (fun i => (startUp o i).1) pool).1 = 0 ↔ ∀ i < cMaxNum, (o i).Succeeds := by
  have whole := startEngines_loop (o := o) (List.range cMaxNum) pool (.inl rfl)
  rw [and_iff_right rfl] at whole
  exact whole.trans (forall_congr' fun i => imp_congr_left List.mem_range)

def HandsOutWorking (o : ℕ → InitOutcome) (c : Requests) : Prop :=
  ∀ t ∈ c.threads, ∀ e, heldBy t = some e → Working o e

theorem handsOutWorking_of_exclusive {o : ℕ → InitOutcome} {c : Requests} (exclusive : Exclusive c)
    (succeed : ∀ i < cMaxNum, (o i).Succeeds) : HandsOutWorking o c := by
  intro t mem e held
  have known : e ∈ List.range 10 := by
    apply exclusive.accounted.subset
    exact List.mem_append_right _ (List.mem_filterMap.mpr ⟨t, mem, held⟩)
  exact (working_iff o e).mpr (succeed e (List.mem_range.mp known))

section Grabbing

theorem move_last {s s' : Server} {threads : List RequestThread} {request : Request}
    {act : Action} {next : act.Response → Handler Int} {past : List (Event Action Action.Response)}
    {outside : Outside} {r : act.Response}
    (h : arcServer.step threads.length act outside s = some (r, s')) :
    arcServer.move ⟨s, threads ++ [⟨request, .step act next, past⟩]⟩ (.act threads.length outside) =
      some ⟨s', threads ++ [⟨request, next r, past ++ [⟨act, r⟩]⟩]⟩ := by
  have last : (threads ++ [(⟨request, .step act next, past⟩ : RequestThread)])[threads.length]? =
      some ⟨request, .step act next, past⟩ := by simp
  simp only [System.move, last, h]
  simp

theorem popEngineIndex_bind (rest : ℕ → Handler Int) :
    popEngineIndex >>= rest =
      .step (.pool .acquire) fun _ => .step (.pool .lock) fun _ => .step (.pool .top) fun e =>
        .step (.pool .pop) fun _ => .step (.pool .unlock) fun _ => rest e := rfl

theorem step_pool_eq {pool pool' : Pool} {a : PoolAction} {r : a.Response} (s : Server) (i : ℕ)
    (outside : Outside) (h : pool.step a = some (r, pool')) :
    arcServer.step i (.pool a) outside { s with pool } = some (r, { s with pool := pool' }) := by
  change (pool.step a).map _ = _
  rw [h]
  rfl

theorem run_popEngineIndex (s : Server) (threads : List RequestThread) (request : Request)
    (outside : Outside) (rest : ℕ → Handler Int) (sem e : ℕ) (others : List ℕ) :
    arcServer.run ⟨{ s with pool := ⟨sem + 1, false, e :: others⟩ },
        threads ++ [⟨request, popEngineIndex >>= rest, []⟩]⟩
        (List.replicate 5 (.act threads.length outside)) =
      some ⟨{ s with pool := ⟨sem, false, others⟩ }, threads ++ [⟨request, rest e,
        [⟨.pool .acquire, ()⟩, ⟨.pool .lock, ()⟩, ⟨.pool .top, e⟩, ⟨.pool .pop, ()⟩,
          ⟨.pool .unlock, ()⟩]⟩]⟩ := by
  have acquire := @step_pool_eq ⟨sem + 1, false, e :: others⟩ ⟨sem, false, e :: others⟩ .acquire ()
    s threads.length outside rfl
  have lock := @step_pool_eq ⟨sem, false, e :: others⟩ ⟨sem, true, e :: others⟩ .lock ()
    s threads.length outside rfl
  have top := @step_pool_eq ⟨sem, true, e :: others⟩ ⟨sem, true, e :: others⟩ .top e
    s threads.length outside rfl
  have pop := @step_pool_eq ⟨sem, true, e :: others⟩ ⟨sem, true, others⟩ .pop ()
    s threads.length outside rfl
  have unlock := @step_pool_eq ⟨sem, true, others⟩ ⟨sem, false, others⟩ .unlock ()
    s threads.length outside rfl
  rw [popEngineIndex_bind]
  simp only [List.replicate_succ, List.replicate_zero, System.run, List.foldlM_cons,
    List.foldlM_nil, Option.bind_eq_bind]
  rw [move_last acquire, Option.bind_some, move_last lock, Option.bind_some, move_last top,
    Option.bind_some, move_last pop, Option.bind_some, move_last unlock]
  rfl

theorem exists_run_heldBy {n i : ℕ} (below : i < n) (s : Server) (threads : List RequestThread) :
    ∃ moves d, arcServer.run ⟨{ s with pool := ⟨n, false, (List.range n).reverse⟩ }, threads⟩
        moves = some d ∧ ∃ t ∈ d.threads, heldBy t = some i := by
  induction n generalizing threads with
  | zero => cases below
  | succ n ih =>
    obtain ⟨rest, starts⟩ : ∃ rest, (Request.addFeature [] 0).handler = popEngineIndex >>= rest :=
      ⟨_, rfl⟩
    let t : RequestThread := ⟨.addFeature [] 0, rest n, [⟨.pool .acquire, ()⟩, ⟨.pool .lock, ()⟩,
      ⟨.pool .top, n⟩, ⟨.pool .pop, ()⟩, ⟨.pool .unlock, ()⟩]⟩
    let grab : Run := .start (.addFeature [] 0) :: List.replicate 5 (.act threads.length {})
    have grabbed : arcServer.run
        ⟨{ s with pool := ⟨n + 1, false, (List.range (n + 1)).reverse⟩ }, threads⟩ grab =
        some ⟨{ s with pool := ⟨n, false, (List.range n).reverse⟩ }, threads ++ [t]⟩ := by
      rw [List.range_succ, List.reverse_append]
      have arrived := run_popEngineIndex s threads (.addFeature [] 0) {} rest n n
        (List.range n).reverse
      rw [← starts] at arrived
      exact arrived
    rcases Nat.lt_succ_iff_lt_or_eq.mp below with deeper | top
    · obtain ⟨moves, d, reached, held⟩ := ih deeper (threads ++ [t])
      refine ⟨grab ++ moves, d, ?_, held⟩
      rw [System.run, List.foldlM_append]
      change (arcServer.run _ grab).bind _ = _
      rw [grabbed]
      exact reached
    · exact ⟨grab, _, grabbed, t, by simp, by rw [top]; rfl⟩

end Grabbing

/-- Only working engines are handed out in the runs after a start-up exactly when every
allocation and every call of the SDK in it succeeded. -/
theorem always_handsOutWorking_iff (o : ℕ → InitOutcome) (s : Server) :
    (∀ moves, arcServer.Always (HandsOutWorking o) (served o s) moves) ↔
      ∀ i < cMaxNum, (o i).Succeeds := by
  constructor
  · intro always i below
    obtain ⟨moves, d, reached, t, mem, held⟩ := exists_run_heldBy below s []
    have start : served o s =
        ⟨{ s with pool := ⟨cMaxNum, false, (List.range cMaxNum).reverse⟩ }, []⟩ := by
      rw [served, started, startEngines_pool]
      rfl
    have working := System.Always.last arcServer (always moves) (start ▸ reached) t mem i held
    exact (working_iff o i).mp working
  · intro succeed moves k d reached
    exact handsOutWorking_of_exclusive (always_exclusive _ s moves k d reached) succeed

def lastFails (i : ℕ) : InitOutcome :=
  ⟨true, .ok 1, true, if i = 9 then .failed ⟨-1, minus_one_ne_mok⟩ none else .ok 2⟩

/-- The first request is given the engine that does not work. -/
theorem broken_engine_handed_out :
    (startUp lastFails 9).1 = -1 ∧
      ¬ ∀ moves, arcServer.Always (HandsOutWorking lastFails) (served lastFails freshServer)
        moves := by
  refine ⟨by decide, fun always => ?_⟩
  have first : (arcServer.run (served lastFails freshServer)
      (.start (.addFeature [] 0) :: List.replicate 5 (.act 0 {}))).map
        (fun d => d.threads.map heldBy) = some [some 9] := by decide
  obtain ⟨d, reached, held⟩ := Option.map_eq_some_iff.mp first
  obtain ⟨t, mem, engine⟩ : ∃ t ∈ d.threads, heldBy t = some 9 :=
    List.mem_map.mp (held ▸ List.mem_singleton.mpr rfl)
  have working := System.Always.last arcServer (always _) reached t mem 9 engine
  exact absurd working.returned (by decide)

end ARCServer.WorkingEngines
