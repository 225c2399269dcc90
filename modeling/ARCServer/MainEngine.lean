import ARCServer.FeatureMemory
import ARCServer.MainService

/-! Which of its engines the program uses. On the one thread a request gives its engine
back before the next one takes any, so that it is always the one on top of the stack. -/

namespace ARCServer.MainEngine

open InterleavedPrograms ProgramsAlone EnginePool FaceSdk RequestHandlers RequestSession
  FeatureMemory PoolExclusivity DeadlockFreedom MainLoop MainService MachineIntegers

abbrev Past := HandlerOutcomes.Events

section Naming

def engineOf : Action → Option ℕ
  | .sdk (.stillImageFaceDetection e _) | .sdk (.extractFRFeature e _ _)
  | .sdk (.facePairMatching e _ _) => some e
  | _ => none

def calling : Protocol Action Action.Response Past :=
  .recording fun past act => ∀ e, engineOf act = some e → ⟨.pool .top, e⟩ ∈ past

def Names (e : ℕ) (act : Action) : Prop := ∀ e', engineOf act = some e' → e' = e

variable {α : Type} {e : ℕ}

theorem names_of_onPool (act : Action) (h : OnPool act) : Names e act := by
  cases act with
  | pool a => exact nofun
  | sdk a => cases h
  | db a => cases h

theorem names_onDb (a : DbAction) : (onDb a).Uses (Names e) := uses_perform nofun

theorem names_pushEngineIndex (e' : ℕ) : (pushEngineIndex e').Uses (Names e) :=
  (uses_pushEngineIndex e').mono names_of_onPool

theorem names_getFeature (data : List (Option Byte)) (width height : Int) (format : ℕ)
    (localmodel : FaceModel) :
    (getFeature e data width height format localmodel).Uses (Names e) := by
  refine uses_bind (uses_perform fun e' same => (Option.some.inj same).symm) fun detection => ?_
  cases detection with
  | failed code => exact uses_pure _ _
  | ok nFace rcFace =>
    dsimp only
    split
    · exact uses_pure _ _
    · refine uses_bind (uses_perform fun e' same => (Option.some.inj same).symm) ?_
      intro extraction
      cases extraction <;> exact uses_pure _ _

theorem names_compareFeature (model localmodel : FaceModel) :
    (compareFeature e model localmodel).Uses (Names e) :=
  uses_bind (uses_perform nofun) fun _ =>
    uses_bind (uses_perform fun _ same => (Option.some.inj same).symm) fun _ => uses_pure _ _

theorem names_scan (localmodel : FaceModel) (type : Int) (ip : String) (ret : Int)
    (list : List (FaceModel × Int)) :
    (scan e localmodel type ip ret list).Uses (Names e) := by
  induction list generalizing ret with
  | nil => exact uses_pure _ _
  | cons it rest ih =>
    refine uses_bind (names_compareFeature it.1 localmodel) fun ret => ?_
    split
    · exact uses_bind (uses_bind (names_onDb _) fun _ => uses_pure _ _) fun _ => uses_pure _ _
    · exact ih ret

theorem names_compareGuests (localmodel : FaceModel) (ip : String) :
    (compareGuests e localmodel ip).Uses (Names e) :=
  uses_bind (uses_bind (names_onDb _) fun _ => names_onDb _) fun _ =>
    uses_bind (names_scan _ _ _ _ _) fun _ => uses_bind (names_onDb _) fun _ => uses_pure _ _

theorem follows_names {past : Past} {p : Handler α} (seen : ⟨.pool .top, e⟩ ∈ past)
    (uses : p.Uses (Names e)) : calling.Follows past p fun _ _ => True := by
  induction p generalizing past with
  | ret a => trivial
  | step act next ih =>
    refine ⟨fun e' same => uses.1 e' same ▸ seen, fun r => ?_⟩
    exact ih r (List.mem_append_left _ seen) (uses.2 r)

theorem follows_withEngine {next : ℕ → Handler α} (uses : ∀ e, (next e).Uses (Names e)) :
    calling.Follows [] (do let e ← popEngineIndex; next e) fun _ _ => True := by
  have free (past : Past) (a : PoolAction) : calling.admits past (.pool a) := by
    intro e same
    cases same
  simp only [popEngineIndex, onPool, Protocol.follows_bind, Protocol.follows_perform,
    Protocol.follows_pure]
  refine ⟨free _ _, fun _ => ⟨free _ _, fun _ => ⟨free _ _, fun e => ⟨free _ _, fun _ =>
    ⟨free _ _, fun _ => follows_names ?_ (uses e)⟩⟩⟩⟩⟩
  simp [calling, Protocol.recording]

theorem follows_handler (request : Request) :
    calling.Follows [] request.handler fun _ _ => True := by
  cases request with
  | compareFace data ip =>
    refine follows_withEngine fun e => uses_bind (uses_perform nofun) fun image => ?_
    cases image with
    | none => exact uses_bind (names_pushEngineIndex e) fun _ => uses_pure _ _
    | some img =>
      refine uses_bind (names_getFeature _ _ _ _ _) fun feature => ?_
      refine uses_bind (uses_bind (names_onDb _) fun _ => names_onDb _) fun userlist => ?_
      refine uses_bind (names_scan _ _ _ _ _) fun userRet => ?_
      refine uses_bind (names_onDb _) fun _ => ?_
      dsimp only
      split
      · exact uses_bind (names_compareGuests _ _) fun _ =>
          uses_bind (names_pushEngineIndex e) fun _ => uses_pure _ _
      · exact uses_bind (uses_pure _ _) fun _ =>
          uses_bind (names_pushEngineIndex e) fun _ => uses_pure _ _
  | addFeature data id =>
    refine follows_withEngine fun e => uses_bind (uses_perform nofun) fun image => ?_
    cases image with
    | none => exact uses_bind (names_pushEngineIndex e) fun _ => uses_pure _ _
    | some img =>
      refine uses_bind (names_getFeature _ _ _ _ _) fun feature => ?_
      refine uses_bind (names_pushEngineIndex e) fun _ => ?_
      split
      · refine uses_bind (uses_bind (names_onDb _) fun bytes => ?_) fun _ => uses_pure _ _
        refine uses_bind (names_onDb _) fun exec => ?_
        split <;> exact uses_pure _ _
      · exact uses_pure _ _
  | addFeatureG data id =>
    refine follows_withEngine fun e => uses_bind (uses_perform nofun) fun image => ?_
    cases image with
    | none => exact uses_bind (names_pushEngineIndex e) fun _ => uses_pure _ _
    | some img =>
      refine uses_bind (names_getFeature _ _ _ _ _) fun feature => ?_
      split
      · refine uses_bind ?_ fun _ => uses_bind (names_pushEngineIndex e) fun _ => uses_pure _ _
        exact uses_bind (names_onDb _) fun _ => uses_bind (names_onDb _) fun _ =>
          uses_bind (names_onDb _) fun _ => uses_bind (names_onDb _) fun _ => uses_pure _ _
      · exact uses_bind (names_pushEngineIndex e) fun _ => uses_pure _ _

end Naming

section Alone

def Delivers (past : Past) (f : Feature) : Prop := ∃ event ∈ past, delivered event = some f

theorem Delivers.append {past : Past} {f : Feature} (h : Delivers past f)
    (event : Event Action Action.Response) : Delivers (past ++ [event]) f := by
  obtain ⟨earlier, mem, same⟩ := h
  exact ⟨earlier, List.mem_append_left _ mem, same⟩

structure LeavesBehind (request : Request) (i : ℕ) (s : Server) (past : Past) (t : Server) :
    Prop where
  stack : (session.after (.start request) past).phase.engine.toList ++ t.pool.enginespoll =
    s.pool.enginespoll
  seen : ∀ e, (session.after (.start request) past).phase = .seen e →
    t.pool.enginespoll.head? = some e
  looked : ∀ e, ⟨.pool .top, e⟩ ∈ past → s.pool.enginespoll.head? = some e
  feature : ∀ f, (session.after (.start request) past).feature = some f → Delivers past f
  memory : ∀ e slot, (∀ event ∈ past, engineOf event.act ≠ some e) →
    t.memory (.engine e slot) = s.memory (.engine e slot)
  grown : ∃ added, t.cache_guest = s.cache_guest ++ added ∧ ∀ entry ∈ added,
    entry.creator = i ∧ ∃ f, Delivers past f ∧ entry.guest.model = f.model
  reads : ∀ list, ⟨.db .readCacheGuest, list⟩ ∈ past → ∀ entry ∈ s.cache_guest,
    entry.guest ∈ list

variable {request : Request} {i : ℕ} {s t t' : Server} {past : Past} {act : Action}
  {r : act.Response} {outside : Outside}

theorem stack_step {phase : Phase} {a : PoolAction} {r : a.Response} {pool pool' : Pool}
    {stack : List ℕ} (adm : phase.admits a) (taken : pool.step a = some (r, pool'))
    (whole : phase.engine.toList ++ pool.enginespoll = stack)
    (seen : ∀ e, phase = .seen e → pool.enginespoll.head? = some e) :
    (phase.next a r).engine.toList ++ pool'.enginespoll = stack ∧
      (∀ e, phase.next a r = .seen e → pool'.enginespoll.head? = some e) ∧
        ∀ e : ℕ, (⟨.pool a, r⟩ : Event Action Action.Response) = ⟨.pool .top, e⟩ →
          stack.head? = some e := by
  match phase, a, adm with
  | .idle, .acquire, _ =>
    obtain ⟨-, rfl⟩ := step_acquire taken
    exact ⟨whole, nofun, nofun⟩
  | .acquired, .lock, _ =>
    obtain ⟨-, rfl⟩ := step_lock taken
    exact ⟨whole, nofun, nofun⟩
  | .locked, .top, _ =>
    obtain ⟨head, rfl⟩ := step_top taken
    refine ⟨whole, fun e same => ?_, fun e same => ?_⟩
    · rw [head, Phase.seen.inj same]
    · cases same
      rw [← whole]
      exact head
  | .seen e, .pop, _ =>
    have head := seen e rfl
    obtain ⟨top, rest, stack, rfl⟩ := step_pop taken
    rw [stack, List.head?_cons] at head
    cases head
    refine ⟨?_, nofun, nofun⟩
    rw [← whole, stack]
    rfl
  | .popped e, .unlock, _ =>
    cases taken
    exact ⟨whole, nofun, nofun⟩
  | .holding e, .lock, _ =>
    obtain ⟨-, rfl⟩ := step_lock taken
    exact ⟨whole, nofun, nofun⟩
  | .returning e, .push e', same =>
    cases taken
    cases same
    exact ⟨whole, nofun, nofun⟩
  | .pushed, .unlock, _ =>
    cases taken
    exact ⟨whole, nofun, nofun⟩
  | .unlocked, .release, _ =>
    cases taken
    exact ⟨whole, nofun, nofun⟩

theorem feature_or_delivered {φ : Session} {f : Feature}
    (h : (session.next φ act r).feature = some f) :
    φ.feature = some f ∨ delivered ⟨act, r⟩ = some f := by
  cases act with
  | pool a => exact .inl h
  | sdk a =>
    cases a with
    | extractFRFeature e inputImg face =>
      cases r with
      | ok slot bytes => exact .inr h
      | failed code written => exact .inl h
    | _ => exact .inl h
  | db a => cases a <;> exact .inl h

theorem LeavesBehind.nothing (request : Request) (i : ℕ) (s : Server) :
    LeavesBehind request i s [] s :=
  ⟨rfl, nofun, fun _ mem => absurd mem List.not_mem_nil, nofun, fun _ _ _ => rfl,
    ⟨[], (List.append_nil _).symm, fun _ mem => absurd mem List.not_mem_nil⟩,
    fun _ mem => absurd mem List.not_mem_nil⟩

theorem LeavesBehind.step (h : LeavesBehind request i s past t)
    (adm : session.admits (session.after (.start request) past) act)
    (taken : arcServer.step i act outside t = some (r, t')) :
    LeavesBehind request i s (past ++ [⟨act, r⟩]) t' := by
  have pools : (session.next (session.after (.start request) past) act r).phase.engine.toList ++
        t'.pool.enginespoll = s.pool.enginespoll ∧
      (∀ e, (session.next (session.after (.start request) past) act r).phase = .seen e →
        t'.pool.enginespoll.head? = some e) ∧
        ∀ e : ℕ, (⟨act, r⟩ : Event Action Action.Response) = ⟨.pool .top, e⟩ →
          s.pool.enginespoll.head? = some e := by
    cases act with
    | pool a =>
      obtain ⟨pool, hs, rfl⟩ := step_pool taken
      exact stack_step adm.1 hs h.stack h.seen
    | sdk a =>
      obtain ⟨-, rfl⟩ := step_sdk taken
      rw [next_phase_sdk]
      exact ⟨h.stack, h.seen, nofun⟩
    | db a =>
      rw [next_phase_db, (step_db taken).pool]
      exact ⟨h.stack, h.seen, nofun⟩
  have now : session.after (.start request) (past ++ [⟨act, r⟩]) =
    session.next (session.after (.start request) past) act r := session.after_concat _ _ _
  rw [← now] at pools
  refine ⟨pools.1, pools.2.1, fun e mem => ?_, fun f extracted => ?_, fun e slot other => ?_,
    ?_, fun list mem entry old => ?_⟩
  · rcases List.mem_append.mp mem with old | new
    · exact h.looked e old
    · exact pools.2.2 e (List.mem_singleton.mp new).symm
  · rw [now] at extracted
    rcases feature_or_delivered extracted with old | new
    · exact (h.feature f old).append _
    · exact ⟨_, List.mem_append_right _ (List.mem_singleton_self _), new⟩
  · have before := h.memory e slot fun event mem => other event (List.mem_append_left _ mem)
    rcases memory_step taken with same | ⟨e', inputImg, face, rfl, changed⟩
    · rw [same, before]
    · have apart : e ≠ e' := fun same =>
        other _ (List.mem_append_right _ (List.mem_singleton_self _)) (congrArg some same.symm)
      rw [changed, overwrite_other apart, before]
  · obtain ⟨added, grown, own⟩ := h.grown
    have before : ∀ entry ∈ added, entry.creator = i ∧
        ∃ f, Delivers (past ++ [⟨act, r⟩]) f ∧ entry.guest.model = f.model := fun entry mem =>
      have ⟨creator, f, delivers, same⟩ := own entry mem
      ⟨creator, f, delivers.append _, same⟩
    rcases cache_guest_step taken with same | ⟨guest, rfl, stored⟩
    · exact ⟨added, same.trans grown, before⟩
    · refine ⟨added ++ [⟨i, guest⟩], ?_, List.forall_mem_append.mpr ⟨before, ?_⟩⟩
      · rw [stored, grown, List.append_assoc]
      · obtain ⟨-, model, -⟩ := adm
        obtain ⟨f, extracted, same⟩ := Option.map_eq_some_iff.mp model
        exact List.forall_mem_singleton.mpr
          ⟨rfl, f, (h.feature f extracted).append _, same.symm⟩
  · rcases List.mem_append.mp mem with earlier | new
    · exact h.reads list earlier entry old
    · cases List.mem_singleton.mp new
      cases taken
      obtain ⟨added, grown, -⟩ := h.grown
      exact List.mem_map_of_mem (grown ▸ List.mem_append_left added old)

theorem ensures_leaves (request : Request) (i : ℕ) (s : Server) :
    (HandlerOutcomes.onServer i fun _ _ _ => True).Ensures request.handler s fun past _ t =>
      (session.after (.start request) past).phase = .idle ∧ LeavesBehind request i s past t := by
  have follows : session.Follows (session.after (.start request) []) request.handler
    fun _ φ => φ.phase = .idle := RequestSession.follows_handler request
  exact World.ensures_of_follows follows (LeavesBehind request i s)
    (fun _ _ _ _ _ _ adm _ taken h => h.step adm taken) (LeavesBehind.nothing request i s)

def SeenFirst (past : Past) : Prop :=
  ∀ event ∈ past, ∀ e, engineOf event.act = some e → ⟨.pool .top, e⟩ ∈ past

theorem ensures_calls (request : Request) (i : ℕ) (s : Server) :
    (HandlerOutcomes.onServer i fun _ _ _ => True).Ensures request.handler s fun past _ _ =>
      SeenFirst past := by
  have follows : calling.Follows (calling.after [] []) request.handler fun _ _ => True :=
    follows_handler request
  have kept : (HandlerOutcomes.onServer i fun _ _ _ => True).Ensures request.handler s
      fun past _ _ => True ∧ SeenFirst ([] ++ past) := by
    refine World.ensures_of_follows follows (fun past _ => SeenFirst past) ?_
      fun _ mem => absurd mem List.not_mem_nil
    intro past act outside r t t' adm _ _ calls event mem e same
    rw [calling, Protocol.after_recording, List.nil_append] at adm
    rcases List.mem_append.mp mem with old | new
    · exact List.mem_append_left _ (calls event old e same)
    · rw [List.mem_singleton.mp new] at same
      exact List.mem_append_left _ (adm e same)
  exact kept.mono fun _ _ _ h => h.2

end Alone

section Loop

variable {initEngine : ℕ → Int} {database : Server} {ip : ℕ → String} {events : MainLoop.Events}

/-- Engine 9 lies on top of the stack and is the only one that the SDK was called with; the
buffers of the others are as they were, and every guest points to one of its buffers. -/
structure SoleEngine (database : Server) (c : Requests) : Prop where
  stack : c.shared.pool.enginespoll = (List.range cMaxNum).reverse
  calls : ∀ t ∈ c.threads, ∀ event ∈ t.past, ∀ e, engineOf event.act = some e → e = 9
  memory : ∀ e slot, e ≠ 9 →
    c.shared.memory (.engine e slot) = database.memory (.engine e slot)
  guests : ∃ added, c.shared.cache_guest = database.cache_guest ++ added ∧ ∀ entry ∈ added,
    ∃ t f, c.threads[entry.creator]? = some t ∧ Delivers t.past f ∧ f.engine = 9 ∧
      entry.guest.model = f.model

theorem engineOf_of_delivered {event : Event Action Action.Response} {f : Feature}
    (h : delivered event = some f) : engineOf event.act = some f.engine := by
  obtain ⟨act, r⟩ := event
  cases act with
  | pool a => cases h
  | sdk a =>
    cases a with
    | extractFRFeature e inputImg face =>
      cases r with
      | ok slot bytes =>
        cases h
        rfl
      | failed code written => cases h
    | _ => cases h
  | db a => cases a <;> cases h

theorem calls_of_completes {request : Request} {i : ℕ} {s t : Server} {past : Past} {ret : Int}
    {e : ℕ} (top : s.pool.enginespoll.head? = some e)
    (h : (HandlerOutcomes.onServer i fun _ _ _ => True).Completes request.handler s past ret t) :
    ∀ event ∈ past, ∀ e', engineOf event.act = some e' → e' = e := by
  intro event mem e' same
  have looked := (ensures_calls request i s).completes h event mem e' same
  have leaves := ((ensures_leaves request i s).completes h).2
  exact Option.some.inj ((leaves.looked e' looked).symm.trans top)

theorem soleEngine_opened (initEngine : ℕ → Int) (database : Server) :
    SoleEngine database (opened initEngine database) := by
  refine ⟨?_, fun t mem => absurd mem List.not_mem_nil, fun _ _ _ => rfl,
    [], (List.append_nil _).symm, fun _ mem => absurd mem List.not_mem_nil⟩
  change (startEngines initEngine Pool.fresh).2.enginespoll = _
  rw [startEngines_pool]
  exact List.append_nil _

theorem SoleEngine.served {c d : Requests} {request : Request} {past : Past} {ret : Int}
    (h : SoleEngine database c)
    (completes : (HandlerOutcomes.onServer c.threads.length fun _ _ _ => True).Completes
      request.handler c.shared past ret d.shared)
    (more : d.threads = c.threads ++ [⟨request, .ret ret, past⟩]) : SoleEngine database d := by
  obtain ⟨idle, leaves⟩ := (ensures_leaves request c.threads.length c.shared).completes completes
  have calls := calls_of_completes (e := 9) (by rw [h.stack]; rfl) completes
  refine ⟨?_, fun t mem => ?_, fun e slot other => ?_, ?_⟩
  · have stack := leaves.stack
    rw [idle] at stack
    exact stack.trans h.stack
  · rw [more] at mem
    rcases List.mem_append.mp mem with old | new
    · exact h.calls t old
    · rw [List.mem_singleton.mp new]
      exact calls
  · exact (leaves.memory e slot fun event mem same => other (calls event mem e same)).trans
      (h.memory e slot other)
  · obtain ⟨before, was, old⟩ := h.guests
    obtain ⟨added, grown, own⟩ := leaves.grown
    refine ⟨before ++ added, by rw [grown, was, List.append_assoc],
      List.forall_mem_append.mpr ⟨fun entry mem => ?_, fun entry mem => ?_⟩⟩
    · obtain ⟨t, f, there, rest⟩ := old entry mem
      refine ⟨t, f, ?_, rest⟩
      rw [more, List.getElem?_append_left (List.getElem?_eq_some_iff.mp there).1, there]
    · obtain ⟨creator, f, ⟨event, there, delivers⟩, same⟩ := own entry mem
      refine ⟨⟨request, .ret ret, past⟩, f, ?_, ⟨event, there, delivers⟩,
        calls event there _ (engineOf_of_delivered delivers), same⟩
      rw [more, creator]
      exact List.getElem?_concat_length

/-- On its one thread the program uses engine 9 alone, whatever comes on the connections. -/
theorem main_sole_engine {s : State} (h : main initEngine database ip events = .ok s) :
    SoleEngine database s.shared.requests :=
  requests_of_main (SoleEngine database) (soleEngine_opened initEngine database)
    (fun _ _ _ _ _ _ sole completes more => sole.served completes more) h

theorem visit_sole_engine : ∃ s, main (fun _ => 0) HandlerOutcomes.idleServer (fun _ => "gate")
    visits = .ok s ∧ SoleEngine HandlerOutcomes.idleServer s.shared.requests := by
  obtain ⟨s, ran, -⟩ := visit_runs
  exact ⟨s, ran, main_sole_engine ran⟩

end Loop

end ARCServer.MainEngine
