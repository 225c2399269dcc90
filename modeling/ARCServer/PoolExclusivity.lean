import ARCServer.RequestSession

/-! The engine pool under any number of interleaved requests: it never runs dry under a
request that has its permit, and every engine has one owner or lies on the stack. -/

namespace ARCServer.PoolExclusivity

open InterleavedPrograms EnginePool FaceSdk RequestHandlers RequestSession

abbrev Requests := Config Server Request Action Action.Response Int

abbrev RequestThread := Thread Request Action Action.Response Int

abbrev Run := List (Move Request Outside)

abbrev sessionOf (t : RequestThread) : Session :=
  System.localState session Session.start t

abbrev sessions (c : Requests) : List Session := System.locals session Session.start c

/-- A server whose engines have just been started: caches, memory and tables are arbitrary. -/
def started (initEngine : ℕ → Int) (s : Server) : Requests :=
  ⟨{ s with pool := (startEngines initEngine Pool.fresh).2 }, []⟩

theorem next_phase_sdk (φ : Session) (a : SdkAction) (r : a.Response) :
    (session.next φ (.sdk a) r).phase = φ.phase := by
  cases a with
  | extractFRFeature e inputImg face => cases r <;> rfl
  | _ => rfl

theorem next_phase_db (φ : Session) (a : DbAction) (r : a.Response) :
    (session.next φ (.db a) r).phase = φ.phase := by
  cases a <;> rfl

theorem sound_step {s s' : Server} {φs : List Session} {i : ℕ} {φ : Session} {act : Action}
    {r : act.Response} {outside : Outside} (sound : Sound s.pool (φs.map Session.phase))
    (at_i : φs[i]? = some φ) (adm : session.admits φ act)
    (hstep : arcServer.step i act outside s = some (r, s')) :
    Sound s'.pool ((φs.set i (session.next φ act r)).map Session.phase) := by
  have phase_i : (φs.map Session.phase)[i]? = some φ.phase := by
    rw [List.getElem?_map, at_i]
    rfl
  rw [List.map_set]
  cases act with
  | pool a =>
    obtain ⟨pool, hpool, rfl⟩ := step_pool hstep
    exact sound.step phase_i adm.1 hpool
  | sdk a =>
    obtain ⟨-, rfl⟩ := step_sdk hstep
    rw [next_phase_sdk, set_same phase_i]
    exact sound
  | db a =>
    rw [next_phase_db, set_same phase_i, (step_db hstep).pool]
    exact sound

theorem always_sound (initEngine : ℕ → Int) (s : Server) (moves : Run) :
    arcServer.Always (fun c => System.Disciplined session Session.start
        (fun _ _ φ => φ.phase = .idle) c ∧ Sound c.shared.pool ((sessions c).map Session.phase))
      (started initEngine s) moves := by
  refine arcServer.always_locals follows_handler
    (fun s φs => Sound s.pool (φs.map Session.phase)) ?_ ?_ (Sound.initial initEngine)
    (arcServer.eachMove_true _ moves)
  · intro s φs request sound
    rw [List.map_append]
    exact sound.arrive
  · intro c i outside φ act r s' at_i _ hstep adm _ sound
    exact sound_step sound at_i adm hstep

def heldBy (t : RequestThread) : Option ℕ :=
  (sessionOf t).phase.engine

def AtTop (t : RequestThread) : Prop :=
  (∃ next, t.code = .step (.pool .top) next) ∨ ∃ next, t.code = .step (.pool .pop) next

def Finished (t : RequestThread) : Prop :=
  ∃ ret, t.code = .ret ret

structure Exclusive (c : Requests) : Prop where
  top_ready : ∀ t ∈ c.threads, AtTop t → c.shared.pool.enginespoll ≠ []
  one_owner : ∀ (i j : ℕ) t u e, c.threads[i]? = some t → c.threads[j]? = some u →
    heldBy t = some e → heldBy u = some e → i = j
  accounted : (c.shared.pool.enginespoll ++ c.threads.filterMap heldBy).Perm (List.range 10)
  at_rest : (∀ t ∈ c.threads, Finished t) →
    c.shared.pool.enginespoll.Perm (List.range 10) ∧ c.shared.pool.sem = 10

theorem filterMap_heldBy (c : Requests) :
    ((sessions c).map Session.phase).filterMap Phase.engine = c.threads.filterMap heldBy := by
  rw [List.filterMap_map, sessions, System.locals, List.filterMap_map]
  rfl

section

variable {c : Requests}

theorem phase_of_admits {phase : Phase} {a : PoolAction} (adm : phase.admits a)
    (top : a = .top ∨ a = .pop) : phase.busy ∧ phase.engine = none := by
  match phase, a, adm with
  | .locked, .top, _ => exact ⟨rfl, rfl⟩
  | .seen _, .pop, _ => exact ⟨rfl, rfl⟩
  | .idle, .acquire, _ | .acquired, .lock, _ | .popped _, .unlock, _ | .holding _, .lock, _
  | .returning _, .push _, _ | .pushed, .unlock, _ | .unlocked, .release, _ => simp at top

theorem phase_of_atTop {t : RequestThread}
    {post : Int → Session → Prop} (follows : session.Follows (sessionOf t) t.code post)
    (h : AtTop t) : (sessionOf t).phase.busy ∧ (sessionOf t).phase.engine = none := by
  rcases h with ⟨next, hcode⟩ | ⟨next, hcode⟩
  · rw [hcode] at follows
    exact phase_of_admits follows.1.1 (.inl rfl)
  · rw [hcode] at follows
    exact phase_of_admits follows.1.1 (.inr rfl)

theorem phase_mem {t : RequestThread} (mem : t ∈ c.threads) :
    (sessionOf t).phase ∈ (sessions c).map Session.phase :=
  List.mem_map_of_mem (List.mem_map_of_mem mem)

theorem exclusive_of_sound
    (disciplined : System.Disciplined session Session.start (fun _ _ φ => φ.phase = .idle) c)
    (sound : Sound c.shared.pool ((sessions c).map Session.phase)) : Exclusive c := by
  have accounted : (c.shared.pool.enginespoll ++ c.threads.filterMap heldBy).Perm
      (List.range 10) := filterMap_heldBy c ▸ sound.engines
  refine ⟨fun t mem atTop => ?_, fun i j t u e ht hu => ?_, accounted, fun finished => ?_⟩
  · obtain ⟨busy, none⟩ := phase_of_atTop (disciplined t mem) atTop
    exact sound.enginespoll_ne_nil (phase_mem mem) busy none
  · have nodup := accounted.nodup_iff.mpr List.nodup_range
    exact eq_of_nodup_filterMap (List.nodup_append.mp nodup).2.1 ht hu
  · have idle : ∀ φ ∈ (sessions c).map Session.phase, φ = .idle := by
      intro φ mem
      obtain ⟨ψ, hψ, rfl⟩ := List.mem_map.mp mem
      obtain ⟨t, ht, rfl⟩ := List.mem_map.mp hψ
      obtain ⟨ret, hcode⟩ := finished t ht
      have follows := disciplined t ht
      rw [hcode] at follows
      exact follows
    have none_busy : ((sessions c).map Session.phase).countP Phase.busy = 0 :=
      List.countP_eq_zero.mpr fun φ mem => by rw [idle φ mem]; decide
    have none_held : ((sessions c).map Session.phase).filterMap Phase.engine = [] :=
      List.filterMap_eq_nil_iff.mpr fun φ mem => by rw [idle φ mem]; rfl
    refine ⟨?_, ?_⟩
    · have engines := sound.engines
      rwa [none_held, List.append_nil] at engines
    · have permits := sound.permits
      rwa [none_busy] at permits

/-- In every run the pool is exclusive in every state. -/
theorem always_exclusive (initEngine : ℕ → Int) (s : Server) (moves : Run) :
    arcServer.Always Exclusive (started initEngine s) moves := fun k d hd =>
  have holds := always_sound initEngine s moves k d hd
  exclusive_of_sound holds.1 holds.2

end

end ARCServer.PoolExclusivity
