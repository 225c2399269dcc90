import ARCServer.PoolExclusivity

/-! Where the feature of a request lies. As long as a request has its engine, nobody
else extracts there, so the memory still holds what was extracted; what a request
has extracted comes from its own image. -/

namespace ARCServer.FeatureMemory

open InterleavedPrograms EnginePool FaceSdk RequestHandlers RequestSession PoolExclusivity
  MachineIntegers

def Extracted (request : Request) (past : List (Event Action Action.Response))
    (bytes : List Byte) : Prop :=
  ∃ format img e face slot, ⟨.sdk (.loadFromData (data request) format), some img⟩ ∈ past ∧
    ⟨.sdk (.extractFRFeature e (faceInputImg img) face), .ok slot bytes⟩ ∈ past

def delivered : Event Action Action.Response → Option Feature
  | ⟨.sdk (.extractFRFeature e _ _), .ok slot bytes⟩ => some ⟨e, slot, bytes⟩
  | _ => none

/-- The session tells what the request has done. -/
structure Traced (request : Request) (past : List (Event Action Action.Response)) : Prop where
  request_eq : (session.after (.start request) past).request = request
  decoded : ∀ img, (session.after (.start request) past).image = some img →
    ∃ format, ⟨.sdk (.loadFromData (data request) format), some img⟩ ∈ past
  extracted : ∀ f, (session.after (.start request) past).feature = some f →
    Extracted request past f.bytes
  once : ∀ event ∈ past, ∀ f, delivered event = some f →
    (session.after (.start request) past).feature = some f

section Sessions

variable {φ : Session} {act : Action} {r : act.Response}
  {request : Request} {past : List (Event Action Action.Response)}

@[simp] theorem next_request (φ : Session) (act : Action) (r : act.Response) :
    (session.next φ act r).request = φ.request := by
  cases act with
  | pool a => rfl
  | sdk a =>
    cases a with
    | extractFRFeature e inputImg face => cases r <;> rfl
    | _ => rfl
  | db a => cases a <;> rfl

theorem next_feature (adm : session.admits φ act) {f : Feature} (h : φ.feature = some f) :
    (session.next φ act r).feature = some f := by
  cases act with
  | pool a => exact h
  | sdk a =>
    cases a with
    | loadFromData bytes format => exact h
    | extractFRFeature e inputImg face =>
      have fresh : φ.feature = none := adm.2.1
      rw [fresh] at h
      cases h
    | _ => exact h
  | db a => cases a <;> exact h

theorem Extracted.append {bytes : List Byte} (h : Extracted request past bytes)
    (event : Event Action Action.Response) : Extracted request (past ++ [event]) bytes := by
  obtain ⟨format, img, e, face, slot, loaded, extracted⟩ := h
  exact ⟨format, img, e, face, slot, List.mem_append_left _ loaded,
    List.mem_append_left _ extracted⟩

theorem Traced.same (h : Traced request past)
    (image : (session.next (session.after (.start request) past) act r).image =
      (session.after (.start request) past).image)
    (feature : (session.next (session.after (.start request) past) act r).feature =
      (session.after (.start request) past).feature)
    (other : delivered ⟨act, r⟩ = none) : Traced request (past ++ [⟨act, r⟩]) := by
  refine ⟨?_, fun img hi => ?_, fun f hf => ?_, fun event mem f hf => ?_⟩
  · rw [Protocol.after_concat, next_request]
    exact h.request_eq
  · rw [Protocol.after_concat, image] at hi
    obtain ⟨format, mem⟩ := h.decoded img hi
    exact ⟨format, List.mem_append_left _ mem⟩
  · rw [Protocol.after_concat, feature] at hf
    exact (h.extracted f hf).append _
  · rw [Protocol.after_concat, feature]
    rcases List.mem_append.mp mem with old | new
    · exact h.once event old f hf
    · rw [List.mem_singleton.mp new, other] at hf
      cases hf

theorem Traced.decode {bytes : List Byte} {format : ImageFormat} {image : Option QImage}
    (adm : session.admits (session.after (.start request) past) (.sdk (.loadFromData bytes format)))
    (h : Traced request past) :
    Traced request (past ++ [⟨.sdk (.loadFromData bytes format), image⟩]) := by
  obtain ⟨own, fresh⟩ : bytes = data (session.after (.start request) past).request ∧
    (session.after (.start request) past).feature = none := adm
  rw [h.request_eq] at own
  refine ⟨?_, fun img hi => ⟨format, ?_⟩, fun f hf => ?_, fun event mem f hf => ?_⟩
  · rw [Protocol.after_concat, next_request]
    exact h.request_eq
  · rw [Protocol.after_concat] at hi
    have answer : image = some img := hi
    rw [own, answer]
    exact List.mem_append_right _ List.mem_cons_self
  · rw [Protocol.after_concat] at hf
    rw [show (session.after (.start request) past).feature = some f from hf] at fresh
    cases fresh
  · rcases List.mem_append.mp mem with old | new
    · rw [h.once event old f hf] at fresh
      cases fresh
    · rw [List.mem_singleton.mp new] at hf
      cases hf

theorem Traced.extract {e : ℕ}
    {inputImg : OffScreen} {face : FaceInput} {slot : ℕ} {bytes : List Byte}
    (adm : session.admits (session.after (.start request) past)
      (.sdk (.extractFRFeature e inputImg face))) (h : Traced request past) :
    Traced request (past ++ [⟨.sdk (.extractFRFeature e inputImg face), .ok slot bytes⟩]) := by
  obtain ⟨-, fresh, own⟩ := adm
  obtain ⟨img, decoded, rfl⟩ := Option.map_eq_some_iff.mp own
  obtain ⟨format, loaded⟩ := h.decoded img decoded
  refine ⟨?_, fun img' hi => ?_, fun f hf => ?_, fun event mem f hf => ?_⟩
  · rw [Protocol.after_concat, next_request]
    exact h.request_eq
  · rw [Protocol.after_concat] at hi
    obtain ⟨format', mem⟩ := h.decoded img' hi
    exact ⟨format', List.mem_append_left _ mem⟩
  · rw [Protocol.after_concat] at hf
    cases hf
    exact ⟨format, img, e, face, slot, List.mem_append_left _ loaded,
      List.mem_append_right _ List.mem_cons_self⟩
  · rw [Protocol.after_concat]
    rcases List.mem_append.mp mem with old | new
    · rw [h.once event old f hf] at fresh
      cases fresh
    · rw [List.mem_singleton.mp new] at hf
      exact hf

theorem Traced.step (adm : session.admits (session.after (.start request) past) act)
    (h : Traced request past) : Traced request (past ++ [⟨act, r⟩]) := by
  cases act with
  | pool a => exact h.same rfl rfl rfl
  | sdk a =>
    cases a with
    | loadFromData bytes format => exact h.decode adm
    | extractFRFeature e inputImg face =>
      cases r with
      | failed code written => exact h.same rfl rfl rfl
      | ok slot bytes => exact h.extract adm
    | _ => exact h.same rfl rfl rfl
  | db a => cases a <;> exact h.same rfl rfl rfl

theorem Traced.feature_eq (h : Traced request past) {bytes : List Byte}
    (extracted : Extracted request past bytes) :
    ∃ f, (session.after (.start request) past).feature = some f ∧ f.bytes = bytes := by
  obtain ⟨format, img, e, face, slot, -, mem⟩ := extracted
  exact ⟨⟨e, slot, bytes⟩, h.once _ mem _ rfl, rfl⟩

end Sessions

theorem always_traced (initEngine : ℕ → Int) (s : Server) (moves : Run) :
    arcServer.Always (fun c => ∀ t ∈ c.threads, Traced t.request t.past)
      (started initEngine s) moves := fun k d hd =>
  (arcServer.always_threads follows_handler
    (fun _ => ⟨rfl, nofun, nofun, fun _ mem => absurd mem List.not_mem_nil⟩)
    (fun _ _ _ _ adm h => h.step adm) _ moves k d hd).2

section Memory

variable {s s' : Server} {φs : List Session} {i : ℕ} {φ : Session} {act : Action}
  {r : act.Response} {outside : Outside}

/-- While the request has the engine, the feature lies there. -/
def Kept (memory : Memory) (φ : Session) : Prop :=
  ∀ f, φ.feature = some f → φ.phase.engine = some f.engine → bytesOf memory f.model = f.bytes

theorem owner_unique (sound : Sound s.pool (φs.map Session.phase)) (at_i : φs[i]? = some φ)
    {ψ : Session} (mem : ψ ∈ φs) {e : ℕ} (hφ : φ.phase.engine = some e)
    (hψ : ψ.phase.engine = some e) : ψ = φ := by
  obtain ⟨j, at_j⟩ := List.mem_iff_getElem?.mp mem
  have nodup : ((φs.map Session.phase).filterMap Phase.engine).Nodup :=
    (List.nodup_append.mp sound.nodup).2.1
  rw [List.filterMap_map] at nodup
  have same : j = i := eq_of_nodup_filterMap nodup at_j at_i hψ hφ
  rw [same, at_i] at at_j
  exact (Option.some.inj at_j).symm

theorem bytesOf_other {e : ℕ} (buffers : ℕ → ℕ → Byte) (memory : Memory) (f : Feature)
    (h : f.engine ≠ e) : bytesOf (overwrite e buffers memory) f.model = bytesOf memory f.model :=
  bytesOf_eq_iff.mpr fun _ _ => congrFun (overwrite_other h buffers memory f.slot) _

theorem engine_next {phase : Phase} {a : PoolAction} (answer : a.Response) {e : ℕ}
    (adm : phase.admits a) (h : (phase.next a answer).engine = some e) :
    phase.engine = some e ∨ a = .pop := by
  match phase, a, adm with
  | .seen _, .pop, _ => exact .inr rfl
  | .popped _, .unlock, _ => exact .inl h
  | .holding _, .lock, _ => exact .inl h
  | .idle, .acquire, _ => cases h
  | .acquired, .lock, _ => cases h
  | .locked, .top, _ => cases h
  | .returning _, .push _, _ => cases h
  | .pushed, .unlock, _ => cases h
  | .unlocked, .release, _ => cases h

theorem feature_extracted (fresh : φ.feature = none) {e : ℕ} {inputImg : OffScreen}
    {face : FaceInput} {memory : Memory} {f : Feature}
    (hf : (session.next φ (.sdk (.extractFRFeature e inputImg face)) outside.extraction).feature =
      some f) :
    f.engine = e ∧ bytesOf (overwrite e (outside.extraction.buffers outside.scratch) memory)
      f.model = f.bytes := by
  cases extraction : outside.extraction with
  | failed code written =>
    rw [extraction] at hf
    have before : φ.feature = some f := hf
    rw [fresh] at before
    cases before
  | ok slot bytes =>
    rw [extraction] at hf
    cases hf
    exact ⟨rfl, bytesOf_extracted e slot bytes outside.scratch memory⟩

theorem kept_set {memory : Memory} (kept : ∀ ψ ∈ φs, Kept memory ψ) {ψ : Session}
    (here : Kept memory ψ) : ∀ ψ' ∈ φs.set i ψ, Kept memory ψ' := by
  intro ψ' mem
  rcases List.mem_or_eq_of_mem_set mem with old | rfl
  · exact kept ψ' old
  · exact here

/-- No condition is needed for what lies in an engine that is held. -/
theorem kept_step (sound : Sound s.pool (φs.map Session.phase))
    (kept : ∀ ψ ∈ φs, Kept s.memory ψ) (at_i : φs[i]? = some φ) (adm : session.admits φ act)
    (hstep : arcServer.step i act outside s = some (r, s')) :
    ∀ ψ ∈ φs.set i (session.next φ act r), Kept s'.memory ψ := by
  have mem_i := List.mem_of_getElem? at_i
  cases act with
  | pool a =>
    obtain ⟨pool, -, rfl⟩ := step_pool hstep
    refine kept_set kept fun f hf held => ?_
    rcases engine_next r adm.1 held with before | pop
    · exact kept φ mem_i f hf before
    · have fresh := adm.2 pop
      rw [show φ.feature = some f from hf] at fresh
      cases fresh
  | sdk a =>
    cases a with
    | extractFRFeature e inputImg face =>
      obtain ⟨rfl, rfl⟩ := step_sdk hstep
      obtain ⟨holding, fresh, -⟩ := adm
      have engine : φ.phase.engine = some e := by rw [holding]; rfl
      intro ψ mem
      rcases List.mem_or_eq_of_mem_set mem with old | new
      · intro f hf held
        refine (bytesOf_other _ _ f ?_).trans (kept ψ old f hf held)
        intro same
        rw [owner_unique sound at_i old engine (same ▸ held), fresh] at hf
        cases hf
      · rw [new]
        exact fun f hf _ => (feature_extracted fresh hf).2
    | _ =>
      obtain ⟨-, rfl⟩ := step_sdk hstep
      exact kept_set kept (kept φ mem_i)
  | db a =>
    rw [(step_db hstep).memory]
    refine kept_set kept ?_
    cases a <;> exact kept φ mem_i

end Memory

section Runs

def extractions (past : List (Event Action Action.Response)) : List (List Byte) :=
  (past.filterMap delivered).map Feature.bytes

theorem mem_extractions {request : Request} {past : List (Event Action Action.Response)}
    {bytes : List Byte} (h : Extracted request past bytes) : bytes ∈ extractions past := by
  obtain ⟨format, img, e, face, slot, -, extracted⟩ := h
  exact List.mem_map.mpr
    ⟨⟨e, slot, bytes⟩, List.mem_filterMap.mpr ⟨_, extracted, rfl⟩, rfl⟩

def freshServer : Server :=
  ⟨Pool.fresh, fun _ _ => 0, [], [], .free, .free, [], []⟩

end Runs

end ARCServer.FeatureMemory
