import ARCServer.FeatureMemory

/-! `addFeature` gives its engine back before `addFeature_User` copies the feature, so
what is bound into the update depends on who extracts on that engine in between. -/

namespace ARCServer.EnrolledFeatures

open InterleavedPrograms EnginePool FaceSdk RequestHandlers RequestSession PoolExclusivity
  FeatureMemory MachineIntegers

/-- Every update that is about to be executed carries the id of its own request and what
that request extracted from its image. -/
def UpdatesOwn (c : Requests) : Prop :=
  ∀ (i : ℕ) t id len feature, c.threads[i]? = some t →
    System.nextAction c i = some (.db (.updateUser id len feature)) →
    (∃ bytes, t.request = .addFeature bytes id) ∧ Extracted t.request t.past feature ∧
      len = feature.length

def leftBehind (φ : Session) : Option Feature :=
  match φ.request, φ.copied with
  | .addFeature _ _, none => φ.feature.filter fun f => φ.phase.engine != some f.engine
  | _, _ => none

/-- The move is no extraction into a buffer in which a feature was left behind, unless it
puts the same bytes there. -/
def sparesLeftBehind (c : Requests) : Move Request Outside → Bool
  | .start _ => true
  | .act i outside =>
    match System.nextAction c i with
    | some (.sdk (.extractFRFeature e _ _)) => ((sessions c).filterMap leftBehind).all fun f =>
        !outside.replaces e c.shared.memory f.model
    | _ => true

def Intact (memory : Memory) (φ : Session) : Prop :=
  ∀ f bytes id, φ.request = .addFeature bytes id → φ.copied = none → φ.feature = some f →
    bytesOf memory f.model = f.bytes

def CopiedOwn (φ : Session) : Prop :=
  ∀ bytes, φ.copied = some bytes → ∃ f, φ.feature = some f ∧ bytes = f.bytes

section Steps

variable {s s' : Server} {φs : List Session} {i : ℕ} {φ : Session} {act : Action}
  {r : act.Response} {outside : Outside}

theorem leftBehind_eq {f : Feature} {bytes : List Byte} {id : Int}
    (request : φ.request = .addFeature bytes id) (uncopied : φ.copied = none)
    (feature : φ.feature = some f) (away : φ.phase.engine ≠ some f.engine) :
    leftBehind φ = some f := by
  rw [leftBehind, request, uncopied]
  simp [feature, away]

theorem next_copied (adm : session.admits φ act) :
    (session.next φ act r).copied = φ.copied ∨
      ∃ f bytes id, act = .db (.toByteArray f.model) ∧ φ.request = .addFeature bytes id ∧
        φ.copied = none ∧ φ.feature = some f := by
  cases act with
  | pool a => exact .inl rfl
  | sdk a =>
    cases a with
    | extractFRFeature e inputImg face => cases r <;> exact .inl rfl
    | _ => exact .inl rfl
  | db a =>
    cases a with
    | toByteArray model =>
      obtain ⟨⟨bytes, id, request⟩, feature, uncopied⟩ := adm
      obtain ⟨f, hf, rfl⟩ := Option.map_eq_some_iff.mp feature
      exact .inr ⟨f, bytes, id, rfl, request, uncopied, hf⟩
    | _ => exact .inl rfl

theorem extraction_or_same (hstep : arcServer.step i act outside s = some (r, s')) :
    (∃ e inputImg face, act = .sdk (.extractFRFeature e inputImg face)) ∨
      s'.memory = s.memory ∧ (session.next φ act r).feature = φ.feature := by
  rcases memory_step hstep with same | ⟨e, inputImg, face, extract, -⟩
  · cases act with
    | pool a => exact .inr ⟨same, rfl⟩
    | sdk a =>
      cases a with
      | extractFRFeature e inputImg face => exact .inl ⟨e, inputImg, face, rfl⟩
      | _ => exact .inr ⟨same, rfl⟩
    | db a => cases a <;> exact .inr ⟨same, rfl⟩
  · exact .inl ⟨e, inputImg, face, extract⟩

theorem intact_step (intact : ∀ ψ ∈ φs, Intact s.memory ψ)
    (kept : ∀ ψ ∈ φs.set i (session.next φ act r), Kept s'.memory ψ) (at_i : φs[i]? = some φ)
    (adm : session.admits φ act) (hstep : arcServer.step i act outside s = some (r, s'))
    (spared : ∀ f ∈ φs.filterMap leftBehind,
      bytesOf s'.memory f.model = bytesOf s.memory f.model) :
    ∀ ψ ∈ φs.set i (session.next φ act r), Intact s'.memory ψ := by
  intro ψ mem f bytes id request uncopied feature
  by_cases held : ψ.phase.engine = some f.engine
  · exact kept ψ mem f feature held
  · rcases List.mem_or_eq_of_mem_set mem with old | rfl
    · have left := leftBehind_eq request uncopied feature held
      rw [spared f (List.mem_filterMap.mpr ⟨ψ, old, left⟩)]
      exact intact ψ old f bytes id request uncopied feature
    · rcases extraction_or_same hstep with ⟨e, inputImg, face, rfl⟩ | ⟨memory, same⟩
      · obtain ⟨rfl, rfl⟩ := step_sdk hstep
        exact (feature_extracted adm.2.1 feature).2
      · rw [next_request] at request
        rw [same] at feature
        rw [memory]
        rcases next_copied adm with before | ⟨f', _, _, rfl, -⟩
        · rw [before] at uncopied
          exact intact φ (List.mem_of_getElem? at_i) f bytes id request uncopied feature
        · cases uncopied

theorem copiedOwn_step (copied : ∀ ψ ∈ φs, CopiedOwn ψ) (intact : ∀ ψ ∈ φs, Intact s.memory ψ)
    (at_i : φs[i]? = some φ) (adm : session.admits φ act)
    (hstep : arcServer.step i act outside s = some (r, s')) :
    ∀ ψ ∈ φs.set i (session.next φ act r), CopiedOwn ψ := by
  have mem_i := List.mem_of_getElem? at_i
  intro ψ mem
  rcases List.mem_or_eq_of_mem_set mem with old | rfl
  · exact copied ψ old
  · intro copy hcopy
    rcases next_copied adm with same | ⟨f, bytes, id, rfl, request, uncopied, feature⟩
    · rw [same] at hcopy
      obtain ⟨f, feature, own⟩ := copied φ mem_i copy hcopy
      exact ⟨f, next_feature adm feature, own⟩
    · refine ⟨f, feature, ?_⟩
      have read : bytesOf s.memory f.model = f.bytes :=
        intact φ mem_i f bytes id request uncopied feature
      cases hstep
      cases hcopy
      exact read

structure CopiesSound (s : Server) (φs : List Session) : Prop where
  pool : Sound s.pool (φs.map Session.phase)
  kept : ∀ φ ∈ φs, Kept s.memory φ
  intact : ∀ φ ∈ φs, Intact s.memory φ
  copied : ∀ φ ∈ φs, CopiedOwn φ

theorem CopiesSound.initial (initEngine : ℕ → Int) (s : Server) :
    CopiesSound (started initEngine s).shared [] := by
  refine ⟨Sound.initial initEngine, ?_, ?_, ?_⟩ <;>
    exact fun φ mem => absurd mem List.not_mem_nil

theorem CopiesSound.arrive (h : CopiesSound s φs) (request : Request) :
    CopiesSound s (φs ++ [.start request]) := by
  have grown : ∀ {good : Session → Prop}, (∀ φ ∈ φs, good φ) → good (.start request) →
      ∀ φ ∈ φs ++ [.start request], good φ := fun old new =>
    List.forall_mem_append.mpr ⟨old, List.forall_mem_singleton.mpr new⟩
  refine ⟨?_, grown h.kept nofun, grown h.intact nofun, grown h.copied nofun⟩
  rw [List.map_append]
  exact h.pool.arrive

theorem CopiesSound.step (h : CopiesSound s φs) (at_i : φs[i]? = some φ)
    (adm : session.admits φ act) (hstep : arcServer.step i act outside s = some (r, s'))
    (spared : ∀ f ∈ φs.filterMap leftBehind,
      bytesOf s'.memory f.model = bytesOf s.memory f.model) :
    CopiesSound s' (φs.set i (session.next φ act r)) := by
  have kept' := kept_step h.pool h.kept at_i adm hstep
  exact ⟨sound_step h.pool at_i adm hstep, kept', intact_step h.intact kept' at_i adm hstep spared,
    copiedOwn_step h.copied h.intact at_i adm hstep⟩

end Steps

theorem always_copiedOwn (initEngine : ℕ → Int) (s : Server) {moves : Run}
    (each : arcServer.EachMove (fun c m => sparesLeftBehind c m) (started initEngine s) moves) :
    arcServer.Always (fun c => System.Disciplined session Session.start
        (fun _ _ φ => φ.phase = .idle) c ∧ ∀ φ ∈ sessions c, CopiedOwn φ)
      (started initEngine s) moves := by
  have all := arcServer.always_locals follows_handler CopiesSound (fun _ _ request h =>
    h.arrive request) ?_ (CopiesSound.initial initEngine s) each
  · exact fun k d hd => ⟨(all k d hd).1, (all k d hd).2.copied⟩
  · intro c i outside φ act r s' at_i hact hstep adm spared h
    refine h.step at_i adm hstep fun f mem => ?_
    rcases memory_step hstep with same | ⟨e, inputImg, face, rfl, changed⟩
    · rw [same]
    · rw [sparesLeftBehind, hact] at spared
      rw [changed]
      exact bytesOf_overwrite_iff.mpr (by simpa using List.all_eq_true.mp spared f mem)

/-- Updates carry the feature of their own request in every run whose extractions spare
what was left behind. -/
theorem always_updatesOwn (initEngine : ℕ → Int) (s : Server) {moves : Run}
    (each : arcServer.EachMove (fun c m => sparesLeftBehind c m) (started initEngine s) moves) :
    arcServer.Always UpdatesOwn (started initEngine s) moves := by
  intro k d hd i t id len feature ht hact
  obtain ⟨disciplined, copied⟩ := always_copiedOwn initEngine s each k d hd
  have mem := List.mem_of_getElem? ht
  have traced := always_traced initEngine s moves k d hd t mem
  obtain ⟨⟨bytes, request⟩, size, copy⟩ := disciplined.admits_nextAction ht hact
  obtain ⟨f, hf, rfl⟩ := copied (sessionOf t) (List.mem_map_of_mem mem) feature copy
  refine ⟨⟨bytes, traced.request_eq.symm.trans request⟩, traced.extracted f hf, ?_⟩
  rw [show (System.localState session Session.start t).feature = some f from hf] at size
  exact (Option.some.inj size).symm

section Runs

def enrolments (second : Outside) : Run :=
  .start (.addFeature [0xff] 7) :: List.replicate 12 (.act 0 (oneFace [1, 2])) ++
    .start (.addFeature [0xff] 8) :: List.replicate 8 (.act 1 second) ++ [.act 0 second]

def updatesListed (c : Requests) : Bool :=
  (List.range c.threads.length).all fun i =>
    match System.nextAction c i with
    | some (.db (.updateUser _ _ feature)) =>
      c.threads[i]?.any fun t => (extractions t.past).contains feature
    | _ => true

theorem updatesListed_of_own {c : Requests} (h : UpdatesOwn c) : updatesListed c = true := by
  refine List.all_eq_true.mpr fun i mem => ?_
  have inside := List.mem_range.mp mem
  split
  · next id len feature hact =>
    obtain ⟨-, extracted, -⟩ := h i _ id len feature (List.getElem?_eq_getElem inside) hact
    rw [List.getElem?_eq_getElem inside, Option.any_some]
    exact List.contains_iff_mem.mpr (mem_extractions extracted)
  · rfl

theorem always_updatesOwn_same_face :
    (arcServer.run (started (fun _ => 0) freshServer) (enrolments (oneFace [1, 2]))).isSome ∧
      arcServer.Always UpdatesOwn (started (fun _ => 0) freshServer)
        (enrolments (oneFace [1, 2])) :=
  ⟨by decide, always_updatesOwn _ _ (arcServer.eachMove_of_check (by decide))⟩

/-- The second enrolment extracts on the engine that the first has just given back, and the
first is about to store that feature under its own id. -/
theorem enrolment_swapped :
    ¬arcServer.Always UpdatesOwn (started (fun _ => 0) freshServer)
      (enrolments (oneFace [3, 4])) := by
  intro own
  have lost : (arcServer.run (started (fun _ => 0) freshServer) (enrolments (oneFace [3, 4]))).map
      updatesListed = some false := by decide
  obtain ⟨d, hd, listed⟩ := Option.map_eq_some_iff.mp lost
  rw [updatesListed_of_own (System.Always.last _ own hd)] at listed
  cases listed

end Runs

end ARCServer.EnrolledFeatures
