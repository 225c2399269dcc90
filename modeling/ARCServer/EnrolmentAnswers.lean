import ARCServer.FeatureMemory
import ARCServer.HandlerOutcomes

/-! What "ok" says to someone who enrols a user. `addFeature_User` reports whether its
update was executed, but `addFeature` does not look at that, and an update that finds
no row is executed as well. -/

namespace ARCServer.EnrolmentAnswers

open InterleavedPrograms ProgramsAlone EnginePool FaceSdk RequestHandlers FeatureMemory
  HandlerOutcomes MachineIntegers

def GivesFeature (outside : Outside) (bytes : List Byte) : Prop :=
  outside.image.isSome ∧ (∃ rcFace, outside.detection = .ok 1 rcFace) ∧
    ∃ slot, outside.extraction = .ok slot bytes

def update : Event Action Action.Response → Option (UserRow × Bool)
  | ⟨.db (.updateUser id lenOfFeature userFeature), executed⟩ =>
    some (⟨id, lenOfFeature, userFeature⟩, executed)
  | _ => none

def updates (past : Events) : List (UserRow × Bool) := past.filterMap update

def executed (past : Events) : List UserRow := ((updates past).filter Prod.snd).map Prod.fst

def Enrolled (data : List Byte) (id : Int) (past : Events) (s : Server) : Prop :=
  ∃ feature, Extracted (.addFeature data id) past feature ∧
    (⟨id, feature.length, feature⟩, true) ∈ updates past ∧
    ⟨id, feature.length, feature⟩ ∈ s.userInformation

/-- One request among the given surroundings. Each of its calls looks at another part of them. -/
abbrev among (i : ℕ) (outside : Outside) : World Server Outside Action Action.Response :=
  onServer i fun _ outcome _ => outcome = outside

section Answers

variable {past : Events}

theorem updates_offDb (h : OffDb past) : updates past = [] :=
  h.filterMap_eq_nil (fun _ _ => rfl) fun _ _ => rfl

theorem updates_append (past later : Events) :
    updates (past ++ later) = updates past ++ updates later := List.filterMap_append

theorem executed_of_updates (row : UserRow) (ok : Bool) (h : updates past = [(row, ok)]) :
    executed past = if ok then [row] else [] := by
  rw [executed, h]
  cases ok <;> rfl

def Refused (outside : Outside) (past : Events) (ret : Int) : Prop :=
  (∀ bytes, ¬GivesFeature outside bytes) ∧ ret = 1 ∧ updates past = []

structure Tried (outside : Outside) (data : List Byte) (id : Int) (s : Server) (past : Events)
    (bytes : List Byte) (s' : Server) : Prop where
  gives : GivesFeature outside bytes
  extracted : Extracted (.addFeature data id) past bytes
  written : updates past = [(⟨id, bytes.length, bytes⟩, outside.exec)]
  table : s'.userInformation =
    if outside.exec then updateRows id bytes.length bytes s.userInformation else s.userInformation

theorem ensures_addFeature_answer (i : ℕ) (outside : Outside) (s : Server) (data : List Byte)
    (id : Int) :
    (among i outside).Ensures (addFeature data id) s fun past ret s' =>
      Refused outside past ret ∨ ret = 0 ∧ ∃ bytes, Tried outside data id s past bytes s' := by
  rw [addFeature]
  refine ensures_decoded (fun _ => rfl) (fun _ _ past same image quiet => ?_)
    fun _ _ img sem e stack past same image pool quiet loaded => ?_
  · obtain rfl : outside = _ := same.symm
    refine .inl ⟨fun bytes gives => ?_, rfl, updates_offDb quiet⟩
    rw [GivesFeature, image] at gives
    cases gives.1
  · obtain rfl : outside = _ := same.symm
    rw [World.ensures_bind]
    refine ensures_getFeature rfl (fun _ calls model memory called refused => ?_) ?_
    · rw [World.ensures_bind]
      refine ensures_pushEngineIndex rfl fun pushes pushed => ?_
      rw [if_neg (show (-1 : Int) ≠ mok by decide), World.ensures_pure]
      refine .inl ⟨fun bytes gives => ?_, rfl, ?_⟩
      · obtain ⟨-, ⟨rcFace, detection⟩, slot, extraction⟩ := gives
        rcases refused with ⟨rfl, missed⟩ | ⟨⟨face, rfl⟩, missed⟩
        · exact missed rcFace detection
        · exact missed slot bytes extraction
      · simp only [updates_append, updates_offDb quiet, updates_offDb called, updates_offDb pushed]
        rfl
    · intro found rcFace outcome slot bytes same detection same' extraction
      obtain rfl : outside = _ := same.symm
      obtain rfl : outside = _ := same'.symm
      rw [World.ensures_bind]
      refine ensures_pushEngineIndex rfl fun pushes pushed => ?_
      rw [if_pos rfl, World.ensures_bind]
      -- the engine is back already, but nobody else extracts before the copy is made
      have copied := bytesOf_extracted e slot bytes outside.scratch s.memory
      have gives : GivesFeature outside bytes :=
        ⟨by rw [image]; rfl, ⟨rcFace, detection⟩, slot, extraction⟩
      refine ensures_addFeatureUser copied fun _ same => ?_
      obtain rfl : outside = _ := same.symm
      refine .inr ⟨rfl, bytes, gives, ?_, ?_, rfl⟩
      · refine ⟨.fromHeader, img, e, ⟨rcFace 0, afrFsdkFoc0⟩, slot,
          List.mem_append_left _ loaded, ?_⟩
        exact List.mem_append_right _ (List.mem_cons_of_mem _ List.mem_cons_self)
      · simp only [updates_append, updates_offDb quiet, updates_offDb pushed]
        rfl

theorem mem_updateRows {id len : Int} {feature : List Byte} {rows : List UserRow} :
    ⟨id, len, feature⟩ ∈ updateRows id len feature rows ↔ ∃ row ∈ rows, row.UserID = id := by
  rw [updateRows, List.mem_map]
  refine exists_congr fun row => and_congr_right fun _ => ?_
  by_cases own : row.UserID = id
  · simp [own]
  · rw [if_neg own]
    exact iff_of_false (fun same => own (congrArg UserRow.UserID same)) own

theorem Tried.enrolled_iff {outside : Outside} {data bytes : List Byte} {id : Int} {s s' : Server}
    (h : Tried outside data id s past bytes s') :
    Enrolled data id past s' ↔
      outside.exec = true ∧ ∃ row ∈ s.userInformation, row.UserID = id := by
  constructor
  · rintro ⟨feature, -, written, stored⟩
    rw [h.written, List.mem_singleton, Prod.mk.injEq, UserRow.mk.injEq] at written
    obtain ⟨⟨-, -, rfl⟩, executed⟩ := written
    rw [h.table, if_pos executed.symm] at stored
    exact ⟨executed.symm, mem_updateRows.mp stored⟩
  · rintro ⟨executed, row⟩
    refine ⟨bytes, h.extracted, ?_, ?_⟩
    · rw [h.written, executed]
      exact List.mem_singleton_self _
    · rw [h.table, if_pos executed]
      exact mem_updateRows.mpr row

theorem tried_of_acknowledged {i : ℕ} {outside : Outside} {s s' : Server} {data : List Byte}
    {id : Int} (h : (among i outside).Completes (addFeature data id) s past 0 s') :
    ∃ bytes, Tried outside data id s past bytes s' := by
  rcases (ensures_addFeature_answer i outside s data id).completes h with
    ⟨-, failed, -⟩ | ⟨-, tried⟩
  · cases failed
  · exact tried

end Answers

/-- "ok" means that the enrolment is stored exactly as long as an update that has a feature
to write is executed and finds the user. -/
theorem acknowledged_iff {i : ℕ} {outside : Outside} {s s' : Server} {data : List Byte} {id : Int}
    {past : Events} {ret : Int}
    (h : (among i outside).Completes (addFeature data id) s past ret s') :
    (ret = 0 ↔ Enrolled data id past s') ↔
      ((∃ bytes, GivesFeature outside bytes) →
        outside.exec = true ∧ ∃ row ∈ s.userInformation, row.UserID = id) := by
  rcases (ensures_addFeature_answer i outside s data id).completes h with
    ⟨none, rfl, nothing⟩ | ⟨rfl, bytes, tried⟩
  · refine iff_of_true (iff_of_false (by decide) ?_) fun ⟨bytes, gives⟩ => absurd gives (none bytes)
    rintro ⟨feature, -, written, -⟩
    rw [nothing] at written
    cases written
  · rw [tried.enrolled_iff]
    constructor
    · exact fun agree _ => agree.mp rfl
    · exact fun stored => iff_of_true rfl (stored ⟨bytes, tried.gives⟩)

section Runs

def oneUser : Server := { idleServer with userInformation := [⟨7, 0, []⟩] }

def answer (outside : Outside) (s : Server) : Option Int :=
  ((among 0 outside).exec (fun _ _ => true) outside (addFeature [0xff] 7) s).map fun run => run.2.1

theorem completes_of_answer {outside : Outside} {s : Server} {ret : Int}
    (h : answer outside s = some ret) :
    ∃ past s', (among 0 outside).Completes (addFeature [0xff] 7) s past ret s' := by
  obtain ⟨⟨past, _, s'⟩, ran, rfl⟩ := Option.map_eq_some_iff.mp h
  exact ⟨past, s', World.completes_of_exec (fun _ _ _ => rfl) ran⟩

theorem acknowledged_iff_oneUser : ∃ past s',
    (among 0 (oneFace [1, 2])).Completes (addFeature [0xff] 7) oneUser past 0 s' ∧
      Enrolled [0xff] 7 past s' := by
  obtain ⟨past, s', completes⟩ := completes_of_answer
    (show answer (oneFace [1, 2]) oneUser = some 0 by decide +kernel)
  refine ⟨past, s', completes, ((acknowledged_iff completes).mpr fun _ => ⟨rfl, ?_⟩).mp rfl⟩
  exact ⟨⟨7, 0, []⟩, List.mem_singleton_self _, rfl⟩

/-- Neither an update that fails nor one that finds no row is answered with failure. -/
theorem lost_enrolments :
    (∃ past s', (among 0 { oneFace [1, 2] with exec := false }).Completes (addFeature [0xff] 7)
      oneUser past 0 s' ∧ ¬Enrolled [0xff] 7 past s') ∧
    ∃ past s', (among 0 (oneFace [1, 2])).Completes (addFeature [0xff] 7) idleServer past 0 s' ∧
      ¬Enrolled [0xff] 7 past s' := by
  constructor
  · obtain ⟨past, s', completes⟩ := completes_of_answer
      (show answer { oneFace [1, 2] with exec := false } oneUser = some 0 by decide +kernel)
    obtain ⟨bytes, tried⟩ := tried_of_acknowledged completes
    refine ⟨past, s', completes, fun enrolled => ?_⟩
    cases (tried.enrolled_iff.mp enrolled).1
  · obtain ⟨past, s', completes⟩ := completes_of_answer
      (show answer (oneFace [1, 2]) idleServer = some 0 by decide +kernel)
    obtain ⟨bytes, tried⟩ := tried_of_acknowledged completes
    refine ⟨past, s', completes, fun enrolled => ?_⟩
    obtain ⟨-, row, mem, -⟩ := tried.enrolled_iff.mp enrolled
    cases mem

end Runs

end ARCServer.EnrolmentAnswers
