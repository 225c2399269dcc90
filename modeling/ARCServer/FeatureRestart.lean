import ARCServer.HandlerOutcomes
import ARCServer.LoadSafety

/-! The features of a server that is started again. `addFeature_User` writes a feature into
two columns of a row; the next server reads both back when it is made. -/

namespace ARCServer.FeatureRestart

open FaceSdk RequestHandlers HandlerOutcomes ProgramsAlone FeatureTable LoadSafety MachineIntegers

/-- Calls of `addFeature_User` that return 0, the last one first: the id of each with the
size and the bytes of its feature. Between two calls the server may do anything that leaves
the table alone. -/
inductive Enrols (rows : List UserRow) : List (Int × Int × List Byte) → List UserRow → Prop
  | none : Enrols rows [] rows
  | call {written : List (Int × Int × List Byte)} {s s' : Server} {i : ℕ}
      {allowed : Action → Outside → Server → Prop} {past : Events} {model : FaceModel} {id : Int}
      (earlier : Enrols rows written s.userInformation) (positive : 0 < model.lFeatureSize)
      (returned : (onServer i allowed).Completes (addFeatureUser model id) s past 0 s') :
      Enrols rows ((id, model.lFeatureSize, bytesOf s.memory model) :: written) s'.userInformation

def lastWritten (written : List (Int × Int × List Byte)) (id : Int) : Option (Int × List Byte) :=
  written.lookup id

def rewritten (written : List (Int × Int × List Byte)) (row : UserRow) : UserRow :=
  (lastWritten written row.UserID).elim row fun feature =>
    { row with LenOfFeature := feature.1, UserFeature := feature.2 }

theorem userInformation_addFeatureUser {s s' : Server} {i : ℕ}
    {allowed : Action → Outside → Server → Prop} {past : Events} {model : FaceModel} {id : Int}
    (returned : (onServer i allowed).Completes (addFeatureUser model id) s past 0 s') :
    s'.userInformation =
      updateRows id model.lFeatureSize (bytesOf s.memory model) s.userInformation := by
  have ensures : (onServer i allowed).Ensures (addFeatureUser model id) s fun _ ret t =>
      ret = 0 → t.userInformation =
        updateRows id model.lFeatureSize (bytesOf s.memory model) s.userInformation := by
    refine ensures_addFeatureUser rfl fun outside _ zero => ?_
    cases exec : outside.exec with
    | false =>
      rw [exec] at zero
      cases zero
    | true => rfl
  exact ensures.completes returned rfl

theorem rewritten_UserID (written : List (Int × Int × List Byte)) (row : UserRow) :
    (rewritten written row).UserID = row.UserID := by
  rw [rewritten]
  cases lastWritten written row.UserID <;> rfl

theorem rewritten_cons (id len : Int) (feature : List Byte)
    (written : List (Int × Int × List Byte)) (row : UserRow) :
    rewritten ((id, len, feature) :: written) row =
      if (rewritten written row).UserID = id then
        { rewritten written row with LenOfFeature := len, UserFeature := feature }
      else rewritten written row := by
  rw [rewritten_UserID]
  by_cases own : row.UserID = id
  · rw [if_pos own]
    dsimp only
    rw [rewritten_UserID, rewritten, lastWritten, own, List.lookup_cons_self]
    rfl
  · rw [if_neg own, rewritten, rewritten, lastWritten, lastWritten, List.lookup_cons,
      beq_false_of_ne own]

section Calls

variable {rows rows' : List UserRow} {written : List (Int × Int × List Byte)}

theorem Enrols.table (h : Enrols rows written rows') : rows' = rows.map (rewritten written) := by
  induction h with
  | none => exact (List.map_id' _).symm
  | call earlier positive returned ih =>
    rw [userInformation_addFeatureUser returned, ih, updateRows, List.map_map]
    exact List.map_congr_left fun row _ => (rewritten_cons _ _ _ _ row).symm

theorem Enrols.sizes (h : Enrols rows written rows') :
    ∀ entry ∈ written, 0 < entry.2.1 ∧ entry.2.1 = entry.2.2.length := by
  induction h with
  | none => exact fun _ mem => absurd mem List.not_mem_nil
  | call earlier positive returned ih =>
    refine List.forall_mem_cons.mpr ⟨⟨positive, ?_⟩, ih⟩
    dsimp only
    rw [bytesOf, List.length_map, List.length_range]
    omega

def HasLast (written : List (Int × Int × List Byte)) (row : UserRow) : Prop :=
  lastWritten written row.UserID = none ∧ row.LenOfFeature = 0 ∨
    ∃ feature, lastWritten written row.UserID = some feature ∧ 0 < feature.1 ∧
      feature.1 = feature.2.length ∧ row = ⟨row.UserID, feature.1, feature.2⟩

theorem Enrols.hasLast (h : Enrols rows written rows')
    (initial : ∀ row ∈ rows, row.LenOfFeature = 0) : ∀ row ∈ rows', HasLast written row := by
  intro row' mem
  rw [h.table] at mem
  obtain ⟨row, there, rfl⟩ := List.mem_map.mp mem
  rw [HasLast, rewritten_UserID, rewritten]
  cases last : lastWritten written row.UserID with
  | none => exact .inl ⟨rfl, initial row there⟩
  | some feature =>
    obtain ⟨before, after, split, -⟩ := List.lookup_eq_some_iff.mp last
    have sizes := h.sizes (row.UserID, feature) (by
      rw [split]
      exact List.mem_append_right _ List.mem_cons_self)
    exact .inr ⟨feature, rfl, sizes.1, sizes.2, rfl⟩

theorem HasLast.lengthFits {row : UserRow} (h : HasLast written row) : LengthFits row := by
  unfold LengthFits
  rcases h with ⟨-, zero⟩ | ⟨feature, -, -, size, same⟩
  · omega
  · rw [same]
    dsimp only
    omega

theorem loadedRows_eq {result : List UserRow} (last : ∀ row ∈ result, HasLast written row) :
    loadedRows result = result.filterMap fun row =>
      (lastWritten written row.UserID).map (Prod.mk row.UserID) := by
  rw [loadedRows, ← List.filterMap_eq_map', List.filterMap_filter]
  refine List.filterMap_congr fun row mem => ?_
  rcases last row mem with ⟨none, zero⟩ | ⟨feature, found, positive, size, same⟩
  · rw [none, zero]
    rfl
  · have whole : feature.2.take feature.1.toNat = feature.2 := by
      rw [size, Int.toNat_natCast, List.take_length]
    have some_len : (feature.1 != 0) = true := bne_iff_ne.mpr (Int.ne_of_gt positive)
    rw [found, same]
    dsimp only
    rw [if_pos some_len, whole]
    rfl

/-- A server that is started again has in its cache, in the order of the result set, what
was written last for each row, and nothing for the rows that no call has written. -/
theorem restarted {result : List UserRow} (initial : ∀ row ∈ rows, row.LenOfFeature = 0)
    (enrolled : Enrols rows written rows') (returned : result.Perm rows') (memory : Memory) :
    (loaded result memory).inBounds = true ∧
      entries (loaded result memory).memory (loaded result memory).cache =
        result.filterMap fun row =>
          (lastWritten written row.UserID).map (Prod.mk row.UserID) := by
  have last : ∀ row ∈ result, HasLast written row :=
    fun row mem => enrolled.hasLast initial row (returned.mem_iff.mp mem)
  have fits : ∀ row ∈ result, LengthFits row := fun row mem => (last row mem).lengthFits
  exact ⟨(inBounds_loaded result memory).mpr fits,
    (entries_loaded fits memory).trans (loadedRows_eq last)⟩

end Calls

section Runs

def updated (s : Server) (model : FaceModel) (id : Int) : Server :=
  { s with userInformation :=
    updateRows id model.lFeatureSize (bytesOf s.memory model) s.userInformation }

theorem completes_addFeatureUser (s : Server) (model : FaceModel) (id : Int) :
    ∃ past, (onServer 0 fun _ outside _ => outside.exec = true).Completes
      (addFeatureUser model id) s past 0 (updated s model id) := by
  have ran : (onServer 0 fun _ outside _ => outside.exec = true).exec (fun _ _ => true)
      (oneFace []) (addFeatureUser model id) s = some (_, 0, updated s model id) := rfl
  exact ⟨_, World.completes_of_exec (fun _ _ _ => rfl) ran⟩

theorem Enrols.execute {rows rows' : List UserRow} {written : List (Int × Int × List Byte)}
    (earlier : Enrols rows written rows') (memory : Memory) {model : FaceModel}
    (positive : 0 < model.lFeatureSize) (id : Int) :
    Enrols rows ((id, model.lFeatureSize, bytesOf memory model) :: written)
      (updateRows id model.lFeatureSize (bytesOf memory model) rows') := by
  obtain ⟨past, returned⟩ :=
    completes_addFeatureUser { idleServer with memory, userInformation := rows' } model id
  exact .call earlier positive returned

def twoUsers : List UserRow := [⟨7, 0, []⟩, ⟨8, 0, []⟩]

def threeCalls : List (Int × Int × List Byte) := [(7, 3, [1, 1, 1]), (9, 1, [0]), (7, 2, [0, 0])]

theorem restarted_twoUsers :
    Enrols twoUsers threeCalls [⟨7, 3, [1, 1, 1]⟩, ⟨8, 0, []⟩] ∧
      (loaded [⟨8, 0, []⟩, ⟨7, 3, [1, 1, 1]⟩] fun _ _ => 0).inBounds = true ∧
      entries (loaded [⟨8, 0, []⟩, ⟨7, 3, [1, 1, 1]⟩] fun _ _ => 0).memory
        (loaded [⟨8, 0, []⟩, ⟨7, 3, [1, 1, 1]⟩] fun _ _ => 0).cache = [(7, 3, [1, 1, 1])] := by
  have positive : ∀ n : ℕ, 0 < (⟨.engine 0 0, n + 1⟩ : FaceModel).lFeatureSize := by
    intro n
    dsimp only
    omega
  have before : Enrols twoUsers [] twoUsers := .none
  have enrolled : Enrols twoUsers threeCalls [⟨7, 3, [1, 1, 1]⟩, ⟨8, 0, []⟩] :=
    ((before.execute (fun _ _ => 0) (positive 1) 7).execute (fun _ _ => 0) (positive 0) 9).execute
      (fun _ _ => 1) (positive 2) 7
  exact ⟨enrolled, restarted (by decide) enrolled (List.Perm.swap _ _ _) fun _ _ => 0⟩

end Runs

end ARCServer.FeatureRestart
