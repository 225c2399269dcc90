import ARCServer.FeatureTable
import Mathlib.Data.List.Forall2

/-! When loading the table of users is safe. The length and the blob of a feature are two
columns that nothing ties together, and the loop of `updateFeature` only leaves out the
rows with length zero. -/

namespace ARCServer.LoadSafety

open FaceSdk RequestHandlers FeatureTable MachineIntegers

/-- Nothing was allocated or copied out of bounds, and every cached model has bytes, all of
them from the blob of its own row. -/
structure SafelyLoaded (rows : List UserRow) (l : Loaded) : Prop where
  inBounds : l.inBounds = true
  sizes : ∀ it ∈ l.cache, 0 < it.model.lFeatureSize
  ownBytes : List.Forall₂
    (fun it row => it.id = row.UserID ∧ bytesOf l.memory it.model <+: row.UserFeature)
    l.cache (rows.filter fun row => row.LenOfFeature != 0)

theorem inBounds_loadRow (l : Loaded) (row : UserRow) :
    (loadRow l row).inBounds = (l.inBounds && decide (LengthFits row)) := by
  by_cases zero : row.LenOfFeature = 0
  · have fits : LengthFits row := by
      unfold LengthFits
      omega
    rw [loadRow, if_pos zero, decide_eq_true fits, Bool.and_true]
  · rw [loadRow, if_neg zero, Bool.and_assoc, ← Bool.decide_and]
    refine congrArg (l.inBounds && ·) (decide_eq_decide.mpr ?_)
    unfold LengthFits
    omega

theorem inBounds_foldl (l : Loaded) (rows : List UserRow) :
    (rows.foldl loadRow l).inBounds = (l.inBounds && rows.all fun row => LengthFits row) := by
  induction rows generalizing l with
  | nil => exact (Bool.and_true _).symm
  | cons row rows ih =>
    rw [List.foldl_cons, ih, inBounds_loadRow, List.all_cons, Bool.and_assoc]

abbrev loaded (rows : List UserRow) (memory : Memory) : Loaded :=
  (updateFeature true rows ⟨memory, [], 0, true⟩).2

theorem inBounds_loaded (rows : List UserRow) (memory : Memory) :
    (loaded rows memory).inBounds = true ↔ ∀ row ∈ rows, LengthFits row := by
  rw [loaded, updateFeature, if_pos rfl, inBounds_foldl, Bool.true_and, List.all_eq_true]
  exact forall_congr' fun row => imp_congr_right fun _ => decide_eq_true_iff

theorem entries_loaded {rows : List UserRow} (fits : ∀ row ∈ rows, LengthFits row)
    (memory : Memory) :
    entries (loaded rows memory).memory (loaded rows memory).cache = loadedRows rows :=
  (entries_foldl (l := ⟨memory, [], 0, true⟩) fits fun _ mem => absurd mem List.not_mem_nil).2

theorem size_pos {rows : List UserRow} (fits : ∀ row ∈ rows, LengthFits row)
    {entry : Int × Int × List Byte} (mem : entry ∈ loadedRows rows) : 0 < entry.2.1 := by
  obtain ⟨row, kept, rfl⟩ := List.mem_map.mp mem
  obtain ⟨there, some_len⟩ := List.mem_filter.mp kept
  have lower := (fits row there).1
  rw [bne_iff_ne] at some_len
  dsimp only
  omega

theorem forall₂_loaded {rows : List UserRow} (fits : ∀ row ∈ rows, LengthFits row)
    (memory : Memory) :
    List.Forall₂
      (fun it row => (it.id, it.model.lFeatureSize, bytesOf (loaded rows memory).memory it.model) =
        (row.UserID, row.LenOfFeature, row.UserFeature.take row.LenOfFeature.toNat))
      (loaded rows memory).cache (rows.filter fun row => row.LenOfFeature != 0) := by
  have same := entries_loaded fits memory
  rw [entries, loadedRows, ← List.forall₂_eq_eq_eq, List.forall₂_map_left_iff,
    List.forall₂_map_right_iff] at same
  exact same

/-- Loading is safe for exactly the tables whose length columns promise no more than the
blobs have, and no negative number of bytes. -/
theorem safelyLoaded_iff (rows : List UserRow) (memory : Memory) :
    SafelyLoaded rows (updateFeature true rows ⟨memory, [], 0, true⟩).2 ↔
      ∀ row ∈ rows, 0 ≤ row.LenOfFeature ∧ row.LenOfFeature ≤ row.UserFeature.length := by
  constructor
  · intro safe
    exact (inBounds_loaded rows memory).mp safe.inBounds
  · intro fits
    refine ⟨(inBounds_loaded rows memory).mpr fits, fun it mem => ?_,
      (forall₂_loaded fits memory).imp fun it row same => ?_⟩
    · have entry : (it.id, it.model.lFeatureSize, bytesOf (loaded rows memory).memory it.model) ∈
          loadedRows rows := by
        rw [← entries_loaded fits memory]
        exact List.mem_map_of_mem mem
      exact size_pos fits entry
    · rw [Prod.mk.injEq, Prod.mk.injEq] at same
      obtain ⟨id, -, bytes⟩ := same
      rw [bytes]
      exact ⟨id, List.take_prefix _ _⟩

/-- Row 7 promises four bytes of two, four of a blob that is `NULL`, or minus one. -/
theorem not_safelyLoaded :
    ¬ SafelyLoaded [⟨7, 4, [1, 2]⟩]
        (updateFeature true [⟨7, 4, [1, 2]⟩] ⟨fun _ _ => 0, [], 0, true⟩).2 ∧
      ¬ SafelyLoaded [⟨7, 4, []⟩]
        (updateFeature true [⟨7, 4, []⟩] ⟨fun _ _ => 0, [], 0, true⟩).2 ∧
      ¬ SafelyLoaded [⟨7, -1, [1, 2]⟩]
        (updateFeature true [⟨7, -1, [1, 2]⟩] ⟨fun _ _ => 0, [], 0, true⟩).2 :=
  ⟨fun safe => absurd safe.inBounds (by decide), fun safe => absurd safe.inBounds (by decide),
    fun safe => absurd safe.inBounds (by decide)⟩

end ARCServer.LoadSafety
