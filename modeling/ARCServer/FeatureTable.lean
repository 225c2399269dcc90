import ARCServer.RequestHandlers

/-! The table of users and the cache that is loaded from it when the server is made. -/

namespace ARCServer.FeatureTable

open EnginePool FaceSdk RequestHandlers MachineIntegers

/-- The cache while it is loaded: `blocks` counts the blocks that `malloc` has handed out,
and `inBounds` tells whether every copy so far had a size that is not negative and a blob
with that many bytes. What a copy out of bounds writes is left open. -/
structure Loaded where
  memory : Memory
  cache : List UserModel
  blocks : ℕ
  inBounds : Bool

def copyToBlock (k : ℕ) (bytes : List Byte) (memory : Memory) : Memory := fun p i =>
  if p = .block k then bytes[i]?.getD (memory p i) else memory p i

def loadRow (l : Loaded) (row : UserRow) : Loaded :=
  if row.LenOfFeature = 0 then l
  else
    { memory := copyToBlock l.blocks (row.UserFeature.take row.LenOfFeature.toNat) l.memory
      cache := l.cache ++ [⟨⟨.block l.blocks, row.LenOfFeature⟩, row.UserID⟩]
      blocks := l.blocks + 1
      inBounds := l.inBounds && decide (0 ≤ row.LenOfFeature) &&
        decide (row.LenOfFeature.toNat ≤ row.UserFeature.length) }

/-- `updateFeature`, where `exec` tells whether the `select` was executed. -/
def updateFeature (exec : Bool) (rows : List UserRow) (l : Loaded) : Int × Loaded :=
  if exec then (0, rows.foldl loadRow l) else (1, l)

def construct (exec : Bool) (rows : List UserRow) (memory : Memory)
    (userImport : List ImportRow) : Server :=
  let l := (updateFeature exec rows ⟨memory, [], 0, true⟩).2
  { pool := Pool.fresh
    memory := l.memory
    cache := l.cache
    cache_guest := []
    lock_user := .free
    lock_guest := .free
    userInformation := rows
    userImport }

def featuresOf (rows : List UserRow) : List (Int × List Byte) :=
  (rows.filter fun row => row.LenOfFeature != 0).map fun row => (row.UserID, row.UserFeature)

def contents (memory : Memory) (cache : List UserModel) : List (Int × List Byte) :=
  cache.map fun it => (it.id, bytesOf memory it.model)

/-- Every row has the length of its feature, as `addFeature_User` writes it. -/
def WellStored (rows : List UserRow) : Prop :=
  ∀ row ∈ rows, row.LenOfFeature = 0 ∨ row.LenOfFeature = row.UserFeature.length

instance (rows : List UserRow) : Decidable (WellStored rows) :=
  inferInstanceAs (Decidable (∀ row ∈ rows, _))

def LengthFits (row : UserRow) : Prop :=
  0 ≤ row.LenOfFeature ∧ row.LenOfFeature ≤ row.UserFeature.length

instance (row : UserRow) : Decidable (LengthFits row) := inferInstanceAs (Decidable (_ ∧ _))

def loadedRows (rows : List UserRow) : List (Int × Int × List Byte) :=
  (rows.filter fun row => row.LenOfFeature != 0).map fun row =>
    (row.UserID, row.LenOfFeature, row.UserFeature.take row.LenOfFeature.toNat)

def entries (memory : Memory) (cache : List UserModel) : List (Int × Int × List Byte) :=
  cache.map fun it => (it.id, it.model.lFeatureSize, bytesOf memory it.model)

theorem contents_eq_entries (memory : Memory) (cache : List UserModel) :
    contents memory cache = (entries memory cache).map fun entry => (entry.1, entry.2.2) := by
  rw [contents, entries, List.map_map]
  rfl

theorem mem_featuresOf {rows : List UserRow} {id : Int} {bytes : List Byte} :
    (id, bytes) ∈ featuresOf rows ↔
      ∃ row ∈ rows, row.UserID = id ∧ row.LenOfFeature ≠ 0 ∧ row.UserFeature = bytes := by
  simp only [featuresOf, List.mem_map, List.mem_filter, bne_iff_ne, Prod.mk.injEq]
  constructor
  · rintro ⟨row, ⟨mem, len⟩, id_eq, feature⟩
    exact ⟨row, mem, id_eq, len, feature⟩
  · rintro ⟨row, mem, id_eq, len, feature⟩
    exact ⟨row, ⟨mem, len⟩, id_eq, feature⟩

section Loading

variable {l : Loaded}

def InBlocks (blocks : ℕ) (cache : List UserModel) : Prop :=
  ∀ it ∈ cache, ∃ k < blocks, it.model.pbFeature = .block k

theorem bytesOf_copyToBlock {len : Int} {bytes : List Byte} (size : bytes.length = len.toNat)
    (k : ℕ) (memory : Memory) : bytesOf (copyToBlock k bytes memory) ⟨.block k, len⟩ = bytes := by
  apply List.ext_getElem
  · rw [bytesOf, List.length_map, List.length_range, size]
  · intro i _ inside
    simp [bytesOf, copyToBlock, inside]

theorem entries_copyToBlock {k : ℕ} {cache : List UserModel} (h : InBlocks k cache)
    (bytes : List Byte) (memory : Memory) :
    entries (copyToBlock k bytes memory) cache = entries memory cache := by
  refine List.map_congr_left fun it mem => ?_
  obtain ⟨j, before, block⟩ := h it mem
  have apart : bytesOf (copyToBlock k bytes memory) it.model = bytesOf memory it.model := by
    refine bytesOf_eq_iff.mpr fun i _ => if_neg ?_
    rw [block]
    intro same
    cases same
    exact Nat.lt_irrefl k before
  rw [apart]

theorem InBlocks.loadRow (h : InBlocks l.blocks l.cache) (row : UserRow) :
    InBlocks (loadRow l row).blocks (loadRow l row).cache := by
  rw [FeatureTable.loadRow]
  split
  · exact h
  · intro it mem
    rcases List.mem_append.mp mem with old | new
    · obtain ⟨k, before, block⟩ := h it old
      exact ⟨k, Nat.lt_succ_of_lt before, block⟩
    · rw [List.mem_singleton.mp new]
      exact ⟨l.blocks, Nat.lt_succ_self _, rfl⟩

theorem entries_loadRow (h : InBlocks l.blocks l.cache) {row : UserRow} (fits : LengthFits row) :
    entries (loadRow l row).memory (loadRow l row).cache =
      entries l.memory l.cache ++ loadedRows [row] := by
  by_cases zero : row.LenOfFeature = 0
  · simp [loadRow, loadedRows, zero]
  · have size : (row.UserFeature.take row.LenOfFeature.toNat).length = row.LenOfFeature.toNat := by
      have upper := fits.2
      rw [List.length_take]
      omega
    rw [loadRow, if_neg zero]
    dsimp only
    rw [entries, List.map_append, ← entries, entries_copyToBlock h]
    simp [loadedRows, zero, bytesOf_copyToBlock size]

theorem entries_foldl {rows : List UserRow} (fits : ∀ row ∈ rows, LengthFits row)
    (h : InBlocks l.blocks l.cache) :
    InBlocks (rows.foldl loadRow l).blocks (rows.foldl loadRow l).cache ∧
      entries (rows.foldl loadRow l).memory (rows.foldl loadRow l).cache =
        entries l.memory l.cache ++ loadedRows rows := by
  induction rows generalizing l with
  | nil => exact ⟨h, (List.append_nil _).symm⟩
  | cons row rows ih =>
    obtain ⟨blocks, loaded⟩ := ih (fun r mem => fits r (List.mem_cons_of_mem _ mem))
      (h.loadRow row)
    refine ⟨blocks, ?_⟩
    rw [List.foldl_cons, loaded, entries_loadRow h (fits row List.mem_cons_self),
      List.append_assoc]
    refine congrArg (entries l.memory l.cache ++ ·) ?_
    rw [loadedRows, loadedRows, loadedRows, ← List.map_append, ← List.filter_append,
      List.singleton_append]

theorem WellStored.lengthFits {rows : List UserRow} (stored : WellStored rows) :
    ∀ row ∈ rows, LengthFits row := by
  intro row mem
  unfold LengthFits
  rcases stored row mem with zero | len
  · omega
  · omega

theorem featuresOf_eq {rows : List UserRow} (stored : WellStored rows) :
    featuresOf rows = (loadedRows rows).map fun entry => (entry.1, entry.2.2) := by
  rw [featuresOf, loadedRows, List.map_map]
  refine List.map_congr_left fun row mem => ?_
  obtain ⟨mem, some_len⟩ := List.mem_filter.mp mem
  have len := (stored row mem).resolve_left (by simpa using some_len)
  dsimp only [Function.comp]
  rw [len, Int.toNat_natCast, List.take_length]

theorem contents_foldl {rows : List UserRow} (stored : WellStored rows)
    (h : InBlocks l.blocks l.cache) :
    InBlocks (rows.foldl loadRow l).blocks (rows.foldl loadRow l).cache ∧
      contents (rows.foldl loadRow l).memory (rows.foldl loadRow l).cache =
        contents l.memory l.cache ++ featuresOf rows := by
  obtain ⟨blocks, loaded⟩ := entries_foldl stored.lengthFits h
  refine ⟨blocks, ?_⟩
  rw [contents_eq_entries, loaded, List.map_append, ← contents_eq_entries, featuresOf_eq stored]

theorem contents_construct {rows : List UserRow} (stored : WellStored rows) (exec : Bool)
    (memory : Memory) (userImport : List ImportRow) :
    contents (construct exec rows memory userImport).memory
        (construct exec rows memory userImport).cache =
      if exec then featuresOf rows else [] := by
  cases exec with
  | false => rfl
  | true => exact (contents_foldl stored fun it mem => absurd mem List.not_mem_nil).2

theorem inBlocks_construct {rows : List UserRow} (stored : WellStored rows) (exec : Bool)
    (memory : Memory) (userImport : List ImportRow) :
    ∀ it ∈ (construct exec rows memory userImport).cache,
      ∃ k, it.model.pbFeature = .block k := by
  cases exec with
  | false => exact fun it mem => absurd mem List.not_mem_nil
  | true =>
    intro it mem
    have blocks : InBlocks 0 [] := fun it mem => absurd mem List.not_mem_nil
    obtain ⟨k, -, block⟩ := (contents_foldl (l := ⟨memory, [], 0, true⟩) stored blocks).1 it mem
    exact ⟨k, block⟩

end Loading

section Updating

variable {rows : List UserRow} {id len : Int} {feature : List Byte}

theorem mem_featuresOf_updateRows {id' : Int} {bytes : List Byte} :
    (id', bytes) ∈ featuresOf (updateRows id len feature rows) ↔
      if id' = id then (∃ row ∈ rows, row.UserID = id) ∧ len ≠ 0 ∧ feature = bytes
      else (id', bytes) ∈ featuresOf rows := by
  simp only [mem_featuresOf, updateRows, List.mem_map, exists_exists_and_eq_and]
  split
  · next own =>
    subst own
    constructor
    · rintro ⟨row, mem, id_eq, stored⟩
      by_cases same : row.UserID = id'
      · rw [if_pos same] at stored
        exact ⟨⟨row, mem, same⟩, stored⟩
      · rw [if_neg same] at id_eq
        exact absurd id_eq same
    · rintro ⟨⟨row, mem, same⟩, stored⟩
      refine ⟨row, mem, ?_⟩
      rw [if_pos same]
      exact ⟨same, stored⟩
  · next other =>
    refine exists_congr fun row => and_congr_right fun _ => ?_
    by_cases same : row.UserID = id
    · rw [if_pos same]
      constructor
      · rintro ⟨id_eq, -⟩
        exact absurd (id_eq.symm.trans same) other
      · rintro ⟨id_eq, -⟩
        exact absurd (id_eq.symm.trans same) other
    · rw [if_neg same]

/-- The rows with that id already have the feature, or none is to be stored and they have none. -/
def AlreadyStored (id len : Int) (feature : List Byte) (rows : List UserRow) : Prop :=
  (∀ row ∈ rows, row.UserID ≠ id) ∨
    (len ≠ 0 → ∃ row ∈ rows, row.UserID = id ∧ row.LenOfFeature ≠ 0) ∧
      ∀ row ∈ rows, row.UserID = id → row.LenOfFeature ≠ 0 →
        len ≠ 0 ∧ feature = row.UserFeature

instance : Decidable (AlreadyStored id len feature rows) :=
  inferInstanceAs (Decidable (_ ∨ (_ → ∃ row ∈ rows, _) ∧ _))

theorem alreadyStored_iff : AlreadyStored id len feature rows ↔
    ∀ entry, entry ∈ featuresOf (updateRows id len feature rows) ↔ entry ∈ featuresOf rows := by
  constructor
  · rintro stored ⟨id', bytes⟩
    rw [mem_featuresOf_updateRows]
    split
    · next own =>
      subst own
      rw [mem_featuresOf]
      rcases stored with missing | ⟨there, same⟩
      · constructor
        · rintro ⟨⟨row, mem, found⟩, -⟩
          exact absurd found (missing row mem)
        · rintro ⟨row, mem, found, -⟩
          exact absurd found (missing row mem)
      · constructor
        · rintro ⟨-, some_len, rfl⟩
          obtain ⟨row, mem, found, row_len⟩ := there some_len
          exact ⟨row, mem, found, row_len, (same row mem found row_len).2.symm⟩
        · rintro ⟨row, mem, found, row_len, rfl⟩
          exact ⟨⟨row, mem, found⟩, same row mem found row_len⟩
    · exact Iff.rfl
  · intro unchanged
    by_cases missing : ∀ row ∈ rows, row.UserID ≠ id
    · exact .inl missing
    · have found : ∃ row ∈ rows, row.UserID = id := by
        simpa using missing
      have at_id : ∀ bytes, (id, bytes) ∈ featuresOf rows ↔ len ≠ 0 ∧ feature = bytes := by
        intro bytes
        rw [← unchanged, mem_featuresOf_updateRows, if_pos rfl]
        exact and_iff_right found
      refine .inr ⟨fun some_len => ?_, fun row mem own row_len => ?_⟩
      · obtain ⟨row, mem, own, row_len, -⟩ :=
          mem_featuresOf.mp ((at_id feature).mpr ⟨some_len, rfl⟩)
        exact ⟨row, mem, own, row_len⟩
      · exact (at_id row.UserFeature).mp (mem_featuresOf.mpr ⟨row, mem, own, row_len, rfl⟩)

end Updating

end ARCServer.FeatureTable
