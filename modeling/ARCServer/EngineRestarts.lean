import ARCServer.SharedPermits
import Mathlib.Data.List.Perm.Lattice

/-! What `startEngines` and `stopEngines` leave of the work buffers of all objects, and
which engines a request can be given after them. -/

namespace ARCServer.EngineRestarts

open InterleavedPrograms EnginePool EngineLifecycle FaceSdk RequestHandlers PoolExclusivity
  SharedEngines SharedPermits

def blocks (engine : ARCFaceEngine) : List ℕ :=
  engine.pFRWorkBUF.toList ++ engine.pFDWorkBUF.toList

structure Matched (engine : ARCFaceEngine) : Prop where
  detection : engine.FDEngine.isSome = engine.pFDWorkBUF.isSome
  recognition : engine.FREngine.isSome = engine.pFRWorkBUF.isSome

/-- The blocks outstanding are those that the engines point to, each once. -/
structure Held (heap : Heap) (engines : List ARCFaceEngine) : Prop where
  owned : heap.allocated.Perm (engines.flatMap blocks)
  distinct : heap.allocated.Nodup
  below : ∀ b ∈ heap.allocated, b < heap.next
  freedOnce : heap.badFree = false
  matched : ∀ engine ∈ engines, Matched engine

def CallsSucceed (o : InitOutcome) : Prop :=
  o.mallocFD = false ∨ o.initialFD.ret = mok ∧ (o.mallocFR = false ∨ o.initialFR.ret = mok)

section Rounds

variable {heap heap' : Heap} {u v : List ARCFaceEngine} {engine engine' : ARCFaceEngine}

theorem Held.empty : Held .empty [] :=
  ⟨.refl _, List.nodup_nil, fun _ mem => absurd mem List.not_mem_nil, rfl,
    fun _ mem => absurd mem List.not_mem_nil⟩

theorem Held.append_new (h : Held heap u) (n : ℕ) : Held heap (u ++ List.replicate n .new) := by
  refine ⟨?_, h.distinct, h.below, h.freedOnce, fun engine mem => ?_⟩
  · have nothing : (List.replicate n ARCFaceEngine.new).flatMap blocks = [] :=
      List.flatMap_eq_nil_iff.mpr fun engine mem => by rw [List.eq_of_mem_replicate mem]; rfl
    rw [List.flatMap_append, nothing, List.append_nil]
    exact h.owned
  · rcases List.mem_append.mp mem with old | new
    · exact h.matched engine old
    · rw [List.eq_of_mem_replicate new]
      exact ⟨rfl, rfl⟩

theorem flatMap_blocks_perm (engine : ARCFaceEngine) :
    ((u ++ engine :: v).flatMap blocks).Perm (blocks engine ++ (u ++ v).flatMap blocks) := by
  rw [List.flatMap_append, List.flatMap_cons, List.flatMap_append]
  exact List.perm_append_comm_assoc _ _ _

theorem initEngine_half (heap : Heap) {o : InitOutcome} {detection : ℕ}
    (mallocFD : o.mallocFD = true) (initialFD : o.initialFD = .ok detection)
    (mallocFR : o.mallocFR = false) :
    initEngine o .new heap = (-1, ⟨some detection, none, some heap.next, none⟩,
      ⟨heap.next :: heap.allocated, heap.next + 1, heap.badFree⟩) := by
  simp [initEngine, ARCFaceEngine.new, Heap.malloc, Initial.ret, Initial.handle, mallocFD,
    initialFD, mallocFR]

theorem Held.change (h : Held heap (u ++ engine :: v))
    (owned : ∀ others, heap.allocated.Perm (blocks engine ++ others) →
      heap'.allocated.Perm (blocks engine' ++ others))
    (distinct : heap'.allocated.Nodup) (below : ∀ b ∈ heap'.allocated, b < heap'.next)
    (freedOnce : heap'.badFree = false) (matched : Matched engine') :
    Held heap' (u ++ engine' :: v) := by
  refine ⟨?_, distinct, below, freedOnce, fun other mem => ?_⟩
  · have before := h.owned.trans (flatMap_blocks_perm engine)
    exact (owned _ before).trans (flatMap_blocks_perm engine').symm
  · rcases List.mem_append.mp mem with front | back
    · exact h.matched other (List.mem_append_left _ front)
    · rcases List.mem_cons.mp back with rfl | back
      · exact matched
      · exact h.matched other (List.mem_append_right _ (List.mem_cons_of_mem _ back))

theorem Held.fresh (h : Held heap u) {n : ℕ} (above : heap.next ≤ n) : n ∉ heap.allocated :=
  fun mem => absurd (h.below n mem) (Nat.not_lt.mpr above)

theorem Held.allocate (h : Held heap (u ++ engine :: v))
    (split : blocks engine' = heap.next :: blocks engine) (matched : Matched engine') :
    Held { heap with allocated := heap.next :: heap.allocated, next := heap.next + 1 }
      (u ++ engine' :: v) := by
  refine h.change (fun others before => ?_) (List.nodup_cons.mpr ⟨h.fresh le_rfl, h.distinct⟩)
    (fun b mem => ?_) h.freedOnce matched
  · rw [split]
    exact before.cons _
  · rcases List.mem_cons.mp mem with rfl | old
    · exact Nat.lt_succ_self _
    · exact Nat.lt_succ_of_lt (h.below b old)

theorem Held.init (h : Held heap (u ++ engine :: v)) {o : InitOutcome}
    (succeed : engine = .new → CallsSucceed o) :
    Held (initEngine o engine heap).2.2 (u ++ (initEngine o engine heap).2.1 :: v) := by
  by_cases new : engine = .new
  · cases new
    rcases succeed rfl with refused | ⟨detected, recognised⟩
    · rw [initEngine_unallocated heap refused]
      exact h
    · cases granted : o.mallocFD with
      | false =>
        rw [initEngine_unallocated heap granted]
        exact h
      | true =>
        obtain ⟨detection, initialFD⟩ := Initial.delivered detected
        have half : Held ⟨heap.next :: heap.allocated, heap.next + 1, heap.badFree⟩
            (u ++ ⟨some detection, none, some heap.next, none⟩ :: v) :=
          h.allocate rfl ⟨rfl, rfl⟩
        cases mallocFR : o.mallocFR with
        | false =>
          rw [initEngine_half heap granted initialFD mallocFR]
          exact half
        | true =>
          rcases recognised with refused | recognised
          · rw [refused] at mallocFR
            cases mallocFR
          · obtain ⟨recognition, initialFR⟩ := Initial.delivered recognised
            rw [initEngine_acquired heap granted initialFD mallocFR initialFR]
            exact half.allocate rfl ⟨rfl, rfl⟩
  · rw [initEngine_running heap new]
    exact h

/-- Some engine points to a block that is no longer allocated and never will be again. -/
def Dangles (heap : Heap) (engines : List ARCFaceEngine) : Prop :=
  ∃ engine ∈ engines, ∃ b ∈ blocks engine, b < heap.next ∧ b ∉ heap.allocated

theorem Dangles.not_held {engines : List ARCFaceEngine} (h : Dangles heap engines) :
    ¬ Held heap engines := by
  intro held
  obtain ⟨engine, mem, b, points, -, gone⟩ := h
  exact gone (held.owned.mem_iff.mpr (List.mem_flatMap.mpr ⟨engine, mem, points⟩))

def Grows (heap heap' : Heap) : Prop :=
  heap.next ≤ heap'.next ∧ ∀ b ∈ heap'.allocated, b ∈ heap.allocated ∨ heap.next ≤ b

theorem Grows.trans {heap'' : Heap} (h : Grows heap heap') (h' : Grows heap' heap'') :
    Grows heap heap'' :=
  ⟨h.1.trans h'.1, fun b mem => (h'.2 b mem).elim (h.2 b) fun above => .inr (h.1.trans above)⟩

theorem grows_malloc (granted : Bool) (heap : Heap) : Grows heap (heap.malloc granted).2 := by
  cases granted with
  | false => exact ⟨le_rfl, fun b mem => .inl mem⟩
  | true =>
    refine ⟨Nat.le_succ _, fun b mem => ?_⟩
    rcases List.mem_cons.mp mem with rfl | old
    · exact .inr le_rfl
    · exact .inl old

theorem grows_free (pointer : Option ℕ) (heap : Heap) : Grows heap (heap.free pointer) := by
  cases pointer with
  | none => exact ⟨le_rfl, fun b mem => .inl mem⟩
  | some b =>
    rw [Heap.free]
    split
    · exact ⟨le_rfl, fun b mem => .inl (List.mem_of_mem_erase mem)⟩
    · exact ⟨le_rfl, fun b mem => .inl mem⟩

theorem grows_initEngine (o : InitOutcome) (engine : ARCFaceEngine) (heap : Heap) :
    Grows heap (initEngine o engine heap).2.2 := by
  have detection := grows_malloc o.mallocFD heap
  have recognition := detection.trans (grows_malloc o.mallocFR _)
  unfold initEngine
  split
  · exact ⟨le_rfl, fun b mem => .inl mem⟩
  dsimp only
  split
  · exact detection
  split
  · exact detection.trans (grows_free _ _)
  split
  · exact recognition
  split
  · exact recognition.trans (grows_free _ _)
  · exact recognition

theorem Dangles.init (h : Dangles heap (u ++ engine :: v)) (o : InitOutcome) :
    Dangles (initEngine o engine heap).2.2 (u ++ (initEngine o engine heap).2.1 :: v) := by
  obtain ⟨other, mem, b, points, below, gone⟩ := h
  obtain ⟨next, allocated⟩ := grows_initEngine o engine heap
  refine ⟨other, ?_, b, points, below.trans_le next, fun again => ?_⟩
  · rcases List.mem_append.mp mem with front | back
    · exact List.mem_append_left _ front
    · rcases List.mem_cons.mp back with rfl | back
      · have running : other ≠ .new := by
          rintro rfl
          cases points
        rw [initEngine_running heap running]
        exact mem
      · exact List.mem_append_right _ (List.mem_cons_of_mem _ back)
  · rcases allocated b again with old | above
    · exact gone old
    · exact absurd below (Nat.not_lt.mpr above)

/-- An initialise call that fails leaves a pointer to the buffer that is given back. -/
theorem Held.dangles (h : Held heap (u ++ engine :: v)) {o : InitOutcome} (new : engine = .new)
    (fails : ¬ CallsSucceed o) :
    Dangles (initEngine o engine heap).2.2 (u ++ (initEngine o engine heap).2.1 :: v) := by
  cases new
  obtain ⟨granted, fails⟩ := not_or.mp fails
  rw [Bool.not_eq_false] at granted
  refine ⟨_, List.mem_append_right _ List.mem_cons_self, ?_⟩
  by_cases detected : o.initialFD.ret = mok
  · obtain ⟨mallocFR, recognised⟩ := not_or.mp (not_and.mp fails detected)
    rw [Bool.not_eq_false] at mallocFR
    obtain ⟨detection, initialFD⟩ := Initial.delivered detected
    refine ⟨heap.next + 1, ?_, ?_, ?_⟩
    · simp [initEngine, ARCFaceEngine.new, Heap.malloc, granted, detected, mallocFR, recognised,
        blocks]
    · simp [initEngine, ARCFaceEngine.new, Heap.malloc, Heap.free, granted, detected, mallocFR,
        recognised]
    · simp [initEngine, ARCFaceEngine.new, Heap.malloc, Heap.free, granted, detected, mallocFR,
        recognised, h.fresh (Nat.le_succ heap.next)]
  · refine ⟨heap.next, ?_, ?_, ?_⟩
    · simp [initEngine, ARCFaceEngine.new, Heap.malloc, granted, detected, blocks]
    · simp [initEngine, ARCFaceEngine.new, Heap.malloc, Heap.free, granted, detected]
    · simp [initEngine, ARCFaceEngine.new, Heap.malloc, Heap.free, granted, detected,
        h.fresh le_rfl]

theorem free_owned {pointer : Option ℕ} {others : List ℕ}
    (owned : heap.allocated.Perm (pointer.toList ++ others)) :
    (heap.free pointer).allocated.Perm others ∧
      (heap.free pointer).allocated.Sublist heap.allocated ∧
      (heap.free pointer).next = heap.next ∧ (heap.free pointer).badFree = heap.badFree := by
  cases pointer with
  | none => exact ⟨owned, .refl _, rfl, rfl⟩
  | some b =>
    have mem : b ∈ heap.allocated := owned.mem_iff.mpr List.mem_cons_self
    rw [Heap.free, if_pos mem]
    refine ⟨?_, List.erase_sublist, rfl, rfl⟩
    have left := owned.erase b
    rwa [Option.toList_some, List.singleton_append, List.erase_cons_head] at left

theorem Held.free (h : Held heap (u ++ engine :: v)) {pointer : Option ℕ}
    (split : (blocks engine).Perm (pointer.toList ++ blocks engine')) (matched : Matched engine') :
    Held (heap.free pointer) (u ++ engine' :: v) := by
  have own : ∀ others, heap.allocated.Perm (blocks engine ++ others) →
      heap.allocated.Perm (pointer.toList ++ (blocks engine' ++ others)) := fun others before => by
    rw [← List.append_assoc]
    exact before.trans (split.append_right others)
  obtain ⟨-, fewer, next, badFree⟩ :=
    free_owned (own _ (h.owned.trans (flatMap_blocks_perm engine)))
  refine h.change (fun others before => (free_owned (own others before)).1)
    (fewer.nodup h.distinct) (fun b mem => ?_) (badFree.trans h.freedOnce) matched
  rw [next]
  exact h.below b (fewer.subset mem)

theorem Held.uninit_detection (h : Held heap (u ++ engine :: v)) :
    Held (heap.free engine.pFDWorkBUF)
      (u ++ { engine with pFDWorkBUF := none, FDEngine := none } :: v) := by
  have matched := h.matched engine (List.mem_append_right _ List.mem_cons_self)
  refine h.free ?_ ⟨rfl, matched.recognition⟩
  rw [blocks, blocks, Option.toList_none, List.append_nil]
  exact List.perm_append_comm

theorem Held.uninit_recognition (h : Held heap (u ++ engine :: v)) :
    Held (heap.free engine.pFRWorkBUF)
      (u ++ { engine with pFRWorkBUF := none, FREngine := none } :: v) := by
  have matched := h.matched engine (List.mem_append_right _ List.mem_cons_self)
  exact h.free (.refl _) ⟨matched.detection, rfl⟩

theorem Held.uninit (h : Held heap (u ++ engine :: v)) (o : UninitOutcome) :
    Held (uninitialEngine o engine heap).2.2 (u ++ (uninitialEngine o engine heap).2.1 :: v) := by
  rw [uninitialEngine]
  by_cases retFD : o.retFD = mok
  · by_cases retFR : o.retFR = mok
    · simp only [retFD, retFR, if_true]
      exact h.uninit_detection.uninit_recognition
    · simp only [retFD, retFR, if_true, if_false]
      exact h.uninit_detection
  · by_cases retFR : o.retFR = mok
    · simp only [retFD, retFR, if_true, if_false]
      exact h.uninit_recognition
    · simp only [retFD, retFR, if_false]
      exact h

end Rounds

section Objects

variable {heap : Heap} {u v : List ARCFaceEngine} {object : ARCFaceEngines}

def StartSucceeds (object : ARCFaceEngines) (o : ℕ → InitOutcome) : Prop :=
  ∀ i engine, object.engines[i]? = some engine → engine = .new → CallsSucceed (o i)

theorem held_startEngines_iff (o : ℕ → InitOutcome) (h : Held heap (u ++ (object.engines ++ v))) :
    Held (object.startEngines o heap).2.2
        (u ++ ((object.startEngines o heap).2.1.engines ++ v)) ↔ StartSucceeds object o := by
  have keeps : ∀ i done engine rest (s : Pool × Heap), (engine = .new → CallsSucceed (o i)) →
      Held s.2 (u ++ (done ++ engine :: rest ++ v)) →
        Held (initEngine (o i) engine s.2).2.2
          (u ++ (done ++ (initEngine (o i) engine s.2).2.1 :: rest ++ v)) := by
    intro i done engine rest s may held
    rw [List.append_assoc, ← List.append_assoc] at held ⊢
    exact held.init may
  constructor
  · intro held i engine at_i
    by_contra fails
    refine Dangles.not_held ?_ held
    refine eachEngine_breaks (fun engines (s : Pool × Heap) => Held s.2 (u ++ (engines ++ v)))
      (fun engines s => Dangles s.2 (u ++ (engines ++ v)))
      (fun i engine => engine = .new → CallsSucceed (o i)) keeps
      (fun i done engine rest s fails held => ?_) (fun i done engine rest s before => ?_)
      0 0 [] at_i (by rwa [Nat.zero_add]) h
    · rw [List.append_assoc, ← List.append_assoc] at held ⊢
      obtain ⟨new, fails⟩ := Classical.not_imp.mp fails
      exact held.dangles new fails
    · rw [List.append_assoc, ← List.append_assoc] at before ⊢
      exact before.init (o i)
  · intro succeeds
    refine eachEngine_keeps (fun engines (s : Pool × Heap) => Held s.2 (u ++ (engines ++ v)))
      (fun i engine => engine = .new → CallsSucceed (o i)) keeps 0 0 []
      (fun i engine at_i => ?_) h
    rw [Nat.zero_add]
    exact succeeds i engine at_i

theorem held_stopEngines (o : ℕ → UninitOutcome) (h : Held heap (u ++ (object.engines ++ v))) :
    Held (object.stopEngines o heap).2.2
      (u ++ ((object.stopEngines o heap).2.1.engines ++ v)) := by
  refine eachEngine_keeps (fun engines heap => Held heap (u ++ (engines ++ v))) (fun _ _ => True)
    (fun i done engine rest heap _ held => ?_) 0 0 [] (fun _ _ _ => trivial) h
  rw [List.append_assoc, ← List.append_assoc] at held ⊢
  exact held.uninit (o i)

/-- `startEngines` returns 0 exactly if every engine was new and its `InitEngine` succeeds. -/
theorem startEngines_zero_iff (o : ℕ → InitOutcome) (object : ARCFaceEngines) (heap : Heap) :
    (object.startEngines o heap).1 = 0 ↔
      ∀ i engine, object.engines[i]? = some engine → engine = .new ∧ (o i).Succeeds := by
  refine (eachEngine_zero_iff (fun i engine => engine = .new ∧ (o i).Succeeds)
    (fun i engine s => ?_) _ (.inl rfl)).trans ?_
  · by_cases new : engine = .new
    · cases new
      rcases initEngine_new (o i) s.2 with ⟨succeeds, zero, -⟩ | ⟨fails, minus⟩
      · exact .inl ⟨zero, rfl, succeeds⟩
      · exact .inr ⟨minus, fun both => fails both.2⟩
    · refine .inr ⟨?_, fun both => new both.1⟩
      dsimp only
      rw [initEngine_running s.2 new]
  · simp only [Nat.zero_add, true_and]

def UninitSucceeds (o : UninitOutcome) : Prop := o.retFD = mok ∧ o.retFR = mok

theorem stopEngines_getElem? {o : ℕ → UninitOutcome} {i : ℕ} {after : ARCFaceEngine}
    (at_i : (object.stopEngines o heap).2.1.engines[i]? = some after) :
    ∃ engine, object.engines[i]? = some engine ∧
      after = ⟨if (o i).retFD = mok then none else engine.FDEngine,
        if (o i).retFR = mok then none else engine.FREngine,
        if (o i).retFD = mok then none else engine.pFDWorkBUF,
        if (o i).retFR = mok then none else engine.pFRWorkBUF⟩ := by
  obtain ⟨engine, heap', before, rfl⟩ := eachEngine_getElem? at_i
  refine ⟨engine, before, ?_⟩
  rw [Nat.zero_add, uninitialEngine_engine]

theorem startEngines_initialised {o : ℕ → InitOutcome} (zero : (object.startEngines o heap).1 = 0)
    {i : ℕ} {after : ARCFaceEngine}
    (at_i : (object.startEngines o heap).2.1.engines[i]? = some after) :
    Initialised (o i) after := by
  obtain ⟨engine, s, before, rfl⟩ := eachEngine_getElem? at_i
  obtain ⟨rfl, succeeds⟩ := (startEngines_zero_iff o object heap).mp zero i engine before
  rw [Nat.zero_add]
  exact initialised_of_succeeds succeeds s.2

def Started (object : ARCFaceEngines) : Prop :=
  ∀ engine ∈ object.engines, engine.FDEngine ≠ none ∧ engine.FREngine ≠ none

theorem started_of_zero {o : ℕ → InitOutcome} (zero : (object.startEngines o heap).1 = 0) :
    Started (object.startEngines o heap).2.1 := by
  intro engine mem
  obtain ⟨i, at_i⟩ := List.mem_iff_getElem?.mp mem
  have initialised := startEngines_initialised zero at_i
  obtain ⟨_, -, detection⟩ := initialised.detection
  obtain ⟨_, -, recognition⟩ := initialised.recognition
  rw [detection, recognition]
  exact ⟨Option.some_ne_none _, Option.some_ne_none _⟩

theorem restart_zero_iff (works : Started object) (u : ℕ → UninitOutcome) (o : ℕ → InitOutcome)
    (heap heap' : Heap) :
    ((object.stopEngines u heap).2.1.startEngines o heap').1 = 0 ↔
      ∀ i < cMaxNum, UninitSucceeds (u i) ∧ (o i).Succeeds := by
  rw [startEngines_zero_iff]
  constructor
  · intro all i below
    rw [← (object.stopEngines u heap).2.1.ten] at below
    have at_i := List.getElem?_eq_getElem below
    obtain ⟨new, succeeds⟩ := all i _ at_i
    obtain ⟨engine, before, after⟩ := stopEngines_getElem? at_i
    obtain ⟨detection, recognition⟩ := works engine (List.mem_of_getElem? before)
    rw [new] at after
    refine ⟨⟨?_, ?_⟩, succeeds⟩
    · by_contra fails
      have kept : none = if (u i).retFD = mok then none else engine.FDEngine :=
        congrArg ARCFaceEngine.FDEngine after
      rw [if_neg fails] at kept
      exact detection kept.symm
    · by_contra fails
      have kept : none = if (u i).retFR = mok then none else engine.FREngine :=
        congrArg ARCFaceEngine.FREngine after
      rw [if_neg fails] at kept
      exact recognition kept.symm
  · intro all i engine at_i
    have below := (List.getElem?_eq_some_iff.mp at_i).1
    rw [(object.stopEngines u heap).2.1.ten] at below
    obtain ⟨closes, succeeds⟩ := all i below
    obtain ⟨before, -, after⟩ := stopEngines_getElem? at_i
    rw [closes.1, closes.2] at after
    exact ⟨after, succeeds⟩

end Objects

section Process

variable {p q : Process}

def allEngines (p : Process) : List ARCFaceEngine := p.objects.flatMap ARCFaceEngines.engines

def MoveSucceeds (p : Process) : ProcessMove → Prop
  | .create _ _ o => ∀ i < cMaxNum, CallsSucceed (o i)
  | .startEngines k o => ∀ object, p.objects[k]? = some object → StartSucceeds object o
  | .stopEngines _ _ | .request _ _ => True

def CleanMove (p q : Process) : Prop := ∃ m, p.Orderly m ∧ MoveSucceeds p m ∧ p.move m = some q

theorem allEngines_set {k : ℕ} {object : ARCFaceEngines} (at_k : p.objects[k]? = some object) :
    ∃ u v, allEngines p = u ++ (object.engines ++ v) ∧ ∀ after : ARCFaceEngines,
      (p.objects.set k after).flatMap ARCFaceEngines.engines = u ++ (after.engines ++ v) := by
  obtain ⟨front, back, split, changed⟩ := split_at_index at_k
  refine ⟨front.flatMap ARCFaceEngines.engines, back.flatMap ARCFaceEngines.engines, ?_, ?_⟩
  · rw [allEngines, split, List.flatMap_append, List.flatMap_cons]
  · intro after
    rw [changed, List.flatMap_append, List.flatMap_cons]

theorem startSucceeds_new_iff (exec : Bool) (memory : Memory) (rows : List UserRow)
    (imports : List ImportRow) (o : ℕ → InitOutcome) :
    StartSucceeds (.new exec memory rows imports) o ↔ ∀ i < cMaxNum, CallsSucceed (o i) := by
  constructor
  · intro succeeds i below
    refine succeeds i .new ?_ rfl
    exact List.getElem?_replicate_of_lt below
  · intro succeeds i engine at_i _
    have below := (List.getElem?_eq_some_iff.mp at_i).1
    rw [ARCFaceEngines.ten] at below
    exact succeeds i below

theorem held_move_iff (h : Held p.heap (allEngines p)) {m : ProcessMove}
    (moved : p.move m = some q) : Held q.heap (allEngines q) ↔ MoveSucceeds p m := by
  cases m with
  | create exec memory o =>
    cases moved
    have fresh : Held p.heap (allEngines p ++
        ((ARCFaceEngines.new exec memory p.userInformation p.userImport).engines ++ [])) := by
      rw [List.append_nil]
      exact h.append_new cMaxNum
    have started := held_startEngines_iff o fresh
    rw [List.append_nil, startSucceeds_new_iff] at started
    rw [allEngines, List.flatMap_append, List.flatMap_singleton]
    exact started
  | startEngines k o =>
    obtain ⟨object, at_k, rfl⟩ := Option.map_eq_some_iff.mp moved
    obtain ⟨u, v, before, after⟩ := allEngines_set at_k
    rw [before] at h
    rw [allEngines, after]
    refine (held_startEngines_iff o h).trans ⟨fun succeeds other at_k' => ?_, fun all => ?_⟩
    · rw [at_k] at at_k'
      cases at_k'
      exact succeeds
    · exact all object at_k
  | stopEngines k o =>
    obtain ⟨object, at_k, rfl⟩ := Option.map_eq_some_iff.mp moved
    obtain ⟨u, v, before, after⟩ := allEngines_set at_k
    rw [before] at h
    rw [allEngines, after]
    exact iff_of_true (held_stopEngines o h) trivial
  | request k m =>
    obtain ⟨object, at_k, moved⟩ := Option.bind_eq_some_iff.mp moved
    obtain ⟨c, -, rfl⟩ := Option.map_eq_some_iff.mp moved
    obtain ⟨u, v, before, after⟩ := allEngines_set at_k
    rw [before] at h
    rw [allEngines, Process.settle, after]
    exact iff_of_true h trivial

theorem held_of_clean {rows : List UserRow} {imports : List ImportRow}
    (run : Relation.ReflTransGen CleanMove (.launched rows imports) p) :
    Held p.heap (allEngines p) := by
  induction run with
  | refl => exact Held.empty
  | tail _ step ih =>
    obtain ⟨m, -, succeeds, moved⟩ := step
    exact (held_move_iff ih moved).mpr succeeds

/-- However often the engines of any objects are started and stopped, the buffers outstanding
are those of the engines, up to the first initialise call that fails and not beyond it. -/
theorem always_held_iff (rows : List UserRow) (imports : List ImportRow) (p : Process)
    (run : Relation.ReflTransGen CleanMove (.launched rows imports) p) :
    Held p.heap (allEngines p) ∧ ∀ m q, p.move m = some q →
      (Held q.heap (allEngines q) ↔ MoveSucceeds p m) :=
  ⟨held_of_clean run, fun _ _ moved => held_move_iff (held_of_clean run) moved⟩

theorem clean_restarted : ∃ p, Relation.ReflTransGen CleanMove (.launched [] []) p ∧
    p.heap.allocated.length = 20 ∧ ∀ block ∈ p.heap.allocated, 20 ≤ block := by
  refine ⟨_, .tail (.tail (.tail .refl
    ⟨.create true (fun _ _ => 0) everythingStarts, trivial, fun _ _ => .inr ⟨rfl, .inr rfl⟩, rfl⟩)
    ⟨.stopEngines 0 fun _ => ⟨0, 0⟩, fun object at_0 => ?_, trivial, rfl⟩)
    ⟨.startEngines 0 everythingStarts, fun object at_0 => ?_, fun _ _ _ _ _ _ =>
      .inr ⟨rfl, .inr rfl⟩, rfl⟩, by decide, by decide⟩
  · cases at_0
    exact fun t mem => absurd mem List.not_mem_nil
  · cases at_0
    exact fun t mem => absurd mem List.not_mem_nil

theorem held_restarted : ∃ p, Relation.ReflTransGen CleanMove (.launched [] []) p ∧
    p.heap.allocated.length = 20 ∧ (∀ block ∈ p.heap.allocated, 20 ≤ block) ∧
    Held p.heap (allEngines p) ∧ ∀ m q, p.move m = some q →
      (Held q.heap (allEngines q) ↔ MoveSucceeds p m) := by
  obtain ⟨p, run, twenty, others⟩ := clean_restarted
  obtain ⟨held, next⟩ := always_held_iff [] [] p run
  exact ⟨p, run, twenty, others, held, next⟩

end Process

section Restart

variable {p q r s : Process} {k : ℕ}

def LeavesAlone (k : ℕ) : ProcessMove → Prop
  | .startEngines j _ | .stopEngines j _ => j ≠ k
  | .create _ _ _ | .request _ _ => True

def NextLeaving (k : ℕ) (p q : Process) : Prop :=
  ∃ m, p.Orderly m ∧ LeavesAlone k m ∧ p.move m = some q

theorem leads_of_leaving (run : Relation.ReflTransGen (NextLeaving k) p q) : p.Leads q := by
  induction run with
  | refl => exact .refl
  | tail _ step ih =>
    obtain ⟨m, orderly, -, moved⟩ := step
    exact ih.tail ⟨m, orderly, moved⟩

theorem engines_next {object : ARCFaceEngines} (at_k : p.objects[k]? = some object)
    (step : NextLeaving k p q) :
    ∃ after : ARCFaceEngines, q.objects[k]? = some after ∧ after.engines = object.engines := by
  obtain ⟨m, -, leaves, moved⟩ := step
  cases m with
  | create exec memory o =>
    cases moved
    have below := (List.getElem?_eq_some_iff.mp at_k).1
    exact ⟨object, (List.getElem?_append_left below).trans at_k, rfl⟩
  | startEngines j o | stopEngines j o =>
    obtain ⟨other, -, rfl⟩ := Option.map_eq_some_iff.mp moved
    exact ⟨object, (List.getElem?_set_ne leaves).trans at_k, rfl⟩
  | request j m =>
    obtain ⟨other, at_j, moved⟩ := Option.bind_eq_some_iff.mp moved
    obtain ⟨c, -, rfl⟩ := Option.map_eq_some_iff.mp moved
    by_cases same : j = k
    · subst same
      rw [at_k] at at_j
      cases at_j
      have below := (List.getElem?_eq_some_iff.mp at_k).1
      exact ⟨{ object with requests := c }, List.getElem?_set_self below, rfl⟩
    · exact ⟨object, (List.getElem?_set_ne same).trans at_k, rfl⟩

theorem engines_leads {object : ARCFaceEngines} (at_k : p.objects[k]? = some object)
    (run : Relation.ReflTransGen (NextLeaving k) p q) :
    ∃ after : ARCFaceEngines, q.objects[k]? = some after ∧ after.engines = object.engines := by
  induction run with
  | refl => exact ⟨object, at_k, rfl⟩
  | tail _ step ih =>
    obtain ⟨between, at_k, same⟩ := ih
    obtain ⟨after, at_k, same'⟩ := engines_next at_k step
    exact ⟨after, at_k, same'.trans same⟩

theorem engine_of_heldBy (h : Lent p) {object : ARCFaceEngines} (mem : object ∈ p.objects)
    {t : RequestThread} (there : t ∈ object.requests.threads) {e : ℕ} (held : heldBy t = some e) :
    e < object.engines.length := by
  obtain ⟨live, buried, -, accounted⟩ := h.accounted object mem
  rw [object.ten]
  refine List.mem_range.mp (accounted.subset (List.mem_append_right _ ?_))
  exact List.mem_filterMap.mpr ⟨t, there, held⟩

def restarted (u : ℕ → UninitOutcome) (o : ℕ → InitOutcome) (object : ARCFaceEngines)
    (heap : Heap) : Int × ARCFaceEngines × Heap :=
  (object.stopEngines u heap).2.1.startEngines o (object.stopEngines u heap).2.2

theorem object_of_stop {object : ARCFaceEngines} (at_k : p.objects[k]? = some object)
    {u : ℕ → UninitOutcome} (stop : p.move (.stopEngines k u) = some q) :
    q.objects[k]? = some (object.stopEngines u p.heap).2.1 ∧
      q.heap = (object.stopEngines u p.heap).2.2 := by
  obtain ⟨object', at_k', rfl⟩ := Option.map_eq_some_iff.mp stop
  rw [at_k] at at_k'
  cases at_k'
  exact ⟨List.getElem?_set_self (List.getElem?_eq_some_iff.mp at_k).1, rfl⟩

theorem object_of_start {object : ARCFaceEngines} (at_k : p.objects[k]? = some object)
    {o : ℕ → InitOutcome} (start : p.move (.startEngines k o) = some q) :
    q.objects[k]? = some (object.startEngines o p.heap).2.1 := by
  obtain ⟨object', at_k', rfl⟩ := Option.map_eq_some_iff.mp start
  rw [at_k] at at_k'
  cases at_k'
  exact List.getElem?_set_self (List.getElem?_eq_some_iff.mp at_k).1

/-- Engines that work are stopped and started again without a failure exactly if the result
is 0. Then every request is given an engine of the new start, until the next. -/
theorem restart_works (rows : List UserRow) (imports : List ImportRow) (p : Process)
    (run : (Process.launched rows imports).Leads p) (k : ℕ) (object : ARCFaceEngines)
    (at_k : p.objects[k]? = some object) (rest : object.AtRest) (works : Started object)
    (u : ℕ → UninitOutcome) (o : ℕ → InitOutcome) (q r : Process)
    (stop : p.move (.stopEngines k u) = some q) (start : q.move (.startEngines k o) = some r) :
    ((restarted u o object p.heap).1 = 0 ↔ ∀ i < cMaxNum, UninitSucceeds (u i) ∧ (o i).Succeeds) ∧
      ((restarted u o object p.heap).1 = 0 → ∀ s, Relation.ReflTransGen (NextLeaving k) r s →
        ∀ after, s.objects[k]? = some after → ∀ t ∈ after.requests.threads, ∀ e,
          heldBy t = some e → ∃ engine, after.engines[e]? = some engine ∧
            Initialised (o e) engine) := by
  refine ⟨restart_zero_iff works u o p.heap _, fun zero s later after at_k' t there e held => ?_⟩
  obtain ⟨stopped, heap⟩ := object_of_stop at_k stop
  have started := object_of_start stopped start
  rw [heap] at started
  have at_rest : q.Orderly (.startEngines k o) := by
    intro object' at_k''
    rw [stopped] at at_k''
    cases at_k''
    exact rest
  have orderly : p.Orderly (.stopEngines k u) := by
    intro object' at_k''
    rw [at_k] at at_k''
    cases at_k''
    exact rest
  have whole : (Process.launched rows imports).Leads s :=
    ((run.tail ⟨_, orderly, stop⟩).tail ⟨_, at_rest, start⟩).trans (leads_of_leaving later)
  obtain ⟨after', at_k'', same⟩ := engines_leads started later
  rw [at_k'] at at_k''
  cases at_k''
  have below := engine_of_heldBy ((Shares.launched rows imports).leads whole).lent
    (List.mem_of_getElem? at_k') there held
  obtain ⟨engine, at_e⟩ : ∃ engine, after.engines[e]? = some engine :=
    ⟨_, List.getElem?_eq_getElem below⟩
  refine ⟨engine, at_e, ?_⟩
  rw [same] at at_e
  exact startEngines_initialised zero at_e

theorem restart_works_once : ∃ p q r object, (Process.launched [] []).Leads p ∧
    p.move (.stopEngines 0 fun _ => ⟨0, 0⟩) = some q ∧
      q.move (.startEngines 0 everythingStarts) = some r ∧
        (restarted (fun _ => ⟨0, 0⟩) everythingStarts object p.heap).1 = 0 ∧
          ∀ s, Relation.ReflTransGen (NextLeaving 0) r s →
            ∀ after, s.objects[0]? = some after → ∀ t ∈ after.requests.threads, ∀ e,
              heldBy t = some e → ∃ engine, after.engines[e]? = some engine ∧
                Initialised (everythingStarts e) engine := by
  obtain ⟨p, object, run, at_0, rest, works⟩ : ∃ p object, (Process.launched [] []).Leads p ∧
      p.objects[0]? = some object ∧ object.AtRest ∧ Started object :=
    ⟨_, _, .tail .refl ⟨.create true (fun _ _ => 0) everythingStarts, trivial, rfl⟩, rfl,
      fun t mem => absurd mem List.not_mem_nil, started_of_zero (by decide)⟩
  obtain ⟨q, stop⟩ : ∃ q, p.move (.stopEngines 0 fun _ => ⟨0, 0⟩) = some q := by
    rw [Process.move, at_0]
    exact ⟨_, rfl⟩
  obtain ⟨r, start⟩ : ∃ r, q.move (.startEngines 0 everythingStarts) = some r := by
    rw [Process.move, (object_of_stop at_0 stop).1]
    exact ⟨_, rfl⟩
  have whole := restart_works [] [] p run 0 object at_0 rest works (fun _ => ⟨0, 0⟩)
    everythingStarts q r stop start
  have zero := whole.1.mpr fun i _ => ⟨⟨rfl, rfl⟩, rfl, rfl, rfl, rfl⟩
  exact ⟨p, q, r, object, run, stop, start, zero, whole.2 zero⟩

end Restart

end ARCServer.EngineRestarts
