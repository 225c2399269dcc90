import ARCServer.FaceSdk

/-! One `ARCFaceEngine`: an engine for detection and one for recognition, with a work
buffer each. Every `malloc` and every call of the SDK may fail. -/

namespace ARCServer.EngineLifecycle

open FaceSdk

/-- The blocks that are allocated and not yet freed, and whether `free` was given another one. -/
structure Heap where
  allocated : List ℕ
  next : ℕ
  badFree : Bool
  deriving DecidableEq, Repr

def Heap.empty : Heap := ⟨[], 0, false⟩

def Heap.malloc (granted : Bool) (heap : Heap) : Option ℕ × Heap :=
  if granted then
    (some heap.next, { heap with allocated := heap.next :: heap.allocated, next := heap.next + 1 })
  else (none, heap)

def Heap.free (block : Option ℕ) (heap : Heap) : Heap :=
  match block with
  | none => heap
  | some b =>
    if b ∈ heap.allocated then { heap with allocated := heap.allocated.erase b }
    else { heap with badFree := true }

/-- `none` is `nullptr`. -/
structure ARCFaceEngine where
  FDEngine : Option ℕ
  FREngine : Option ℕ
  pFDWorkBUF : Option ℕ
  pFRWorkBUF : Option ℕ
  deriving DecidableEq, Repr

def ARCFaceEngine.new : ARCFaceEngine := ⟨none, none, none, none⟩

/-- The answer of an initialise call; one that fails may still write the handle. -/
inductive Initial
  | ok (handle : ℕ)
  | failed (code : Failure) (written : Option (Option ℕ))
  deriving DecidableEq

def Initial.ret : Initial → Int
  | .ok _ => mok
  | .failed code _ => code

def Initial.handle (before : Option ℕ) : Initial → Option ℕ
  | .ok handle => some handle
  | .failed _ written => written.getD before

structure InitOutcome where
  mallocFD : Bool
  initialFD : Initial
  mallocFR : Bool
  initialFR : Initial
  deriving DecidableEq

/-- A failure gives back the buffer of its own step only and keeps the pointer. -/
def initEngine (o : InitOutcome) (engine : ARCFaceEngine) (heap : Heap) :
    Int × ARCFaceEngine × Heap :=
  if engine.FREngine ≠ none ∨ engine.FDEngine ≠ none ∨ engine.pFDWorkBUF ≠ none ∨
      engine.pFRWorkBUF ≠ none then
    (-1, engine, heap)
  else
    let (pFDWorkBUF, heap) := heap.malloc o.mallocFD
    let engine := { engine with pFDWorkBUF }
    if pFDWorkBUF = none then (-1, engine, heap)
    else
      let engine := { engine with FDEngine := o.initialFD.handle engine.FDEngine }
      if o.initialFD.ret ≠ mok then (-1, engine, heap.free pFDWorkBUF)
      else
        let (pFRWorkBUF, heap) := heap.malloc o.mallocFR
        let engine := { engine with pFRWorkBUF }
        if pFRWorkBUF = none then (-1, engine, heap)
        else
          let engine := { engine with FREngine := o.initialFR.handle engine.FREngine }
          if o.initialFR.ret ≠ mok then (-1, engine, heap.free pFRWorkBUF)
          else (0, engine, heap)

structure UninitOutcome where
  retFD : Int
  retFR : Int
  deriving DecidableEq, Repr

/-- Each half gives back its buffer and forgets its handle if its own call succeeded. -/
def uninitialEngine (o : UninitOutcome) (engine : ARCFaceEngine) (heap : Heap) :
    Int × ARCFaceEngine × Heap :=
  let (engine, heap) :=
    if o.retFD = mok then
      ({ engine with pFDWorkBUF := none, FDEngine := none }, heap.free engine.pFDWorkBUF)
    else (engine, heap)
  let (engine, heap) :=
    if o.retFR = mok then
      ({ engine with pFRWorkBUF := none, FREngine := none }, heap.free engine.pFRWorkBUF)
    else (engine, heap)
  (if o.retFR ≠ mok ∨ o.retFD ≠ mok then -1 else 0, engine, heap)

theorem minus_one_ne_mok : (-1 : Int) ≠ mok := by decide

def InitOutcome.Succeeds (o : InitOutcome) : Prop :=
  o.mallocFD = true ∧ o.initialFD.ret = mok ∧ o.mallocFR = true ∧ o.initialFR.ret = mok

theorem Initial.delivered {initial : Initial} (succeeds : initial.ret = mok) :
    ∃ handle, initial = .ok handle := by
  cases initial with
  | ok handle => exact ⟨handle, rfl⟩
  | failed code written => exact absurd succeeds code.property

structure Initialised (o : InitOutcome) (engine : ARCFaceEngine) : Prop where
  detection : ∃ handle, o.initialFD = .ok handle ∧ engine.FDEngine = some handle
  recognition : ∃ handle, o.initialFR = .ok handle ∧ engine.FREngine = some handle

theorem initEngine_new (o : InitOutcome) (heap : Heap) :
    o.Succeeds ∧ (initEngine o .new heap).1 = 0 ∧ Initialised o (initEngine o .new heap).2.1 ∨
      ¬ o.Succeeds ∧ (initEngine o .new heap).1 = -1 := by
  obtain ⟨mallocFD, initialFD, mallocFR, initialFR⟩ := o
  cases mallocFD with
  | false => exact .inr ⟨fun h => Bool.noConfusion h.1, rfl⟩
  | true =>
    cases initialFD with
    | failed code written =>
      refine .inr ⟨fun h => code.property h.2.1, ?_⟩
      simp [initEngine, ARCFaceEngine.new, Heap.malloc, Initial.ret, code.property]
    | ok detection =>
      cases mallocFR with
      | false => exact .inr ⟨fun h => Bool.noConfusion h.2.2.1, rfl⟩
      | true =>
        cases initialFR with
        | failed code written =>
          refine .inr ⟨fun h => code.property h.2.2.2, ?_⟩
          simp [initEngine, ARCFaceEngine.new, Heap.malloc, Initial.ret, code.property]
        | ok recognition =>
          exact .inl ⟨⟨rfl, rfl, rfl, rfl⟩, rfl, ⟨detection, rfl, rfl⟩, recognition, rfl, rfl⟩

theorem initEngine_zero_iff (o : InitOutcome) (heap : Heap) :
    (initEngine o .new heap).1 = 0 ↔ o.Succeeds := by
  rcases initEngine_new o heap with ⟨succeeds, zero, -⟩ | ⟨fails, minus⟩
  · exact iff_of_true zero succeeds
  · refine iff_of_false ?_ fails
    rw [minus]
    decide

theorem initialised_of_succeeds {o : InitOutcome} (succeeds : o.Succeeds) (heap : Heap) :
    Initialised o (initEngine o .new heap).2.1 := by
  rcases initEngine_new o heap with ⟨-, -, initialised⟩ | ⟨fails, -⟩
  · exact initialised
  · exact absurd succeeds fails

section Stages

variable {o : InitOutcome} {engine : ARCFaceEngine} (heap : Heap)

theorem initEngine_running (running : engine ≠ .new) :
    initEngine o engine heap = (-1, engine, heap) := by
  rw [initEngine, if_pos]
  obtain ⟨FDEngine, FREngine, pFDWorkBUF, pFRWorkBUF⟩ := engine
  by_contra null
  simp only [not_or, not_ne_iff] at null
  obtain ⟨rfl, rfl, rfl, rfl⟩ := null
  exact running rfl

theorem initEngine_unallocated (refused : o.mallocFD = false) :
    initEngine o .new heap = (-1, .new, heap) := by
  simp [initEngine, ARCFaceEngine.new, Heap.malloc, refused]

theorem initEngine_acquired {detection recognition : ℕ}
    (mallocFD : o.mallocFD = true) (initialFD : o.initialFD = .ok detection)
    (mallocFR : o.mallocFR = true) (initialFR : o.initialFR = .ok recognition) :
    initEngine o .new heap =
      (0, ⟨some detection, some recognition, some heap.next, some (heap.next + 1)⟩,
        ⟨(heap.next + 1) :: heap.next :: heap.allocated, heap.next + 2, heap.badFree⟩) := by
  simp [initEngine, ARCFaceEngine.new, Heap.malloc, Initial.ret, Initial.handle,
    mallocFD, initialFD, mallocFR, initialFR]

theorem initEngine_keeps_pointer (granted : o.mallocFD = true) :
    (initEngine o .new heap).2.1.pFDWorkBUF = some heap.next := by
  by_cases detected : o.initialFD.ret = mok
  · cases allocated : o.mallocFR with
    | false => simp [initEngine, ARCFaceEngine.new, Heap.malloc, granted, detected, allocated]
    | true =>
      by_cases recognised : o.initialFR.ret = mok
      all_goals simp [initEngine, ARCFaceEngine.new, Heap.malloc, granted, detected, allocated,
        recognised]
  · simp [initEngine, ARCFaceEngine.new, Heap.malloc, granted, detected]

end Stages

theorem uninitialEngine_engine (o : UninitOutcome) (engine : ARCFaceEngine) (heap : Heap) :
    (uninitialEngine o engine heap).2.1 =
      ⟨if o.retFD = mok then none else engine.FDEngine,
        if o.retFR = mok then none else engine.FREngine,
        if o.retFD = mok then none else engine.pFDWorkBUF,
        if o.retFR = mok then none else engine.pFRWorkBUF⟩ := by
  by_cases retFD : o.retFD = mok
  all_goals by_cases retFR : o.retFR = mok
  all_goals simp [uninitialEngine, retFD, retFR]

theorem uninitialEngine_heap {engine : ARCFaceEngine} {heap : Heap} (o : UninitOutcome)
    (blocks : heap.allocated = engine.pFRWorkBUF.toList ++ engine.pFDWorkBUF.toList)
    (distinct : heap.allocated.Nodup) :
    (uninitialEngine o engine heap).2.2 =
      ⟨(if o.retFR = mok then [] else engine.pFRWorkBUF.toList) ++
        if o.retFD = mok then [] else engine.pFDWorkBUF.toList, heap.next, heap.badFree⟩ := by
  obtain ⟨allocated, next, badFree⟩ := heap
  obtain ⟨FDEngine, FREngine, pFDWorkBUF, pFRWorkBUF⟩ := engine
  dsimp only at blocks distinct
  subst blocks
  rw [uninitialEngine]
  by_cases retFD : o.retFD = mok
  all_goals by_cases retFR : o.retFR = mok
  all_goals cases pFDWorkBUF
  all_goals cases pFRWorkBUF
  all_goals simp_all [Heap.free]

end ARCServer.EngineLifecycle
