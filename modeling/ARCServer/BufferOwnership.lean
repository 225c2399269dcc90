import ARCServer.EngineLifecycle
import Mathlib.Data.List.Induction
import Mathlib.Data.List.Nodup

/-! Runs of `InitEngine` and `UninitialEngine` on one `ARCFaceEngine`: what becomes of the
two work buffers and of the handles that the SDK made. -/

namespace ARCServer.BufferOwnership

open FaceSdk EngineLifecycle

inductive Handle
  | detection (handle : ℕ)
  | recognition (handle : ℕ)
  deriving DecidableEq, Repr

/-- The engine and its surroundings: `handles` are those that the SDK has not got back. -/
structure Life where
  engine : ARCFaceEngine
  heap : Heap
  handles : List Handle
  deriving DecidableEq, Repr

inductive Call
  | init (o : InitOutcome)
  | uninit (o : UninitOutcome)
  deriving DecidableEq

def handlesOpened (o : InitOutcome) (engine : ARCFaceEngine) : List Handle :=
  if engine = .new ∧ o.mallocFD then
    match o.initialFD with
    | .failed _ _ => []
    | .ok detection =>
      if o.mallocFR then
        match o.initialFR with
        | .failed _ _ => [.detection detection]
        | .ok recognition => [.recognition recognition, .detection detection]
      else [.detection detection]
  else []

def handlesClosed (o : UninitOutcome) (engine : ARCFaceEngine) : List Handle :=
  (if o.retFD = mok then engine.FDEngine.toList.map .detection else []) ++
    (if o.retFR = mok then engine.FREngine.toList.map .recognition else [])

def Life.new : Life := ⟨.new, .empty, []⟩

def Life.call (life : Life) : Call → Life
  | .init o =>
    let after := (initEngine o life.engine life.heap).2
    ⟨after.1, after.2, handlesOpened o life.engine ++ life.handles⟩
  | .uninit o =>
    let after := (uninitialEngine o life.engine life.heap).2
    ⟨after.1, after.2, life.handles.diff (handlesClosed o life.engine)⟩

def run (calls : List Call) : Life :=
  calls.foldl Life.call .new

def PointsToBlock (pointer : Option ℕ) (heap : Heap) : Prop :=
  pointer ≠ none ↔ ∃ block ∈ heap.allocated, pointer = some block

structure BuffersSound (life : Life) : Prop where
  detection : PointsToBlock life.engine.pFDWorkBUF life.heap
  recognition : PointsToBlock life.engine.pFRWorkBUF life.heap
  freedOnce : life.heap.badFree = false

/-- An `InitEngine` of a new engine that fails leaves it new with nothing outstanding,
and another one can succeed. -/
def FailsCleanly (o : InitOutcome) (life : Life) : Prop :=
  life.engine = .new → (initEngine o life.engine life.heap).1 = -1 →
    (life.call (.init o)).engine = .new ∧ (life.call (.init o)).heap.allocated = [] ∧
      (life.call (.init o)).handles = [] ∧
      ∀ o' : InitOutcome, o'.Succeeds →
        (initEngine o' (life.call (.init o)).engine (life.call (.init o)).heap).1 = 0

structure KeepsOwnership (calls : List Call) : Prop where
  sound : ∀ before after, calls = before ++ after → BuffersSound (run before)
  failures : ∀ before o after, calls = before ++ .init o :: after → FailsCleanly o (run before)

def FailsEarly (calls : List Call) : Prop :=
  ∀ before o after, calls = before ++ .init o :: after → (run before).engine = .new →
    o.mallocFD = false ∨ o.Succeeds

theorem run_concat (calls : List Call) (call : Call) :
    run (calls ++ [call]) = (run calls).call call := by
  rw [run, List.foldl_append]
  rfl

structure BuffersOwned (life : Life) : Prop where
  blocks : life.heap.allocated =
    life.engine.pFRWorkBUF.toList ++ life.engine.pFDWorkBUF.toList
  distinct : life.heap.allocated.Nodup
  freedOnce : life.heap.badFree = false
  handles : life.handles =
    life.engine.FREngine.toList.map .recognition ++ life.engine.FDEngine.toList.map .detection

theorem BuffersOwned.new : BuffersOwned .new :=
  ⟨rfl, List.nodup_nil, rfl, rfl⟩

section Steps

variable {life : Life}

theorem BuffersOwned.sound (h : BuffersOwned life) : BuffersSound life := by
  have points : ∀ pointer, (∀ b, pointer = some b → b ∈ life.heap.allocated) →
      PointsToBlock pointer life.heap := by
    intro pointer block
    constructor
    · intro set
      obtain ⟨b, rfl⟩ := Option.ne_none_iff_exists'.mp set
      exact ⟨b, block b rfl, rfl⟩
    · rintro ⟨b, -, rfl⟩
      exact Option.some_ne_none b
  refine ⟨points _ fun b own => ?_, points _ fun b own => ?_, h.freedOnce⟩
  · rw [h.blocks, own]
    exact List.mem_append_right _ List.mem_cons_self
  · rw [h.blocks, own]
    exact List.mem_append_left _ List.mem_cons_self

theorem BuffersOwned.nothing (h : BuffersOwned life) (new : life.engine = .new) :
    life.heap.allocated = [] ∧ life.handles = [] := by
  rw [h.blocks, h.handles, new]
  exact ⟨rfl, rfl⟩

theorem BuffersOwned.init (h : BuffersOwned life) {o : InitOutcome}
    (early : life.engine = .new → o.mallocFD = false ∨ o.Succeeds) :
    BuffersOwned (life.call (.init o)) := by
  by_cases new : life.engine = .new
  · obtain ⟨nothing, closed⟩ := h.nothing new
    rcases early new with refused | succeeds
    · rw [Life.call, new, initEngine_unallocated life.heap refused, handlesOpened, refused]
      simpa [← new] using h
    · obtain ⟨detection, initialFD⟩ := Initial.delivered succeeds.2.1
      obtain ⟨recognition, initialFR⟩ := Initial.delivered succeeds.2.2.2
      rw [Life.call, new, initEngine_acquired life.heap succeeds.1 initialFD succeeds.2.2.1
        initialFR, handlesOpened, succeeds.1, succeeds.2.2.1, initialFD, initialFR, nothing, closed]
      exact ⟨rfl, by simp, h.freedOnce, rfl⟩
  · rw [Life.call, initEngine_running life.heap new, handlesOpened, if_neg fun same => new same.1]
    exact h

theorem diff_handlesClosed (o : UninitOutcome) (engine : ARCFaceEngine) :
    (engine.FREngine.toList.map Handle.recognition ++
        engine.FDEngine.toList.map Handle.detection).diff (handlesClosed o engine) =
      (if o.retFR = mok then [] else engine.FREngine.toList.map .recognition) ++
        if o.retFD = mok then [] else engine.FDEngine.toList.map .detection := by
  obtain ⟨FDEngine, FREngine, -, -⟩ := engine
  cases FDEngine
  all_goals cases FREngine
  all_goals by_cases detection : o.retFD = mok
  all_goals by_cases recognition : o.retFR = mok
  all_goals simp [handlesClosed, detection, recognition]

theorem BuffersOwned.uninit (h : BuffersOwned life) (o : UninitOutcome) :
    BuffersOwned (life.call (.uninit o)) := by
  have left := diff_handlesClosed o life.engine
  rw [← h.handles] at left
  have blocks := h.blocks
  have distinct := h.distinct
  rw [blocks] at distinct
  simp only [Life.call, uninitialEngine_engine, uninitialEngine_heap o h.blocks h.distinct, left]
  by_cases retFD : o.retFD = mok
  all_goals by_cases retFR : o.retFR = mok
  all_goals simp only [retFD, retFR, if_true, if_false]
  · exact ⟨rfl, List.nodup_nil, h.freedOnce, rfl⟩
  · refine ⟨rfl, ?_, h.freedOnce, rfl⟩
    dsimp only
    rw [List.append_nil]
    exact distinct.of_append_left
  · exact ⟨rfl, distinct.of_append_right, h.freedOnce, rfl⟩
  · exact ⟨rfl, distinct, h.freedOnce, rfl⟩

end Steps

theorem owned_run {calls : List Call} (early : FailsEarly calls) : BuffersOwned (run calls) := by
  induction calls using List.reverseRecOn with
  | nil => exact BuffersOwned.new
  | append_singleton calls call ih =>
    have before := ih fun front o after split =>
      early front o (after ++ [call]) (by rw [split, List.append_assoc, List.cons_append])
    rw [run_concat]
    cases call with
    | init o => exact before.init fun new => early calls o [] rfl new
    | uninit o => exact before.uninit o

theorem BuffersOwned.failsCleanly {life : Life} (h : BuffersOwned life) {o : InitOutcome}
    (early : life.engine = .new → o.mallocFD = false ∨ o.Succeeds) : FailsCleanly o life := by
  intro new minus
  have owned : BuffersOwned (life.call (.init o)) := h.init early
  rw [new] at minus
  rcases early new with refused | succeeds
  · have still : (life.call (.init o)).engine = .new := by
      rw [Life.call, new, initEngine_unallocated life.heap refused]
    obtain ⟨nothing, closed⟩ := owned.nothing still
    refine ⟨still, nothing, closed, fun o' succeeds => ?_⟩
    rw [still]
    exact (initEngine_zero_iff o' _).mpr succeeds
  · rw [(initEngine_zero_iff o life.heap).mpr succeeds] at minus
    exact absurd minus (by decide)

theorem early_of_failsCleanly {life : Life} {o : InitOutcome} (clean : FailsCleanly o life)
    (new : life.engine = .new) : o.mallocFD = false ∨ o.Succeeds := by
  by_contra late
  obtain ⟨granted, fails⟩ := not_or.mp late
  have minus : (initEngine o life.engine life.heap).1 = -1 := by
    rw [new]
    exact (initEngine_new o life.heap).resolve_left (fun succeeds => fails succeeds.1) |>.2
  have still : (life.call (.init o)).engine.pFDWorkBUF = none := by
    rw [(clean new minus).1]
    rfl
  have pointer : (life.call (.init o)).engine.pFDWorkBUF = some life.heap.next := by
    rw [Life.call, new]
    exact initEngine_keeps_pointer life.heap (Bool.not_eq_false _ ▸ granted)
  rw [still] at pointer
  cases pointer

/-- The pointers, the buffers and the handles stay together in exactly the runs where no
`InitEngine` fails after it has its first buffer. -/
theorem keepsOwnership_iff (calls : List Call) : KeepsOwnership calls ↔ FailsEarly calls := by
  constructor
  · intro keeps before o after split new
    exact early_of_failsCleanly (keeps.failures before o after split) new
  · intro early
    have owned : ∀ before after, calls = before ++ after → BuffersOwned (run before) := by
      rintro before after rfl
      exact owned_run fun front o rest split => early front o (rest ++ after) (by
        rw [split, List.append_assoc, List.cons_append])
    refine ⟨fun before after split => (owned before after split).sound, ?_⟩
    intro before o after split
    exact (owned before _ split).failsCleanly (early before o after split)

def detectionFails : InitOutcome :=
  ⟨true, .failed ⟨-1, minus_one_ne_mok⟩ none, true, .ok 2⟩

def recognitionFails : InitOutcome :=
  ⟨true, .ok 1, true, .failed ⟨-1, minus_one_ne_mok⟩ none⟩

/-- The pointer dangles after the first failure. After the second a handle and a buffer are
outstanding, and `UninitialEngine` frees the other buffer once more. -/
theorem not_keepsOwnership_detectionFails :
    ¬ KeepsOwnership [.init detectionFails] ∧
      (run [.init detectionFails]).engine.pFDWorkBUF = some 0 ∧
      (run [.init detectionFails]).heap.allocated = [] ∧
      (run [.init recognitionFails]).handles = [.detection 1] ∧
      (run [.init recognitionFails]).heap.allocated = [0] ∧
      (run [.init recognitionFails, .uninit ⟨mok, mok⟩]).heap.badFree = true := by
  refine ⟨fun keeps => ?_, by decide, by decide, by decide, by decide, by decide⟩
  have new : (run [.init detectionFails]).engine = .new :=
    (keeps.failures [] detectionFails [] rfl rfl (by decide)).1
  exact absurd new (by decide)

end ARCServer.BufferOwnership
