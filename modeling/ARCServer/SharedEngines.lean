import ARCServer.DeadlockFreedom
import ARCServer.FeatureTable
import ARCServer.WorkingEngines
import Mathlib.Logic.Relation

/-! Any number of `ARCFaceEngines` in one process. Each has ten engines, a mutex, a stack
of indices and a database object of its own; the semaphore is static, and the heap and
the tables are there once. Engines may be stopped and started again. -/

namespace ARCServer.SharedEngines

open InterleavedPrograms EnginePool EngineLifecycle FaceSdk RequestHandlers PoolExclusivity
  FeatureTable WorkingEngines

section Loop

variable {σ : Type}

def eachEngine (body : ℕ → ARCFaceEngine → σ → Int × ARCFaceEngine × σ) (i : ℕ) (res : Int)
    (s : σ) : List ARCFaceEngine → Int × List ARCFaceEngine × σ
  | [] => (res, [], s)
  | engine :: rest =>
    let (ret, engine, s) := body i engine s
    let (res, rest, s) := eachEngine body (i + 1) (res.lor ret) s rest
    (res, engine :: rest, s)

variable {body : ℕ → ARCFaceEngine → σ → Int × ARCFaceEngine × σ}

@[simp] theorem length_eachEngine (i : ℕ) (res : Int) (s : σ) (engines : List ARCFaceEngine) :
    (eachEngine body i res s engines).2.1.length = engines.length := by
  induction engines generalizing i res s with
  | nil => rfl
  | cons engine rest ih => exact congrArg (· + 1) (ih _ _ _)

theorem eachEngine_keeps (inv : List ARCFaceEngine → σ → Prop) (may : ℕ → ARCFaceEngine → Prop)
    (round : ∀ i done engine rest s, may i engine → inv (done ++ engine :: rest) s →
      inv (done ++ (body i engine s).2.1 :: rest) (body i engine s).2.2)
    (i : ℕ) (res : Int) (done : List ARCFaceEngine) {engines : List ARCFaceEngine} {s : σ}
    (each : ∀ j engine, engines[j]? = some engine → may (i + j) engine)
    (first : inv (done ++ engines) s) :
    inv (done ++ (eachEngine body i res s engines).2.1) (eachEngine body i res s engines).2.2 := by
  induction engines generalizing i res s done with
  | nil => exact first
  | cons engine rest ih =>
    have here := round i done engine rest s (each 0 engine rfl) first
    have later : ∀ j engine', rest[j]? = some engine' → may (i + 1 + j) engine' := by
      intro j engine' at_j
      rw [Nat.add_right_comm]
      exact each (j + 1) engine' at_j
    rw [List.append_cons] at here
    have whole := ih (i + 1) (res.lor (body i engine s).1) _ later here
    rwa [List.append_assoc] at whole

theorem eachEngine_breaks (inv broken : List ARCFaceEngine → σ → Prop)
    (may : ℕ → ARCFaceEngine → Prop)
    (keeps : ∀ i done engine rest s, may i engine → inv (done ++ engine :: rest) s →
      inv (done ++ (body i engine s).2.1 :: rest) (body i engine s).2.2)
    (breaks : ∀ i done engine rest s, ¬ may i engine → inv (done ++ engine :: rest) s →
      broken (done ++ (body i engine s).2.1 :: rest) (body i engine s).2.2)
    (stays : ∀ i done engine rest s, broken (done ++ engine :: rest) s →
      broken (done ++ (body i engine s).2.1 :: rest) (body i engine s).2.2)
    (i : ℕ) (res : Int) (done : List ARCFaceEngine) {engines : List ARCFaceEngine} {s : σ}
    {j : ℕ} {engine : ARCFaceEngine} (at_j : engines[j]? = some engine)
    (fails : ¬ may (i + j) engine) (first : inv (done ++ engines) s) :
    broken (done ++ (eachEngine body i res s engines).2.1)
      (eachEngine body i res s engines).2.2 := by
  induction engines generalizing i res s done j with
  | nil => cases at_j
  | cons head rest ih =>
    by_cases here : may i head
    · have kept := keeps i done head rest s here first
      rw [List.append_cons] at kept
      cases j with
      | zero =>
        cases at_j
        exact absurd here fails
      | succ j =>
        rw [← Nat.succ_eq_add_one, Nat.add_succ, ← Nat.succ_add] at fails
        have whole := ih (i + 1) (res.lor (body i head s).1) _ at_j fails kept
        rwa [List.append_assoc] at whole
    · have now := breaks i done head rest s here first
      rw [List.append_cons] at now
      have whole := eachEngine_keeps broken (fun _ _ => True)
        (fun i done engine rest s _ before => stays i done engine rest s before)
        (i + 1) (res.lor (body i head s).1) _ (fun _ _ _ => trivial) now
      rwa [List.append_assoc] at whole

theorem eachEngine_getElem? {i : ℕ} {res : Int} {s : σ} {engines : List ARCFaceEngine} {j : ℕ}
    {after : ARCFaceEngine} (h : (eachEngine body i res s engines).2.1[j]? = some after) :
    ∃ engine s', engines[j]? = some engine ∧ after = (body (i + j) engine s').2.1 := by
  induction engines generalizing i res s j with
  | nil => cases h
  | cons engine rest ih =>
    cases j with
    | zero =>
      cases h
      exact ⟨engine, s, rfl, rfl⟩
    | succ j =>
      obtain ⟨engine', s', at_j, same⟩ := ih h
      refine ⟨engine', s', at_j, ?_⟩
      rw [same, Nat.add_right_comm]
      rfl

theorem eachEngine_zero_iff (works : ℕ → ARCFaceEngine → Prop)
    (round : ∀ i engine s, (body i engine s).1 = 0 ∧ works i engine ∨
      (body i engine s).1 = -1 ∧ ¬ works i engine)
    {i : ℕ} {res : Int} (s : σ) {engines : List ARCFaceEngine} (before : res = 0 ∨ res = -1) :
    (eachEngine body i res s engines).1 = 0 ↔
      res = 0 ∧ ∀ j engine, engines[j]? = some engine → works (i + j) engine := by
  induction engines generalizing i res s with
  | nil => simp [eachEngine]
  | cons engine rest ih =>
    have split : (∀ j engine', (engine :: rest)[j]? = some engine' → works (i + j) engine') ↔
        works i engine ∧ ∀ j engine', rest[j]? = some engine' → works (i + 1 + j) engine' := by
      constructor
      · intro all
        refine ⟨all 0 engine rfl, fun j engine' at_j => ?_⟩
        rw [Nat.add_right_comm]
        exact all (j + 1) engine' at_j
      · rintro ⟨first, others⟩ j engine' at_j
        cases j with
        | zero =>
          cases at_j
          exact first
        | succ j =>
          have other := others j engine' at_j
          rwa [Nat.add_right_comm] at other
    have combined : (res.lor (body i engine s).1 = 0 ∨ res.lor (body i engine s).1 = -1) ∧
        (res.lor (body i engine s).1 = 0 ↔ res = 0 ∧ works i engine) := by
      rcases round i engine s with ⟨ret, works⟩ | ⟨ret, fails⟩
      · rw [ret]
        rcases before with rfl | rfl
        · exact ⟨.inl rfl, iff_of_true rfl ⟨rfl, works⟩⟩
        · rw [lor_zero]
          exact ⟨.inr rfl, iff_of_false (by decide) fun h => absurd h.1 (by decide)⟩
      · have failed : res.lor (-1) = -1 := by
          rcases before with rfl | rfl
          · exact zero_lor
          · rfl
        rw [ret, failed]
        exact ⟨.inr rfl, iff_of_false (by decide) fun h => fails h.2⟩
    rw [split, ← and_assoc, ← combined.2]
    exact ih _ combined.1

end Loop

/-- The permits and the tables in `requests.shared` are copies of those of the process. -/
structure ARCFaceEngines where
  engines : List ARCFaceEngine
  ten : engines.length = cMaxNum
  requests : Requests

namespace ARCFaceEngines

def new (exec : Bool) (memory : Memory) (rows : List UserRow) (imports : List ImportRow) :
    ARCFaceEngines where
  engines := List.replicate cMaxNum .new
  ten := List.length_replicate
  requests := ⟨construct exec rows memory imports, []⟩

def startEngines (o : ℕ → InitOutcome) (object : ARCFaceEngines) (heap : Heap) :
    Int × ARCFaceEngines × Heap :=
  let loop := eachEngine
    (fun i engine (s : Pool × Heap) =>
      let (ret, engine, heap) := initEngine (o i) engine s.2
      (ret, engine, { s.1 with enginespoll := i :: s.1.enginespoll }, heap))
    0 0 (object.requests.shared.pool, heap) object.engines
  (loop.1,
    { engines := loop.2.1
      ten := (length_eachEngine ..).trans object.ten
      requests := ⟨{ object.requests.shared with pool := loop.2.2.1 }, object.requests.threads⟩ },
    loop.2.2.2)

/-- `UninitialEngine` for every engine. The stack is left as it is. -/
def stopEngines (o : ℕ → UninitOutcome) (object : ARCFaceEngines) (heap : Heap) :
    Int × ARCFaceEngines × Heap :=
  let loop := eachEngine (fun i engine heap => uninitialEngine (o i) engine heap)
    0 0 heap object.engines
  (loop.1, ⟨loop.2.1, (length_eachEngine ..).trans object.ten, object.requests⟩, loop.2.2)

def AtRest (object : ARCFaceEngines) : Prop :=
  ∀ t ∈ object.requests.threads, Finished t

end ARCFaceEngines

/-- `sem` is static; the tables are those of the one database. -/
structure Process where
  sem : ℕ
  userInformation : List UserRow
  userImport : List ImportRow
  heap : Heap
  objects : List ARCFaceEngines

inductive ProcessMove
  /-- `engines = new ARCFaceEngines(); engines->startEngines();` -/
  | create (exec : Bool) (memory : Memory) (o : ℕ → InitOutcome)
  | startEngines (k : ℕ) (o : ℕ → InitOutcome)
  | stopEngines (k : ℕ) (o : ℕ → UninitOutcome)
  /-- A request comes to an object, or one of its requests takes a step. -/
  | request (k : ℕ) (m : Move Request Outside)

namespace Process

def launched (rows : List UserRow) (imports : List ImportRow) : Process :=
  ⟨semPermits, rows, imports, .empty, []⟩

/-- What a request of an object sees and changes. -/
def seen (p : Process) (object : ARCFaceEngines) : Requests :=
  ⟨{ object.requests.shared with
      pool := { object.requests.shared.pool with sem := p.sem }
      userInformation := p.userInformation
      userImport := p.userImport }, object.requests.threads⟩

def settle (p : Process) (k : ℕ) (object : ARCFaceEngines) (c : Requests) : Process :=
  { p with
    sem := c.shared.pool.sem
    userInformation := c.shared.userInformation
    userImport := c.shared.userImport
    objects := p.objects.set k { object with requests := c } }

def move (p : Process) : ProcessMove → Option Process
  | .create exec memory o =>
    let started := (ARCFaceEngines.new exec memory p.userInformation p.userImport).startEngines
      o p.heap
    some { p with objects := p.objects ++ [started.2.1], heap := started.2.2 }
  | .startEngines k o =>
    p.objects[k]?.map fun object =>
      let started := object.startEngines o p.heap
      { p with objects := p.objects.set k started.2.1, heap := started.2.2 }
  | .stopEngines k o =>
    p.objects[k]?.map fun object =>
      let stopped := object.stopEngines o p.heap
      { p with objects := p.objects.set k stopped.2.1, heap := stopped.2.2 }
  | .request k m =>
    p.objects[k]?.bind fun object => (arcServer.move (p.seen object) m).map (p.settle k object)

/-- Engines are only started and stopped while no request of their object is under way:
`startEngines` pushes without the mutex. -/
def Orderly (p : Process) : ProcessMove → Prop
  | .startEngines k _ | .stopEngines k _ => ∀ object, p.objects[k]? = some object → object.AtRest
  | .create _ _ _ | .request _ _ => True

def Next (p q : Process) : Prop := ∃ m, p.Orderly m ∧ p.move m = some q

abbrev Leads : Process → Process → Prop := Relation.ReflTransGen Next

end Process

section Stack

variable (o : ℕ → InitOutcome) (object : ARCFaceEngines) (heap : Heap)

theorem startEngines_pool : (object.startEngines o heap).2.1.requests.shared.pool =
    { object.requests.shared.pool with
      enginespoll := (List.range cMaxNum).reverse ++ object.requests.shared.pool.enginespoll } := by
  suffices h : ∀ (engines : List ARCFaceEngine) (i : ℕ) (res : Int) (pool : Pool) (heap : Heap),
      (eachEngine (fun i engine (s : Pool × Heap) => ((initEngine (o i) engine s.2).1,
        (initEngine (o i) engine s.2).2.1, { s.1 with enginespoll := i :: s.1.enginespoll },
          (initEngine (o i) engine s.2).2.2)) i res (pool, heap) engines).2.2.1 =
        { pool with enginespoll := (List.range' i engines.length).reverse ++ pool.enginespoll } by
    have whole := h object.engines 0 0 object.requests.shared.pool heap
    rw [object.ten, ← List.range_eq_range'] at whole
    exact whole
  intro engines
  induction engines with
  | nil => exact fun _ _ _ _ => rfl
  | cons engine rest ih =>
    intro i res pool heap
    rw [List.length_cons, List.range'_succ, List.reverse_cons, List.append_assoc]
    exact ih (i + 1) _ _ _

end Stack

end ARCServer.SharedEngines
