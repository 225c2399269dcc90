import ARCServer.InterleavedPrograms
import Mathlib.Data.Int.Bitwise

/-! The pool of engines: a stack of free indices behind a mutex, and a semaphore that
counts them. A request takes the engine away and brings it back in single steps;
the phase of a request says how far it is. -/

namespace ARCServer.EnginePool

open InterleavedPrograms

def cMaxNum : ℕ := 10

def semPermits : ℕ := 10

/-- `sem`, whether `mutex` is held, and `Enginespoll` with its top first. -/
structure Pool where
  sem : ℕ
  mutex : Bool
  enginespoll : List ℕ
  deriving DecidableEq, Repr

def Pool.fresh : Pool := ⟨semPermits, false, []⟩

/-- `startEngines`, where `initEngine i` is what `InitEngine` returns for engine `i`.
The index is pushed whatever that is. -/
def startEngines (initEngine : ℕ → Int) (pool : Pool) : Int × Pool :=
  (List.range cMaxNum).foldl
    (fun (res, pool) i =>
      (res.lor (initEngine i), { pool with enginespoll := i :: pool.enginespoll }))
    (0, pool)

theorem startEngines_pool (initEngine : ℕ → Int) (pool : Pool) :
    (startEngines initEngine pool).2 =
      { pool with enginespoll := (List.range cMaxNum).reverse ++ pool.enginespoll } := by
  suffices h : ∀ (l : List ℕ) (res : Int) (pool : Pool),
      (l.foldl (fun (res, pool) i =>
        (res.lor (initEngine i), { pool with enginespoll := i :: pool.enginespoll }))
        (res, pool)).2 = { pool with enginespoll := l.reverse ++ pool.enginespoll } from
    h (List.range cMaxNum) 0 pool
  intro l
  induction l with
  | nil => exact fun _ _ => rfl
  | cons i l ih =>
    intro res pool
    rw [List.foldl_cons, ih, List.reverse_cons, List.append_assoc]
    rfl

inductive PoolAction
  | acquire
  | release
  | lock
  | unlock
  | top
  | pop
  | push (e : ℕ)
  deriving DecidableEq, Repr

abbrev PoolAction.Response : PoolAction → Type
  | .top => ℕ
  | _ => Unit

/-- `acquire` and `lock` wait; `top` and `pop` of an empty stack have no meaning. -/
def Pool.step : (a : PoolAction) → Pool → Option (a.Response × Pool)
  | .acquire, pool =>
    if pool.sem = 0 then none else some ((), { pool with sem := pool.sem - 1 })
  | .release, pool => some ((), { pool with sem := pool.sem + 1 })
  | .lock, pool => if pool.mutex then none else some ((), { pool with mutex := true })
  | .unlock, pool => some ((), { pool with mutex := false })
  | .top, pool => pool.enginespoll.head?.map fun e => (e, pool)
  | .pop, pool =>
    match pool.enginespoll with
    | [] => none
    | _ :: rest => some ((), { pool with enginespoll := rest })
  | .push e, pool => some ((), { pool with enginespoll := e :: pool.enginespoll })

section Steps

variable {pool pool' : Pool}

theorem step_acquire {r : Unit} (h : pool.step .acquire = some (r, pool')) :
    pool.sem ≠ 0 ∧ pool' = { pool with sem := pool.sem - 1 } := by
  unfold Pool.step at h
  dsimp only at h
  split at h
  · cases h
  · next permits =>
    cases h
    exact ⟨permits, rfl⟩

theorem step_lock {r : Unit} (h : pool.step .lock = some (r, pool')) :
    pool.mutex = false ∧ pool' = { pool with mutex := true } := by
  unfold Pool.step at h
  dsimp only at h
  split at h
  · cases h
  · next unlocked =>
    cases h
    exact ⟨by simpa using unlocked, rfl⟩

theorem step_top {e : ℕ} (h : pool.step .top = some (e, pool')) :
    pool.enginespoll.head? = some e ∧ pool' = pool := by
  obtain ⟨top, head, same⟩ := Option.map_eq_some_iff.mp h
  cases same
  exact ⟨head, rfl⟩

theorem step_pop {r : Unit} (h : pool.step .pop = some (r, pool')) :
    ∃ e rest, pool.enginespoll = e :: rest ∧ pool' = { pool with enginespoll := rest } := by
  unfold Pool.step at h
  dsimp only at h
  split at h
  · cases h
  · next e rest stack =>
    cases h
    exact ⟨e, rest, stack, rfl⟩

end Steps

inductive Phase
  | idle
  | acquired
  | locked
  | seen (e : ℕ)
  | popped (e : ℕ)
  | holding (e : ℕ)
  | returning (e : ℕ)
  | pushed
  | unlocked
  deriving DecidableEq, Repr

namespace Phase

def engine : Phase → Option ℕ
  | .popped e | .holding e | .returning e => some e
  | _ => none

def busy : Phase → Bool
  | .idle => false
  | _ => true

def inMutex : Phase → Bool
  | .locked | .seen _ | .popped _ | .returning _ | .pushed => true
  | _ => false

def admits : Phase → PoolAction → Prop
  | .idle, .acquire => True
  | .acquired, .lock => True
  | .locked, .top => True
  | .seen _, .pop => True
  | .popped _, .unlock => True
  | .holding _, .lock => True
  | .returning e, .push e' => e' = e
  | .pushed, .unlock => True
  | .unlocked, .release => True
  | _, _ => False

def next : Phase → (a : PoolAction) → a.Response → Phase
  | .idle, .acquire, _ => .acquired
  | .acquired, .lock, _ => .locked
  | .locked, .top, e => .seen e
  | .seen e, .pop, _ => .popped e
  | .popped e, .unlock, _ => .holding e
  | .holding e, .lock, _ => .returning e
  | .returning _, .push _, _ => .pushed
  | .pushed, .unlock, _ => .unlocked
  | .unlocked, .release, _ => .idle
  | φ, _, _ => φ

end Phase

/-- What ties the pool to the phases of all requests. -/
structure Sound (pool : Pool) (phases : List Phase) : Prop where
  permits : pool.sem + phases.countP Phase.busy = semPermits
  mutex : phases.countP Phase.inMutex = if pool.mutex then 1 else 0
  engines : (pool.enginespoll ++ phases.filterMap Phase.engine).Perm (List.range cMaxNum)
  seen : ∀ e, .seen e ∈ phases → pool.enginespoll.head? = some e

section Sound

variable {pool pool' : Pool} {phases : List Phase}

theorem eq_of_countP_le_one {α : Type} {l : List α} {p : α → Bool} (h : l.countP p ≤ 1) {x y : α}
    (hx : x ∈ l) (hy : y ∈ l) (px : p x) (py : p y) : x = y := by
  rw [List.countP_eq_length_filter] at h
  have x_mem := List.mem_filter.mpr ⟨hx, px⟩
  have y_mem := List.mem_filter.mpr ⟨hy, py⟩
  match hl : l.filter p with
  | [] => rw [hl] at x_mem; cases x_mem
  | [z] =>
    rw [hl] at x_mem y_mem
    rw [List.mem_singleton.mp x_mem, List.mem_singleton.mp y_mem]
  | _ :: _ :: _ =>
    rw [hl] at h
    simp at h

theorem Sound.held (h : Sound pool phases) {φ : Phase} (mem : φ ∈ phases) (inside : φ.inMutex) :
    pool.mutex = true := by
  have one := h.mutex
  have pos : 0 < phases.countP Phase.inMutex := List.countP_pos_iff.mpr ⟨φ, mem, inside⟩
  cases hm : pool.mutex with
  | true => rfl
  | false =>
    rw [hm, if_neg Bool.false_ne_true] at one
    omega

theorem not_seen (h : phases.countP Phase.inMutex ≤ 1) {φ : Phase} (mem : φ ∈ phases)
    (inside : φ.inMutex) (other : ∀ e, φ ≠ .seen e) (e : ℕ) : .seen e ∉ phases := fun seen =>
  other e (eq_of_countP_le_one h mem seen inside rfl)

theorem busy_split (phases : List Phase) :
    phases.countP Phase.busy = (phases.filterMap Phase.engine).length +
      phases.countP fun φ => φ.busy && φ.engine.isNone := by
  induction phases with
  | nil => rfl
  | cons φ phases ih =>
    rw [List.countP_cons, List.countP_cons, ih, List.filterMap_cons]
    cases φ <;> simp only [Phase.busy, Phase.engine, Option.isNone_none, Option.isNone_some,
      List.length_cons, Bool.and_true, Bool.and_false, if_true, if_false,
      Bool.false_eq_true] <;> omega

theorem Sound.enginespoll_ne_nil (h : Sound pool phases) {φ : Phase} (mem : φ ∈ phases)
    (busy : φ.busy) (none : φ.engine = none) : pool.enginespoll ≠ [] := by
  intro empty
  have total := h.engines.length_eq
  rw [empty, List.nil_append, List.length_range] at total
  have waiting : 0 < phases.countP fun φ => φ.busy && φ.engine.isNone :=
    List.countP_pos_iff.mpr ⟨φ, mem, by rw [busy, none]; rfl⟩
  have split := busy_split phases
  have permits := h.permits
  rw [cMaxNum] at total
  rw [semPermits] at permits
  omega

theorem Sound.nodup (h : Sound pool phases) :
    (pool.enginespoll ++ phases.filterMap Phase.engine).Nodup :=
  h.engines.nodup_iff.mpr List.nodup_range

theorem Sound.initial (initEngine : ℕ → Int) :
    Sound (startEngines initEngine Pool.fresh).2 [] := by
  rw [startEngines_pool]
  refine ⟨rfl, rfl, ?_, fun e mem => absurd mem List.not_mem_nil⟩
  simp [Pool.fresh, List.reverse_perm]

theorem Sound.arrive (h : Sound pool phases) : Sound pool (phases ++ [.idle]) := by
  refine ⟨?_, ?_, ?_, fun e mem => h.seen e ?_⟩
  · simpa [Phase.busy] using h.permits
  · simpa [Phase.inMutex] using h.mutex
  · rw [List.filterMap_append]
    exact (List.append_nil (phases.filterMap Phase.engine)).symm ▸ h.engines
  · simpa using mem

/-- What one request has to do for the pool to stay sound: balance its permit, the mutex
and its engine, and leave the stack alone unless it has the mutex. -/
theorem Sound.change (h : Sound pool phases) {i : ℕ} {φ ψ : Phase} (at_i : phases[i]? = some φ)
    (permits : pool'.sem + (if ψ.busy then 1 else 0) = pool.sem + if φ.busy then 1 else 0)
    (mutex : (if pool'.mutex then 1 else 0) + (if φ.inMutex then 1 else 0) =
      (if pool.mutex then 1 else 0) + if ψ.inMutex then 1 else 0)
    (engines : (pool'.enginespoll ++ ψ.engine.toList).Perm
      (pool.enginespoll ++ φ.engine.toList))
    (top : pool'.enginespoll = pool.enginespoll ∨ ψ.inMutex ∧ ∀ e, ψ ≠ .seen e)
    (seen : ∀ e, ψ = .seen e → pool'.enginespoll.head? = some e) :
    Sound pool' (phases.set i ψ) := by
  have busy := countP_set at_i Phase.busy ψ
  have inMutex := countP_set at_i Phase.inMutex ψ
  have unique : (phases.set i ψ).countP Phase.inMutex = if pool'.mutex then 1 else 0 := by
    have before := h.mutex
    omega
  refine ⟨?_, unique, ?_, fun e mem => ?_⟩
  · have before := h.permits
    omega
  · apply (List.perm_append_right_iff φ.engine.toList).mp
    calc (pool'.enginespoll ++ (phases.set i ψ).filterMap Phase.engine ++ φ.engine.toList).Perm
          (pool'.enginespoll ++ (phases.filterMap Phase.engine ++ ψ.engine.toList)) := by
          rw [List.append_assoc]
          exact (filterMap_set_perm at_i Phase.engine ψ).append_left _
      _ |>.Perm (pool'.enginespoll ++ ψ.engine.toList ++ phases.filterMap Phase.engine) := by
          rw [List.append_assoc]
          exact List.perm_append_comm.append_left _
      _ |>.Perm (pool.enginespoll ++ φ.engine.toList ++ phases.filterMap Phase.engine) :=
          engines.append_right _
      _ |>.Perm (pool.enginespoll ++ phases.filterMap Phase.engine ++ φ.engine.toList) := by
          rw [List.append_assoc, List.append_assoc]
          exact List.perm_append_comm.append_left _
      _ |>.Perm (List.range cMaxNum ++ φ.engine.toList) := h.engines.append_right _
  · rcases List.mem_or_eq_of_mem_set mem with old | new
    · rcases top with same | ⟨inside, other⟩
      · rw [same]
        exact h.seen e old
      · have placed : ψ ∈ phases.set i ψ :=
          List.mem_set (List.getElem?_eq_some_iff.mp at_i).1 ψ
        refine absurd mem (not_seen ?_ placed inside other e)
        rw [unique]
        split <;> decide
    · exact seen e new.symm

theorem Sound.step (h : Sound pool phases) {i : ℕ} {φ : Phase} {a : PoolAction} {r : a.Response}
    (at_i : phases[i]? = some φ) (adm : φ.admits a) (hs : pool.step a = some (r, pool')) :
    Sound pool' (phases.set i (φ.next a r)) := by
  match φ, a, adm with
  | .idle, .acquire, _ =>
    obtain ⟨some_left, rfl⟩ := step_acquire hs
    refine h.change at_i ?_ rfl (.refl _) (.inl rfl) nofun
    change pool.sem - 1 + 1 = pool.sem + 0
    omega
  | .acquired, .lock, _ =>
    obtain ⟨free, rfl⟩ := step_lock hs
    exact h.change at_i rfl (by rw [free]; rfl) (.refl _) (.inl rfl) nofun
  | .locked, .top, _ =>
    obtain ⟨head, rfl⟩ := step_top hs
    refine h.change at_i rfl rfl (.refl _) (.inl rfl) fun e' new => ?_
    rw [head, Phase.seen.inj new]
  | .seen e, .pop, _ =>
    have head := h.seen e (List.mem_of_getElem? at_i)
    obtain ⟨top, rest, stack, rfl⟩ := step_pop hs
    rw [stack, List.head?_cons] at head
    cases head
    refine h.change at_i rfl rfl ?_ (.inr ⟨rfl, nofun⟩) nofun
    change (rest ++ [e]).Perm (pool.enginespoll ++ [])
    rw [stack, List.append_nil]
    exact List.perm_append_singleton e rest
  | .popped e, .unlock, _ =>
    cases hs
    have held := h.held (List.mem_of_getElem? at_i) rfl
    exact h.change at_i rfl (by rw [held]; rfl) (.refl _) (.inl rfl) nofun
  | .holding e, .lock, _ =>
    obtain ⟨free, rfl⟩ := step_lock hs
    exact h.change at_i rfl (by rw [free]; rfl) (.refl _) (.inl rfl) nofun
  | .returning e, .push e', same =>
    cases hs
    refine h.change at_i rfl rfl ?_ (.inr ⟨rfl, nofun⟩) nofun
    change (e' :: pool.enginespoll ++ []).Perm (pool.enginespoll ++ [e])
    rw [show e' = e from same, List.append_nil]
    exact (List.perm_append_singleton e _).symm
  | .pushed, .unlock, _ =>
    cases hs
    have held := h.held (List.mem_of_getElem? at_i) rfl
    exact h.change at_i rfl (by rw [held]; rfl) (.refl _) (.inl rfl) nofun
  | .unlocked, .release, _ =>
    cases hs
    exact h.change at_i rfl rfl (.refl _) (.inl rfl) nofun

end Sound

end ARCServer.EnginePool
