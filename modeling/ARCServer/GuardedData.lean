import ARCServer.RequestLocks

/-! Data behind a read-write lock. Programs take the lock, access the data one
action at a time, and give the lock back. What a program knows of the data while
it has the lock, and what it knows without it, is checked for each action alone;
the lock sees to it that the others do not interfere. -/

namespace ARCServer.GuardedData

open InterleavedPrograms RequestHandlers RequestLocks

inductive LockAction (A : Type)
  | lockForRead
  | queueForWrite
  | lockForWrite
  | tryLockForWrite
  | unlock
  | access (a : A)

abbrev LockAction.Response {A : Type} (R : A → Type) : LockAction A → Type
  | .tryLockForWrite => Bool
  | .access a => R a
  | _ => Unit

structure Guarded (δ : Type) where
  lock : ReadWriteLock
  data : δ

/-- `tryLockForWrite` does not wait, and does not look at the queue. -/
def tryLockForWrite (l : ReadWriteLock) : Bool × ReadWriteLock :=
  if l.writer || l.readers != 0 then (false, l) else (true, { l with writer := true })

section Steps

variable {A ω δ ρ α : Type} {R : A → Type}

abbrev Accesses (A : Type) (R : A → Type) (ω δ : Type) := ℕ → (a : A) → ω → δ → R a × δ

def step (accesses : Accesses A R ω δ) (i : ℕ) :
    (act : LockAction A) → ω → Guarded δ → Option (act.Response R × Guarded δ)
  | .lockForRead, _, s => s.lock.lockForRead.map fun l => ((), { s with lock := l })
  | .queueForWrite, _, s => some ((), { s with lock := s.lock.queueForWrite })
  | .lockForWrite, _, s => s.lock.lockForWrite.map fun l => ((), { s with lock := l })
  | .tryLockForWrite, _, s =>
    some ((tryLockForWrite s.lock).1, { s with lock := (tryLockForWrite s.lock).2 })
  | .unlock, _, s => some ((), { s with lock := s.lock.unlock })
  | .access a, outcome, s =>
    some ((accesses i a outcome s.data).1, { s with data := (accesses i a outcome s.data).2 })

def system (accesses : Accesses A R ω δ)
    (handler : ρ → Prog (LockAction A) (LockAction.Response R) α) :
    System (Guarded δ) ω ρ (LockAction A) (LockAction.Response R) α :=
  ⟨step accesses, handler⟩

end Steps

section Discipline

variable {A ω δ ρ α Φ : Type} {R : A → Type}

/-- The proof obligations of a protocol. `Inv` is true of the data while nobody
writes, and `Knows i φ` of the data whenever program `i` is in phase `φ`. -/
structure Guards (accesses : Accesses A R ω δ)
    (P : Protocol (LockAction A) (LockAction.Response R) Φ) (first : ρ → Φ) (role : Φ → Role)
    (Inv : δ → Prop) (Knows : ℕ → Φ → δ → Prop) : Prop where
  arrive : ∀ request, role (first request) = .none
  lockForRead : ∀ φ, P.admits φ .lockForRead → role φ = .none ∧
    role (P.next φ .lockForRead ()) = .reading ∧
    ∀ i d, Inv d → Knows i φ d → Knows i (P.next φ .lockForRead ()) d
  queueForWrite : ∀ φ, P.admits φ .queueForWrite → role φ = .none ∧
    role (P.next φ .queueForWrite ()) = .waiting ∧
    ∀ i d, Knows i φ d → Knows i (P.next φ .queueForWrite ()) d
  lockForWrite : ∀ φ, P.admits φ .lockForWrite → role φ = .waiting ∧
    role (P.next φ .lockForWrite ()) = .writing ∧
    ∀ i d, Inv d → Knows i φ d → Knows i (P.next φ .lockForWrite ()) d
  tryLockForWrite : ∀ φ, P.admits φ .tryLockForWrite → role φ = .none ∧
    role (P.next φ .tryLockForWrite true) = .writing ∧
    role (P.next φ .tryLockForWrite false) = .none ∧
    (∀ i d, Inv d → Knows i φ d → Knows i (P.next φ .tryLockForWrite true) d) ∧
    ∀ i d, Knows i φ d → Knows i (P.next φ .tryLockForWrite false) d
  unlock : ∀ φ, P.admits φ .unlock → (role φ = .reading ∨ role φ = .writing) ∧
    role (P.next φ .unlock ()) = .none ∧
    (∀ i d, Knows i φ d → Knows i (P.next φ .unlock ()) d) ∧
    (role φ = .writing → ∀ i d, Knows i φ d → Inv d)
  /-- An access stays in its section and leads to the knowledge of the next phase. -/
  access : ∀ φ a, P.admits φ (.access a) → ∀ i outcome d,
    Knows i φ d → (role φ = .reading → Inv d) →
    role (P.next φ (.access a) (accesses i a outcome d).1) = role φ ∧
    Knows i (P.next φ (.access a) (accesses i a outcome d).1) (accesses i a outcome d).2
  /-- Only a writer changes the data. -/
  unchanged : ∀ φ a, P.admits φ (.access a) → role φ ≠ .writing → ∀ i outcome d,
    Knows i φ d → (role φ = .reading → Inv d) → (accesses i a outcome d).2 = d
  /-- What is known without the lock outlasts the accesses of a writer. -/
  stable : ∀ φ a, P.admits φ (.access a) → role φ = .writing → ∀ i outcome d, Knows i φ d →
    ∀ j ψ, j ≠ i → role ψ = .none ∨ role ψ = .waiting → Knows j ψ d →
      Knows j ψ (accesses i a outcome d).2

structure Holds (first : ρ → Φ) (role : Φ → Role) (Inv : δ → Prop) (Knows : ℕ → Φ → δ → Prop)
    (s : Guarded δ) (φs : List Φ) : Prop where
  lock : LockSound s.lock (φs.map role)
  settled : s.lock.writer = false → Inv s.data
  knows : ∀ i φ, φs[i]? = some φ → Knows i φ s.data
  /-- A program that has not arrived knows what it will know first. -/
  coming : ∀ i, φs.length ≤ i → ∀ request, Knows i (first request) s.data

variable {accesses : Accesses A R ω δ} {P : Protocol (LockAction A) (LockAction.Response R) Φ}
  {first : ρ → Φ} {role : Φ → Role} {Inv : δ → Prop} {Knows : ℕ → Φ → δ → Prop}
  {s s' : Guarded δ} {φs : List Φ} {i : ℕ} {φ : Φ}

theorem Holds.arrive (guards : Guards accesses P first role Inv Knows)
    (h : Holds first role Inv Knows s φs) (request : ρ) :
    Holds first role Inv Knows s (φs ++ [first request]) := by
  refine ⟨?_, h.settled, fun i φ at_i => ?_, fun i far => h.coming i ?_⟩
  · rw [List.map_append, List.map_singleton, guards.arrive]
    exact h.lock.arrive
  · rcases of_getElem?_concat at_i with before | ⟨rfl, rfl⟩
    · exact h.knows i φ before
    · exact h.coming _ le_rfl request
  · rw [List.length_append] at far
    omega

theorem Holds.relock (h : Holds first role Inv Knows s φs) {i : ℕ} {ψ : Φ} {l : ReadWriteLock}
    (lock : LockSound l ((φs.map role).set i (role ψ))) (settled : l.writer = false → Inv s.data)
    (knows : Knows i ψ s.data) :
    Holds first role Inv Knows { s with lock := l } (φs.set i ψ) := by
  refine ⟨?_, settled, fun j φ at_j => ?_, fun j far => h.coming j ?_⟩
  · rw [List.map_set]
    exact lock
  · rw [List.getElem?_set] at at_j
    split at at_j
    · next same =>
      split at at_j
      · cases at_j
        exact same ▸ knows
      · cases at_j
    · exact h.knows j φ at_j
  · rwa [List.length_set] at far

theorem Holds.outside (h : Holds first role Inv Knows s φs) {i j : ℕ} {φ ψ : Φ}
    (at_i : φs[i]? = some φ) (writing : role φ = .writing) (at_j : φs[j]? = some ψ)
    (other : j ≠ i) : role ψ = .none ∨ role ψ = .waiting := by
  have roles_i : (φs.map role)[i]? = some .writing := by
    rw [List.getElem?_map, at_i, Option.map_some, writing]
  have writer : s.lock.writer = true := by
    have count := h.lock.writer
    have pos : 0 < (φs.map role).countP Role.isWriting :=
      List.countP_pos_iff.mpr ⟨_, List.mem_of_getElem? roles_i, rfl⟩
    cases hw : s.lock.writer with
    | true => rfl
    | false =>
      rw [hw, if_neg Bool.false_ne_true] at count
      omega
  cases hψ : role ψ with
  | none => exact Or.inl rfl
  | waiting => exact Or.inr rfl
  | reading =>
    have empty := h.lock.exclusive writer
    have count := h.lock.readers
    have pos : 0 < (φs.map role).countP Role.isReading :=
      List.countP_pos_iff.mpr ⟨.reading, List.mem_map.mpr ⟨ψ, List.mem_of_getElem? at_j, hψ⟩, rfl⟩
    omega
  | writing =>
    -- Taking the writer at `i` away still leaves the one at `j`.
    have count := h.lock.writer
    rw [writer, if_pos rfl] at count
    have without := countP_set roles_i Role.isWriting .none
    have kept : ((φs.map role).set i .none)[j]? = some .writing := by
      rw [List.getElem?_set_ne (Ne.symm other), List.getElem?_map, at_j, Option.map_some, hψ]
    have pos : 0 < ((φs.map role).set i .none).countP Role.isWriting :=
      List.countP_pos_iff.mpr ⟨_, List.mem_of_getElem? kept, rfl⟩
    simp only [Role.isWriting, if_true, Bool.false_eq_true, if_false] at without
    omega

theorem Holds.role_at (h : φs[i]? = some φ) : (φs.map role)[i]? = some (role φ) := by
  rw [List.getElem?_map, h]
  rfl

theorem Holds.unwritten (h : Holds first role Inv Knows s φs) (at_i : φs[i]? = some φ)
    (reading : role φ = .reading) : s.lock.writer = false := by
  have count := h.lock.readers
  have pos : 0 < (φs.map role).countP Role.isReading :=
    List.countP_pos_iff.mpr
      ⟨.reading, List.mem_map.mpr ⟨φ, List.mem_of_getElem? at_i, reading⟩, rfl⟩
  cases hw : s.lock.writer with
  | false => rfl
  | true =>
    have empty := h.lock.exclusive hw
    omega

theorem lockSound_tryLockForWrite {l : ReadWriteLock} {roles : List Role} (h : LockSound l roles)
    (at_i : roles[i]? = some .none) :
    LockSound (tryLockForWrite l).2
      (roles.set i (if (tryLockForWrite l).1 then .writing else .none)) := by
  unfold tryLockForWrite
  split
  · change LockSound l (roles.set i .none)
    rw [set_same at_i]
    exact h
  · next unheld =>
    have idle : l.writer = false ∧ l.readers = 0 := by simpa using unheld
    exact h.change at_i rfl rfl (by rw [idle.1]; rfl) fun _ => idle.2

theorem Holds.settled_of_reading (h : Holds first role Inv Knows s φs) (at_i : φs[i]? = some φ)
    (reading : role φ = .reading) : Inv s.data := h.settled (h.unwritten at_i reading)

theorem Holds.look (guards : Guards accesses P first role Inv Knows)
    (h : Holds first role Inv Knows s φs) (at_i : φs[i]? = some φ) {a : A}
    (adm : P.admits φ (.access a)) (reader : role φ ≠ .writing) (outcome : ω) :
    Holds first role Inv Knows { s with data := (accesses i a outcome s.data).2 }
      (φs.set i (P.next φ (.access a) (accesses i a outcome s.data).1)) := by
  have settled : role φ = .reading → Inv s.data := h.settled_of_reading at_i
  have knows := h.knows i φ at_i
  obtain ⟨same, later⟩ := guards.access φ a adm i outcome s.data knows settled
  have data := guards.unchanged φ a adm reader i outcome s.data knows settled
  rw [data] at later ⊢
  refine h.relock (l := s.lock) ?_ h.settled later
  rw [same, set_same (Holds.role_at at_i)]
  exact h.lock

theorem Holds.change (guards : Guards accesses P first role Inv Knows)
    (h : Holds first role Inv Knows s φs) (at_i : φs[i]? = some φ) {a : A}
    (adm : P.admits φ (.access a)) (writing : role φ = .writing) (outcome : ω) :
    Holds first role Inv Knows { s with data := (accesses i a outcome s.data).2 }
      (φs.set i (P.next φ (.access a) (accesses i a outcome s.data).1)) := by
  have settled : role φ = .reading → Inv s.data := fun reading => by
    rw [writing] at reading
    cases reading
  have knows := h.knows i φ at_i
  obtain ⟨same, later⟩ := guards.access φ a adm i outcome s.data knows settled
  have stable := guards.stable φ a adm writing i outcome s.data knows
  have writer : s.lock.writer = true := by
    have count := h.lock.writer
    have pos : 0 < (φs.map role).countP Role.isWriting :=
      List.countP_pos_iff.mpr
        ⟨.writing, List.mem_map.mpr ⟨φ, List.mem_of_getElem? at_i, writing⟩, rfl⟩
    cases hw : s.lock.writer with
    | true => rfl
    | false =>
      rw [hw, if_neg Bool.false_ne_true] at count
      omega
  refine ⟨?_, fun unlocked => ?_, fun j ψ at_j => ?_, fun j far request => ?_⟩
  · rw [List.map_set, same, set_same (Holds.role_at at_i)]
    exact h.lock
  · exact absurd (writer.symm.trans unlocked) (by decide)
  · rw [List.getElem?_set] at at_j
    by_cases mine : i = j
    · subst mine
      rw [if_pos rfl] at at_j
      split at at_j
      · exact Option.some.inj at_j ▸ later
      · cases at_j
    · rw [if_neg mine] at at_j
      exact stable j ψ (Ne.symm mine) (h.outside at_i writing at_j (Ne.symm mine))
        (h.knows j ψ at_j)
  · rw [List.length_set] at far
    have inside := (List.getElem?_eq_some_iff.mp at_i).1
    exact stable j (first request) (by omega) (Or.inl (guards.arrive request))
      (h.coming j far request)

theorem writer_of_lockForRead {l l' : ReadWriteLock} (h : l.lockForRead = some l') :
    l.writer = false := by
  unfold ReadWriteLock.lockForRead at h
  split at h
  · cases h
  · next unheld =>
    simp only [Bool.or_eq_true, not_or, Bool.not_eq_true] at unheld
    exact unheld.1

theorem writer_of_lockForWrite {l l' : ReadWriteLock} (h : l.lockForWrite = some l') :
    l.writer = false ∧ l'.writer = true := by
  unfold ReadWriteLock.lockForWrite at h
  split at h
  · cases h
  · next unheld =>
    cases h
    simp only [Bool.or_eq_true, not_or, Bool.not_eq_true] at unheld
    exact ⟨unheld.1, rfl⟩

theorem Holds.step (guards : Guards accesses P first role Inv Knows)
    (h : Holds first role Inv Knows s φs) (at_i : φs[i]? = some φ) {act : LockAction A}
    {r : act.Response R} {outcome : ω} (adm : P.admits φ act)
    (hs : step accesses i act outcome s = some (r, s')) :
    Holds first role Inv Knows s' (φs.set i (P.next φ act r)) := by
  have role_i : (φs.map role)[i]? = some (role φ) := Holds.role_at at_i
  have knows := h.knows i φ at_i
  cases act with
  | lockForRead =>
    obtain ⟨unheld, reading, later⟩ := guards.lockForRead φ adm
    obtain ⟨l, locked, eq⟩ := Option.map_eq_some_iff.mp hs
    cases eq
    have inv := h.settled (writer_of_lockForRead locked)
    rw [unheld] at role_i
    refine h.relock ?_ (fun _ => inv) (later i s.data inv knows)
    rw [reading]
    exact h.lock.lockForRead role_i locked
  | queueForWrite =>
    obtain ⟨unheld, waiting, later⟩ := guards.queueForWrite φ adm
    cases hs
    rw [unheld] at role_i
    refine h.relock ?_ h.settled (later i s.data knows)
    rw [waiting]
    exact h.lock.queueForWrite role_i
  | lockForWrite =>
    obtain ⟨queued, writing, later⟩ := guards.lockForWrite φ adm
    obtain ⟨l, locked, eq⟩ := Option.map_eq_some_iff.mp hs
    cases eq
    obtain ⟨before, after⟩ := writer_of_lockForWrite locked
    rw [queued] at role_i
    refine h.relock ?_ (fun free => ?_) (later i s.data (h.settled before) knows)
    · rw [writing]
      exact h.lock.lockForWrite role_i locked
    · exact absurd (after.symm.trans free) (by decide)
  | tryLockForWrite =>
    obtain ⟨unheld, writing, outside, taken, missed⟩ := guards.tryLockForWrite φ adm
    cases hs
    rw [unheld] at role_i
    have lock := lockSound_tryLockForWrite h.lock role_i
    cases got : (tryLockForWrite s.lock).1 with
    | true =>
      have before : s.lock.writer = false ∧ (tryLockForWrite s.lock).2.writer = true := by
        unfold tryLockForWrite at got ⊢
        split at got
        · cases got
        · next free =>
          simp only [Bool.or_eq_true, not_or, Bool.not_eq_true] at free
          rw [if_neg (by simpa using free)]
          exact ⟨free.1, rfl⟩
      rw [got, if_pos rfl] at lock
      refine h.relock ?_ (fun free => ?_) (taken i s.data (h.settled before.1) knows)
      · rw [writing]
        exact lock
      · exact absurd (before.2.symm.trans free) (by decide)
    | false =>
      have same : (tryLockForWrite s.lock).2 = s.lock := by
        unfold tryLockForWrite at got ⊢
        split at got
        · next held => rw [if_pos held]
        · cases got
      rw [got, if_neg Bool.false_ne_true] at lock
      rw [same] at lock ⊢
      refine h.relock ?_ h.settled (missed i s.data knows)
      rw [outside]
      exact lock
  | unlock =>
    obtain ⟨inside, outside, later, restored⟩ := guards.unlock φ adm
    cases hs
    rcases inside with reading | writing
    · have inv := h.settled_of_reading at_i reading
      rw [reading] at role_i
      refine h.relock ?_ (fun _ => inv) (later i s.data knows)
      rw [outside]
      exact h.lock.unlockRead role_i
    · rw [writing] at role_i
      refine h.relock ?_ (fun _ => restored writing i s.data knows) (later i s.data knows)
      rw [outside]
      exact h.lock.unlockWrite role_i
  | access a =>
    cases hs
    by_cases writing : role φ = .writing
    · exact h.change guards at_i adm writing outcome
    · exact h.look guards at_i adm writing outcome

section Runs

variable {handler : ρ → Prog (LockAction A) (LockAction.Response R) α} {post : ρ → α → Φ → Prop}

/-- In every run, whatever the interleaving, the programs follow their protocol and
know what their phases say. -/
theorem always_holds (guards : Guards accesses P first role Inv Knows)
    (handlers : ∀ request, P.Follows (first request) (handler request) (post request)) {d : δ}
    (initial : Inv d) (coming : ∀ i request, Knows i (first request) d)
    (moves : List (Move ρ ω)) :
    (system accesses handler).Always
      (fun c => System.Disciplined P first post c ∧
        Holds first role Inv Knows c.shared (System.locals P first c)) ⟨⟨.free, d⟩, []⟩ moves := by
  refine (system accesses handler).always_locals handlers (Holds first role Inv Knows) ?_ ?_
    ⟨.initial, fun _ => initial, nofun, fun i _ => coming i⟩
    ((system accesses handler).eachMove_true _ moves)
  · intro s φs request h
    exact h.arrive guards request
  · intro c i outcome φ act r s at_i _ hstep adm _ h
    exact h.step guards at_i adm hstep

theorem step_isSome {act : LockAction A} {s : Guarded δ}
    (read : act = .lockForRead → s.lock.lockForRead.isSome)
    (write : act = .lockForWrite → s.lock.lockForWrite.isSome) (i : ℕ) (outcome : ω) :
    (GuardedData.step accesses i act outcome s).isSome := by
  cases act with
  | lockForRead => exact (Option.isSome_map ..).trans (read rfl)
  | lockForWrite => exact (Option.isSome_map ..).trans (write rfl)
  | _ => rfl

variable {c : Config (Guarded δ) ρ (LockAction A) (LockAction.Response R) α}

theorem enabled_of_thread {i : ℕ} {t : Thread ρ (LockAction A) (LockAction.Response R) α}
    (at_i : c.threads[i]? = some t) (running : ∀ a, t.code ≠ .ret a)
    (read : ∀ next, t.code = .step .lockForRead next → c.shared.lock.lockForRead.isSome)
    (write : ∀ next, t.code = .step .lockForWrite next → c.shared.lock.lockForWrite.isSome)
    (outcome : ω) : ((system accesses handler).move c (.act i outcome)).isSome := by
  cases code : t.code with
  | ret a => exact absurd code (running a)
  | step act next =>
    have enabled : (GuardedData.step accesses i act outcome c.shared).isSome :=
      step_isSome (fun h => read (h ▸ next) (by subst h; exact code))
        (fun h => write (h ▸ next) (by subst h; exact code)) i outcome
    obtain ⟨⟨r, s⟩, taken⟩ := Option.isSome_iff_exists.mp enabled
    obtain ⟨d, moved, -⟩ := (system accesses handler).move_of_nextAction
      (System.nextAction_eq at_i code) taken
    rw [moved]
    rfl

/-- Whenever a request is unfinished, some request can take its next step: whoever
has the lock waits for nothing, a queued writer only for those, the others only
for both. -/
theorem exists_enabled (guards : Guards accesses P first role Inv Knows)
    (unheld : ∀ request a φ, post request a φ → role φ = .none)
    (disciplined : System.Disciplined P first post c)
    (holds : Holds first role Inv Knows c.shared (System.locals P first c))
    (unfinished : ∃ t ∈ c.threads, ∀ a, t.code ≠ .ret a) (outcome : ω) :
    ∃ i, ((system accesses handler).move c (.act i outcome)).isSome := by
  have running : ∀ t ∈ c.threads, role (System.localState P first t) ≠ .none →
      ∀ a, t.code ≠ .ret a := by
    intro t mem inside a code
    have follows := disciplined t mem
    rw [code] at follows
    exact inside (unheld _ _ _ follows)
  have admitted : ∀ t ∈ c.threads, ∀ act next, t.code = .step act next →
      P.admits (System.localState P first t) act := by
    intro t mem act next code
    have follows := disciplined t mem
    rw [code] at follows
    exact follows.1
  by_cases held : ∃ t ∈ c.threads, role (System.localState P first t) = .reading ∨
      role (System.localState P first t) = .writing
  · obtain ⟨t, mem, inside⟩ := held
    obtain ⟨i, at_i⟩ := List.mem_iff_getElem?.mp mem
    refine ⟨i, enabled_of_thread at_i (running t mem ?_) ?_ ?_ outcome⟩
    · rcases inside with h | h <;> rw [h] <;> decide
    · intro next code
      have outside := (guards.lockForRead _ (admitted t mem _ next code)).1
      rcases inside with h | h <;> rw [h] at outside <;> cases outside
    · intro next code
      have queued := (guards.lockForWrite _ (admitted t mem _ next code)).1
      rcases inside with h | h <;> rw [h] at queued <;> cases queued
  have none_held : ∀ ρ ∈ (System.locals P first c).map role,
      ρ.isReading = false ∧ ρ.isWriting = false := by
    refine List.forall_mem_map.mpr (List.forall_mem_map.mpr fun t mem => ?_)
    have not_held := not_or.mp fun h => held ⟨t, mem, h⟩
    change (role (System.localState P first t)).isReading = false ∧
      (role (System.localState P first t)).isWriting = false
    cases h : role (System.localState P first t) with
    | none => exact ⟨rfl, rfl⟩
    | waiting => exact ⟨rfl, rfl⟩
    | reading => exact absurd h not_held.1
    | writing => exact absurd h not_held.2
  obtain ⟨unread, unwritten⟩ := holds.lock.unheld none_held
  have write : c.shared.lock.lockForWrite.isSome := by
    rw [ReadWriteLock.lockForWrite, unwritten, unread]
    rfl
  by_cases queued : ∃ t ∈ c.threads, role (System.localState P first t) = .waiting
  · obtain ⟨t, mem, waiting⟩ := queued
    obtain ⟨i, at_i⟩ := List.mem_iff_getElem?.mp mem
    refine ⟨i, enabled_of_thread at_i (running t mem (by rw [waiting]; decide)) ?_
      (fun _ _ => write) outcome⟩
    intro next code
    have outside := (guards.lockForRead _ (admitted t mem _ next code)).1
    rw [waiting] at outside
    cases outside
  · obtain ⟨t, mem, unfinished⟩ := unfinished
    obtain ⟨i, at_i⟩ := List.mem_iff_getElem?.mp mem
    have unqueued : c.shared.lock.waiting = 0 := by
      refine holds.lock.waiting.trans (List.countP_eq_zero.mpr ?_)
      refine List.forall_mem_map.mpr (List.forall_mem_map.mpr fun u mem => ?_)
      cases h : role (System.localState P first u) with
      | waiting => exact absurd ⟨u, mem, h⟩ queued
      | _ => decide
    refine ⟨i, enabled_of_thread at_i unfinished (fun _ _ => ?_) (fun _ _ => write) outcome⟩
    rw [ReadWriteLock.lockForRead, unwritten, unqueued]
    rfl

end Runs

end Discipline

end ARCServer.GuardedData
