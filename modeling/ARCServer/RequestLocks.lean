import ARCServer.RequestHandlers

/-! The two read-write locks. A lock is sound for the roles that the requests have in it;
a request has a role in at most one of the two, and none while it waits for the pool. -/

namespace ARCServer.RequestLocks

open InterleavedPrograms EnginePool FaceSdk RequestHandlers MachineIntegers

inductive Role
  | none
  | reading
  | waiting
  | writing
  deriving DecidableEq, Repr

def Role.isReading : Role → Bool
  | .reading => true
  | _ => false

def Role.isWaiting : Role → Bool
  | .waiting => true
  | _ => false

def Role.isWriting : Role → Bool
  | .writing => true
  | _ => false

structure LockSound (l : ReadWriteLock) (roles : List Role) : Prop where
  readers : l.readers = roles.countP Role.isReading
  waiting : l.waiting = roles.countP Role.isWaiting
  writer : (if l.writer then 1 else 0) = roles.countP Role.isWriting
  exclusive : l.writer = true → l.readers = 0

section Lock

variable {l l' : ReadWriteLock} {roles : List Role} {i : ℕ}

theorem LockSound.initial : LockSound .free [] := ⟨rfl, rfl, rfl, fun h => Bool.noConfusion h⟩

theorem LockSound.arrive (h : LockSound l roles) : LockSound l (roles ++ [.none]) := by
  refine ⟨?_, ?_, ?_, h.exclusive⟩
  · simpa [Role.isReading] using h.readers
  · simpa [Role.isWaiting] using h.waiting
  · simpa [Role.isWriting] using h.writer

/-- What a change of one role has to do for the lock to stay sound. -/
theorem LockSound.change (h : LockSound l roles) {ρ ρ' : Role} (at_i : roles[i]? = some ρ)
    (readers : l'.readers + (if ρ.isReading then 1 else 0) =
      l.readers + if ρ'.isReading then 1 else 0)
    (waiting : l'.waiting + (if ρ.isWaiting then 1 else 0) =
      l.waiting + if ρ'.isWaiting then 1 else 0)
    (writer : (if l'.writer then 1 else 0) + (if ρ.isWriting then 1 else 0) =
      (if l.writer then 1 else 0) + if ρ'.isWriting then 1 else 0)
    (exclusive : l'.writer = true → l'.readers = 0) : LockSound l' (roles.set i ρ') := by
  have reading := countP_set at_i Role.isReading ρ'
  have queued := countP_set at_i Role.isWaiting ρ'
  have writing := countP_set at_i Role.isWriting ρ'
  have before := h.readers
  have before' := h.waiting
  have before'' := h.writer
  exact ⟨by omega, by omega, by omega, exclusive⟩

theorem LockSound.lockForRead (h : LockSound l roles) (at_i : roles[i]? = some .none)
    (step : l.lockForRead = some l') : LockSound l' (roles.set i .reading) := by
  unfold ReadWriteLock.lockForRead at step
  split at step
  · cases step
  · next unheld =>
    cases step
    have unwritten : l.writer = false := by
      simp only [Bool.or_eq_true, not_or, Bool.not_eq_true] at unheld
      exact unheld.1
    refine h.change at_i rfl rfl rfl fun writer => ?_
    rw [unwritten] at writer
    cases writer

theorem LockSound.queueForWrite (h : LockSound l roles) (at_i : roles[i]? = some .none) :
    LockSound l.queueForWrite (roles.set i .waiting) :=
  h.change at_i rfl rfl rfl h.exclusive

theorem LockSound.lockForWrite (h : LockSound l roles) (at_i : roles[i]? = some .waiting)
    (step : l.lockForWrite = some l') : LockSound l' (roles.set i .writing) := by
  unfold ReadWriteLock.lockForWrite at step
  split at step
  · cases step
  · next unheld =>
    cases step
    have idle : l.writer = false ∧ l.readers = 0 := by simpa using unheld
    have queued : 0 < roles.countP Role.isWaiting :=
      List.countP_pos_iff.mpr ⟨_, List.mem_of_getElem? at_i, rfl⟩
    have before := h.waiting
    refine h.change at_i rfl ?_ ?_ fun _ => idle.2
    · change l.waiting - 1 + 1 = l.waiting + 0
      omega
    · rw [idle.1]
      rfl

theorem LockSound.unlockRead (h : LockSound l roles) (at_i : roles[i]? = some .reading) :
    LockSound l.unlock (roles.set i .none) := by
  have some_reader : 0 < roles.countP Role.isReading :=
    List.countP_pos_iff.mpr ⟨_, List.mem_of_getElem? at_i, rfl⟩
  have before := h.readers
  have unwritten : l.writer = false := by
    cases hw : l.writer with
    | false => rfl
    | true =>
      have empty := h.exclusive hw
      omega
  have unlocked : l.unlock = { l with readers := l.readers - 1 } := by
    rw [ReadWriteLock.unlock, unwritten]
    rfl
  rw [unlocked]
  refine h.change at_i ?_ rfl rfl fun writer => ?_
  · change l.readers - 1 + 1 = l.readers + 0
    omega
  · rw [unwritten] at writer
    cases writer

theorem LockSound.unlockWrite (h : LockSound l roles) (at_i : roles[i]? = some .writing) :
    LockSound l.unlock (roles.set i .none) := by
  have some_writer : 0 < roles.countP Role.isWriting :=
    List.countP_pos_iff.mpr ⟨_, List.mem_of_getElem? at_i, rfl⟩
  have before := h.writer
  have written : l.writer = true := by
    cases hw : l.writer with
    | true => rfl
    | false =>
      rw [hw, if_neg Bool.false_ne_true] at before
      omega
  have unlocked : l.unlock = { l with writer := false } := by
    rw [ReadWriteLock.unlock, written]
    rfl
  rw [unlocked]
  refine h.change at_i rfl rfl ?_ fun writer => Bool.noConfusion writer
  rw [written]
  rfl

theorem LockSound.unheld (h : LockSound l roles)
    (none_held : ∀ ρ ∈ roles, ρ.isReading = false ∧ ρ.isWriting = false) :
    l.readers = 0 ∧ l.writer = false := by
  have no_reader : roles.countP Role.isReading = 0 :=
    List.countP_eq_zero.mpr fun ρ mem => by rw [(none_held ρ mem).1]; decide
  have no_writer : roles.countP Role.isWriting = 0 :=
    List.countP_eq_zero.mpr fun ρ mem => by rw [(none_held ρ mem).2]; decide
  refine ⟨h.readers.trans no_reader, ?_⟩
  have before := h.writer
  cases hw : l.writer with
  | false => rfl
  | true =>
    rw [hw, if_pos rfl] at before
    omega

theorem LockSound.eq_free (h : LockSound l roles) (idle : ∀ ρ ∈ roles, ρ = .none) : l = .free := by
  obtain ⟨unread, unwritten⟩ := h.unheld fun ρ mem => by rw [idle ρ mem]; decide
  have unqueued : l.waiting = 0 := h.waiting.trans
    (List.countP_eq_zero.mpr fun ρ mem => by rw [idle ρ mem]; decide)
  obtain ⟨readers, writer, waiting⟩ := l
  cases unread
  cases unwritten
  cases unqueued
  rfl

end Lock

inductive LockPhase
  | none
  | readsUser
  | readsGuest
  | awaitsGuest
  | writesGuest
  deriving DecidableEq, Repr

namespace LockPhase

def userRole : LockPhase → Role
  | .readsUser => .reading
  | _ => .none

def guestRole : LockPhase → Role
  | .readsGuest => .reading
  | .awaitsGuest => .waiting
  | .writesGuest => .writing
  | _ => .none

def admits : LockPhase → DbAction → Prop
  | φ, .lockUserForRead | φ, .lockGuestForRead | φ, .queueGuestForWrite => φ = .none
  | φ, .unlockUser => φ = .readsUser
  | φ, .lockGuestForWrite => φ = .awaitsGuest
  | φ, .unlockGuest => φ = .readsGuest ∨ φ = .writesGuest
  | _, _ => True

def next : LockPhase → DbAction → LockPhase
  | _, .lockUserForRead => .readsUser
  | _, .lockGuestForRead => .readsGuest
  | _, .queueGuestForWrite => .awaitsGuest
  | _, .lockGuestForWrite => .writesGuest
  | _, .unlockUser | _, .unlockGuest => .none
  | φ, _ => φ

end LockPhase

/-- The protocol of the locks: the pool is left alone while a lock is held. -/
def locking : Protocol Action Action.Response LockPhase where
  admits
    | φ, .pool _ => φ = .none
    | _, .sdk _ => True
    | φ, .db a => φ.admits a
  next
    | φ, .pool _, _ => φ
    | φ, .sdk _, _ => φ
    | φ, .db a, _ => φ.next a

section Handlers

def Lockless : Action → Prop
  | .pool _ => False
  | .sdk _ => True
  | .db a =>
    match a with
    | .readCache | .readCacheGuest | .pushGuest _ | .toByteArray _ | .updateUser _ _ _
    | .insertImport _ _ _ => True
    | .lockUserForRead | .unlockUser | .lockGuestForRead | .queueGuestForWrite
    | .lockGuestForWrite | .unlockGuest => False

theorem lockless_of_onSdk (act : Action) (h : OnSdk act) : Lockless act := by
  cases act with
  | pool a => cases h
  | sdk a => exact trivial
  | db a => cases h

theorem uses_queryADDonDB (id type : Int) (ip : String) :
    (queryADDonDB id type ip).Uses Lockless :=
  uses_bind (uses_perform trivial) fun _ => uses_pure _ _

theorem uses_scan (e : ℕ) (localmodel : FaceModel) (type : Int) (ip : String) (ret : Int)
    (list : List (FaceModel × Int)) : (scan e localmodel type ip ret list).Uses Lockless := by
  induction list generalizing ret with
  | nil => exact uses_pure _ _
  | cons it rest ih =>
    refine uses_bind ((uses_compareFeature e it.1 localmodel).mono lockless_of_onSdk) fun ret => ?_
    split
    · exact uses_bind (uses_queryADDonDB _ _ _) fun _ => uses_pure _ _
    · exact ih ret

theorem uses_addFeatureUser (model : FaceModel) (id : Int) :
    (addFeatureUser model id).Uses Lockless := by
  refine uses_bind (uses_perform trivial) fun data =>
    uses_bind (uses_perform trivial) fun done => ?_
  split <;> exact uses_pure _ _

variable {φ : LockPhase} {α : Type} {p : Handler α} {post : α → LockPhase → Prop}

theorem follows_onPool (uses : p.Uses OnPool) (h : ∀ a, post a .none) :
    locking.Follows .none p post := by
  refine Protocol.follows_of_uses uses (fun act kind => ?_) h
  cases act with
  | pool a => exact ⟨rfl, fun _ => rfl⟩
  | sdk a => cases kind
  | db a => cases kind

theorem follows_lockless (uses : p.Uses Lockless) (h : ∀ a, post a φ) :
    locking.Follows φ p post := by
  refine Protocol.follows_of_uses uses (fun act kind => ?_) h
  cases act with
  | pool a => cases kind
  | sdk a => exact ⟨trivial, fun _ => rfl⟩
  | db a => cases a <;> first | exact ⟨trivial, fun _ => rfl⟩ | cases kind

theorem follows_pool_giveUp (e : ℕ) (ret : Int) :
    locking.Follows .none (do pushEngineIndex e; return ret) fun _ φ => φ = .none :=
  (locking.follows_bind ..).mpr (follows_onPool (uses_pushEngineIndex e) fun _ => rfl)

theorem locking_compareGuests (e : ℕ) (localmodel : FaceModel) (ip : String)
    {post : Int → LockPhase → Prop} (h : ∀ ret, post ret .none) :
    locking.Follows .none (compareGuests e localmodel ip) post := by
  simp only [compareGuests, getCacheGuest, freeGuestLock, onDb, Protocol.follows_bind,
    Protocol.follows_perform, Protocol.follows_pure]
  exact ⟨rfl, fun _ => ⟨trivial, fun _ => follows_lockless (uses_scan _ _ _ _ _ _) fun ret =>
    ⟨.inl rfl, fun _ => h ret⟩⟩⟩

theorem locking_compareFace (bytes : List Byte) (ip : String) :
    locking.Follows .none (compareFace bytes ip) fun _ φ => φ = .none := by
  simp only [compareFace, callSdk, Protocol.follows_bind, Protocol.follows_perform]
  refine follows_onPool uses_popEngineIndex fun e => ⟨trivial, fun image => ?_⟩
  cases image with
  | none => exact follows_pool_giveUp e 1
  | some img =>
    dsimp only
    rw [Protocol.follows_bind]
    refine follows_lockless ((uses_getFeature _ _ _ _ _ _).mono lockless_of_onSdk) fun feature => ?_
    simp only [getCache, freeUserLock, onDb, Protocol.follows_bind, Protocol.follows_perform]
    refine ⟨rfl, fun _ => ⟨trivial, fun userlist =>
      follows_lockless (uses_scan _ _ _ _ _ _) fun userRet => ⟨rfl, fun _ => ?_⟩⟩⟩
    split
    · exact (locking.follows_bind ..).mpr (locking_compareGuests _ _ _ fun guestRet =>
        (locking.follows_bind ..).mpr (follows_onPool (uses_pushEngineIndex e) fun _ => rfl))
    · simp only [Protocol.follows_bind, Protocol.follows_pure]
      exact follows_onPool (uses_pushEngineIndex e) fun _ => rfl

theorem locking_addFeature (bytes : List Byte) (id : Int) :
    locking.Follows .none (addFeature bytes id) fun _ φ => φ = .none := by
  simp only [addFeature, callSdk, Protocol.follows_bind, Protocol.follows_perform]
  refine follows_onPool uses_popEngineIndex fun e => ⟨trivial, fun image => ?_⟩
  cases image with
  | none => exact follows_pool_giveUp e 1
  | some img =>
    dsimp only
    simp only [Protocol.follows_bind]
    refine follows_lockless ((uses_getFeature _ _ _ _ _ _).mono lockless_of_onSdk) fun feature =>
      follows_onPool (uses_pushEngineIndex e) fun _ => ?_
    split
    · exact (locking.follows_bind ..).mpr (follows_lockless (uses_addFeatureUser _ _) fun _ => rfl)
    · rfl

theorem locking_addFeatureG (bytes : List Byte) (id : Int) :
    locking.Follows .none (addFeatureG bytes id) fun _ φ => φ = .none := by
  simp only [addFeatureG, callSdk, Protocol.follows_bind, Protocol.follows_perform]
  refine follows_onPool uses_popEngineIndex fun e => ⟨trivial, fun image => ?_⟩
  cases image with
  | none => exact follows_pool_giveUp e 1
  | some img =>
    dsimp only
    rw [Protocol.follows_bind]
    refine follows_lockless ((uses_getFeature _ _ _ _ _ _).mono lockless_of_onSdk) fun feature => ?_
    split
    · simp only [addFeatureGuest, onDb, Protocol.follows_bind, Protocol.follows_perform,
        Protocol.follows_pure]
      exact ⟨rfl, fun _ => ⟨rfl, fun _ => ⟨trivial, fun _ => ⟨.inr rfl, fun _ =>
        follows_onPool (uses_pushEngineIndex e) fun _ => rfl⟩⟩⟩⟩
    · exact follows_pool_giveUp e 1

theorem locking_handler (request : Request) :
    locking.Follows .none request.handler fun _ φ => φ = .none := by
  cases request with
  | compareFace bytes ip => exact locking_compareFace bytes ip
  | addFeature bytes id => exact locking_addFeature bytes id
  | addFeatureG bytes id => exact locking_addFeatureG bytes id

end Handlers

section Steps

structure LocksSound (s : Server) (φs : List LockPhase) : Prop where
  user : LockSound s.lock_user (φs.map LockPhase.userRole)
  guest : LockSound s.lock_guest (φs.map LockPhase.guestRole)

variable {s s' : Server} {φs : List LockPhase} {i : ℕ} {φ ψ : LockPhase}

theorem role_at (at_i : φs[i]? = some φ) (role : LockPhase → Role) :
    (φs.map role)[i]? = some (role φ) := by
  rw [List.getElem?_map, at_i]
  rfl

theorem roles_same (at_i : φs[i]? = some φ) {role : LockPhase → Role} (same : role φ = role ψ) :
    (φs.set i ψ).map role = φs.map role := by
  rw [List.map_set, ← same, set_same (role_at at_i role)]

theorem LocksSound.user_step (h : LocksSound s φs) (at_i : φs[i]? = some φ) {l : ReadWriteLock}
    (user : LockSound l ((φs.map LockPhase.userRole).set i ψ.userRole))
    (guest : φ.guestRole = ψ.guestRole) : LocksSound { s with lock_user := l } (φs.set i ψ) := by
  refine ⟨?_, ?_⟩
  · rw [List.map_set]
    exact user
  · rw [roles_same at_i guest]
    exact h.guest

theorem LocksSound.guest_step (h : LocksSound s φs) (at_i : φs[i]? = some φ) {l : ReadWriteLock}
    (guest : LockSound l ((φs.map LockPhase.guestRole).set i ψ.guestRole))
    (user : φ.userRole = ψ.userRole) : LocksSound { s with lock_guest := l } (φs.set i ψ) := by
  refine ⟨?_, ?_⟩
  · rw [roles_same at_i user]
    exact h.user
  · rw [List.map_set]
    exact guest

theorem LocksSound.same (h : LocksSound s φs) (at_i : φs[i]? = some φ)
    (user : s'.lock_user = s.lock_user) (guest : s'.lock_guest = s.lock_guest) :
    LocksSound s' (φs.set i φ) := by
  rw [set_same at_i]
  exact ⟨user ▸ h.user, guest ▸ h.guest⟩

theorem LocksSound.step (h : LocksSound s φs) {act : Action} {r : act.Response} {outside : Outside}
    (at_i : φs[i]? = some φ) (adm : locking.admits φ act)
    (hs : arcServer.step i act outside s = some (r, s')) :
    LocksSound s' (φs.set i (locking.next φ act r)) := by
  cases act with
  | pool a =>
    obtain ⟨pool, -, rfl⟩ := step_pool hs
    exact h.same at_i rfl rfl
  | sdk a =>
    obtain ⟨-, rfl⟩ := step_sdk hs
    exact h.same at_i rfl rfl
  | db a =>
    change a.step i outside s = some (r, s') at hs
    cases a with
    | lockUserForRead =>
      obtain ⟨l, locked, same⟩ := Option.map_eq_some_iff.mp hs
      cases same
      cases (adm : φ = .none)
      exact h.user_step at_i (h.user.lockForRead (role_at at_i _) locked) rfl
    | unlockUser =>
      cases hs
      cases (adm : φ = .readsUser)
      exact h.user_step at_i (h.user.unlockRead (role_at at_i _)) rfl
    | lockGuestForRead =>
      obtain ⟨l, locked, same⟩ := Option.map_eq_some_iff.mp hs
      cases same
      cases (adm : φ = .none)
      exact h.guest_step at_i (h.guest.lockForRead (role_at at_i _) locked) rfl
    | queueGuestForWrite =>
      cases hs
      cases (adm : φ = .none)
      exact h.guest_step at_i (h.guest.queueForWrite (role_at at_i _)) rfl
    | lockGuestForWrite =>
      obtain ⟨l, locked, same⟩ := Option.map_eq_some_iff.mp hs
      cases same
      cases (adm : φ = .awaitsGuest)
      exact h.guest_step at_i (h.guest.lockForWrite (role_at at_i _) locked) rfl
    | unlockGuest =>
      cases hs
      rcases (adm : φ = .readsGuest ∨ φ = .writesGuest) with reads | writes
      · cases reads
        exact h.guest_step at_i (h.guest.unlockRead (role_at at_i _)) rfl
      · cases writes
        exact h.guest_step at_i (h.guest.unlockWrite (role_at at_i _)) rfl
    | updateUser id len feature =>
      cases hs
      refine h.same at_i ?_ ?_ <;> split <;> rfl
    | insertImport id type ip =>
      cases hs
      refine h.same at_i ?_ ?_ <;> split <;> rfl
    | _ =>
      cases hs
      exact h.same at_i rfl rfl

theorem LocksSound.arrive (h : LocksSound s φs) : LocksSound s (φs ++ [.none]) := by
  refine ⟨?_, ?_⟩
  · rw [List.map_append]
    exact h.user.arrive
  · rw [List.map_append]
    exact h.guest.arrive

end Steps

end ARCServer.RequestLocks
