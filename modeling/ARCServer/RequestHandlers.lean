import ARCServer.EnginePool
import ARCServer.FaceSdk

/-! The three requests of `ARCFaceEngines` as programs over one server: its engine pool,
the memory the features lie in, the two caches with their locks, and the database.
Every place where another request can come in between is an action of its own. -/

namespace ARCServer.RequestHandlers

open InterleavedPrograms EnginePool FaceSdk MachineIntegers

section Server

structure UserModel where
  model : FaceModel
  id : Int
  deriving DecidableEq, Repr

structure GuestModel where
  model : FaceModel
  UserID : Int
  deriving DecidableEq, Repr

/-- A guest and the number of the request that stored it, which no code reads. -/
structure GuestEntry where
  creator : ℕ
  guest : GuestModel
  deriving DecidableEq, Repr

structure UserRow where
  UserID : Int
  LenOfFeature : Int
  UserFeature : List Byte
  deriving DecidableEq, Repr

structure ImportRow where
  UserID : Int
  GateIP : String
  UserType : Int
  deriving DecidableEq, Repr

/-- `QReadWriteLock`: a writer that waits holds back new readers. -/
structure ReadWriteLock where
  readers : ℕ
  writer : Bool
  waiting : ℕ
  deriving DecidableEq, Repr

namespace ReadWriteLock

def free : ReadWriteLock := ⟨0, false, 0⟩

def lockForRead (l : ReadWriteLock) : Option ReadWriteLock :=
  if l.writer || l.waiting != 0 then none else some { l with readers := l.readers + 1 }

def queueForWrite (l : ReadWriteLock) : ReadWriteLock := { l with waiting := l.waiting + 1 }

def lockForWrite (l : ReadWriteLock) : Option ReadWriteLock :=
  if l.writer || l.readers != 0 then none
  else some { l with writer := true, waiting := l.waiting - 1 }

def unlock (l : ReadWriteLock) : ReadWriteLock :=
  if l.writer then { l with writer := false } else { l with readers := l.readers - 1 }

end ReadWriteLock

structure Server where
  pool : Pool
  memory : Memory
  cache : List UserModel
  cache_guest : List GuestEntry
  lock_user : ReadWriteLock
  lock_guest : ReadWriteLock
  userInformation : List UserRow
  userImport : List ImportRow

end Server

section Actions

inductive SdkAction
  | loadFromData (data : List Byte) (format : ImageFormat)
  | stillImageFaceDetection (e : ℕ) (inputImg : OffScreen)
  | extractFRFeature (e : ℕ) (inputImg : OffScreen) (face : FaceInput)
  | uninitialised
  | facePairMatching (e : ℕ) (model localmodel : FaceModel)

abbrev SdkAction.Response : SdkAction → Type
  | .loadFromData _ _ => Option QImage
  | .stillImageFaceDetection _ _ => Detection
  | .extractFRFeature _ _ _ => Extraction
  | .uninitialised => MFloat
  | .facePairMatching _ _ _ => Matching

def SdkAction.answer (outside : Outside) : (a : SdkAction) → Memory → a.Response × Memory
  | .loadFromData _ _, memory => (outside.image, memory)
  | .stillImageFaceDetection _ _, memory => (outside.detection, memory)
  | .extractFRFeature e _ _, memory =>
    (outside.extraction, overwrite e (outside.extraction.buffers outside.scratch) memory)
  | .uninitialised, memory => (outside.uninitialised, memory)
  | .facePairMatching _ _ _, memory => (outside.matching, memory)

inductive DbAction
  | lockUserForRead
  | readCache
  | unlockUser
  | lockGuestForRead
  | readCacheGuest
  | queueGuestForWrite
  | lockGuestForWrite
  | pushGuest (guest : GuestModel)
  | unlockGuest
  | toByteArray (model : FaceModel)
  | updateUser (id lenOfFeature : Int) (userFeature : List Byte)
  | insertImport (id : Int) (userType : Int) (ip : String)

abbrev DbAction.Response : DbAction → Type
  | .readCache => List UserModel
  | .readCacheGuest => List GuestModel
  | .toByteArray _ => List Byte
  | .updateUser _ _ _ => Bool
  | .insertImport _ _ _ => Bool
  | _ => Unit

def updateRows (id lenOfFeature : Int) (userFeature : List Byte) (rows : List UserRow) :
    List UserRow :=
  rows.map fun row =>
    if row.UserID = id then
      { row with LenOfFeature := lenOfFeature, UserFeature := userFeature }
    else row

/-- `i` is the number of the request that acts. A query that is not executed
changes nothing. -/
def DbAction.step (i : ℕ) (outside : Outside) :
    (a : DbAction) → Server → Option (a.Response × Server)
  | .lockUserForRead, s => s.lock_user.lockForRead.map fun l => ((), { s with lock_user := l })
  | .readCache, s => some (s.cache, s)
  | .unlockUser, s => some ((), { s with lock_user := s.lock_user.unlock })
  | .lockGuestForRead, s =>
    s.lock_guest.lockForRead.map fun l => ((), { s with lock_guest := l })
  | .readCacheGuest, s => some (s.cache_guest.map GuestEntry.guest, s)
  | .queueGuestForWrite, s => some ((), { s with lock_guest := s.lock_guest.queueForWrite })
  | .lockGuestForWrite, s =>
    s.lock_guest.lockForWrite.map fun l => ((), { s with lock_guest := l })
  | .pushGuest guest, s => some ((), { s with cache_guest := s.cache_guest ++ [⟨i, guest⟩] })
  | .unlockGuest, s => some ((), { s with lock_guest := s.lock_guest.unlock })
  | .toByteArray model, s => some (bytesOf s.memory model, s)
  | .updateUser id lenOfFeature userFeature, s =>
    some (outside.exec,
      if outside.exec then
        { s with userInformation := updateRows id lenOfFeature userFeature s.userInformation }
      else s)
  | .insertImport id userType ip, s =>
    some (outside.exec,
      if outside.exec then { s with userImport := s.userImport ++ [⟨id, ip, userType⟩] } else s)

inductive Action
  | pool (a : PoolAction)
  | sdk (a : SdkAction)
  | db (a : DbAction)

abbrev Action.Response : Action → Type
  | .pool a => a.Response
  | .sdk a => a.Response
  | .db a => a.Response

def Server.step (i : ℕ) : (a : Action) → Outside → Server → Option (a.Response × Server)
  | .pool a, _, s => (s.pool.step a).map fun (r, pool) => (r, { s with pool })
  | .sdk a, outside, s =>
    some ((a.answer outside s.memory).1, { s with memory := (a.answer outside s.memory).2 })
  | .db a, outside, s => a.step i outside s

end Actions

section Programs

abbrev Handler := Prog Action Action.Response

def onPool (a : PoolAction) : Handler a.Response := perform (Action.pool a)
def callSdk (a : SdkAction) : Handler a.Response := perform (Action.sdk a)
def onDb (a : DbAction) : Handler a.Response := perform (Action.db a)

def popEngineIndex : Handler ℕ := do
  onPool .acquire
  onPool .lock
  let curEngineIndex ← onPool .top
  onPool .pop
  onPool .unlock
  return curEngineIndex

def pushEngineIndex (curEngineIndex : ℕ) : Handler Unit := do
  onPool .lock
  onPool (.push curEngineIndex)
  onPool .unlock
  onPool .release

def getFeature (e : ℕ) (data : List (Option Byte)) (width height : Int) (format : ℕ)
    (localmodel : FaceModel) : Handler (Int × FaceModel) := do
  let inputImg := (getFaceInputImg data width height format).2
  match ← callSdk (.stillImageFaceDetection e inputImg) with
  | .failed _ => return (-1, localmodel)
  | .ok nFace rcFace =>
    if nFace ≠ 1 then
      return (-1, localmodel)
    else
      let extraction ← callSdk (.extractFRFeature e inputImg ⟨rcFace 0, afrFsdkFoc0⟩)
      match extraction with
      | .failed _ _ => return (-1, extraction.model e localmodel)
      | .ok _ _ => return (mok, extraction.model e localmodel)

/-- The return value of `AFR_FSDK_FacePairMatching` is not looked at. -/
def compareFeature (e : ℕ) (model localmodel : FaceModel) : Handler Int := do
  let res ← callSdk .uninitialised
  let matching ← callSdk (.facePairMatching e model localmodel)
  return if (matching.score res).isMatch then 1 else 0

def queryADDonDB (id : Int) (type : Int) (ip : String) : Handler Unit := do
  let _ ← onDb (.insertImport id type ip)
  return ()

/-- Both scan loops of `compareFace`; `ret` is the variable that is set in each round. -/
def scan (e : ℕ) (localmodel : FaceModel) (type : Int) (ip : String) (ret : Int) :
    List (FaceModel × Int) → Handler Int
  | [] => return ret
  | it :: rest => do
    let ret ← compareFeature e it.1 localmodel
    if ret = 1 then
      queryADDonDB it.2 type ip
      return ret
    else scan e localmodel type ip ret rest

def getCache : Handler (List UserModel) := do
  onDb .lockUserForRead
  onDb .readCache

def getCacheGuest : Handler (List GuestModel) := do
  onDb .lockGuestForRead
  onDb .readCacheGuest

def freeUserLock : Handler Unit := onDb .unlockUser

def freeGuestLock : Handler Unit := onDb .unlockGuest

def compareGuests (e : ℕ) (localmodel : FaceModel) (ip : String) : Handler Int := do
  let guestlist ← getCacheGuest
  let ret ← scan e localmodel 2 ip 0 (guestlist.map fun it => (it.model, it.UserID))
  freeGuestLock
  return ret

/-- What `getFeature` returns is not looked at. The result binds as
`User_ret | (Guest_ret == 1)`. -/
def compareFace (data : List Byte) (ip : String) : Handler Int := do
  let curEngineIndex ← popEngineIndex
  match ← callSdk (.loadFromData data .fromHeader) with
  | none =>
    pushEngineIndex curEngineIndex
    return 1
  | some img =>
    let feature ← getFeature curEngineIndex (bmpdata img) img.width img.height
      asvlPafRgb24B8g8r8 FaceModel.zero
    let userlist ← getCache
    let userRet ← scan curEngineIndex feature.2 1 ip 0 (userlist.map fun it => (it.model, it.id))
    freeUserLock
    let guestRet ← if userRet ≠ 1 then compareGuests curEngineIndex feature.2 ip else pure 0
    pushEngineIndex curEngineIndex
    return if userRet.lor (if guestRet = 1 then 1 else 0) ≠ 0 then 0 else 1

/-- `addFeature_User`: the bytes are copied from where the model points to now. -/
def addFeatureUser (model : FaceModel) (id : Int) : Handler Int := do
  let data ← onDb (.toByteArray model)
  if ← onDb (.updateUser id model.lFeatureSize data) then return 0 else return 1

def addFeatureGuest (model : FaceModel) (id : Int) : Handler Int := do
  onDb .queueGuestForWrite
  onDb .lockGuestForWrite
  onDb (.pushGuest ⟨model, id⟩)
  onDb .unlockGuest
  return 0

/-- The engine is given back before the feature is used. -/
def addFeature (data : List Byte) (id : Int) : Handler Int := do
  let curEngineIndex ← popEngineIndex
  match ← callSdk (.loadFromData data .fromHeader) with
  | none =>
    pushEngineIndex curEngineIndex
    return 1
  | some img =>
    let feature ← getFeature curEngineIndex (bmpdata img) img.width img.height
      asvlPafRgb24B8g8r8 FaceModel.zero
    pushEngineIndex curEngineIndex
    if feature.1 = mok then
      let _ ← addFeatureUser feature.2 id
      return 0
    else return 1

def addFeatureG (data : List Byte) (id : Int) : Handler Int := do
  let curEngineIndex ← popEngineIndex
  match ← callSdk (.loadFromData data .jpg) with
  | none =>
    pushEngineIndex curEngineIndex
    return 1
  | some img =>
    let feature ← getFeature curEngineIndex (bmpdata img) img.width img.height
      asvlPafRgb24B8g8r8 FaceModel.zero
    if feature.1 = mok then
      let _ ← addFeatureGuest feature.2 id
      pushEngineIndex curEngineIndex
      return 0
    else
      pushEngineIndex curEngineIndex
      return 1

inductive Request
  | compareFace (data : List Byte) (ip : String)
  | addFeature (data : List Byte) (id : Int)
  | addFeatureG (data : List Byte) (id : Int)
  deriving DecidableEq, Repr

def Request.handler : Request → Handler Int
  | .compareFace data ip => RequestHandlers.compareFace data ip
  | .addFeature data id => RequestHandlers.addFeature data id
  | .addFeatureG data id => RequestHandlers.addFeatureG data id

def arcServer : System Server Outside Request Action Action.Response Int where
  step := Server.step
  handler := Request.handler

end Programs

section Steps

variable {i : ℕ} {outside : Outside} {s s' : Server}

theorem step_pool {a : PoolAction} {r : a.Response}
    (h : arcServer.step i (.pool a) outside s = some (r, s')) :
    ∃ pool, s.pool.step a = some (r, pool) ∧ s' = { s with pool } := by
  obtain ⟨⟨r', pool⟩, hp, same⟩ := Option.map_eq_some_iff.mp h
  cases same
  exact ⟨pool, hp, rfl⟩

theorem step_sdk {a : SdkAction} {r : a.Response}
    (h : arcServer.step i (.sdk a) outside s = some (r, s')) :
    r = (a.answer outside s.memory).1 ∧
      s' = { s with memory := (a.answer outside s.memory).2 } := by
  cases h
  exact ⟨rfl, rfl⟩

structure DbEffect (i : ℕ) (outside : Outside) (a : DbAction) (s s' : Server) : Prop where
  pool : s'.pool = s.pool
  memory : s'.memory = s.memory
  cache : s'.cache = s.cache
  cache_guest : s'.cache_guest = s.cache_guest ∨
    ∃ guest, a = .pushGuest guest ∧ s'.cache_guest = s.cache_guest ++ [⟨i, guest⟩]
  userInformation : s'.userInformation = s.userInformation ∨
    ∃ id len feature, a = .updateUser id len feature ∧ outside.exec = true ∧
      s'.userInformation = updateRows id len feature s.userInformation

theorem step_db {a : DbAction} {r : a.Response}
    (h : arcServer.step i (.db a) outside s = some (r, s')) : DbEffect i outside a s s' := by
  change a.step i outside s = some (r, s') at h
  cases a with
  | lockUserForRead | lockGuestForRead | lockGuestForWrite =>
    obtain ⟨l, -, same⟩ := Option.map_eq_some_iff.mp h
    cases same
    exact ⟨rfl, rfl, rfl, .inl rfl, .inl rfl⟩
  | pushGuest guest =>
    cases h
    exact ⟨rfl, rfl, rfl, .inr ⟨guest, rfl, rfl⟩, .inl rfl⟩
  | updateUser id len feature =>
    cases h
    split
    · next exec => exact ⟨rfl, rfl, rfl, .inl rfl, .inr ⟨id, len, feature, rfl, exec, rfl⟩⟩
    · exact ⟨rfl, rfl, rfl, .inl rfl, .inl rfl⟩
  | insertImport id type ip =>
    cases h
    split <;> exact ⟨rfl, rfl, rfl, .inl rfl, .inl rfl⟩
  | _ =>
    cases h
    exact ⟨rfl, rfl, rfl, .inl rfl, .inl rfl⟩

theorem memory_step {act : Action} {r : act.Response}
    (h : arcServer.step i act outside s = some (r, s')) :
    s'.memory = s.memory ∨ ∃ e inputImg face, act = .sdk (.extractFRFeature e inputImg face) ∧
      s'.memory = overwrite e (outside.extraction.buffers outside.scratch) s.memory := by
  cases act with
  | pool a =>
    obtain ⟨pool, -, rfl⟩ := step_pool h
    exact .inl rfl
  | sdk a =>
    obtain ⟨-, rfl⟩ := step_sdk h
    cases a with
    | extractFRFeature e inputImg face => exact .inr ⟨e, inputImg, face, rfl, rfl⟩
    | _ => exact .inl rfl
  | db a => exact .inl (step_db h).memory

theorem cache_step {act : Action} {r : act.Response}
    (h : arcServer.step i act outside s = some (r, s')) : s'.cache = s.cache := by
  cases act with
  | pool a =>
    obtain ⟨pool, -, rfl⟩ := step_pool h
    rfl
  | sdk a =>
    obtain ⟨-, rfl⟩ := step_sdk h
    rfl
  | db a => exact (step_db h).cache

theorem cache_guest_step {act : Action} {r : act.Response}
    (h : arcServer.step i act outside s = some (r, s')) :
    s'.cache_guest = s.cache_guest ∨ ∃ guest, act = .db (.pushGuest guest) ∧
      s'.cache_guest = s.cache_guest ++ [⟨i, guest⟩] := by
  cases act with
  | pool a =>
    obtain ⟨pool, -, rfl⟩ := step_pool h
    exact .inl rfl
  | sdk a =>
    obtain ⟨-, rfl⟩ := step_sdk h
    exact .inl rfl
  | db a =>
    exact (step_db h).cache_guest.imp_right fun ⟨guest, push, grown⟩ =>
      ⟨guest, congrArg Action.db push, grown⟩

theorem userInformation_step {act : Action} {r : act.Response}
    (h : arcServer.step i act outside s = some (r, s')) :
    s'.userInformation = s.userInformation ∨ ∃ id len feature,
      act = .db (.updateUser id len feature) ∧ outside.exec = true ∧
        s'.userInformation = updateRows id len feature s.userInformation := by
  cases act with
  | pool a =>
    obtain ⟨pool, -, rfl⟩ := step_pool h
    exact .inl rfl
  | sdk a =>
    obtain ⟨-, rfl⟩ := step_sdk h
    exact .inl rfl
  | db a =>
    exact (step_db h).userInformation.imp_right fun ⟨id, len, feature, update, changed⟩ =>
      ⟨id, len, feature, congrArg Action.db update, changed⟩

end Steps

section Kinds

def OnPool : Action → Prop
  | .pool _ => True
  | _ => False

def OnSdk : Action → Prop
  | .sdk _ => True
  | _ => False

theorem uses_onPool (a : PoolAction) : (onPool a).Uses OnPool := uses_perform trivial

theorem uses_callSdk (a : SdkAction) : (callSdk a).Uses OnSdk := uses_perform trivial

theorem uses_popEngineIndex : popEngineIndex.Uses OnPool :=
  uses_bind (uses_onPool _) fun _ => uses_bind (uses_onPool _) fun _ =>
    uses_bind (uses_onPool _) fun _ => uses_bind (uses_onPool _) fun _ =>
      uses_bind (uses_onPool _) fun _ => uses_pure _ _

theorem uses_pushEngineIndex (e : ℕ) : (pushEngineIndex e).Uses OnPool :=
  uses_bind (uses_onPool _) fun _ => uses_bind (uses_onPool _) fun _ =>
    uses_bind (uses_onPool _) fun _ => uses_onPool _

theorem uses_getFeature (e : ℕ) (data : List (Option Byte)) (width height : Int) (format : ℕ)
    (localmodel : FaceModel) : (getFeature e data width height format localmodel).Uses OnSdk := by
  refine uses_bind (uses_callSdk _) fun detection => ?_
  cases detection with
  | failed code => exact uses_pure _ _
  | ok nFace rcFace =>
    dsimp only
    split
    · exact uses_pure _ _
    · refine uses_bind (uses_callSdk _) fun extraction => ?_
      cases extraction <;> exact uses_pure _ _

theorem uses_compareFeature (e : ℕ) (model localmodel : FaceModel) :
    (compareFeature e model localmodel).Uses OnSdk :=
  uses_bind (uses_callSdk _) fun _ => uses_bind (uses_callSdk _) fun _ => uses_pure _ _

end Kinds

end ARCServer.RequestHandlers
