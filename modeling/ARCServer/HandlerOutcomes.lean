import ARCServer.ProgramsAlone
import ARCServer.RequestHandlers

/-! What the parts of the three handlers come to when one request has the server for
itself. A request that waits for a permit or a lock which nobody gives back comes to
nothing. -/

namespace ARCServer.HandlerOutcomes

open InterleavedPrograms ProgramsAlone EnginePool FaceSdk RequestHandlers MachineIntegers

abbrev Events := List (Event Action Action.Response)

abbrev onServer (i : ℕ) (allowed : Action → Outside → Server → Prop) :
    World Server Outside Action Action.Response := alone arcServer i allowed

/-- Nothing was asked of the database, its caches or their locks. -/
def OffDb (past : Events) : Prop := ∀ event ∈ past, ∀ a, event.act ≠ .db a

theorem OffDb.append {past later : Events} (h : OffDb past) (h' : OffDb later) :
    OffDb (past ++ later) := List.forall_mem_append.mpr ⟨h, h'⟩

theorem OffDb.filterMap_eq_nil {β : Type} {past : Events} (h : OffDb past)
    {f : Event Action Action.Response → Option β} (pool : ∀ a answer, f ⟨.pool a, answer⟩ = none)
    (sdk : ∀ a answer, f ⟨.sdk a, answer⟩ = none) : past.filterMap f = [] := by
  refine List.filterMap_eq_nil_iff.mpr fun event mem => ?_
  obtain ⟨act, answer⟩ := event
  cases act with
  | pool a => exact pool a answer
  | sdk a => exact sdk a answer
  | db a => exact absurd rfl (h _ mem a)

variable {i : ℕ} {allowed : Action → Outside → Server → Prop} {s t : Server}

section Pool

theorem ensures_onPool {a : PoolAction} {post : Events → a.Response → Server → Prop}
    (h : ∀ r pool, s.pool.step a = some (r, pool) → post [⟨.pool a, r⟩] r { s with pool }) :
    (onServer i allowed).Ensures (onPool a) s post := by
  intro outside r s' _ taken
  have step : arcServer.step i (.pool a) outside s = some (r, s') := taken
  obtain ⟨pool, moved, rfl⟩ := step_pool step
  exact h r pool moved

theorem ensures_popEngineIndex {post : Events → ℕ → Server → Prop}
    (h : ∀ sem e rest past, s.pool = ⟨sem + 1, false, e :: rest⟩ → OffDb past →
      post past e { s with pool := ⟨sem, false, rest⟩ }) :
    (onServer i allowed).Ensures popEngineIndex s post := by
  simp only [popEngineIndex, World.ensures_bind, World.ensures_pure]
  refine ensures_onPool fun _ acquired acquire => ensures_onPool fun _ locked lock =>
    ensures_onPool fun e seen top => ensures_onPool fun _ popped pop =>
      ensures_onPool fun _ unlocked unlock => ?_
  obtain ⟨permits, rfl⟩ := step_acquire acquire
  obtain ⟨free, rfl⟩ := step_lock lock
  obtain ⟨head, rfl⟩ := step_top top
  obtain ⟨e', rest, stack, rfl⟩ := step_pop pop
  cases unlock
  rw [stack, List.head?_cons] at head
  cases head
  have mutex : s.pool.mutex = false := free
  have poll : s.pool.enginespoll = e :: rest := stack
  obtain ⟨sem, more⟩ := Nat.exists_eq_add_one_of_ne_zero permits
  have whole : s.pool = ⟨sem + 1, false, e :: rest⟩ := by
    rw [← more, ← mutex, ← poll]
  obtain rfl : s.pool.sem - 1 = sem := by rw [more, Nat.add_sub_cancel]
  exact h _ e rest _ whole (by simp [OffDb])

theorem ensures_pushEngineIndex {sem e : ℕ} {rest : List ℕ}
    {post : Events → Unit → Server → Prop} (taken : t.pool = ⟨sem, false, rest⟩)
    (h : ∀ past, OffDb past → post past () { t with pool := ⟨sem + 1, false, e :: rest⟩ }) :
    (onServer i allowed).Ensures (pushEngineIndex e) t post := by
  simp only [pushEngineIndex, World.ensures_bind]
  refine ensures_onPool fun _ locked lock => ensures_onPool fun _ pushed push =>
    ensures_onPool fun _ unlocked unlock => ensures_onPool fun _ released release => ?_
  obtain ⟨-, rfl⟩ := step_lock lock
  cases push
  cases unlock
  cases release
  rw [taken]
  exact h _ (by simp [OffDb])

end Pool

section Locks

theorem unlock_of_lockForRead {l l' : ReadWriteLock} (h : l.lockForRead = some l') :
    l'.unlock = l := by
  unfold ReadWriteLock.lockForRead at h
  split at h
  · cases h
  · next free =>
    cases h
    rw [Bool.or_eq_true, not_or] at free
    rw [ReadWriteLock.unlock, if_neg free.1]
    rfl

theorem unlock_of_lockForWrite {l l' : ReadWriteLock}
    (h : l.queueForWrite.lockForWrite = some l') : l'.unlock = l := by
  unfold ReadWriteLock.lockForWrite at h
  split at h
  · cases h
  · next free =>
    cases h
    simp only [ReadWriteLock.queueForWrite, Bool.or_eq_true, not_or, bne_iff_ne, ne_eq,
      Decidable.not_not, Bool.not_eq_true] at free
    rw [ReadWriteLock.unlock, if_pos rfl, ReadWriteLock.queueForWrite]
    rw [← free.1]
    rfl

theorem ensures_getCache {post : Events → List UserModel → Server → Prop}
    (h : ∀ l, s.lock_user.lockForRead = some l →
      post [⟨.db .lockUserForRead, ()⟩, ⟨.db .readCache, s.cache⟩] s.cache
        { s with lock_user := l }) :
    (onServer i allowed).Ensures getCache s post := by
  rw [getCache, World.ensures_bind]
  intro _ _ locked _ lock _ _ read _ taken
  obtain ⟨l, free, same⟩ := Option.map_eq_some_iff.mp lock
  cases same
  cases taken
  exact h l free

theorem ensures_freeUserLock {post : Events → Unit → Server → Prop}
    (h : post [⟨.db .unlockUser, ()⟩] () { s with lock_user := s.lock_user.unlock }) :
    (onServer i allowed).Ensures freeUserLock s post := by
  intro _ _ _ _ taken
  cases taken
  exact h

theorem ensures_getCacheGuest {post : Events → List GuestModel → Server → Prop}
    (h : ∀ l, s.lock_guest.lockForRead = some l →
      post [⟨.db .lockGuestForRead, ()⟩,
        ⟨.db .readCacheGuest, s.cache_guest.map GuestEntry.guest⟩]
        (s.cache_guest.map GuestEntry.guest) { s with lock_guest := l }) :
    (onServer i allowed).Ensures getCacheGuest s post := by
  rw [getCacheGuest, World.ensures_bind]
  intro _ _ locked _ lock _ _ read _ taken
  obtain ⟨l, free, same⟩ := Option.map_eq_some_iff.mp lock
  cases same
  cases taken
  exact h l free

theorem ensures_freeGuestLock {post : Events → Unit → Server → Prop}
    (h : post [⟨.db .unlockGuest, ()⟩] () { s with lock_guest := s.lock_guest.unlock }) :
    (onServer i allowed).Ensures freeGuestLock s post := by
  intro _ _ _ _ taken
  cases taken
  exact h

end Locks

section Database

theorem ensures_queryADDonDB {id type : Int} {ip : String} {post : Events → Unit → Server → Prop}
    (h : ∀ exec, post [⟨.db (.insertImport id type ip), exec⟩] ()
      { s with userImport := s.userImport ++ if exec then [⟨id, ip, type⟩] else [] }) :
    (onServer i allowed).Ensures (queryADDonDB id type ip) s post := by
  intro outside _ _ _ taken
  cases taken
  cases outside.exec with
  | true => exact h true
  | false =>
    have unchanged := h false
    rw [if_neg Bool.false_ne_true, List.append_nil] at unchanged
    exact unchanged

theorem ensures_addFeatureUser {model : FaceModel} {id : Int} {data : List Byte}
    {post : Events → Int → Server → Prop} (copied : bytesOf s.memory model = data)
    (h : ∀ outside : Outside, allowed (.db (.updateUser id model.lFeatureSize data)) outside s →
      post [⟨.db (.toByteArray model), data⟩,
        ⟨.db (.updateUser id model.lFeatureSize data), outside.exec⟩]
        (if outside.exec then 0 else 1)
        { s with userInformation :=
          if outside.exec then updateRows id model.lFeatureSize data s.userInformation
          else s.userInformation }) :
    (onServer i allowed).Ensures (addFeatureUser model id) s post := by
  subst copied
  intro _ _ _ _ copy outside _ _ allow taken
  cases copy
  cases taken
  have updated := h outside allow
  cases exec : outside.exec with
  | false =>
    rw [exec] at updated
    exact updated
  | true =>
    rw [exec] at updated
    exact updated

theorem ensures_addFeatureGuest {model : FaceModel} {id : Int} {post : Events → Int → Server → Prop}
    (h : ∀ past, post past 0 { s with cache_guest := s.cache_guest ++ [⟨i, ⟨model, id⟩⟩] }) :
    (onServer i allowed).Ensures (addFeatureGuest model id) s post := by
  intro _ _ _ _ queue _ _ _ _ lock _ _ _ _ push _ _ _ _ unlock
  cases queue
  obtain ⟨l, free, same⟩ := Option.map_eq_some_iff.mp lock
  cases same
  cases push
  cases unlock
  dsimp only
  rw [unlock_of_lockForWrite free]
  exact h _

end Database

section Sdk

theorem ensures_callSdk {a : SdkAction} {post : Events → a.Response → Server → Prop}
    (h : ∀ outside, allowed (.sdk a) outside s →
      post [⟨.sdk a, (a.answer outside s.memory).1⟩] (a.answer outside s.memory).1
        { s with memory := (a.answer outside s.memory).2 }) :
    (onServer i allowed).Ensures (callSdk a) s post := by
  intro outside _ _ allow taken
  cases taken
  exact h outside allow

theorem ensures_decoded {data : List Byte} {format : ImageFormat}
    {next : ℕ → Option QImage → Handler Int} {post : Events → Int → Server → Prop}
    (undecoded : ∀ e, next e none = (do pushEngineIndex e; return 1))
    (refused : ∀ outside t past, allowed (.sdk (.loadFromData data format)) outside t →
      outside.image = none → OffDb past → post past 1 s)
    (decoded : ∀ outside t img sem e stack past,
      allowed (.sdk (.loadFromData data format)) outside t → outside.image = some img →
      s.pool = ⟨sem + 1, false, e :: stack⟩ → OffDb past →
      ⟨.sdk (.loadFromData data format), some img⟩ ∈ past →
      (onServer i allowed).Ensures (next e (some img)) { s with pool := ⟨sem, false, stack⟩ }
        fun later ret s' => post (past ++ later) ret s') :
    (onServer i allowed).Ensures
      (do
        let e ← popEngineIndex
        let image ← callSdk (.loadFromData data format)
        next e image) s post := by
  rw [World.ensures_bind]
  refine ensures_popEngineIndex fun sem e stack pops pool popped => ?_
  rw [World.ensures_bind]
  refine ensures_callSdk fun outside allow => ?_
  dsimp only [SdkAction.answer]
  cases image : outside.image with
  | none =>
    rw [undecoded, World.ensures_bind]
    refine ensures_pushEngineIndex rfl fun pushes pushed => ?_
    rw [← pool]
    refine refused outside _ _ allow image (popped.append (.append ?_ (.append pushed ?_)))
    · simp [OffDb]
    · simp [OffDb]
  | some img =>
    have quiet : OffDb (pops ++ [⟨.sdk (.loadFromData data format), some img⟩]) :=
      popped.append (by simp [OffDb])
    have rest := decoded outside _ img sem e stack _ allow image pool quiet
      (List.mem_append_right _ (List.mem_singleton_self _))
    refine rest.mono fun later ret s' h => ?_
    rwa [List.append_assoc] at h

/-- A feature is only extracted if exactly one face was found. -/
theorem ensures_getFeature {e : ℕ} {data : List (Option Byte)} {width height : Int} {format : ℕ}
    {localmodel : FaceModel} {inputImg : OffScreen}
    (described : (getFaceInputImg data width height format).2 = inputImg)
    {post : Events → Int × FaceModel → Server → Prop}
    (refused : ∀ outside past model memory, OffDb past →
      allowed (.sdk (.stillImageFaceDetection e inputImg)) outside s ∧
          (∀ rcFace, outside.detection ≠ .ok 1 rcFace) ∨
        (∃ face, allowed (.sdk (.extractFRFeature e inputImg face)) outside s) ∧
          (∀ slot bytes, outside.extraction ≠ .ok slot bytes) →
      post past (-1, model) { s with memory })
    (extracted : ∀ found rcFace outside slot bytes,
      allowed (.sdk (.stillImageFaceDetection e inputImg)) found s →
      found.detection = .ok 1 rcFace →
      allowed (.sdk (.extractFRFeature e inputImg ⟨rcFace 0, afrFsdkFoc0⟩)) outside s →
      outside.extraction = .ok slot bytes →
      post [⟨.sdk (.stillImageFaceDetection e inputImg), .ok 1 rcFace⟩,
        ⟨.sdk (.extractFRFeature e inputImg ⟨rcFace 0, afrFsdkFoc0⟩), .ok slot bytes⟩]
        (mok, ⟨.engine e slot, bytes.length⟩)
        { s with
          memory := overwrite e ((Extraction.ok slot bytes).buffers outside.scratch) s.memory }) :
    (onServer i allowed).Ensures (getFeature e data width height format localmodel) s post := by
  subst described
  rw [getFeature, World.ensures_bind]
  refine ensures_callSdk fun found allow => ?_
  dsimp only [SdkAction.answer]
  cases detection : found.detection with
  | failed code =>
    exact refused found _ _ s.memory (by simp [OffDb]) (.inl ⟨allow, by simp [detection]⟩)
  | ok nFace rcFace =>
    dsimp only
    split
    · next several =>
      refine refused found _ _ s.memory (by simp [OffDb]) (.inl ⟨allow, ?_⟩)
      simp [detection, several]
    · next one =>
      rw [not_not] at one
      subst one
      rw [World.ensures_bind]
      refine ensures_callSdk fun outside allow' => ?_
      dsimp only [SdkAction.answer]
      cases extraction : outside.extraction with
      | failed code written =>
        refine refused outside _ _ _ (by simp [OffDb]) (.inr ⟨⟨_, allow'⟩, ?_⟩)
        simp [extraction]
      | ok slot bytes =>
        exact extracted found rcFace outside slot bytes allow detection allow' extraction

def Compared (allowed : Action → Outside → Server → Prop) (s : Server) (e : ℕ)
    (model localmodel : FaceModel) (accepted : Bool) : Prop :=
  ∃ before outside, allowed (.sdk .uninitialised) before s ∧
    allowed (.sdk (.facePairMatching e model localmodel)) outside s ∧
    (outside.matching.score before.uninitialised).isMatch = accepted

theorem ensures_compareFeature {e : ℕ} {model localmodel : FaceModel}
    {post : Events → Int → Server → Prop}
    (h : ∀ past accepted, OffDb past → Compared allowed s e model localmodel accepted →
      post past (if accepted then 1 else 0) s) :
    (onServer i allowed).Ensures (compareFeature e model localmodel) s post := by
  rw [compareFeature, World.ensures_bind]
  refine ensures_callSdk fun before allow => ?_
  rw [World.ensures_bind]
  refine ensures_callSdk fun outside allow' => ?_
  exact h _ _ (by simp [OffDb]) ⟨before, outside, allow, allow', rfl⟩

/-- A scan stops at the first entry that matches, and logs it. -/
theorem ensures_scan {e : ℕ} {localmodel : FaceModel} {type : Int} {ip : String}
    {list : List (FaceModel × Int)} {post : Events → Int → Server → Prop}
    (missed : ∀ past, OffDb past → (∀ it ∈ list, Compared allowed s e it.1 localmodel false) →
      post past 0 s)
    (hit : ∀ first it rest past exec, list = first ++ it :: rest → OffDb past →
      (∀ it ∈ first, Compared allowed s e it.1 localmodel false) →
      Compared allowed s e it.1 localmodel true →
      post (past ++ [⟨.db (.insertImport it.2 type ip), exec⟩]) 1
        { s with userImport := s.userImport ++ if exec then [⟨it.2, ip, type⟩] else [] }) :
    (onServer i allowed).Ensures (scan e localmodel type ip 0 list) s post := by
  induction list generalizing post with
  | nil => exact missed [] (by simp [OffDb]) (by simp)
  | cons it rest ih =>
    rw [scan, World.ensures_bind]
    refine ensures_compareFeature fun past accepted calls compared => ?_
    cases accepted with
    | true =>
      rw [if_pos rfl, if_pos rfl, World.ensures_bind]
      refine ensures_queryADDonDB fun exec => ?_
      exact hit [] it rest past exec rfl calls nofun compared
    | false =>
      rw [if_neg Bool.false_ne_true, if_neg (by decide)]
      refine ih (fun later more none => ?_)
        fun first hit' rest' later exec split more none found => ?_
      · exact missed _ (calls.append more) (List.forall_mem_cons.mpr ⟨compared, none⟩)
      · rw [← List.append_assoc]
        exact hit (it :: first) hit' rest' _ exec (congrArg _ split) (calls.append more)
          (List.forall_mem_cons.mpr ⟨compared, none⟩) found

end Sdk

def idleServer : Server :=
  ⟨(startEngines (fun _ => 0) Pool.fresh).2, fun _ _ => 0, [], [], .free, .free, [], []⟩

end ARCServer.HandlerOutcomes
