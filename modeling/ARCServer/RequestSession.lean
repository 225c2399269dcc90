import ARCServer.RequestHandlers

/-! What a request has done so far, as far as other requests are concerned: its engine,
the image it decoded, the feature extracted from it and the copy made of that. Every
request acts within its session, whatever the SDK and the database answer. -/

namespace ARCServer.RequestSession

open InterleavedPrograms EnginePool FaceSdk RequestHandlers MachineIntegers

structure Feature where
  engine : ℕ
  slot : ℕ
  bytes : List Byte
  deriving DecidableEq, Repr

def Feature.model (f : Feature) : FaceModel := ⟨.engine f.engine f.slot, f.bytes.length⟩

structure Session where
  request : Request
  phase : Phase
  image : Option QImage
  feature : Option Feature
  copied : Option (List Byte)
  deriving DecidableEq, Repr

def Session.start (request : Request) : Session := ⟨request, .idle, none, none, none⟩

def data : Request → List Byte
  | .compareFace data _ | .addFeature data _ | .addFeatureG data _ => data

def Session.admitsPool (φ : Session) (a : PoolAction) : Prop :=
  φ.phase.admits a ∧ (a = .pop → φ.feature = none)

def Session.admitsSdk (φ : Session) : SdkAction → Prop
  | .loadFromData bytes _ => bytes = data φ.request ∧ φ.feature = none
  | .extractFRFeature e inputImg _ =>
    φ.phase = .holding e ∧ φ.feature = none ∧ φ.image.map faceInputImg = some inputImg
  | _ => True

def Session.admitsDb (φ : Session) : DbAction → Prop
  | .toByteArray model =>
    (∃ bytes id, φ.request = .addFeature bytes id) ∧
      φ.feature.map Feature.model = some model ∧ φ.copied = none
  | .updateUser id lenOfFeature userFeature =>
    (∃ bytes, φ.request = .addFeature bytes id) ∧
      (φ.feature.map fun f => f.model.lFeatureSize) = some lenOfFeature ∧
      φ.copied = some userFeature
  | .pushGuest guest =>
    (∃ bytes, φ.request = .addFeatureG bytes guest.UserID) ∧
      φ.feature.map Feature.model = some guest.model ∧
      (φ.feature.map fun f => Phase.holding f.engine) = some φ.phase
  | _ => True

def session : Protocol Action Action.Response Session where
  admits
    | φ, .pool a => φ.admitsPool a
    | φ, .sdk a => φ.admitsSdk a
    | φ, .db a => φ.admitsDb a
  next
    | φ, .pool a, r => { φ with phase := φ.phase.next a r }
    | φ, .sdk (.loadFromData _ _), image => { φ with image }
    | φ, .sdk (.extractFRFeature e _ _), .ok slot bytes =>
      { φ with feature := some ⟨e, slot, bytes⟩ }
    | φ, .db (.toByteArray _), bytes => { φ with copied := some bytes }
    | φ, _, _ => φ

section Handlers

variable {φ : Session} {e : ℕ}

theorem admitsPool_of_ne {a : PoolAction} (h : φ.phase.admits a) (other : a ≠ .pop) :
    φ.admitsPool a := ⟨h, fun pop => absurd pop other⟩

theorem follows_popEngineIndex {post : ℕ → Session → Prop} (idle : φ.phase = .idle)
    (fresh : φ.feature = none) (h : ∀ e, post e { φ with phase := .holding e }) :
    session.Follows φ popEngineIndex post := by
  obtain ⟨request, phase, image, feature, copied⟩ := φ
  cases idle
  simp only [popEngineIndex, onPool, Protocol.follows_bind, Protocol.follows_perform,
    Protocol.follows_pure]
  refine ⟨admitsPool_of_ne trivial (by decide), fun _ =>
    ⟨admitsPool_of_ne trivial (by decide), fun _ => ⟨admitsPool_of_ne trivial (by decide),
      fun e => ⟨⟨trivial, fun _ => fresh⟩, fun _ => ⟨?_, fun _ => h e⟩⟩⟩⟩⟩
  exact admitsPool_of_ne trivial (by decide)

theorem follows_pushEngineIndex {post : Unit → Session → Prop} (holding : φ.phase = .holding e)
    (h : post () { φ with phase := .idle }) : session.Follows φ (pushEngineIndex e) post := by
  obtain ⟨request, phase, image, feature, copied⟩ := φ
  cases holding
  simp only [pushEngineIndex, onPool, Protocol.follows_bind, Protocol.follows_perform]
  refine ⟨admitsPool_of_ne trivial (by decide), fun _ => ⟨admitsPool_of_ne rfl (by simp),
    fun _ => ⟨admitsPool_of_ne trivial (by decide), fun _ => ⟨?_, fun _ => h⟩⟩⟩⟩
  exact admitsPool_of_ne trivial (by decide)

/-- A feature is extracted from the decoded image, or the session stays as it is. -/
theorem follows_getFeature {post : Int × FaceModel → Session → Prop} {img : QImage}
    (holding : φ.phase = .holding e) (decoded : φ.image = some img) (fresh : φ.feature = none)
    (refused : ∀ model, post (-1, model) φ)
    (extracted : ∀ slot bytes, post (mok, (Feature.mk e slot bytes).model)
      { φ with feature := some ⟨e, slot, bytes⟩ }) :
    session.Follows φ (getFeature e (bmpdata img) img.width img.height asvlPafRgb24B8g8r8
      FaceModel.zero) post := by
  simp only [getFeature, callSdk, Protocol.follows_bind, Protocol.follows_perform]
  refine ⟨trivial, fun detection => ?_⟩
  cases detection with
  | failed code => exact refused _
  | ok nFace rcFace =>
    dsimp only
    split
    · exact refused _
    · refine ⟨⟨holding, fresh, congrArg (Option.map faceInputImg) decoded⟩,
        fun extraction => ?_⟩
      cases extraction with
      | failed code written => exact refused _
      | ok slot bytes => exact extracted slot bytes

theorem follows_compareFeature {post : Int → Session → Prop} (model localmodel : FaceModel)
    (h : ∀ ret, post ret φ) : session.Follows φ (compareFeature e model localmodel) post := by
  simp only [compareFeature, callSdk, Protocol.follows_bind, Protocol.follows_perform,
    Protocol.follows_pure]
  exact ⟨trivial, fun res => ⟨trivial, fun matching => h _⟩⟩

theorem follows_queryADDonDB {post : Unit → Session → Prop} (id type : Int) (ip : String)
    (h : post () φ) : session.Follows φ (queryADDonDB id type ip) post := by
  simp only [queryADDonDB, onDb, Protocol.follows_bind, Protocol.follows_perform,
    Protocol.follows_pure]
  exact ⟨trivial, fun _ => h⟩

theorem follows_scan {post : Int → Session → Prop} (localmodel : FaceModel) (type : Int)
    (ip : String) (ret : Int) (list : List (FaceModel × Int)) (h : ∀ ret, post ret φ) :
    session.Follows φ (scan e localmodel type ip ret list) post := by
  induction list generalizing ret with
  | nil => exact h ret
  | cons it rest ih =>
    simp only [scan, Protocol.follows_bind]
    refine follows_compareFeature _ _ fun ret => ?_
    split
    · exact (session.follows_bind ..).mpr (follows_queryADDonDB _ _ _ (h ret))
    · exact ih ret

theorem follows_getCache {post : List UserModel → Session → Prop} (h : ∀ list, post list φ) :
    session.Follows φ getCache post := by
  simp only [getCache, onDb, Protocol.follows_bind, Protocol.follows_perform]
  exact ⟨trivial, fun _ => ⟨trivial, h⟩⟩

theorem follows_compareGuests {post : Int → Session → Prop} (localmodel : FaceModel)
    (ip : String) (h : ∀ ret, post ret φ) :
    session.Follows φ (compareGuests e localmodel ip) post := by
  simp only [compareGuests, getCacheGuest, freeGuestLock, onDb, Protocol.follows_bind,
    Protocol.follows_perform, Protocol.follows_pure]
  exact ⟨trivial, fun _ => ⟨trivial, fun _ =>
    follows_scan _ _ _ _ _ fun ret => ⟨trivial, fun _ => h ret⟩⟩⟩

theorem follows_addFeatureUser {post : Int → Session → Prop} {f : Feature} {bytes : List Byte}
    {id : Int} (request : φ.request = .addFeature bytes id) (extracted : φ.feature = some f)
    (fresh : φ.copied = none) (h : ∀ ret copied, post ret { φ with copied := some copied }) :
    session.Follows φ (addFeatureUser f.model id) post := by
  simp only [addFeatureUser, onDb, Protocol.follows_bind, Protocol.follows_perform]
  refine ⟨⟨⟨bytes, id, request⟩, ?_, fresh⟩, fun copied =>
    ⟨⟨⟨bytes, request⟩, ?_, rfl⟩, fun done => ?_⟩⟩
  · rw [extracted]; rfl
  · simp only [session, extracted]; rfl
  · cases done <;> exact h _ copied

theorem follows_addFeatureGuest {post : Int → Session → Prop} {f : Feature} {bytes : List Byte}
    {id : Int} (request : φ.request = .addFeatureG bytes id) (extracted : φ.feature = some f)
    (holding : φ.phase = .holding f.engine) (h : ∀ ret, post ret φ) :
    session.Follows φ (addFeatureGuest f.model id) post := by
  simp only [addFeatureGuest, onDb, Protocol.follows_bind, Protocol.follows_perform,
    Protocol.follows_pure]
  refine ⟨trivial, fun _ => ⟨trivial, fun _ => ⟨⟨⟨bytes, request⟩, ?_, ?_⟩, fun _ =>
    ⟨trivial, fun _ => h 0⟩⟩⟩⟩
  · simp only [session, extracted]; rfl
  · simp only [session, extracted, holding]; rfl

theorem follows_giveUp (holding : φ.phase = .holding e) (ret : Int) :
    session.Follows φ (do pushEngineIndex e; return ret) fun _ φ => φ.phase = .idle :=
  (session.follows_bind ..).mpr (follows_pushEngineIndex holding rfl)

theorem follows_compareFace (bytes : List Byte) (ip : String) :
    session.Follows (.start (.compareFace bytes ip)) (compareFace bytes ip)
      fun _ φ => φ.phase = .idle := by
  simp only [compareFace, callSdk, Protocol.follows_bind, Protocol.follows_perform]
  refine follows_popEngineIndex rfl rfl fun e => ⟨⟨rfl, rfl⟩, fun image => ?_⟩
  cases image with
  | none => exact follows_giveUp rfl 1
  | some img =>
    have rest : ∀ (ψ : Session), ψ.phase = .holding e → ∀ model, session.Follows ψ
        (do
          let userlist ← getCache
          let userRet ← scan e model 1 ip 0 (userlist.map fun it => (it.model, it.id))
          freeUserLock
          let guestRet ← if userRet ≠ 1 then compareGuests e model ip else pure 0
          pushEngineIndex e
          return if userRet.lor (if guestRet = 1 then 1 else 0) ≠ 0 then (0 : Int) else 1)
        fun _ φ => φ.phase = .idle := by
      intro ψ holding model
      simp only [freeUserLock, onDb, Protocol.follows_bind, Protocol.follows_perform]
      refine follows_getCache fun userlist => follows_scan _ _ _ _ _ fun userRet =>
        ⟨trivial, fun _ => ?_⟩
      split
      · exact (session.follows_bind ..).mpr (follows_compareGuests _ _ fun guestRet =>
          (session.follows_bind ..).mpr (follows_pushEngineIndex holding rfl))
      · simp only [Protocol.follows_bind, Protocol.follows_pure]
        exact follows_pushEngineIndex holding rfl
    dsimp only
    rw [Protocol.follows_bind]
    exact follows_getFeature rfl rfl rfl (fun model => rest _ rfl model)
      fun slot bytes => rest _ rfl _

theorem follows_addFeature (bytes : List Byte) (id : Int) :
    session.Follows (.start (.addFeature bytes id)) (addFeature bytes id)
      fun _ φ => φ.phase = .idle := by
  simp only [addFeature, callSdk, Protocol.follows_bind, Protocol.follows_perform]
  refine follows_popEngineIndex rfl rfl fun e => ⟨⟨rfl, rfl⟩, fun image => ?_⟩
  cases image with
  | none => exact follows_giveUp rfl 1
  | some img =>
    dsimp only
    rw [Protocol.follows_bind]
    refine follows_getFeature rfl rfl rfl (fun model => ?_) fun slot feature => ?_
    · exact (session.follows_bind ..).mpr (follows_pushEngineIndex rfl rfl)
    · refine (session.follows_bind ..).mpr (follows_pushEngineIndex rfl ?_)
      exact (session.follows_bind ..).mpr
        (follows_addFeatureUser rfl rfl rfl fun ret copied => rfl)

theorem follows_addFeatureG (bytes : List Byte) (id : Int) :
    session.Follows (.start (.addFeatureG bytes id)) (addFeatureG bytes id)
      fun _ φ => φ.phase = .idle := by
  simp only [addFeatureG, callSdk, Protocol.follows_bind, Protocol.follows_perform]
  refine follows_popEngineIndex rfl rfl fun e => ⟨⟨rfl, rfl⟩, fun image => ?_⟩
  cases image with
  | none => exact follows_giveUp rfl 1
  | some img =>
    dsimp only
    rw [Protocol.follows_bind]
    refine follows_getFeature rfl rfl rfl (fun model => ?_) fun slot feature => ?_
    · exact follows_giveUp rfl 1
    · exact (session.follows_bind ..).mpr
        (follows_addFeatureGuest rfl rfl rfl fun ret => follows_giveUp rfl 0)

theorem follows_handler (request : Request) :
    session.Follows (.start request) request.handler fun _ φ => φ.phase = .idle := by
  cases request with
  | compareFace bytes ip => exact follows_compareFace bytes ip
  | addFeature bytes id => exact follows_addFeature bytes id
  | addFeatureG bytes id => exact follows_addFeatureG bytes id

end Handlers

end ARCServer.RequestSession
