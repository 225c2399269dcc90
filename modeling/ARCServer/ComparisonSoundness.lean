import ARCServer.RequestSession

/-! When `compareFace` opens the gate. An observer notes what the decoder and the SDK
answered and what the score variable of each comparison ended as; the answers of one
run are otherwise arbitrary, so that they stand for every image, every content of the
caches, every behaviour of the SDK and every value of an uninitialised variable. -/

namespace ARCServer.ComparisonSoundness

open InterleavedPrograms FaceSdk RequestHandlers RequestSession MachineIntegers

/-- One call of `AFR_FSDK_FacePairMatching`, with the score variable before it. -/
structure Comparison where
  reference : FaceModel
  probe : FaceModel
  before : MFloat
  matching : Matching
  deriving DecidableEq

def Comparison.accepted (c : Comparison) : Bool := (c.matching.score c.before).isMatch

structure Observed where
  image : Option QImage
  nFace : Option Int
  feature : Option Feature
  cached : List FaceModel
  res : MFloat
  comparisons : List Comparison
  deriving DecidableEq

def Observed.nothing : Observed := ⟨none, none, none, [], .nan, []⟩

def observer : Protocol Action Action.Response Observed where
  admits _ _ := True
  next
    | o, .sdk (.loadFromData _ _), image => { o with image }
    | o, .sdk (.stillImageFaceDetection _ _), .ok nFace _ => { o with nFace := some nFace }
    | o, .sdk (.extractFRFeature e _ _), .ok slot bytes =>
      { o with feature := some ⟨e, slot, bytes⟩ }
    | o, .sdk .uninitialised, res => { o with res }
    | o, .sdk (.facePairMatching _ reference probe), matching =>
      { o with comparisons := o.comparisons ++ [⟨reference, probe, o.res, matching⟩] }
    | o, .db .readCache, list => { o with cached := o.cached ++ list.map UserModel.model }
    | o, .db .readCacheGuest, list => { o with cached := o.cached ++ list.map GuestModel.model }
    | o, _, _ => o

def observe (past : List (Event Action Action.Response)) : Observed :=
  observer.after .nothing past

def Genuine (o : Observed) : Prop :=
  o.image.isSome ∧ o.nFace = some 1 ∧ ∃ f, o.feature = some f ∧
    ∃ c ∈ o.comparisons, c.reference ∈ o.cached ∧ c.probe = f.model ∧
      ∃ score, c.matching = .ok score ∧ score.isMatch

/-- A score variable only ends above 0.95 when the extraction and the matching have succeeded. -/
def ScoresEarned (o : Observed) : Prop :=
  ∀ c ∈ o.comparisons, c.accepted → o.feature.isSome ∧ ∃ score, c.matching = .ok score

def NoneAccepted (comparisons : List Comparison) : Prop := ∀ c ∈ comparisons, ¬c.accepted

def Hit (cached : List FaceModel) (probe : FaceModel) (comparisons : List Comparison) : Prop :=
  ∃ first c, comparisons = first ++ [c] ∧ NoneAccepted first ∧ c.accepted ∧
    c.reference ∈ cached ∧ c.probe = probe

theorem Hit.mono {cached more : List FaceModel} {probe : FaceModel}
    {comparisons : List Comparison} (h : Hit cached probe comparisons) (sub : cached ⊆ more) :
    Hit more probe comparisons := by
  obtain ⟨first, c, eq, quiet, accepted, mem, same⟩ := h
  exact ⟨first, c, eq, quiet, accepted, sub mem, same⟩

section Observing

variable {o : Observed} {e : ℕ}

theorem observed_popEngineIndex {post : ℕ → Observed → Prop} (h : ∀ e, post e o) :
    observer.Follows o popEngineIndex post := by
  simp only [popEngineIndex, onPool, Protocol.follows_bind, Protocol.follows_perform,
    Protocol.follows_pure]
  exact ⟨trivial, fun _ => ⟨trivial, fun _ => ⟨trivial, fun e =>
    ⟨trivial, fun _ => ⟨trivial, fun _ => h e⟩⟩⟩⟩⟩

theorem observed_pushEngineIndex {post : Unit → Observed → Prop} (h : post () o) :
    observer.Follows o (pushEngineIndex e) post := by
  simp only [pushEngineIndex, onPool, Protocol.follows_bind, Protocol.follows_perform]
  exact ⟨trivial, fun _ => ⟨trivial, fun _ => ⟨trivial, fun _ => ⟨trivial, fun _ => h⟩⟩⟩⟩

theorem observed_getFeature {post : Int × FaceModel → Observed → Prop}
    (data : List (Option Byte)) (width height : Int) (format : ℕ) (localmodel : FaceModel)
    (refused : ∀ model nFace, post (-1, model) { o with nFace })
    (extracted : ∀ slot bytes, post (mok, (Feature.mk e slot bytes).model)
      { o with nFace := some 1, feature := some ⟨e, slot, bytes⟩ }) :
    observer.Follows o (getFeature e data width height format localmodel) post := by
  simp only [getFeature, callSdk, Protocol.follows_bind, Protocol.follows_perform]
  refine ⟨trivial, fun detection => ?_⟩
  cases detection with
  | failed code => exact refused _ o.nFace
  | ok nFace rcFace =>
    dsimp only
    split
    · exact refused _ (some nFace)
    · next one =>
      rw [not_not] at one
      subst one
      refine ⟨trivial, fun extraction => ?_⟩
      cases extraction with
      | failed code written => exact refused _ (some 1)
      | ok slot bytes => exact extracted slot bytes

theorem observed_compareFeature {post : Int → Observed → Prop} (reference probe : FaceModel)
    (h : ∀ c : Comparison, c.reference = reference → c.probe = probe →
      post (if c.accepted then 1 else 0)
        { o with res := c.before, comparisons := o.comparisons ++ [c] }) :
    observer.Follows o (compareFeature e reference probe) post := by
  simp only [compareFeature, callSdk, Protocol.follows_bind, Protocol.follows_perform,
    Protocol.follows_pure]
  exact ⟨trivial, fun res => ⟨trivial, fun matching =>
    h ⟨reference, probe, res, matching⟩ rfl rfl⟩⟩

theorem observed_queryADDonDB {post : Unit → Observed → Prop} (id type : Int) (ip : String)
    (h : post () o) : observer.Follows o (queryADDonDB id type ip) post := by
  simp only [queryADDonDB, onDb, Protocol.follows_bind, Protocol.follows_perform,
    Protocol.follows_pure]
  exact ⟨trivial, fun _ => h⟩

theorem observed_scan {post : Int → Observed → Prop} (probe : FaceModel) (type : Int)
    (ip : String) (list : List (FaceModel × Int)) (quiet : NoneAccepted o.comparisons)
    (missed : ∀ res cs, NoneAccepted cs → post 0 { o with res, comparisons := cs })
    (hit : ∀ res cs, Hit (list.map Prod.fst) probe cs → post 1 { o with res, comparisons := cs }) :
    observer.Follows o (scan e probe type ip 0 list) post := by
  induction list generalizing o with
  | nil => exact missed o.res o.comparisons quiet
  | cons it rest ih =>
    simp only [scan, Protocol.follows_bind]
    refine observed_compareFeature _ _ fun c reference same => ?_
    cases accepted : c.accepted with
    | true =>
      rw [if_pos rfl, if_pos rfl, Protocol.follows_bind]
      refine observed_queryADDonDB _ _ _ (hit _ _ ?_)
      exact ⟨o.comparisons, c, rfl, quiet, accepted, reference ▸ List.mem_cons_self, same⟩
    | false =>
      rw [if_neg Bool.false_ne_true, if_neg (by decide)]
      refine ih ?_ (fun res cs => missed res cs) fun res cs h => hit res cs ?_
      · intro d mem
        rcases List.mem_append.mp mem with old | new
        · exact quiet d old
        · rw [List.mem_singleton.mp new, accepted]
          exact Bool.false_ne_true
      · exact h.mono (List.subset_cons_self _ _)

structure Concluded (ret : Int) (o : Observed) : Prop where
  verdict : ret = 0 ∧ (∃ probe, Hit o.cached probe o.comparisons ∧
    ∀ f, o.feature = some f → probe = f.model) ∨ ret = 1 ∧ NoneAccepted o.comparisons
  extracted : o.feature.isSome → o.image.isSome ∧ o.nFace = some 1

theorem observed_compareGuests {probe : FaceModel} (ip : String)
    (quiet : NoneAccepted o.comparisons)
    {post : Int → Observed → Prop}
    (missed : ∀ guests res cs, NoneAccepted cs → post 0
      { o with cached := o.cached ++ guests, res, comparisons := cs })
    (hit : ∀ guests res cs, Hit guests probe cs → post 1
      { o with cached := o.cached ++ guests, res, comparisons := cs }) :
    observer.Follows o (compareGuests e probe ip) post := by
  simp only [compareGuests, getCacheGuest, freeGuestLock, onDb, Protocol.follows_bind,
    Protocol.follows_perform, Protocol.follows_pure]
  refine ⟨trivial, fun _ => ⟨trivial, fun guestlist => observed_scan _ _ _ _ quiet
    (fun res cs h => ⟨trivial, fun _ => missed (guestlist.map GuestModel.model) res cs h⟩)
    fun res cs h => ⟨trivial, fun _ => hit (guestlist.map GuestModel.model) res cs ?_⟩⟩⟩
  rwa [List.map_map] at h

theorem observed_comparisons {probe : FaceModel} (ip : String) (quiet : NoneAccepted o.comparisons)
    (probed : ∀ f, o.feature = some f → probe = f.model)
    (extracted : o.feature.isSome → o.image.isSome ∧ o.nFace = some 1) :
    observer.Follows o
      (do
        let userlist ← getCache
        let userRet ← scan e probe 1 ip 0 (userlist.map fun it => (it.model, it.id))
        freeUserLock
        let guestRet ← if userRet ≠ 1 then compareGuests e probe ip else pure 0
        pushEngineIndex e
        return if userRet.lor (if guestRet = 1 then 1 else 0) ≠ 0 then (0 : Int) else 1)
      Concluded := by
  simp only [getCache, freeUserLock, onDb, Protocol.follows_bind, Protocol.follows_perform]
  refine ⟨trivial, fun _ => ⟨trivial, fun userlist => observed_scan _ _ _ _ quiet
    (fun res cs missed => ⟨trivial, fun _ => ?_⟩) fun res cs hit => ⟨trivial, fun _ => ?_⟩⟩⟩
  · rw [if_pos (by decide), Protocol.follows_bind]
    refine observed_compareGuests ip missed (fun guests res cs h => ?_) fun guests res cs h => ?_
    · rw [Protocol.follows_bind]
      exact observed_pushEngineIndex ⟨.inr ⟨rfl, h⟩, extracted⟩
    · rw [Protocol.follows_bind]
      refine observed_pushEngineIndex ⟨.inl ⟨rfl, probe, h.mono ?_, probed⟩, extracted⟩
      exact List.subset_append_right _ _
  · rw [if_neg (by decide), Protocol.follows_bind, Protocol.follows_pure, Protocol.follows_bind]
    refine observed_pushEngineIndex ⟨.inl ⟨rfl, probe, ?_, probed⟩, extracted⟩
    rw [List.map_map] at hit
    exact hit.mono (List.subset_append_right _ _)

theorem observed_compareFace (data : List Byte) (ip : String) :
    observer.Follows .nothing (compareFace data ip) Concluded := by
  simp only [compareFace, callSdk, Protocol.follows_bind, Protocol.follows_perform]
  refine observed_popEngineIndex fun e => ⟨trivial, fun image => ?_⟩
  have quiet : NoneAccepted [] := fun c mem => absurd mem List.not_mem_nil
  cases image with
  | none =>
    dsimp only
    rw [Protocol.follows_bind]
    exact observed_pushEngineIndex ⟨.inr ⟨rfl, quiet⟩, nofun⟩
  | some img =>
    dsimp only
    rw [Protocol.follows_bind]
    refine observed_getFeature _ _ _ _ _ (fun model nFace => ?_) fun slot bytes => ?_
    · exact observed_comparisons ip quiet nofun nofun
    · exact observed_comparisons ip quiet (fun f same => by rw [← Option.some.inj same])
        fun _ => ⟨rfl, rfl⟩

theorem decided_of_returns {data : List Byte} {ip : String}
    {past : List (Event Action Action.Response)} {ret : Int}
    (h : (compareFace data ip).Returns past ret) : Concluded ret (observe past) :=
  (observed_compareFace data ip).returns h

theorem Hit.unique {cached : List FaceModel} {probe : FaceModel} {comparisons : List Comparison}
    (h : Hit cached probe comparisons) {c d : Comparison} (hc : c ∈ comparisons)
    (hd : d ∈ comparisons) (c_accepted : c.accepted) (d_accepted : d.accepted) : c = d := by
  obtain ⟨first, last, rfl, quiet, -, -, -⟩ := h
  have only : ∀ x ∈ first ++ [last], x.accepted → x = last := by
    intro x mem accepted
    rcases List.mem_append.mp mem with early | final
    · exact absurd accepted (quiet x early)
    · exact List.mem_singleton.mp final
  rw [only c hc c_accepted, only d hd d_accepted]

theorem accepted_of_ok {c : Comparison} {score : MFloat} (ok : c.matching = .ok score)
    (isMatch : score.isMatch) : c.accepted := by
  rw [Comparison.accepted, ok]
  exact isMatch

end Observing

/-- `compareFace` only opens the gate for a genuine match exactly as long as a score
variable ends above 0.95 only after a successful extraction and a successful matching. -/
theorem genuine_iff_scoresEarned {data : List Byte} {ip : String}
    {past : List (Event Action Action.Response)} {ret : Int}
    (h : (compareFace data ip).Returns past ret) :
    (ret = 0 → Genuine (observe past)) ↔ ScoresEarned (observe past) := by
  have decided := decided_of_returns h
  constructor
  · intro genuine c mem accepted
    rcases decided.verdict with ⟨zero, probe, hit, -⟩ | ⟨-, quiet⟩
    · obtain ⟨-, -, f, extracted, d, d_mem, -, -, score, ok, isMatch⟩ := genuine zero
      rw [hit.unique mem d_mem accepted (accepted_of_ok ok isMatch)]
      exact ⟨by rw [extracted]; rfl, score, ok⟩
    · exact absurd accepted (quiet c mem)
  · intro earned zero
    rcases decided.verdict with ⟨-, probe, ⟨first, c, split, -, accepted, cached, same⟩, probed⟩ |
      ⟨one, -⟩
    · have mem : c ∈ (observe past).comparisons := by rw [split]; simp
      obtain ⟨extracted, score, ok⟩ := earned c mem accepted
      obtain ⟨decoded, oneFace⟩ := decided.extracted extracted
      obtain ⟨f, hf⟩ := Option.isSome_iff_exists.mp extracted
      refine ⟨decoded, oneFace, f, hf, c, mem, cached, same.trans (probed f hf), score, ok, ?_⟩
      rwa [Comparison.accepted, ok] at accepted
    · rw [zero] at one
      cases one

section Runs

def alone (outside : Outside) (users : List UserModel) (guests : List GuestModel) :
    (a : Action) → a.Response
  | .pool a =>
    match a with
    | .top => 0
    | .acquire | .release | .lock | .unlock | .pop | .push _ => ()
  | .sdk a => (a.answer outside fun _ _ => 0).1
  | .db a =>
    match a with
    | .readCache => users
    | .readCacheGuest => guests
    | .toByteArray _ => []
    | .updateUser _ _ _ | .insertImport _ _ _ => outside.exec
    | .lockUserForRead | .unlockUser | .lockGuestForRead | .queueGuestForWrite
    | .lockGuestForWrite | .pushGuest _ | .unlockGuest => ()

def enrolled : List UserModel := [⟨⟨.block 0, 2⟩, 7⟩]

def faceRun : Int × List (Event Action Action.Response) :=
  (compareFace [0xff, 0xd8] "10.0.0.2").runWith (alone
    { oneFace [1, 2] with matching := .ok (.dyadic 1 0) } enrolled [])

theorem genuine_iff_scoresEarned_enrolled : faceRun.1 = 0 ∧ Genuine (observe faceRun.2) := by
  refine ⟨rfl, (genuine_iff_scoresEarned (Prog.returns_runWith _ _)).mpr ?_ rfl⟩
  intro c mem _
  have only : c = ⟨⟨.block 0, 2⟩, ⟨.engine 0 0, 2⟩, .dyadic 0 0, .ok (.dyadic 1 0)⟩ :=
    List.mem_singleton.mp mem
  exact ⟨rfl, .dyadic 1 0, by rw [only]⟩

/-- No face is found, the matching fails on the empty model, and the score variable
happens to hold 1.0. -/
def blankRun : Int × List (Event Action Action.Response) :=
  (compareFace [0xff, 0xd8] "10.0.0.2").runWith (alone
    { image := some onePixel
      matching := .failed ⟨-1, by decide⟩ none
      uninitialised := .dyadic 1 0 } enrolled [])

theorem blank_picture_opens : ∃ past,
    (compareFace [0xff, 0xd8] "10.0.0.2").Returns past 0 ∧ ¬Genuine (observe past) := by
  refine ⟨blankRun.2, Prog.returns_runWith _ _, fun genuine => ?_⟩
  have noFace : (observe blankRun.2).nFace = none := rfl
  rw [genuine.2.1] at noFace
  cases noFace

end Runs

end ARCServer.ComparisonSoundness
