import ARCServer.FeatureMemory
import ARCServer.RequestEffects
import Mathlib.Data.List.Find

/-! Whom the gate opens for, and what is written down about it. A request whose SDK calls
all succeed is decided by the features alone, and asks for one log entry when it opens,
whether or not that query is then executed. -/

namespace ARCServer.EntryLog

open InterleavedPrograms ProgramsAlone EnginePool FaceSdk RequestHandlers FeatureMemory
  HandlerOutcomes MachineIntegers

variable (score : List Byte → List Byte → MFloat)

/-- The image shows one face, its feature is extracted, and a matching returns the score of
the features that the two models read as. -/
def Succeeds (act : Action) (outside : Outside) (s : Server) : Prop :=
  match act with
  | .sdk (.loadFromData _ _) => outside.image.isSome
  | .sdk (.stillImageFaceDetection _ _) => ∃ rcFace, outside.detection = .ok 1 rcFace
  | .sdk (.extractFRFeature _ _ _) => ∃ slot bytes, outside.extraction = .ok slot bytes
  | .sdk (.facePairMatching _ model localmodel) =>
    outside.matching = .ok (score (bytesOf s.memory model) (bytesOf s.memory localmodel))
  | _ => True

def matchesProbe (memory : Memory) (probe : List Byte) (model : FaceModel) : Bool :=
  (score (bytesOf memory model) probe).isMatch

def firstMatch (memory : Memory) (probe : List Byte) (list : List (FaceModel × Int)) :
    Option Int :=
  (list.find? fun it => matchesProbe score memory probe it.1).map Prod.snd

def userlist (s : Server) : List (FaceModel × Int) := s.cache.map fun it => (it.model, it.id)

def guestlist (s : Server) : List (FaceModel × Int) :=
  s.cache_guest.map fun entry => (entry.guest.model, entry.guest.UserID)

def entry (ip : String) : Option Int → Option Int → Option ImportRow
  | some id, _ => some ⟨id, ip, 1⟩
  | none, some id => some ⟨id, ip, 2⟩
  | none, none => none

def insert : Event Action Action.Response → Option ImportRow
  | ⟨.db (.insertImport id userType ip), _⟩ => some ⟨id, ip, userType⟩
  | _ => none

def inserts (past : Events) : List ImportRow := past.filterMap insert

def guestRead : Event Action Action.Response → Option (List GuestModel)
  | ⟨.db .readCacheGuest, list⟩ => some list
  | _ => none

def guestReads (past : Events) : List (List GuestModel) := past.filterMap guestRead

/-- Reply and log of a request whose feature is `probe`, by what the cached features are
when they are compared with it. -/
structure Decided (ip : String) (probe : List Byte) (users guests : List (FaceModel × Int))
    (memory : Memory) (past : Events) (ret : Int) : Prop where
  verdict : ret = 0 ↔ (∃ user ∈ users, matchesProbe score memory probe user.1) ∨
    ∃ guest ∈ guests, matchesProbe score memory probe guest.1
  logged : inserts past = (entry ip (firstMatch score memory probe users)
    (firstMatch score memory probe guests)).toList
  one : (inserts past).length = if ret = 0 then 1 else 0
  consulted : (∃ user ∈ users, matchesProbe score memory probe user.1) → guestReads past = []

section Matches

variable {score}
variable {memory : Memory} {probe : List Byte} {list : List (FaceModel × Int)}

theorem firstMatch_eq_none : firstMatch score memory probe list = none ↔
    ∀ it ∈ list, matchesProbe score memory probe it.1 = false := by
  simp [firstMatch]

theorem firstMatch_isSome : (firstMatch score memory probe list).isSome ↔
    ∃ it ∈ list, matchesProbe score memory probe it.1 := by
  simp [firstMatch]

theorem firstMatch_append {first rest : List (FaceModel × Int)} {it : FaceModel × Int}
    (none : ∀ it ∈ first, matchesProbe score memory probe it.1 = false)
    (found : matchesProbe score memory probe it.1 = true) :
    firstMatch score memory probe (first ++ it :: rest) = some it.2 := by
  have before : (first.find? fun it => matchesProbe score memory probe it.1) = .none :=
    List.find?_eq_none.mpr fun it mem => by simp [none it mem]
  rw [firstMatch, List.find?_append, before, Option.none_or, List.find?_cons, found]
  rfl

theorem firstMatch_congr {memory' : Memory} (same : ∀ it ∈ list,
    matchesProbe score memory probe it.1 = matchesProbe score memory' probe it.1) :
    firstMatch score memory probe list = firstMatch score memory' probe list :=
  congrArg (Option.map Prod.snd) (List.find?_congr same)

theorem Decided.congr {ip : String} {users guests : List (FaceModel × Int)} {memory' : Memory}
    {past : Events} {ret : Int} (h : Decided score ip probe users guests memory past ret)
    (same : ∀ it ∈ users ++ guests, bytesOf memory it.1 = bytesOf memory' it.1) :
    Decided score ip probe users guests memory' past ret := by
  have users_same : firstMatch score memory probe users = firstMatch score memory' probe users :=
    firstMatch_congr fun it mem => by
      rw [matchesProbe, matchesProbe, same it (List.mem_append_left _ mem)]
  have guests_same : firstMatch score memory probe guests =
      firstMatch score memory' probe guests :=
    firstMatch_congr fun it mem => by
      rw [matchesProbe, matchesProbe, same it (List.mem_append_right _ mem)]
  refine ⟨h.verdict.trans ?_, ?_, h.one, fun user => h.consulted ?_⟩
  · rw [← firstMatch_isSome, ← firstMatch_isSome, ← firstMatch_isSome, ← firstMatch_isSome,
      users_same, guests_same]
  · rw [h.logged, users_same, guests_same]
  · rwa [← firstMatch_isSome, users_same, firstMatch_isSome]

theorem matchesProbe_of_compared {s : Server} {e : ℕ} {model localmodel : FaceModel}
    {accepted : Bool} (h : Compared (Succeeds score) s e model localmodel accepted) :
    matchesProbe score s.memory (bytesOf s.memory localmodel) model = accepted := by
  obtain ⟨before, outside, -, succeeds, ends⟩ := h
  have matching : outside.matching =
    .ok (score (bytesOf s.memory model) (bytesOf s.memory localmodel)) := succeeds
  rw [matching] at ends
  exact ends

end Matches

section Observations

variable {past : Events}

theorem inserts_offDb (h : OffDb past) : inserts past = [] :=
  h.filterMap_eq_nil (fun _ _ => rfl) fun _ _ => rfl

theorem guestReads_offDb (h : OffDb past) : guestReads past = [] :=
  h.filterMap_eq_nil (fun _ _ => rfl) fun _ _ => rfl

theorem inserts_append (past later : Events) :
    inserts (past ++ later) = inserts past ++ inserts later := List.filterMap_append

theorem guestReads_append (past later : Events) :
    guestReads (past ++ later) = guestReads past ++ guestReads later := List.filterMap_append

end Observations

section Programs

variable {score}
variable {i : ℕ} {s t : Server} {ip : String} {probe : List Byte} {localmodel : FaceModel}

structure Found (ip : String) (type : Int) (hit : Option Int) (s : Server) (past : Events)
    (ret : Int) (t : Server) : Prop where
  ret_eq : ret = if hit.isSome then 1 else 0
  logged : inserts past = (hit.map fun id => ⟨id, ip, type⟩).toList
  pool : t.pool = s.pool
  memory : t.memory = s.memory
  cache_guest : t.cache_guest = s.cache_guest

theorem ensures_scan_found (e : ℕ) (type : Int) (list : List (FaceModel × Int))
    (read : bytesOf s.memory localmodel = probe) :
    (onServer i (Succeeds score)).Ensures (scan e localmodel type ip 0 list) s fun past ret t =>
      Found ip type (firstMatch score s.memory probe list) s past ret t ∧ guestReads past = [] := by
  subst read
  refine ensures_scan (fun past calls none => ?_)
    fun first it rest past exec split calls none found => ?_
  · rw [firstMatch_eq_none.mpr fun it mem => matchesProbe_of_compared (none it mem)]
    exact ⟨⟨rfl, inserts_offDb calls, rfl, rfl, rfl⟩, guestReads_offDb calls⟩
  · rw [split, firstMatch_append (fun it mem => matchesProbe_of_compared (none it mem))
      (matchesProbe_of_compared found)]
    refine ⟨⟨rfl, ?_, rfl, rfl, rfl⟩, ?_⟩
    · rw [inserts_append, inserts_offDb calls]
      rfl
    · rw [guestReads_append, guestReads_offDb calls]
      rfl

theorem ensures_compareGuests_found (e : ℕ) (read : bytesOf s.memory localmodel = probe) :
    (onServer i (Succeeds score)).Ensures (compareGuests e localmodel ip) s fun past ret t =>
      Found ip 2 (firstMatch score s.memory probe (guestlist s)) s past ret t := by
  simp only [compareGuests, World.ensures_bind, World.ensures_pure]
  refine ensures_getCacheGuest fun l locked => ?_
  have locked_read : bytesOf { s with lock_guest := l }.memory localmodel = probe := read
  refine (ensures_scan_found e 2 _ locked_read).mono fun past ret t found => ?_
  obtain ⟨⟨ret_eq, logged, pool, memory, cache_guest⟩, -⟩ := found
  rw [List.map_map] at ret_eq logged
  refine ensures_freeGuestLock ⟨ret_eq, ?_, pool, memory, cache_guest⟩
  rw [List.append_nil, inserts_append, inserts_append, logged]
  exact List.append_nil _

variable {users guests : List (FaceModel × Int)} {memory : Memory} {past : Events}

theorem decided_of_found {user guest : Option Int}
    (users_eq : firstMatch score memory probe users = user)
    (guests_eq : firstMatch score memory probe guests = guest)
    (logged : inserts past = (entry ip user guest).toList)
    (consulted : user.isSome → guestReads past = []) :
    Decided score ip probe users guests memory past
      (if user.isSome || guest.isSome then 0 else 1) := by
  subst users_eq guests_eq
  refine ⟨?_, logged, ?_, fun found => consulted (firstMatch_isSome.mpr found)⟩
  · rw [← firstMatch_isSome, ← firstMatch_isSome, ← Bool.or_eq_true]
    split
    · next found => exact iff_of_true rfl found
    · next none => exact iff_of_false (by decide) none
  · rw [logged]
    cases firstMatch score memory probe users with
    | some id => rfl
    | none => cases firstMatch score memory probe guests <;> rfl

theorem Decided.prepend {before : Events} {ret : Int}
    (h : Decided score ip probe users guests memory past ret) (quiet : OffDb before) :
    Decided score ip probe users guests memory (before ++ past) ret := by
  have logs : inserts (before ++ past) = inserts past := by
    rw [inserts_append, inserts_offDb quiet, List.nil_append]
  have reads : guestReads (before ++ past) = guestReads past := by
    rw [guestReads_append, guestReads_offDb quiet, List.nil_append]
  refine ⟨h.verdict, logs.trans h.logged, ?_, fun found => reads.trans (h.consulted found)⟩
  rw [logs]
  exact h.one

theorem entry_guest (guest : Option Int) :
    entry ip none guest = guest.map fun id => ⟨id, ip, 2⟩ := by
  cases guest <;> rfl

theorem verdict_guest (guest : Option Int) :
    (if Int.lor 0 (if (if guest.isSome then (1 : Int) else 0) = 1 then 1 else 0) ≠ 0
        then (0 : Int) else 1) =
      if (none : Option Int).isSome || guest.isSome then 0 else 1 := by
  cases guest <;> rfl

theorem ensures_guests_decided {sem e : ℕ} {rest : List ℕ} (taken : s.pool = ⟨sem, false, rest⟩)
    (read : bytesOf s.memory localmodel = probe) (quiet : inserts past = [])
    (none : firstMatch score s.memory probe users = .none) :
    (onServer i (Succeeds score)).Ensures
      (do
        let guestRet ← compareGuests e localmodel ip
        pushEngineIndex e
        return if Int.lor 0 (if guestRet = 1 then 1 else 0) ≠ 0 then (0 : Int) else 1)
      s fun later ret s' =>
        Decided score ip probe users (guestlist s) s'.memory (past ++ later) ret := by
  rw [World.ensures_bind]
  refine (ensures_compareGuests_found e read).mono fun later ret t found => ?_
  obtain ⟨rfl, logged, pool, memory, -⟩ := found
  rw [World.ensures_bind]
  refine ensures_pushEngineIndex (pool.trans taken) fun pushes pushed => ?_
  rw [World.ensures_pure, verdict_guest]
  rw [← memory] at none logged ⊢
  refine decided_of_found none rfl ?_ nofun
  simp only [inserts_append, inserts_offDb pushed, quiet, logged, entry_guest]
  exact List.append_nil _

theorem ensures_users_decided (guests : List (FaceModel × Int)) {sem e : ℕ} {rest : List ℕ}
    (taken : s.pool = ⟨sem, false, rest⟩) {id : Int}
    (logged : inserts past = [⟨id, ip, 1⟩]) (quiet : guestReads past = [])
    (user : firstMatch score s.memory probe users = some id) :
    (onServer i (Succeeds score)).Ensures
      (do
        pushEngineIndex e
        return if Int.lor 1 (if (0 : Int) = 1 then 1 else 0) ≠ 0 then (0 : Int) else 1)
      s fun later ret s' => Decided score ip probe users guests s'.memory (past ++ later) ret := by
  rw [World.ensures_bind]
  refine ensures_pushEngineIndex taken fun pushes pushed => ?_
  rw [World.ensures_pure]
  refine decided_of_found user rfl ?_ fun _ => ?_
  · simp only [inserts_append, inserts_offDb pushed, logged]
    rfl
  · simp only [guestReads_append, guestReads_offDb pushed, quiet]
    rfl

theorem inserts_locked (cache : List UserModel) (past : Events) :
    inserts ([⟨.db .lockUserForRead, ()⟩, ⟨.db .readCache, cache⟩] ++
      (past ++ [⟨.db .unlockUser, ()⟩])) = inserts past := by
  rw [inserts_append, inserts_append]
  exact List.append_nil _

theorem guestReads_locked (cache : List UserModel) (past : Events) :
    guestReads ([⟨.db .lockUserForRead, ()⟩, ⟨.db .readCache, cache⟩] ++
      (past ++ [⟨.db .unlockUser, ()⟩])) = guestReads past := by
  rw [guestReads_append, guestReads_append]
  exact List.append_nil _

theorem ensures_decided {sem e : ℕ} {rest : List ℕ} (taken : s.pool = ⟨sem, false, rest⟩)
    (read : bytesOf s.memory localmodel = probe) :
    (onServer i (Succeeds score)).Ensures
      (do
        let userlist ← getCache
        let userRet ← scan e localmodel 1 ip 0 (userlist.map fun it => (it.model, it.id))
        freeUserLock
        let guestRet ← if userRet ≠ 1 then compareGuests e localmodel ip else pure 0
        pushEngineIndex e
        return if userRet.lor (if guestRet = 1 then 1 else 0) ≠ 0 then (0 : Int) else 1)
      s fun past ret s' =>
        Decided score ip probe (userlist s) (guestlist s) s'.memory past ret := by
  rw [World.ensures_bind]
  refine ensures_getCache fun l locked => ?_
  have locked_read : bytesOf { s with lock_user := l }.memory localmodel = probe := read
  rw [World.ensures_bind]
  refine (ensures_scan_found e 1 (userlist s) locked_read).mono fun past ret t found => ?_
  obtain ⟨⟨ret_eq, logged, pool, memory, cache_guest⟩, quiet⟩ := found
  rw [World.ensures_bind]
  refine ensures_freeUserLock ?_
  have unlocked_pool : { t with lock_user := t.lock_user.unlock }.pool = ⟨sem, false, rest⟩ :=
    pool.trans taken
  cases user : firstMatch score s.memory probe (userlist s) with
  | some id =>
    rw [user] at ret_eq logged
    obtain rfl : ret = 1 := ret_eq
    rw [if_neg (by decide), World.ensures_bind, World.ensures_pure]
    rw [← show t.memory = s.memory from memory] at user
    refine (ensures_users_decided (guestlist s) unlocked_pool
      ((inserts_locked s.cache past).trans logged) ((guestReads_locked s.cache past).trans quiet)
      user).mono fun later ret u decided => ?_
    rw [List.append_assoc, List.append_assoc] at decided
    exact decided
  | none =>
    rw [user] at ret_eq logged
    obtain rfl : ret = 0 := ret_eq
    rw [if_pos (by decide)]
    -- neither the scan nor the locks touch the features
    rw [← show t.memory = s.memory from memory] at user read
    have same : guestlist { t with lock_user := t.lock_user.unlock } = guestlist s :=
      congrArg (List.map fun it : GuestEntry => (it.guest.model, it.guest.UserID)) cache_guest
    have unlocked_read : bytesOf { t with lock_user := t.lock_user.unlock }.memory localmodel =
      probe := read
    refine (ensures_guests_decided unlocked_pool unlocked_read
      ((inserts_locked s.cache past).trans logged) user).mono fun later ret u decided => ?_
    rw [same, List.append_assoc, List.append_assoc] at decided
    exact decided

theorem ensures_compareFace_decided (data : List Byte) (ip : String) :
    (onServer i (Succeeds score)).Ensures (compareFace data ip) s fun past ret s' =>
      ∃ probe, Extracted (.compareFace data ip) past probe ∧
        Decided score ip probe (userlist s) (guestlist s) s'.memory past ret := by
  rw [compareFace]
  refine ensures_decoded (fun _ => rfl) (fun outside _ past decodes image _ => ?_)
    fun outside _ img sem e stack past _ image pool quiet loaded => ?_
  · have decoded : outside.image.isSome := decodes
    rw [image] at decoded
    cases decoded
  · rw [World.ensures_bind]
    refine ensures_getFeature rfl (fun _ calls model memory called refused => ?_) ?_
    · rcases refused with ⟨⟨rcFace, found⟩, missed⟩ | ⟨⟨face, slot, bytes, extracts⟩, missed⟩
      · exact absurd found (missed rcFace)
      · exact absurd extracts (missed slot bytes)
    · intro found rcFace outcome slot bytes _ detection _ extraction
      have read := bytesOf_extracted e slot bytes outcome.scratch s.memory
      refine (ensures_decided rfl read).mono fun later ret s' decided => ⟨bytes, ?_, ?_⟩
      · refine ⟨.fromHeader, img, e, ⟨rcFace 0, afrFsdkFoc0⟩, slot,
          List.mem_append_left _ loaded, ?_⟩
        exact List.mem_append_right _ (List.mem_cons_of_mem _ List.mem_cons_self)
      · refine Decided.prepend (Decided.prepend decided ?_) quiet
        simp [OffDb]

end Programs

/-- When all calls of the SDK succeed, `compareFace` opens for whoever has a cached feature
above 0.95, logs that entry alone, and looks at the guests only if no user matches. -/
theorem compareFace_decided {i : ℕ} {s s' : Server} {data : List Byte} {ip : String}
    {past : Events} {ret : Int}
    (h : (onServer i (Succeeds score)).Completes (compareFace data ip) s past ret s') :
    ∃ probe, Extracted (.compareFace data ip) past probe ∧
      Decided score ip probe (userlist s) (guestlist s) s'.memory past ret :=
  (ensures_compareFace_decided data ip).completes h

/-- When the extraction also leaves the cached features alone, these are what they were
before the request. -/
theorem compareFace_decided_fresh {i : ℕ} {s s' : Server} {data : List Byte} {ip : String}
    {past : Events} {ret : Int}
    (h : (onServer i fun act outside t => Succeeds score act outside t ∧
      RequestEffects.DeliversFresh act outside t).Completes (compareFace data ip) s past ret s') :
    ∃ probe, Extracted (.compareFace data ip) past probe ∧
      Decided score ip probe (userlist s) (guestlist s) s.memory past ret := by
  obtain ⟨probe, extracted, decided⟩ :=
    (ensures_compareFace_decided data ip).completes (h.mono fun _ _ _ both => both.1)
  have settled := (RequestEffects.ensures_handler (.compareFace data ip)).completes
    (h.mono fun _ _ _ both => both.2)
  refine ⟨probe, extracted, decided.congr fun it mem => settled.features it.1 ?_⟩
  rcases List.mem_append.mp mem with user | guest
  · obtain ⟨model, there, rfl⟩ := List.mem_map.mp user
    exact List.mem_append_left _ (List.mem_map_of_mem there)
  · obtain ⟨entry, there, rfl⟩ := List.mem_map.mp guest
    exact List.mem_append_right _ (List.mem_map_of_mem there)

section Runs

def equalFeatures (reference probe : List Byte) : MFloat :=
  if reference = probe then .dyadic 1 0 else .dyadic 0 0

def matching : Outside := { oneFace [1, 2] with matching := .ok (.dyadic 1 0) }

def agrees : Action → Server → Bool
  | .sdk (.facePairMatching _ model localmodel), s =>
    bytesOf s.memory model == bytesOf s.memory localmodel
  | _, _ => true

theorem succeeds_of_agrees (act : Action) (s : Server) (h : agrees act s = true) :
    Succeeds equalFeatures act matching s := by
  unfold Succeeds
  split
  · rfl
  · exact ⟨_, rfl⟩
  · exact ⟨0, [1, 2], rfl⟩
  · rw [equalFeatures, if_pos (beq_iff_eq.mp h)]
    rfl
  · trivial

def visited : Server :=
  { idleServer with
    memory := fun _ k => if k = 0 then 1 else 2
    cache := [⟨⟨.block 0, 2⟩, 7⟩]
    cache_guest := [⟨0, ⟨⟨.block 1, 2⟩, 3⟩⟩] }

theorem compareFace_decided_visited : ∃ past s',
    (onServer 1 (Succeeds equalFeatures)).Completes (compareFace [0xff] "10.0.0.2") visited past 0
      s' ∧ ∃ probe, Extracted (.compareFace [0xff] "10.0.0.2") past probe ∧
        Decided equalFeatures "10.0.0.2" probe (userlist visited) (guestlist visited) s'.memory
          past 0 := by
  have answered : ((onServer 1 (Succeeds equalFeatures)).exec agrees matching
      (compareFace [0xff] "10.0.0.2") visited).map (fun run => run.2.1) = some 0 := by
    decide +kernel
  obtain ⟨⟨past, _, s'⟩, ran, rfl⟩ := Option.map_eq_some_iff.mp answered
  have completes := World.completes_of_exec succeeds_of_agrees ran
  exact ⟨past, s', completes, compareFace_decided equalFeatures completes⟩

end Runs

end ARCServer.EntryLog
