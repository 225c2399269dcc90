import ARCServer.CompareServer
import ARCServer.HandlerOutcomes

/-! What one request leaves behind, whatever it meets on its way. Permits, engines and
locks are always given back; beyond that only a request that is accepted changes anything,
and only what it is for. -/

namespace ARCServer.RequestEffects

open InterleavedPrograms ProgramsAlone EnginePool FaceSdk RequestHandlers CompareServer
  HandlerOutcomes MachineIntegers
open FrameCodec (okReply)

inductive Change
  | nothing
  | imported (row : ImportRow)
  | updated (id lenOfFeature : Int) (userFeature : List Byte)
  | stored (entry : GuestEntry)

namespace Change

def imports : Change → List ImportRow
  | .imported row => [row]
  | _ => []

def table : Change → List UserRow → List UserRow
  | .updated id lenOfFeature userFeature, rows => updateRows id lenOfFeature userFeature rows
  | _, rows => rows

def guests : Change → List GuestEntry
  | .stored entry => [entry]
  | _ => []

end Change

def cachedModels (s : Server) : List FaceModel :=
  s.cache.map UserModel.model ++ s.cache_guest.map fun entry => entry.guest.model

structure Effect (c : Change) (s s' : Server) : Prop where
  pool : s'.pool = s.pool
  lock_user : s'.lock_user = s.lock_user
  lock_guest : s'.lock_guest = s.lock_guest
  cache : s'.cache = s.cache
  cache_guest : s'.cache_guest = s.cache_guest ++ c.guests
  features : ∀ model ∈ cachedModels s, bytesOf s'.memory model = bytesOf s.memory model
  userInformation : s'.userInformation = c.table s.userInformation
  userImport : s'.userImport = s.userImport ++ c.imports

/-- An extraction leaves alone what the caches hold. -/
def DeliversFresh (act : Action) (outside : Outside) (s : Server) : Prop :=
  match act with
  | .sdk (.extractFRFeature e _ _) =>
    ∀ model ∈ cachedModels s, outside.replaces e s.memory model = false
  | _ => True

def Logs (ip : String) (c : Change) : Prop :=
  c = .nothing ∨ ∃ id type, c = .imported ⟨id, ip, type⟩

def Targets (i : ℕ) : Request → Change → Prop
  | .compareFace _ ip, c => Logs ip c
  | .addFeature _ id, c => c = .nothing ∨ ∃ len feature, c = .updated id len feature
  | .addFeatureG _ id, c => ∃ model, c = .stored ⟨i, ⟨model, id⟩⟩

section Effects

variable {c : Change} {s t u : Server}

theorem Effect.refl (s : Server) : Effect .nothing s s :=
  ⟨rfl, rfl, rfl, rfl, (List.append_nil _).symm, fun _ _ => rfl, rfl, (List.append_nil _).symm⟩

theorem Effect.trans (h : Effect .nothing s t) (h' : Effect c t u) : Effect c s u := by
  have guests : t.cache_guest = s.cache_guest := h.cache_guest.trans (List.append_nil _)
  have rows : t.userImport = s.userImport := h.userImport.trans (List.append_nil _)
  have table : t.userInformation = s.userInformation := h.userInformation
  refine ⟨h'.pool.trans h.pool, h'.lock_user.trans h.lock_user, h'.lock_guest.trans h.lock_guest,
    h'.cache.trans h.cache, guests ▸ h'.cache_guest, fun model mem => ?_,
    table ▸ h'.userInformation, rows ▸ h'.userImport⟩
  refine (h'.features model ?_).trans (h.features model mem)
  rw [cachedModels, h.cache, guests]
  exact mem

theorem Effect.then (h : Effect c s t) (h' : Effect .nothing t u) : Effect c s u := by
  have guests : u.cache_guest = t.cache_guest := h'.cache_guest.trans (List.append_nil _)
  have rows : u.userImport = t.userImport := h'.userImport.trans (List.append_nil _)
  refine ⟨h'.pool.trans h.pool, h'.lock_user.trans h.lock_user, h'.lock_guest.trans h.lock_guest,
    h'.cache.trans h.cache, guests.trans h.cache_guest, fun model mem => ?_,
    h'.userInformation.trans h.userInformation, rows.trans h.userImport⟩
  refine (h'.features model ?_).trans (h.features model mem)
  rw [cachedModels, h.cache, h.cache_guest, List.map_append, ← List.append_assoc]
  exact List.mem_append_left _ mem

theorem Effect.withEngine {pool : Pool} (h : Effect c { s with pool } t) :
    Effect c s { t with pool := s.pool } :=
  ⟨rfl, h.lock_user, h.lock_guest, h.cache, h.cache_guest, h.features, h.userInformation,
    h.userImport⟩

theorem Effect.withUserLock {l : ReadWriteLock} (locked : s.lock_user.lockForRead = some l)
    (h : Effect c { s with lock_user := l } t) :
    Effect c s { t with lock_user := t.lock_user.unlock } :=
  ⟨h.pool, by rw [h.lock_user, unlock_of_lockForRead locked], h.lock_guest, h.cache,
    h.cache_guest, h.features, h.userInformation, h.userImport⟩

theorem Effect.withGuestLock {l : ReadWriteLock} (locked : s.lock_guest.lockForRead = some l)
    (h : Effect c { s with lock_guest := l } t) :
    Effect c s { t with lock_guest := t.lock_guest.unlock } :=
  ⟨h.pool, h.lock_user, by rw [h.lock_guest, unlock_of_lockForRead locked], h.cache,
    h.cache_guest, h.features, h.userInformation, h.userImport⟩

theorem effect_imported (s : Server) (row : ImportRow) :
    Effect (.imported row) s { s with userImport := s.userImport ++ [row] } :=
  ⟨rfl, rfl, rfl, rfl, (List.append_nil _).symm, fun _ _ => rfl, rfl, rfl⟩

theorem effect_updated (s : Server) (id len : Int) (feature : List Byte) :
    Effect (.updated id len feature) s
      { s with userInformation := updateRows id len feature s.userInformation } :=
  ⟨rfl, rfl, rfl, rfl, (List.append_nil _).symm, fun _ _ => rfl, rfl, (List.append_nil _).symm⟩

theorem effect_stored (s : Server) (entry : GuestEntry) :
    Effect (.stored entry) s { s with cache_guest := s.cache_guest ++ [entry] } :=
  ⟨rfl, rfl, rfl, rfl, rfl, fun _ _ => rfl, rfl, (List.append_nil _).symm⟩

end Effects

section Handlers

variable {i : ℕ} {s t : Server}

def KeepsToTarget (i : ℕ) (request : Request) (s : Server) (ret : Int) (s' : Server) : Prop :=
  if ret = 0 then ∃ c, Targets i request c ∧ Effect c s s' else Effect .nothing s s'

theorem ensures_sdk {α : Type} {p : Handler α} (uses : p.Uses OnSdk) :
    (onServer i DeliversFresh).Ensures p s fun _ _ s' => Effect .nothing s s' := by
  refine World.ensures_of_uses uses (fun act outside r t t' sdk fresh taken before => ?_)
    (Effect.refl s)
  refine before.then ?_
  cases act with
  | sdk a =>
    cases taken
    refine ⟨rfl, rfl, rfl, rfl, (List.append_nil _).symm, fun model mem => ?_, rfl,
      (List.append_nil _).symm⟩
    cases a with
    | extractFRFeature e inputImg face => exact bytesOf_overwrite_iff.mpr (fresh model mem)
    | _ => rfl
  | pool a => cases sdk
  | db a => cases sdk

theorem ensures_pushEngineIndex_effect {c : Change} {sem e : ℕ} {rest : List ℕ}
    (taken : s.pool = ⟨sem + 1, false, e :: rest⟩)
    (h : Effect c { s with pool := ⟨sem, false, rest⟩ } t) :
    (onServer i DeliversFresh).Ensures (pushEngineIndex e) t fun _ _ s' => Effect c s s' := by
  refine ensures_pushEngineIndex h.pool fun _ _ => ?_
  rw [← taken]
  exact h.withEngine

def Scanned (ip : String) (s : Server) (ret : Int) (t : Server) : Prop :=
  ret = 1 ∧ (∃ c, Logs ip c ∧ Effect c s t) ∨ ret = 0 ∧ Effect .nothing s t

variable {ip : String}

theorem ensures_scan_effect (e : ℕ) (localmodel : FaceModel) (type : Int)
    (list : List (FaceModel × Int)) :
    (onServer i DeliversFresh).Ensures (scan e localmodel type ip 0 list) s
      fun _ ret t => Scanned ip s ret t := by
  refine ensures_scan (fun _ _ _ => .inr ⟨rfl, Effect.refl s⟩)
    fun _ it _ _ exec _ _ _ _ => .inl ⟨rfl, ?_⟩
  cases exec with
  | true => exact ⟨_, .inr ⟨it.2, type, rfl⟩, effect_imported s _⟩
  | false =>
    rw [if_neg Bool.false_ne_true, List.append_nil]
    exact ⟨.nothing, .inl rfl, Effect.refl s⟩

theorem Scanned.withUserLock {ret : Int} {l : ReadWriteLock}
    (locked : s.lock_user.lockForRead = some l)
    (h : Scanned ip { s with lock_user := l } ret t) :
    Scanned ip s ret { t with lock_user := t.lock_user.unlock } := by
  rcases h with ⟨one, c, logs, effect⟩ | ⟨zero, effect⟩
  · exact .inl ⟨one, c, logs, effect.withUserLock locked⟩
  · exact .inr ⟨zero, effect.withUserLock locked⟩

theorem Scanned.withGuestLock {ret : Int} {l : ReadWriteLock}
    (locked : s.lock_guest.lockForRead = some l)
    (h : Scanned ip { s with lock_guest := l } ret t) :
    Scanned ip s ret { t with lock_guest := t.lock_guest.unlock } := by
  rcases h with ⟨one, c, logs, effect⟩ | ⟨zero, effect⟩
  · exact .inl ⟨one, c, logs, effect.withGuestLock locked⟩
  · exact .inr ⟨zero, effect.withGuestLock locked⟩

theorem ensures_compareGuests_effect (e : ℕ) (localmodel : FaceModel) :
    (onServer i DeliversFresh).Ensures (compareGuests e localmodel ip) s
      fun _ ret t => Scanned ip s ret t := by
  simp only [compareGuests, World.ensures_bind, World.ensures_pure]
  refine ensures_getCacheGuest fun l locked => ?_
  refine (ensures_scan_effect e localmodel 2 _).mono fun _ ret t scanned => ?_
  exact ensures_freeGuestLock (scanned.withGuestLock locked)

theorem keepsToTarget_refused {request : Request} {ret : Int} (h : Effect .nothing s t)
    (nonzero : ret ≠ 0) : KeepsToTarget i request s ret t := by
  rw [KeepsToTarget, if_neg nonzero]
  exact h

theorem keepsToTarget_accepted {request : Request} {c : Change} (target : Targets i request c)
    (h : Effect c s t) : KeepsToTarget i request s 0 t := by
  rw [KeepsToTarget, if_pos rfl]
  exact ⟨c, target, h⟩

theorem ensures_verdict {data : List Byte} {userRet guestRet : Int} {sem e : ℕ} {rest : List ℕ}
    {c : Change} (taken : s.pool = ⟨sem + 1, false, e :: rest⟩)
    (effect : Effect c { s with pool := ⟨sem, false, rest⟩ } t)
    (accepted : userRet.lor (if guestRet = 1 then 1 else 0) ≠ 0 → Logs ip c)
    (refused : userRet.lor (if guestRet = 1 then 1 else 0) = 0 → c = .nothing) :
    (onServer i DeliversFresh).Ensures
      (do
        pushEngineIndex e
        return if userRet.lor (if guestRet = 1 then 1 else 0) ≠ 0 then (0 : Int) else 1)
      t fun _ ret s' => KeepsToTarget i (.compareFace data ip) s ret s' := by
  rw [World.ensures_bind]
  refine (ensures_pushEngineIndex_effect taken effect).mono fun _ _ u whole => ?_
  rw [World.ensures_pure]
  by_cases none : userRet.lor (if guestRet = 1 then 1 else 0) = 0
  · rw [if_neg (not_not.mpr none)]
    rw [refused none] at whole
    exact keepsToTarget_refused whole (by decide)
  · rw [if_pos none]
    exact keepsToTarget_accepted (accepted none) whole

theorem ensures_compareFace (data : List Byte) (ip : String) :
    (onServer i DeliversFresh).Ensures (compareFace data ip) s
      fun _ ret t => KeepsToTarget i (.compareFace data ip) s ret t := by
  rw [compareFace]
  refine ensures_decoded (fun _ => rfl) (fun _ _ _ _ _ _ => ?_)
    fun _ _ img sem e rest _ _ _ pool _ _ => ?_
  · exact keepsToTarget_refused (Effect.refl s) (by decide)
  · dsimp only
    rw [World.ensures_bind]
    refine (ensures_sdk (uses_getFeature _ _ _ _ _ _)).mono fun _ feature t extracted => ?_
    rw [World.ensures_bind]
    refine ensures_getCache fun l locked => ?_
    rw [World.ensures_bind]
    refine (ensures_scan_effect e feature.2 1 _).mono fun _ ret u scanned => ?_
    rw [World.ensures_bind]
    refine ensures_freeUserLock ?_
    rcases scanned.withUserLock locked with ⟨rfl, c, logs, effect⟩ | ⟨rfl, effect⟩
    · rw [if_neg (by decide), World.ensures_bind, World.ensures_pure]
      refine ensures_verdict pool (extracted.trans effect) (fun _ => logs) fun none => ?_
      cases none
    · rw [if_pos (by decide), World.ensures_bind]
      refine (ensures_compareGuests_effect e feature.2).mono fun _ ret v scanned => ?_
      rcases scanned with ⟨rfl, c, logs, guests⟩ | ⟨rfl, guests⟩
      · refine ensures_verdict pool (extracted.trans (effect.trans guests)) (fun _ => logs) ?_
        exact fun none => absurd none (by decide)
      · refine ensures_verdict pool (extracted.trans (effect.trans guests)) ?_ fun _ => rfl
        exact fun found => absurd rfl found

theorem ensures_addFeature (data : List Byte) (id : Int) :
    (onServer i DeliversFresh).Ensures (addFeature data id) s
      fun _ ret t => KeepsToTarget i (.addFeature data id) s ret t := by
  rw [addFeature]
  refine ensures_decoded (fun _ => rfl) (fun _ _ _ _ _ _ => ?_)
    fun _ _ img sem e rest _ _ _ pool _ _ => ?_
  · exact keepsToTarget_refused (Effect.refl s) (by decide)
  · dsimp only
    rw [World.ensures_bind]
    refine (ensures_sdk (uses_getFeature _ _ _ _ _ _)).mono fun _ feature t extracted => ?_
    rw [World.ensures_bind]
    refine (ensures_pushEngineIndex_effect pool extracted).mono fun _ _ u effect => ?_
    split
    · rw [World.ensures_bind]
      -- what `addFeature_User` returns is dropped, so both outcomes are accepted
      refine ensures_addFeatureUser rfl fun outside _ => ?_
      cases outside.exec with
      | false => exact keepsToTarget_accepted (.inl rfl) effect
      | true =>
      exact keepsToTarget_accepted (.inr ⟨_, _, rfl⟩) (effect.trans (effect_updated u id _ _))
    · exact keepsToTarget_refused effect (by decide)

theorem ensures_addFeatureG (data : List Byte) (id : Int) :
    (onServer i DeliversFresh).Ensures (addFeatureG data id) s
      fun _ ret t => KeepsToTarget i (.addFeatureG data id) s ret t := by
  rw [addFeatureG]
  refine ensures_decoded (fun _ => rfl) (fun _ _ _ _ _ _ => ?_)
    fun _ _ img sem e rest _ _ _ pool _ _ => ?_
  · exact keepsToTarget_refused (Effect.refl s) (by decide)
  · dsimp only
    rw [World.ensures_bind]
    refine (ensures_sdk (uses_getFeature _ _ _ _ _ _)).mono fun _ feature t extracted => ?_
    split
    · rw [World.ensures_bind]
      refine ensures_addFeatureGuest fun _ => ?_
      rw [World.ensures_bind]
      refine (ensures_pushEngineIndex_effect pool
        (extracted.trans (effect_stored t _))).mono fun _ _ u effect => ?_
      exact keepsToTarget_accepted ⟨_, rfl⟩ effect
    · rw [World.ensures_bind]
      refine (ensures_pushEngineIndex_effect pool extracted).mono fun _ _ u effect => ?_
      exact keepsToTarget_refused effect (by decide)

theorem ensures_handler (request : Request) :
    (onServer i DeliversFresh).Ensures request.handler s
      fun _ ret t => KeepsToTarget i request s ret t := by
  cases request with
  | compareFace data ip => exact ensures_compareFace data ip
  | addFeature data id => exact ensures_addFeature data id
  | addFeatureG data id => exact ensures_addFeatureG data id

theorem KeepsToTarget.features {request : Request} {ret : Int}
    (h : KeepsToTarget i request s ret t) :
    ∀ model ∈ cachedModels s, bytesOf t.memory model = bytesOf s.memory model := by
  rw [KeepsToTarget] at h
  split at h
  · obtain ⟨c, -, effect⟩ := h
    exact effect.features
  · exact h.features

theorem ensures_message (engines : Bool) (request : Request) :
    (onServer i DeliversFresh).Ensures (message engines request) s fun _ reply t =>
      reply = noReply ∧ Effect .nothing s t ∨
        reply = okReply ∧ ∃ c, Targets i request c ∧ Effect c s t := by
  rw [message_eq, onStringMessage]
  split
  · rw [World.ensures_bind]
    refine (ensures_handler request).mono fun _ ret t settled => ?_
    rw [KeepsToTarget] at settled
    rw [World.ensures_pure]
    split
    · next zero =>
      rw [if_pos zero] at settled
      exact .inr ⟨rfl, settled⟩
    · next nonzero =>
      rw [if_neg nonzero] at settled
      exact .inl ⟨rfl, settled⟩
  · exact .inl ⟨rfl, Effect.refl s⟩

end Handlers

/-- A refused request changes nothing, an accepted one only what it is for. -/
theorem message_effect {i : ℕ} {engines : Bool} {request : Request} {s s' : Server} {past : Events}
    {reply : List Byte}
    (h : (onServer i DeliversFresh).Completes (message engines request) s past reply s') :
    reply = noReply ∧ Effect .nothing s s' ∨
      reply = okReply ∧ ∃ c, Targets i request c ∧ Effect c s s' :=
  (ensures_message engines request).completes h

section Runs

def spared (outside : Outside) : Action → Server → Bool
  | .sdk (.extractFRFeature e _ _), s =>
    (cachedModels s).all fun model => !outside.replaces e s.memory model
  | _, _ => true

theorem deliversFresh_of_spared (outside : Outside) (act : Action) (s : Server)
    (h : spared outside act s = true) : DeliversFresh act outside s := by
  unfold DeliversFresh
  split
  · intro model mem
    exact (Bool.not_eq_eq_eq_not ..).mp (List.all_eq_true.mp h model mem)
  · trivial

def knownServer : Server := { idleServer with
  memory := fun ptr i => if ptr = .block 0 ∨ ptr = .engine 8 0 then [5, 6].getD i 0 else 0
  cache := [⟨⟨.block 0, 2⟩, 7⟩]
  cache_guest := [⟨3, ⟨⟨.engine 8 0, 2⟩, 1⟩⟩] }

theorem completes_of_reply (outside : Outside) (request : Request) (reply : List Byte)
    (h : ((onServer 0 DeliversFresh).exec (spared outside) outside (message true request)
      knownServer).map (fun run => run.2.1) = some reply) :
    ∃ past s', (onServer 0 DeliversFresh).Completes (message true request) knownServer past reply
      s' := by
  obtain ⟨⟨past, _, s'⟩, ran, rfl⟩ := Option.map_eq_some_iff.mp h
  exact ⟨past, s', World.completes_of_exec (deliversFresh_of_spared _) ran⟩

/-- With engine 9 on top, a visitor is refused, user 7 let in, and a guest accepted. -/
theorem message_effect_known :
    (∃ past s', (onServer 0 DeliversFresh).Completes (message true (.compareFace [0xff] "gate"))
      knownServer past noReply s' ∧ Effect .nothing knownServer s') ∧
    (∃ past s', (onServer 0 DeliversFresh).Completes (message true (.compareFace [0xff] "gate"))
      knownServer past okReply s' ∧
        ∃ c, Targets 0 (.compareFace [0xff] "gate") c ∧ Effect c knownServer s') ∧
    ∃ past s', (onServer 0 DeliversFresh).Completes (message true (.addFeatureG [0xff] 2))
      knownServer past okReply s' ∧
        ∃ c, Targets 0 (.addFeatureG [0xff] 2) c ∧ Effect c knownServer s' := by
  refine ⟨?_, ?_, ?_⟩
  · obtain ⟨past, s', completes⟩ := completes_of_reply (oneFace [3, 4])
      (.compareFace [0xff] "gate") noReply (by decide +kernel)
    rcases message_effect completes with ⟨-, nothing⟩ | ⟨accepted, -⟩
    · exact ⟨past, s', completes, nothing⟩
    · cases accepted
  · obtain ⟨past, s', completes⟩ := completes_of_reply
      { oneFace [5, 6] with matching := .ok (.dyadic 1 0) }
      (.compareFace [0xff] "gate") okReply (by decide +kernel)
    rcases message_effect completes with ⟨refused, -⟩ | ⟨-, logged⟩
    · cases refused
    · exact ⟨past, s', completes, logged⟩
  · obtain ⟨past, s', completes⟩ := completes_of_reply (oneFace [3, 4])
      (.addFeatureG [0xff] 2) okReply (by decide +kernel)
    rcases message_effect completes with ⟨refused, -⟩ | ⟨-, stored⟩
    · cases refused
    · exact ⟨past, s', completes, stored⟩

end Runs

end ARCServer.RequestEffects
