import ARCServer.PoolExclusivity
import ARCServer.RequestEffects

/-! What any number of requests leave behind, however they are interleaved. The tables and
the guest cache are what single changes make one after another; each change belongs to one
request, and no request has two. -/

namespace ARCServer.RequestAccounting

open InterleavedPrograms RequestHandlers RequestEffects PoolExclusivity FaceSdk MachineIntegers

def deed (i : ℕ) : Event Action Action.Response → Option Change
  | ⟨.db (.insertImport id userType ip), true⟩ => some (.imported ⟨id, ip, userType⟩)
  | ⟨.db (.updateUser id lenOfFeature userFeature), true⟩ =>
    some (.updated id lenOfFeature userFeature)
  | ⟨.db (.pushGuest guest), _⟩ => some (.stored ⟨i, guest⟩)
  | _ => none

def Writes : Action → Bool
  | .db (.insertImport _ _ _) | .db (.updateUser _ _ _) | .db (.pushGuest _) => true
  | _ => false

/-- A request with what it has written so far, also in vain. -/
structure Account where
  request : Request
  writes : List (Event Action Action.Response)

namespace Account

def opened (request : Request) : Account := ⟨request, []⟩

def admits (φ : Account) : Action → Prop
  | .db (.insertImport _ _ ip) => φ.writes = [] ∧ ∃ data, φ.request = .compareFace data ip
  | .db (.updateUser id _ _) => φ.writes = [] ∧ ∃ data, φ.request = .addFeature data id
  | .db (.pushGuest guest) => φ.writes = [] ∧ ∃ data, φ.request = .addFeatureG data guest.UserID
  | _ => True

def next (φ : Account) (act : Action) (r : act.Response) : Account :=
  if Writes act then { φ with writes := φ.writes ++ [⟨act, r⟩] } else φ

def Closes (ret : Int) (φ : Account) : Prop :=
  ret = 0 ∧ φ.writes ≠ [] ∨ ret ≠ 0 ∧ φ.writes = []

end Account

def accounting : Protocol Action Action.Response Account := ⟨Account.admits, Account.next⟩

section Handlers

def NoWrite (act : Action) : Prop := Writes act = false

theorem noWrite_of_onSdk (act : Action) (h : OnSdk act) : NoWrite act := by
  cases act with
  | sdk a => rfl
  | pool a => cases h
  | db a => cases h

theorem noWrite_of_onPool (act : Action) (h : OnPool act) : NoWrite act := by
  cases act with
  | pool a => rfl
  | sdk a => cases h
  | db a => cases h

theorem noWrite_popEngineIndex : popEngineIndex.Uses NoWrite :=
  uses_popEngineIndex.mono noWrite_of_onPool

theorem noWrite_pushEngineIndex (e : ℕ) : (pushEngineIndex e).Uses NoWrite :=
  (uses_pushEngineIndex e).mono noWrite_of_onPool

variable {φ : Account} {α : Type} {p : Handler α} {post : α → Account → Prop}

theorem follows_noWrite (uses : p.Uses NoWrite) (h : ∀ a, post a φ) :
    accounting.Follows φ p post := by
  refine Protocol.follows_of_uses uses (fun act quiet => ⟨?_, fun r => ?_⟩) h
  · cases act with
    | db a => cases a <;> first | exact trivial | cases quiet
    | _ => trivial
  · exact if_neg (Bool.eq_false_iff.mp quiet)

theorem follows_giveUp (e : ℕ) {ret : Int} (h : Account.Closes ret φ) :
    accounting.Follows φ (do pushEngineIndex e; return ret) Account.Closes :=
  (accounting.follows_bind ..).mpr (follows_noWrite (noWrite_pushEngineIndex e) fun _ => h)

theorem follows_compareFeature (e : ℕ) (model localmodel : FaceModel) {post : Int → Account → Prop}
    (hit : post 1 φ) (miss : post 0 φ) :
    accounting.Follows φ (compareFeature e model localmodel) post := by
  simp only [compareFeature, callSdk, Protocol.follows_bind, Protocol.follows_perform,
    Protocol.follows_pure]
  refine ⟨trivial, fun res => ⟨trivial, fun matching => ?_⟩⟩
  split
  · exact hit
  · exact miss

def ScanMade (request : Request) (ret : Int) (φ : Account) : Prop :=
  φ.request = request ∧ (ret = 1 ∧ φ.writes ≠ [] ∨ ret = 0 ∧ φ.writes = [])

theorem follows_scan (e : ℕ) (localmodel : FaceModel) (type : Int) (data : List Byte) (ip : String)
    (list : List (FaceModel × Int)) :
    accounting.Follows (.opened (.compareFace data ip)) (scan e localmodel type ip 0 list)
      (ScanMade (.compareFace data ip)) := by
  induction list with
  | nil => exact ⟨rfl, .inr ⟨rfl, rfl⟩⟩
  | cons it rest ih =>
    rw [scan, Protocol.follows_bind]
    refine follows_compareFeature e it.1 localmodel ?_ ?_
    · rw [if_pos rfl, Protocol.follows_bind]
      refine ⟨⟨rfl, data, rfl⟩, fun exec => ⟨rfl, .inl ⟨rfl, ?_⟩⟩⟩
      exact List.cons_ne_nil _ _
    · rw [if_neg (by decide)]
      exact ih

theorem ScanMade.opened {request : Request} {ret : Int} (h : ScanMade request ret φ)
    (missed : ret ≠ 1) : φ = .opened request := by
  obtain ⟨same, ⟨hit, -⟩ | ⟨-, writes⟩⟩ := h
  · exact absurd hit missed
  · rw [Account.opened, ← same, ← writes]

theorem follows_compareGuests (e : ℕ) (localmodel : FaceModel) (data : List Byte) (ip : String) :
    accounting.Follows (.opened (.compareFace data ip)) (compareGuests e localmodel ip)
      (ScanMade (.compareFace data ip)) := by
  simp only [compareGuests, getCacheGuest, freeGuestLock, onDb, Protocol.follows_bind,
    Protocol.follows_perform, Protocol.follows_pure]
  refine ⟨trivial, fun _ => ⟨trivial, fun guestlist => ?_⟩⟩
  exact (follows_scan e localmodel 2 data ip _).mono fun ret φ scanned =>
    ⟨trivial, fun _ => scanned⟩

theorem follows_compareFace (data : List Byte) (ip : String) :
    accounting.Follows (.opened (.compareFace data ip)) (compareFace data ip)
      Account.Closes := by
  simp only [compareFace, callSdk, Protocol.follows_bind, Protocol.follows_perform]
  refine follows_noWrite noWrite_popEngineIndex fun e => ⟨trivial, fun image => ?_⟩
  cases image with
  | none => exact follows_giveUp e (.inr ⟨by decide, rfl⟩)
  | some img =>
    dsimp only
    rw [Protocol.follows_bind]
    refine follows_noWrite ((uses_getFeature _ _ _ _ _ _).mono noWrite_of_onSdk) fun feature => ?_
    simp only [getCache, freeUserLock, onDb, Protocol.follows_bind, Protocol.follows_perform]
    refine ⟨trivial, fun _ => ⟨trivial, fun userlist => ?_⟩⟩
    refine (follows_scan e feature.2 1 data ip _).mono fun userRet φ scanned =>
      ⟨trivial, fun _ => ?_⟩
    by_cases user : userRet = 1
    · have wrote : φ.writes ≠ [] := by
        rcases scanned.2 with ⟨-, writes⟩ | ⟨missed, -⟩
        · exact writes
        · exact absurd (user.symm.trans missed) (by decide)
      rw [if_neg (not_not.mpr user), user]
      exact (accounting.follows_bind ..).mpr (follows_giveUp e (.inl ⟨by decide, wrote⟩))
    · obtain rfl : φ = .opened (.compareFace data ip) := scanned.opened user
      have none : userRet = 0 := by
        rcases scanned.2 with ⟨hit, -⟩ | ⟨missed, -⟩
        · exact absurd hit user
        · exact missed
      rw [if_pos user, none, Protocol.follows_bind]
      refine (follows_compareGuests e feature.2 data ip).mono fun guestRet φ found => ?_
      refine follows_giveUp e ?_
      rcases found.2 with ⟨rfl, writes⟩ | ⟨rfl, writes⟩
      · exact .inl ⟨by decide, writes⟩
      · exact .inr ⟨by decide, writes⟩

/-- The return value of `addFeature_User` is not looked at: an update that is not executed
counts as written, too. -/
theorem follows_addFeature (data : List Byte) (id : Int) :
    accounting.Follows (.opened (.addFeature data id)) (addFeature data id)
      Account.Closes := by
  simp only [addFeature, callSdk, Protocol.follows_bind, Protocol.follows_perform]
  refine follows_noWrite noWrite_popEngineIndex fun e => ⟨trivial, fun image => ?_⟩
  cases image with
  | none => exact follows_giveUp e (.inr ⟨by decide, rfl⟩)
  | some img =>
    dsimp only
    simp only [Protocol.follows_bind]
    refine follows_noWrite ((uses_getFeature _ _ _ _ _ _).mono noWrite_of_onSdk) fun feature =>
      follows_noWrite (noWrite_pushEngineIndex e) fun _ => ?_
    split
    · simp only [addFeatureUser, onDb, Protocol.follows_bind, Protocol.follows_perform]
      refine ⟨trivial, fun bytes => ⟨⟨rfl, data, rfl⟩, fun exec => ?_⟩⟩
      split <;> exact .inl ⟨rfl, List.cons_ne_nil _ _⟩
    · exact .inr ⟨by decide, rfl⟩

theorem follows_addFeatureG (data : List Byte) (id : Int) :
    accounting.Follows (.opened (.addFeatureG data id)) (addFeatureG data id)
      Account.Closes := by
  simp only [addFeatureG, callSdk, Protocol.follows_bind, Protocol.follows_perform]
  refine follows_noWrite noWrite_popEngineIndex fun e => ⟨trivial, fun image => ?_⟩
  cases image with
  | none => exact follows_giveUp e (.inr ⟨by decide, rfl⟩)
  | some img =>
    dsimp only
    rw [Protocol.follows_bind]
    refine follows_noWrite ((uses_getFeature _ _ _ _ _ _).mono noWrite_of_onSdk) fun feature => ?_
    split
    · simp only [addFeatureGuest, onDb, Protocol.follows_bind, Protocol.follows_perform,
        Protocol.follows_pure]
      exact ⟨trivial, fun _ => ⟨trivial, fun _ => ⟨⟨rfl, data, rfl⟩, fun _ => ⟨trivial, fun _ =>
        follows_giveUp e (.inl ⟨rfl, List.cons_ne_nil _ _⟩)⟩⟩⟩⟩
    · exact follows_giveUp e (.inr ⟨by decide, rfl⟩)

theorem follows_handler (request : Request) :
    accounting.Follows (.opened request) request.handler Account.Closes := by
  cases request with
  | compareFace data ip => exact follows_compareFace data ip
  | addFeature data id => exact follows_addFeature data id
  | addFeatureG data id => exact follows_addFeatureG data id

end Handlers

section Changes

structure Made (start : Server) (changes : List Change) (s : Server) : Prop where
  cache : s.cache = start.cache
  cache_guest : s.cache_guest = start.cache_guest ++ changes.flatMap Change.guests
  userInformation : s.userInformation =
    changes.foldl (fun rows change => change.table rows) start.userInformation
  userImport : s.userImport = start.userImport ++ changes.flatMap Change.imports

variable {i : ℕ} {outside : Outside} {start s s' : Server} {changes more : List Change}

theorem Made.same (cache : s'.cache = s.cache) (guests : s'.cache_guest = s.cache_guest)
    (rows : s'.userInformation = s.userInformation) (imports : s'.userImport = s.userImport) :
    Made s [] s' :=
  ⟨cache, guests.trans (List.append_nil _).symm, rows, imports.trans (List.append_nil _).symm⟩

theorem Made.trans (h : Made start changes s) (h' : Made s more s') :
    Made start (changes ++ more) s' := by
  constructor
  · exact h'.cache.trans h.cache
  · rw [h'.cache_guest, h.cache_guest, List.flatMap_append, List.append_assoc]
  · rw [h'.userInformation, h.userInformation, List.foldl_append]
  · rw [h'.userImport, h.userImport, List.flatMap_append, List.append_assoc]

theorem made_step {act : Action} {r : act.Response}
    (h : arcServer.step i act outside s = some (r, s')) : Made s (deed i ⟨act, r⟩).toList s' := by
  cases act with
  | pool a =>
    obtain ⟨pool, -, rfl⟩ := step_pool h
    exact .same rfl rfl rfl rfl
  | sdk a =>
    obtain ⟨-, rfl⟩ := step_sdk h
    exact .same rfl rfl rfl rfl
  | db a =>
    change a.step i outside s = some (r, s') at h
    cases a with
    | lockUserForRead | lockGuestForRead | lockGuestForWrite =>
      obtain ⟨l, -, same⟩ := Option.map_eq_some_iff.mp h
      cases same
      exact .same rfl rfl rfl rfl
    | pushGuest guest =>
      cases h
      exact ⟨rfl, rfl, rfl, (List.append_nil _).symm⟩
    | updateUser id len feature =>
      cases h
      cases outside.exec with
      | false => exact .same rfl rfl rfl rfl
      | true => exact ⟨rfl, (List.append_nil _).symm, rfl, (List.append_nil _).symm⟩
    | insertImport id type ip =>
      cases h
      cases outside.exec with
      | false => exact .same rfl rfl rfl rfl
      | true => exact ⟨rfl, (List.append_nil _).symm, rfl, rfl⟩
    | _ =>
      cases h
      exact .same rfl rfl rfl rfl

end Changes

section Log

abbrev Log := List (ℕ × Change)

def ofRequest (i : ℕ) (log : Log) : List Change :=
  (log.filter fun entry => entry.1 = i).map Prod.snd

variable {i j : ℕ} {log : Log} {φ ψ : Account} {φs : List Account}

theorem ofRequest_self (log : Log) (changes : List Change) :
    ofRequest i (log ++ changes.map fun change => (i, change)) = ofRequest i log ++ changes := by
  rw [ofRequest, List.filter_append, List.map_append, ofRequest]
  congr 1
  rw [List.filter_eq_self.mpr, List.map_map]
  · exact List.map_id changes
  · intro entry mem
    obtain ⟨change, -, rfl⟩ := List.mem_map.mp mem
    exact decide_eq_true rfl

theorem ofRequest_other (other : i ≠ j) (log : Log) (changes : List Change) :
    ofRequest j (log ++ changes.map fun change => (i, change)) = ofRequest j log := by
  have nothing :
      (changes.map fun change => (i, change)).filter (fun entry => entry.1 = j) = [] := by
    refine List.filter_eq_nil_iff.mpr fun entry mem => ?_
    obtain ⟨change, -, rfl⟩ := List.mem_map.mp mem
    simpa using other
  rw [ofRequest, List.filter_append, nothing, List.append_nil, ofRequest]

theorem ofRequest_of_absent (absent : ∀ entry ∈ log, entry.1 ≠ i) : ofRequest i log = [] := by
  have none : log.filter (fun entry => entry.1 = i) = [] :=
    List.filter_eq_nil_iff.mpr fun entry mem => by simpa using absent entry mem
  rw [ofRequest, none]
  rfl

def Account.deeds (i : ℕ) (φ : Account) : List Change := φ.writes.filterMap (deed i)

theorem deeds_next (i : ℕ) (φ : Account) (act : Action) (r : act.Response) :
    (φ.next act r).deeds i = φ.deeds i ++ (deed i ⟨act, r⟩).toList := by
  unfold Account.next
  split
  · rw [Account.deeds, List.filterMap_append]
    cases made : deed i ⟨act, r⟩ with
    | none => rw [List.filterMap_cons_none made]; rfl
    | some change => rw [List.filterMap_cons_some made]; rfl
  · next quiet =>
    have none : deed i ⟨act, r⟩ = none := by
      cases act with
      | db a => cases a <;> first | rfl | exact absurd rfl quiet
      | _ => rfl
    rw [none]
    exact (List.append_nil _).symm

structure Accounted (start s : Server) (φs : List Account) (log : Log) : Prop where
  made : Made start (log.map Prod.snd) s
  numbers : ∀ entry ∈ log, entry.1 < φs.length
  own : ∀ (i : ℕ) φ, φs[i]? = some φ → ofRequest i log = φ.deeds i

variable {start s s' : Server}

theorem Accounted.arrive (h : Accounted start s φs log) (request : Request) :
    Accounted start s (φs ++ [.opened request]) log := by
  refine ⟨h.made, fun entry mem => ?_, fun i φ at_i => ?_⟩
  · rw [List.length_append]
    exact Nat.lt_add_right 1 (h.numbers entry mem)
  · rcases of_getElem?_concat at_i with before | ⟨rfl, rfl⟩
    · exact h.own i φ before
    · exact ofRequest_of_absent fun entry mem => (h.numbers entry mem).ne

theorem Accounted.step (h : Accounted start s φs log) (at_i : φs[i]? = some φ) {act : Action}
    {r : act.Response} {outside : Outside}
    (hs : arcServer.step i act outside s = some (r, s')) :
    Accounted start s' (φs.set i (φ.next act r))
      (log ++ (deed i ⟨act, r⟩).toList.map fun change => (i, change)) := by
  have inside := (List.getElem?_eq_some_iff.mp at_i).1
  refine ⟨?_, fun entry mem => ?_, fun j ψ at_j => ?_⟩
  · have same : ((deed i ⟨act, r⟩).toList.map fun change => (i, change)).map Prod.snd =
        (deed i ⟨act, r⟩).toList := by
      rw [List.map_map]
      exact List.map_id _
    rw [List.map_append, same]
    exact h.made.trans (made_step hs)
  · rw [List.length_set]
    rcases List.mem_append.mp mem with old | new
    · exact h.numbers entry old
    · obtain ⟨change, -, rfl⟩ := List.mem_map.mp new
      exact inside
  · by_cases same : i = j
    · subst same
      rw [List.getElem?_set_self inside] at at_j
      cases at_j
      rw [ofRequest_self, deeds_next, h.own i φ at_i]
    · rw [List.getElem?_set_ne same] at at_j
      rw [ofRequest_other same]
      exact h.own j ψ at_j

end Log

section Runs

abbrev accountOf (t : RequestThread) : Account := System.localState accounting Account.opened t

theorem always_accounted (start : Server) (moves : Run) :
    arcServer.Always (fun c =>
      System.Disciplined accounting Account.opened (fun _ => Account.Closes) c ∧
        ∃ log, Accounted start c.shared (System.locals accounting Account.opened c) log)
      ⟨start, []⟩ moves := by
  refine arcServer.always_locals follows_handler
    (fun s φs => ∃ log, Accounted start s φs log) ?_ ?_ ⟨[], ?_⟩ (arcServer.eachMove_true _ _)
  · rintro s φs request ⟨log, accounted⟩
    exact ⟨log, accounted.arrive request⟩
  · rintro c i outside φ act r s at_i - hs - - ⟨log, accounted⟩
    exact ⟨_, accounted.step at_i hs⟩
  · exact ⟨.same rfl rfl rfl rfl, fun _ mem => absurd mem List.not_mem_nil,
      fun _ _ none => by cases none⟩

def Proper (φ : Account) : Prop :=
  φ.writes = [] ∨ ∃ act r, (Account.opened φ.request).admits act ∧ Writes act = true ∧
    φ.writes = [⟨act, r⟩]

theorem proper_next {φ : Account} {act : Action} (r : act.Response) (proper : Proper φ)
    (adm : φ.admits act) : Proper (φ.next act r) := by
  unfold Account.next
  split
  · next writes =>
    have first : φ.writes = [] := by
      cases act with
      | db a => cases a <;> first | exact adm.1 | cases writes
      | _ => cases writes
    refine .inr ⟨act, r, ?_, writes, by rw [first]; rfl⟩
    rw [Account.opened, ← first]
    exact adm
  · exact proper

def InTurn (request : Request) (past : List (Event Action Action.Response)) : Prop :=
  Proper (accounting.after (.opened request) past) ∧
    (accounting.after (.opened request) past).request = request

theorem inTurn_concat {request : Request} {past : List (Event Action Action.Response)}
    {act : Action} (r : act.Response)
    (adm : accounting.admits (accounting.after (.opened request) past) act)
    (turn : InTurn request past) : InTurn request (past ++ [⟨act, r⟩]) := by
  unfold InTurn
  rw [Protocol.after_concat]
  refine ⟨proper_next r turn.1 adm, ?_⟩
  change (Account.next _ act r).request = request
  unfold Account.next
  split
  · exact turn.2
  · exact turn.2

theorem always_inTurn (start : Server) (moves : Run) :
    arcServer.Always (fun c => ∀ t ∈ c.threads, InTurn t.request t.past) ⟨start, []⟩ moves := by
  have threads : arcServer.Always (fun c =>
      System.Disciplined accounting Account.opened (fun _ => Account.Closes) c ∧
        ∀ t ∈ c.threads, InTurn t.request t.past) ⟨start, []⟩ moves :=
    arcServer.always_threads follows_handler (fun request => ⟨.inl rfl, rfl⟩)
      (fun _ _ _ r adm turn => inTurn_concat r adm turn) start moves
  exact fun k d reached => (threads k d reached).2

structure Keeps (i : ℕ) (t : RequestThread) (changes : List Change) : Prop where
  once : changes = [] ∨ ∃ change, Targets i t.request change ∧ changes = [change]
  refused : ∀ ret, t.code = .ret ret → ret ≠ 0 → changes = []
  stored : ∀ data id, t.request = .addFeatureG data id → t.code = .ret 0 → changes ≠ []

def Serialised (start : Server) (c : Requests) : Prop :=
  ∃ log : Log, Made start (log.map Prod.snd) c.shared ∧
    (∀ entry ∈ log, entry.1 < c.threads.length) ∧
    ∀ (i : ℕ) t, c.threads[i]? = some t → Keeps i t (ofRequest i log)

theorem deeds_of_write {i : ℕ} {φ : Account} {act : Action} {r : act.Response}
    (writes : φ.writes = [⟨act, r⟩]) : φ.deeds i = (deed i ⟨act, r⟩).toList := by
  rw [Account.deeds, writes]
  cases made : deed i ⟨act, r⟩ with
  | none => exact List.filterMap_cons_none made
  | some change => exact List.filterMap_cons_some made

theorem targets_of_deed {i : ℕ} {request : Request} {act : Action} {r : act.Response}
    {change : Change} (adm : (Account.opened request).admits act)
    (made : deed i ⟨act, r⟩ = some change) : Targets i request change := by
  cases act with
  | db a =>
    cases a with
    | insertImport id type ip =>
      obtain ⟨-, data, rfl⟩ : _ ∧ ∃ data, request = .compareFace data ip := adm
      cases r with
      | false => cases made
      | true =>
        cases made
        exact .inr ⟨id, type, rfl⟩
    | updateUser id len feature =>
      obtain ⟨-, data, rfl⟩ : _ ∧ ∃ data, request = .addFeature data id := adm
      cases r with
      | false => cases made
      | true =>
        cases made
        exact .inr ⟨len, feature, rfl⟩
    | pushGuest guest =>
      obtain ⟨-, data, rfl⟩ : _ ∧ ∃ data, request = .addFeatureG data guest.UserID := adm
      cases made
      exact ⟨guest.model, rfl⟩
    | _ => cases made
  | _ => cases made

theorem keeps_of_account {i : ℕ} {t : RequestThread} (proper : Proper (accountOf t))
    (same : (accountOf t).request = t.request)
    (closes : ∀ ret, t.code = .ret ret → Account.Closes ret (accountOf t)) :
    Keeps i t ((accountOf t).deeds i) := by
  have empty (none : (accountOf t).writes = []) : (accountOf t).deeds i = [] := by
    rw [Account.deeds, none]
    rfl
  refine ⟨?_, fun ret code nonzero => ?_, fun data id guest code => ?_⟩
  · rcases proper with none | ⟨act, r, adm, -, writes⟩
    · exact .inl (empty none)
    · rw [deeds_of_write writes]
      rw [same] at adm
      cases made : deed i ⟨act, r⟩ with
      | none => exact .inl rfl
      | some change => exact .inr ⟨change, targets_of_deed adm made, rfl⟩
  · rcases closes ret code with ⟨zero, -⟩ | ⟨-, none⟩
    · exact absurd zero nonzero
    · exact empty none
  · rcases closes 0 code with ⟨-, wrote⟩ | ⟨nonzero, -⟩
    · rcases proper with none | ⟨act, r, adm, write, writes⟩
      · exact absurd none wrote
      · rw [deeds_of_write writes]
        rw [same, guest] at adm
        cases act with
        | db a =>
          cases a with
          | pushGuest guest => exact List.cons_ne_nil _ _
          | insertImport id type ip =>
            obtain ⟨-, data', other⟩ := adm
            cases other
          | updateUser id len feature =>
            obtain ⟨-, data', other⟩ := adm
            cases other
          | _ => cases write
        | _ => cases write
    · exact absurd rfl nonzero

theorem serialised_of_run {start : Server} {moves : Run} {d : Requests}
    (reached : arcServer.run ⟨start, []⟩ moves = some d) : Serialised start d := by
  obtain ⟨disciplined, log, accounted⟩ := (always_accounted start moves).last arcServer reached
  refine ⟨log, accounted.made, fun entry mem => ?_, fun i t at_i => ?_⟩
  · have inside := accounted.numbers entry mem
    rw [System.locals, List.length_map] at inside
    exact inside
  · rw [accounted.own i (accountOf t) (System.locals_getElem? at_i)]
    obtain ⟨proper, same⟩ :=
      (always_inTurn start moves).last arcServer reached t (List.mem_of_getElem? at_i)
    refine keeps_of_account proper same fun ret code => ?_
    have follows := disciplined t (List.mem_of_getElem? at_i)
    rw [code] at follows
    exact follows

/-- In every state of every run: what the requests have changed is what one change after
another makes, each request has made at most one, of its own kind, and a request that
was refused none. -/
theorem always_serialised (start : Server) (moves : Run) :
    arcServer.Always (Serialised start) ⟨start, []⟩ moves :=
  fun _ _ reached => serialised_of_run reached

end Runs

end ARCServer.RequestAccounting
