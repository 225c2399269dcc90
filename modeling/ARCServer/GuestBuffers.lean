import ARCServer.MainEngine

/-! Whom a cached guest lets in. A guest is stored as a pointer into a buffer of engine 9,
which extracts the picture of every visitor, too: where the SDK delivers to the same buffer
again, the visitor is compared with himself. -/

namespace ARCServer.GuestBuffers

open InterleavedPrograms ProgramsAlone FaceSdk RequestHandlers RequestSession RequestAccounting
  FeatureMemory PoolExclusivity MainLoop MainService MainEngine MachineIntegers
open FrameCodec (okReply)

section Refusals

abbrev recorder : Protocol Action Action.Response Past := .recording fun _ _ => True

def InVain (past : Past) (reference probe : FaceModel) : Prop :=
  ∃ e matching, ⟨.sdk (.facePairMatching e reference probe), matching⟩ ∈ past ∧
    ∀ score, matching = .ok score → ¬score.isMatch

def AllInVain (past : Past) (probe : FaceModel) : Prop :=
  ∃ list, ⟨.db .readCacheGuest, list⟩ ∈ past ∧ ∀ guest ∈ list, InVain past guest.model probe

def Consulted (ret : Int) (past : Past) : Prop :=
  ret = 0 ∨ ∀ f, Delivers past f → AllInVain past f.model

def Plain (act : Action) : Prop := ∀ r, delivered ⟨act, r⟩ = none

def AllPlain (past : Past) : Prop := ∀ event ∈ past, delivered event = none

theorem AllPlain.append {past later : Past} (h : AllPlain past) (h' : AllPlain later) :
    AllPlain (past ++ later) := List.forall_mem_append.mpr ⟨h, h'⟩

theorem InVain.mono {past more : Past} {reference probe : FaceModel}
    (h : InVain past reference probe) (sub : past ⊆ more) : InVain more reference probe := by
  obtain ⟨e, matching, mem, refused⟩ := h
  exact ⟨e, matching, sub mem, refused⟩

variable {α : Type} {past : Past} {e : ℕ}

theorem plain_of_onPool (act : Action) (h : OnPool act) : Plain act := by
  cases act with
  | pool a => exact fun _ => rfl
  | sdk a => cases h
  | db a => cases h

theorem plain_onDb (a : DbAction) : (onDb a).Uses Plain :=
  uses_perform fun _ => by cases a <;> rfl

theorem follows_plain {p : Handler α} {post : α → Past → Prop} (uses : p.Uses Plain)
    (h : ∀ a later, AllPlain later → post a (past ++ later)) : recorder.Follows past p post := by
  induction p generalizing past with
  | ret a =>
    have done := h a [] fun _ mem => absurd mem List.not_mem_nil
    rwa [List.append_nil] at done
  | step act next ih =>
    refine ⟨trivial, fun r => ih r (uses.2 r) fun a later plain => ?_⟩
    have more := h a (⟨act, r⟩ :: later) (List.forall_mem_cons.mpr ⟨uses.1 r, plain⟩)
    rwa [List.append_cons] at more

theorem follows_compareFeature {model localmodel : FaceModel} {post : Int → Past → Prop}
    (hit : ∀ later, AllPlain later → post 1 (past ++ later))
    (missed : ∀ later, AllPlain later → InVain later model localmodel → post 0 (past ++ later)) :
    recorder.Follows past (compareFeature e model localmodel) post := by
  simp only [compareFeature, callSdk, Protocol.follows_bind, Protocol.follows_perform,
    Protocol.follows_pure]
  refine ⟨trivial, fun res => ⟨trivial, fun matching => ?_⟩⟩
  change post _ (past ++ [_] ++ [_])
  rw [List.append_assoc]
  have plain : AllPlain ([⟨.sdk .uninitialised, res⟩] ++
      [⟨.sdk (.facePairMatching e model localmodel), matching⟩]) := by
    simp [AllPlain, delivered]
  split
  · exact hit _ plain
  · next refused =>
    refine missed _ plain ⟨e, matching, List.mem_append_right _ List.mem_cons_self, ?_⟩
    rintro score rfl
    exact refused

theorem follows_scan {localmodel : FaceModel} {type : Int} {ip : String}
    {list : List (FaceModel × Int)} {post : Int → Past → Prop}
    (hit : ∀ later, AllPlain later → post 1 (past ++ later))
    (missed : ∀ later, AllPlain later → (∀ it ∈ list, InVain later it.1 localmodel) →
      post 0 (past ++ later)) :
    recorder.Follows past (scan e localmodel type ip 0 list) post := by
  induction list generalizing past with
  | nil =>
    have nothing := missed [] (fun _ mem => absurd mem List.not_mem_nil)
      fun _ mem => absurd mem List.not_mem_nil
    rwa [List.append_nil] at nothing
  | cons it rest ih =>
    rw [scan, Protocol.follows_bind]
    refine follows_compareFeature (fun first plain => ?_) fun first plain refused => ?_
    · rw [if_pos rfl, Protocol.follows_bind]
      refine follows_plain (uses_bind (plain_onDb _) fun _ => uses_pure _ _) fun _ later more => ?_
      rw [Protocol.follows_pure, List.append_assoc]
      exact hit _ (plain.append more)
    · rw [if_neg (by decide)]
      refine ih (fun later more => ?_) fun later more all => ?_
      · rw [List.append_assoc]
        exact hit _ (plain.append more)
      · rw [List.append_assoc]
        refine missed _ (plain.append more) (List.forall_mem_cons.mpr ⟨?_, fun it mem => ?_⟩)
        · exact refused.mono (List.subset_append_left _ _)
        · exact (all it mem).mono (List.subset_append_right _ _)

theorem follows_compareGuests {localmodel : FaceModel} {ip : String} {post : Int → Past → Prop}
    (hit : ∀ later, AllPlain later → post 1 (past ++ later))
    (missed : ∀ later, AllPlain later → AllInVain later localmodel → post 0 (past ++ later)) :
    recorder.Follows past (compareGuests e localmodel ip) post := by
  simp only [compareGuests, getCacheGuest, freeGuestLock, onDb, Protocol.follows_bind,
    Protocol.follows_perform, Protocol.follows_pure]
  refine ⟨trivial, fun _ => ⟨trivial, fun guestlist => ?_⟩⟩
  change recorder.Follows (past ++ [_] ++ [_]) _ _
  rw [List.append_assoc]
  have reads : AllPlain ([⟨.db .lockGuestForRead, ()⟩] ++ [⟨.db .readCacheGuest, guestlist⟩]) := by
    simp [AllPlain, delivered]
  have frees : AllPlain [⟨.db .unlockGuest, ()⟩] := by simp [AllPlain, delivered]
  refine follows_scan (fun later plain => ⟨trivial, fun _ => ?_⟩)
    fun later plain refused => ⟨trivial, fun _ => ?_⟩
  · change post 1 (past ++ _ ++ later ++ [_])
    rw [List.append_assoc, List.append_assoc]
    exact hit _ (reads.append (plain.append frees))
  · change post 0 (past ++ _ ++ later ++ [_])
    rw [List.append_assoc, List.append_assoc]
    refine missed _ (reads.append (plain.append frees)) ⟨guestlist, ?_, fun guest mem => ?_⟩
    · exact List.mem_append_left _ (List.mem_append_right _ List.mem_cons_self)
    · refine (refused _ (List.mem_map_of_mem mem)).mono ?_
      exact List.Subset.trans (List.subset_append_left _ _) (List.subset_append_right _ _)

theorem delivers_of_plain {later : Past} {f : Feature} (h : Delivers (past ++ later) f)
    (plain : AllPlain later) : Delivers past f := by
  obtain ⟨event, mem, same⟩ := h
  rcases List.mem_append.mp mem with old | new
  · exact ⟨event, old, same⟩
  · rw [plain event new] at same
    cases same

theorem AllInVain.mono {past more : Past} {probe : FaceModel} (h : AllInVain past probe)
    (sub : past ⊆ more) : AllInVain more probe := by
  obtain ⟨list, mem, refused⟩ := h
  exact ⟨list, sub mem, fun guest there => (refused guest there).mono sub⟩

theorem follows_verdict {ret : Int} (h : ∀ later, AllPlain later → Consulted ret (past ++ later)) :
    recorder.Follows past (do pushEngineIndex e; return ret) Consulted :=
  (recorder.follows_bind ..).mpr <|
    follows_plain ((uses_pushEngineIndex e).mono plain_of_onPool) fun _ => h

theorem follows_comparisons {probe : FaceModel} (ip : String)
    (own : ∀ f, Delivers past f → f.model = probe) :
    recorder.Follows past
      (do
        let userlist ← getCache
        let userRet ← scan e probe 1 ip 0 (userlist.map fun it => (it.model, it.id))
        freeUserLock
        let guestRet ← if userRet ≠ 1 then compareGuests e probe ip else pure 0
        pushEngineIndex e
        return if userRet.lor (if guestRet = 1 then 1 else 0) ≠ 0 then (0 : Int) else 1)
      Consulted := by
  simp only [Protocol.follows_bind]
  refine follows_plain (uses_bind (plain_onDb _) fun _ => plain_onDb _)
    fun userlist reads plain => ?_
  refine follows_scan (fun later more => ?_) fun later more _ => ?_
  · refine follows_plain (plain_onDb _) fun _ freed _ => ?_
    rw [if_neg (by decide), Protocol.follows_bind]
    exact follows_verdict fun _ _ => .inl rfl
  · refine follows_plain (plain_onDb _) fun _ freed frees => ?_
    rw [if_pos (by decide), Protocol.follows_bind]
    refine follows_compareGuests (fun guests _ => ?_) fun guests all refused => ?_
    · exact follows_verdict fun _ _ => .inl rfl
    · refine follows_verdict fun last ends => .inr fun f delivers => ?_
      have before := delivers_of_plain (delivers_of_plain delivers ends) all
      have first := delivers_of_plain (delivers_of_plain before frees) more
      rw [own f (delivers_of_plain first plain)]
      exact refused.mono fun event mem => List.mem_append_left _ (List.mem_append_right _ mem)

theorem follows_getFeature {data : List (Option Byte)} {width height : Int} {format : ℕ}
    {localmodel : FaceModel} {post : Int × FaceModel → Past → Prop}
    (refused : ∀ model later, AllPlain later → post (-1, model) (past ++ later))
    (extracted : ∀ (f : Feature) later, (∀ f', Delivers later f' → f' = f) →
      post (mok, f.model) (past ++ later)) :
    recorder.Follows past (getFeature e data width height format localmodel) post := by
  simp only [getFeature, callSdk, Protocol.follows_bind, Protocol.follows_perform]
  refine ⟨trivial, fun detection => ?_⟩
  have detects (a : OffScreen) (r : Detection) :
      AllPlain [⟨.sdk (.stillImageFaceDetection e a), r⟩] := by simp [AllPlain, delivered]
  cases detection with
  | failed code => exact refused _ _ (detects _ _)
  | ok nFace rcFace =>
    dsimp only
    split
    · exact refused _ _ (detects _ _)
    · rw [Protocol.follows_bind]
      refine ⟨trivial, fun extraction => ?_⟩
      cases extraction with
      | failed code written =>
        change post _ (past ++ [_] ++ [_])
        rw [List.append_assoc]
        refine refused _ _ ((detects _ _).append ?_)
        simp [AllPlain, delivered]
      | ok slot bytes =>
        change post (mok, (Feature.mk e slot bytes).model) (past ++ [_] ++ [_])
        rw [List.append_assoc]
        refine extracted _ _ fun f' ⟨event, mem, same⟩ => ?_
        rcases List.mem_append.mp mem with old | new
        · rw [detects _ _ event old] at same
          cases same
        · rw [List.mem_singleton.mp new] at same
          exact (Option.some.inj same).symm

/-- A visitor whose feature was extracted is let in, or was compared with every guest. -/
theorem consulted_compareFace (data : List Byte) (ip : String) :
    recorder.Follows [] (compareFace data ip) Consulted := by
  rw [compareFace, Protocol.follows_bind]
  refine follows_plain (uses_popEngineIndex.mono plain_of_onPool) fun e pops plain => ?_
  rw [Protocol.follows_bind]
  refine follows_plain (uses_perform fun _ => rfl) fun image loads decodes => ?_
  have none : ∀ f, ¬Delivers ([] ++ pops ++ loads) f := by
    intro f delivers
    obtain ⟨_, mem, -⟩ := delivers_of_plain (delivers_of_plain delivers decodes) plain
    cases mem
  cases image with
  | none =>
    exact follows_verdict fun later ends => .inr fun f delivers =>
      absurd (delivers_of_plain delivers ends) (none f)
  | some img =>
    dsimp only
    rw [Protocol.follows_bind]
    refine follows_getFeature (fun model later plain => ?_) fun f later only => ?_
    · exact follows_comparisons ip fun f delivers =>
        absurd (delivers_of_plain delivers plain) (none f)
    · refine follows_comparisons ip fun f' delivers => ?_
      obtain ⟨event, mem, same⟩ := delivers
      rcases List.mem_append.mp mem with old | new
      · exact absurd ⟨event, old, same⟩ (none f')
      · rw [only f' ⟨event, new, same⟩]

end Refusals

section Guests

variable {initEngine : ℕ → Int} {database : Server} {ip : ℕ → String} {events : MainLoop.Events}
  {c d : Requests} {request : Request} {ret : Int} {past : Past} {s t : Server}

theorem consulted_of_completes {data : List Byte} {ip : String} {i : ℕ}
    (h : (HandlerOutcomes.onServer i fun _ _ _ => True).Completes (compareFace data ip) s past ret
      t) : Consulted ret past := by
  have follows : recorder.Follows (recorder.after [] []) (compareFace data ip) Consulted :=
    consulted_compareFace data ip
  have ends := (World.ensures_of_follows follows (fun _ _ => True)
    (fun _ _ _ _ _ _ _ _ _ _ => trivial) trivial).completes h
  have consulted := ends.1
  rwa [Protocol.after_recording] at consulted

theorem exists_entry (reached : ∃ moves, arcServer.run ⟨database, []⟩ moves = some c) {j : ℕ}
    {t : RequestThread} (at_j : c.threads[j]? = some t) {data : List Byte} {id : Int}
    (guest : t.request = .addFeatureG data id) (accepted : t.code = .ret 0) :
    ∃ added, c.shared.cache_guest = database.cache_guest ++ added ∧
      ∃ model, ⟨j, model, id⟩ ∈ added := by
  obtain ⟨moves, reached⟩ := reached
  obtain ⟨log, made, -, own⟩ := serialised_of_run reached
  have keeps := own j t at_j
  refine ⟨_, made.cache_guest, ?_⟩
  rcases keeps.once with none | ⟨change, targets, one⟩
  · exact absurd none (keeps.stored data id guest accepted)
  · rw [guest] at targets
    obtain ⟨model, rfl⟩ := targets
    have listed : .stored ⟨j, model, id⟩ ∈ ofRequest j log := one ▸ List.mem_singleton_self _
    obtain ⟨entry, mem, same⟩ := List.mem_map.mp listed
    refine ⟨model, List.mem_flatMap.mpr ⟨entry.2, ?_, same ▸ List.mem_singleton_self _⟩⟩
    exact List.mem_map_of_mem (List.mem_filter.mp mem).1

/-- The SDK scores a feature above 0.95 when it is compared with itself. -/
def SelfMatches (past : Past) : Prop := ∀ e model matching,
  ⟨.sdk (.facePairMatching e model model), matching⟩ ∈ past →
    ∃ score, matching = .ok score ∧ score.isMatch

def ShareBuffer (t u : RequestThread) : Prop := ∃ f g, Delivers t.past f ∧ Delivers u.past g ∧
  f.slot = g.slot ∧ f.bytes.length = g.bytes.length

def Reopens (c : Requests) : Prop := ∀ (j m : ℕ) t u, j < m → c.threads[j]? = some t →
  c.threads[m]? = some u → ∀ data id data' gate, t.request = .addFeatureG data id →
    t.code = .ret 0 → u.request = .compareFace data' gate → ShareBuffer t u →
      SelfMatches u.past → u.code = .ret 0

theorem entry_model (sole : SoleEngine database c)
    (reached : ∃ moves, arcServer.run ⟨database, []⟩ moves = some c)
    (traced : ∀ t ∈ c.threads, Traced t.request t.past) {j : ℕ} {t : RequestThread}
    (at_j : c.threads[j]? = some t) {data : List Byte} {id : Int}
    (guest : t.request = .addFeatureG data id) (accepted : t.code = .ret 0) {f : Feature}
    (extracted : Delivers t.past f) :
    ∃ entry ∈ c.shared.cache_guest, entry.guest.model = f.model ∧ f.engine = 9 := by
  obtain ⟨added, grown, model, mem⟩ := exists_entry reached at_j guest accepted
  obtain ⟨added', grown', own⟩ := sole.guests
  obtain rfl : added = added' := List.append_cancel_left (grown.symm.trans grown')
  obtain ⟨t', f', there, ⟨event', mem', delivers'⟩, engine, same⟩ := own _ mem
  obtain rfl : t = t' := Option.some.inj (at_j.symm.trans there)
  obtain ⟨event, mem'', delivers⟩ := extracted
  have once := (traced t (List.mem_of_getElem? at_j)).once
  obtain rfl : f = f' :=
    Option.some.inj ((once event mem'' f delivers).symm.trans (once event' mem' f' delivers'))
  exact ⟨_, grown ▸ List.mem_append_right _ mem, same, engine⟩

theorem opened_of_completes (sole : SoleEngine database c) {entry : GuestEntry} {f : Feature}
    (cached : entry ∈ c.shared.cache_guest) (model : entry.guest.model = f.model)
    (engine : f.engine = 9) {data : List Byte} {gate : String}
    (completes : (HandlerOutcomes.onServer c.threads.length fun _ _ _ => True).Completes
      (compareFace data gate) c.shared past ret t) {g : Feature} (visitor : Delivers past g)
    (slot : f.slot = g.slot) (size : f.bytes.length = g.bytes.length) (self : SelfMatches past) :
    ret = 0 := by
  have whole : (HandlerOutcomes.onServer c.threads.length fun _ _ _ => True).Completes
    (Request.compareFace data gate).handler c.shared past ret t := completes
  have calls := calls_of_completes (by rw [sole.stack]; rfl) whole
  have same : f.model = g.model := by
    obtain ⟨event, mem, delivers⟩ := visitor
    have engine' := calls event mem _ (engineOf_of_delivered delivers)
    rw [Feature.model, Feature.model, engine, slot, size, engine']
  have leaves := ((ensures_leaves _ _ _).completes whole).2
  rcases consulted_of_completes completes with zero | vain
  · exact zero
  · obtain ⟨list, reads, refused⟩ := vain g visitor
    obtain ⟨e, matching, compared, unmatched⟩ :=
      refused entry.guest (leaves.reads list reads entry cached)
    rw [model, same] at compared
    obtain ⟨score, ok, isMatch⟩ := self e g.model matching compared
    exact absurd isMatch (unmatched score ok)

theorem Reopens.served (h : Reopens c) (sole : SoleEngine database c)
    (reached : ∃ moves, arcServer.run ⟨database, []⟩ moves = some c)
    (traced : ∀ t ∈ c.threads, Traced t.request t.past)
    (completes : (HandlerOutcomes.onServer c.threads.length fun _ _ _ => True).Completes
      request.handler c.shared past ret d.shared)
    (more : d.threads = c.threads ++ [⟨request, .ret ret, past⟩]) : Reopens d := by
  intro j m t u earlier at_j at_m data id data' gate guest accepted visitor share self
  have inside := (List.getElem?_eq_some_iff.mp at_m).1
  rw [more, List.length_append, List.length_singleton] at inside
  have old {k : ℕ} (before : k < c.threads.length) : c.threads[k]? = d.threads[k]? := by
    rw [more, List.getElem?_append_left before]
  have at_j' := (old (by omega)).trans at_j
  by_cases new : m = c.threads.length
  · rw [more, new, List.getElem?_concat_length] at at_m
    cases at_m
    obtain rfl : request = .compareFace data' gate := visitor
    obtain ⟨f, g, extracted, delivers, slot, size⟩ := share
    obtain ⟨entry, cached, model, engine⟩ :=
      entry_model sole reached traced at_j' guest accepted extracted
    exact congrArg Prog.ret
      (opened_of_completes sole cached model engine completes delivers slot size self)
  · exact h j m t u earlier at_j' ((old (by omega)).trans at_m) data id data' gate guest accepted
      visitor share self

theorem reopens_of_main {s : State} (h : main initEngine database ip events = .ok s) :
    Reopens s.shared.requests := by
  let start := (DeadlockFreedom.opened initEngine database).shared
  refine (requests_of_main (fun c => SoleEngine start c ∧ Reopens c) ?_ ?_ h).2
  · have sole := soleEngine_opened initEngine database
    exact ⟨⟨sole.stack, sole.calls, sole.memory, sole.guests⟩, fun _ _ _ _ _ none => by cases none⟩
  · rintro c d request past ret ⟨moves, reached⟩ ⟨sole, reopens⟩ completes more
    have traced := (always_traced initEngine _ moves).last arcServer reached
    exact ⟨sole.served completes more,
      reopens.served sole ⟨moves, reached⟩ traced completes more⟩

/-- Once a guest was accepted, the gate opens for everyone whose feature the SDK puts into
the buffer that the guest's was in, however many messages and whose faces lie between. -/
theorem same_buffer_opens {s : State} (h : main initEngine database ip events = .ok s) {j m : ℕ}
    (earlier : j < m) {data data' : List Byte} {id : Int} {gate : String} {reply : List Byte}
    (enrolled : (compareCalls ip s)[j]? = some (.addFeatureG data id, okReply))
    (visited : (compareCalls ip s)[m]? = some (.compareFace data' gate, reply))
    {t u : RequestThread} (at_j : s.shared.requests.threads[j]? = some t)
    (at_m : s.shared.requests.threads[m]? = some u) (share : ShareBuffer t u)
    (self : SelfMatches u.past) : reply = okReply := by
  have recorded := recorded_of_main h
  obtain ⟨t', there, guest, ret, code, accepted⟩ := recorded.thread enrolled
  obtain ⟨u', there', visitor, ret', code', answer⟩ := recorded.thread visited
  cases at_j.symm.trans there
  cases at_m.symm.trans there'
  rw [(verdict_eq_okReply ret).mp accepted.symm] at code
  have opened := reopens_of_main h j m t u earlier at_j at_m data id data' gate guest code visitor
    share self
  cases code'.symm.trans opened
  exact answer

def scoresSelf : Event Action Action.Response → Bool
  | ⟨.sdk (.facePairMatching _ model localmodel), .ok score⟩ =>
    model != localmodel || score.isMatch
  | ⟨.sdk (.facePairMatching _ model localmodel), .failed _ _⟩ => model != localmodel
  | _ => true

theorem selfMatches_of_all {past : Past} (h : past.all scoresSelf = true) : SelfMatches past := by
  intro e model matching mem
  have self := List.all_eq_true.mp h _ mem
  cases matching with
  | ok score => exact ⟨score, rfl, by simpa [scoresSelf] using self⟩
  | failed code written => simp [scoresSelf] at self

def stranger : MainLoop.Events :=
  [.accept .compare,
    .read 0 [13, 0, 0, 0, 0x61, 0x64, 0x64, 0x67, 1, 0, 0, 0, 0xff] calm,
    .read 0 [9, 0, 0, 0, 0x63, 0x6f, 0x6d, 0x70, 0xee]
      { calm with sdk := fun _ => { oneFace [8, 9] with matching := .ok (.dyadic 1 0) } }]

theorem stranger_runs :
    ((main (fun _ => 0) HandlerOutcomes.idleServer (fun _ => "gate") stranger).toOption.map
      fun s => ((compareCalls (fun _ => "gate") s)[0]?,
        (compareCalls (fun _ => "gate") s)[1]?.map Prod.fst,
        s.shared.requests.threads.map fun t =>
          (t.past.filterMap delivered, t.past.all scoresSelf))) =
      some (some (.addFeatureG [0xff] 1, okReply), some (.compareFace [0xee] "gate"),
        [([⟨9, 0, [1, 2]⟩], true), ([⟨9, 0, [8, 9]⟩], true)]) := by
  decide +kernel

theorem delivers_of_filterMap {past : Past} {f : Feature}
    (h : past.filterMap delivered = [f]) : Delivers past f :=
  List.mem_filterMap.mp (h ▸ List.mem_singleton_self f)

theorem stranger_opens : ∃ s reply,
    main (fun _ => 0) HandlerOutcomes.idleServer (fun _ => "gate") stranger = .ok s ∧
      (compareCalls (fun _ => "gate") s)[1]? = some (.compareFace [0xee] "gate", reply) ∧
        reply = okReply := by
  obtain ⟨s, ran, seen⟩ := Option.map_eq_some_iff.mp stranger_runs
  obtain ⟨enrolled, more⟩ := Prod.mk.inj seen
  obtain ⟨asked, threads⟩ := Prod.mk.inj more
  obtain ⟨⟨request, reply⟩, visited, rfl⟩ := Option.map_eq_some_iff.mp asked
  obtain ⟨t, rest, two, guest, one⟩ := List.map_eq_cons_iff.mp threads
  obtain ⟨u, rest', one', visitor, -⟩ := List.map_eq_cons_iff.mp one
  obtain ⟨first, -⟩ := Prod.mk.inj guest
  obtain ⟨second, self⟩ := Prod.mk.inj visitor
  refine ⟨s, reply, ok_of_toOption ran, visited, same_buffer_opens (ok_of_toOption ran)
    Nat.zero_lt_one enrolled visited (by rw [two]; rfl) (by rw [two, one']; rfl)
    ⟨_, _, delivers_of_filterMap first, delivers_of_filterMap second, rfl, rfl⟩
    (selfMatches_of_all self)⟩

end Guests

end ARCServer.GuestBuffers
