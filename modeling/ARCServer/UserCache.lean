import ARCServer.FeatureTable
import ARCServer.PoolExclusivity

/-! The user cache is loaded once, when the server is made. Enrolments only write to the
table, so the two agree exactly as long as no enrolment changes anything. -/

namespace ARCServer.UserCache

open InterleavedPrograms EnginePool FaceSdk RequestHandlers PoolExclusivity FeatureTable
  MachineIntegers

/-- The cache that a comparison scans has, for every id, the features of the table. -/
def CacheAgrees (c : Requests) : Prop :=
  ∀ entry, entry ∈ contents c.shared.memory c.shared.cache ↔
    entry ∈ featuresOf c.shared.userInformation

def writesNothingNew (c : Requests) : Move Request Outside → Bool
  | .start _ => true
  | .act i outside =>
    match System.nextAction c i with
    | some (.db (.updateUser id len feature)) =>
      !outside.exec || decide (AlreadyStored id len feature c.shared.userInformation)
    | _ => true

section Cache

variable {exec : Bool} {rows : List UserRow} {memory : Memory} {userImport : List ImportRow}
  {initEngine : ℕ → Int}

def opened (initEngine : ℕ → Int) (exec : Bool) (rows : List UserRow) (memory : Memory)
    (userImport : List ImportRow) : Requests :=
  started initEngine (construct exec rows memory userImport)

structure CacheAsMade (made : Server) (s : Server) : Prop where
  cache : s.cache = made.cache
  blocks : ∀ k, s.memory (.block k) = made.memory (.block k)

theorem CacheAsMade.step {made s s' : Server} (h : CacheAsMade made s) {i : ℕ} {act : Action}
    {r : act.Response} {outside : Outside}
    (hstep : arcServer.step i act outside s = some (r, s')) : CacheAsMade made s' := by
  refine ⟨(cache_step hstep).trans h.cache, fun k => ?_⟩
  rcases memory_step hstep with same | ⟨e, inputImg, face, -, changed⟩
  · rw [same, h.blocks k]
  · rw [changed, overwrite_block, h.blocks k]

theorem CacheAsMade.contents_eq {s : Server} (stored : WellStored rows)
    (h : CacheAsMade (construct exec rows memory userImport) s) :
    contents s.memory s.cache = if exec then featuresOf rows else [] := by
  rw [← contents_construct stored exec memory userImport, h.cache]
  refine List.map_congr_left fun it mem =>
    congrArg (Prod.mk it.id) (bytesOf_eq_iff.mpr fun i _ => ?_)
  obtain ⟨k, block⟩ := inBlocks_construct stored exec memory userImport it mem
  rw [block, h.blocks k]

theorem CacheAsMade.move {made : Server} {c c' : Requests} (h : CacheAsMade made c.shared)
    {m : Move Request Outside} (hmove : arcServer.move c m = some c') :
    CacheAsMade made c'.shared := by
  cases m with
  | start request =>
    cases hmove
    exact h
  | act i outside =>
    obtain ⟨t, act, next, r, s', -, -, hstep, rfl⟩ := arcServer.move_act hmove
    exact h.step hstep

theorem always_cacheAsMade (initEngine : ℕ → Int) (made : Server) (moves : Run) :
    arcServer.Always (fun c => CacheAsMade made c.shared) (started initEngine made) moves := by
  refine arcServer.always_of_step (arcServer.eachMove_true _ moves) ⟨rfl, fun _ => rfl⟩ ?_
  exact fun d m d' h _ hmove => h.move hmove

theorem cacheAgrees_iff {c : Requests} (stored : WellStored rows)
    (h : CacheAsMade (construct exec rows memory userImport) c.shared) :
    CacheAgrees c ↔ ∀ entry, entry ∈ (if exec then featuresOf rows else []) ↔
      entry ∈ featuresOf c.shared.userInformation := by
  rw [CacheAgrees, h.contents_eq stored]

theorem featuresOf_move {c c' : Requests} {m : Move Request Outside}
    (old : writesNothingNew c m) (hmove : arcServer.move c m = some c') (entry : Int × List Byte) :
    entry ∈ featuresOf c'.shared.userInformation ↔ entry ∈ featuresOf c.shared.userInformation := by
  cases m with
  | start request =>
    cases hmove
    exact Iff.rfl
  | act i outside =>
    obtain ⟨t, act, next, r, s', ht, hcode, hstep, rfl⟩ := arcServer.move_act hmove
    rcases userInformation_step hstep with same | ⟨id, len, feature, rfl, exec, changed⟩
    · rw [same]
    · rw [writesNothingNew, System.nextAction_eq ht hcode] at old
      dsimp only at old
      rw [exec, Bool.not_true, Bool.false_or] at old
      rw [changed]
      exact alreadyStored_iff.mp (of_decide_eq_true old) entry

theorem agrees_first_iff (stored : WellStored rows) :
    CacheAgrees (opened initEngine exec rows memory userImport) ↔
      exec = true ∨ featuresOf rows = [] := by
  have made : CacheAsMade (construct exec rows memory userImport)
      (opened initEngine exec rows memory userImport).shared := ⟨rfl, fun _ => rfl⟩
  rw [cacheAgrees_iff stored made]
  cases exec with
  | true => exact iff_of_true (fun _ => Iff.rfl) (.inl rfl)
  | false =>
    constructor
    · intro agrees
      exact .inr (List.eq_nil_iff_forall_not_mem.mpr fun entry mem =>
        absurd ((agrees entry).mpr mem) List.not_mem_nil)
    · rintro (⟨⟨⟩⟩ | empty)
      intro entry
      exact (by rw [← empty]; exact Iff.rfl)

theorem writesNothingNew_of_agrees {c : Requests} {m : Move Request Outside}
    (stored : WellStored rows)
    (made : CacheAsMade (construct exec rows memory userImport) c.shared)
    (before : CacheAgrees c) (after : ∀ d, arcServer.move c m = some d → CacheAgrees d) :
    writesNothingNew c m := by
  cases m with
  | start request => rfl
  | act i outside =>
    rw [writesNothingNew]
    split
    · next id len feature hact =>
      cases executed : outside.exec with
      | false => rfl
      | true =>
        rw [Bool.not_true, Bool.false_or]
        have hstep : arcServer.step i (.db (.updateUser id len feature)) outside c.shared =
            some (true, { c.shared with
              userInformation := updateRows id len feature c.shared.userInformation }) := by
          change some (outside.exec, _) = _
          rw [executed, if_pos rfl]
        obtain ⟨d, hmove, shared⟩ := arcServer.move_of_nextAction hact hstep
        have agrees := after d hmove
        have made' := made.step hstep
        rw [← shared] at made'
        rw [cacheAgrees_iff stored made] at before
        rw [cacheAgrees_iff stored made', shared] at agrees
        exact decide_eq_true (alreadyStored_iff.mpr fun entry =>
          (agrees entry).symm.trans (before entry))
    · rfl

end Cache

/-- The cache agrees with the table all along exactly if it could be loaded, or there was
nothing to load, and no enrolment of the run writes anything new. -/
theorem always_cacheAgrees_iff {rows : List UserRow} (stored : WellStored rows)
    (initEngine : ℕ → Int) (exec : Bool) (memory : Memory) (userImport : List ImportRow)
    (moves : Run) :
    arcServer.Always CacheAgrees (opened initEngine exec rows memory userImport) moves ↔
      (exec = true ∨ featuresOf rows = []) ∧
        arcServer.EachMove (fun c m => writesNothingNew c m)
          (opened initEngine exec rows memory userImport) moves := by
  have made := always_cacheAsMade initEngine (construct exec rows memory userImport) moves
  constructor
  · intro agrees
    refine ⟨(agrees_first_iff stored).mp (agrees 0 _ rfl), fun k d m hd hm => ?_⟩
    refine writesNothingNew_of_agrees stored (made k d hd) (agrees k d hd) fun d' hmove => ?_
    refine agrees (k + 1) d' ?_
    rw [arcServer.run_take_succ _ hm, hd]
    exact hmove
  · rintro ⟨first, each⟩
    have both : arcServer.Always (fun c =>
        CacheAsMade (construct exec rows memory userImport) c.shared ∧ CacheAgrees c)
        (opened initEngine exec rows memory userImport) moves := by
      refine arcServer.always_of_step each
        ⟨⟨rfl, fun _ => rfl⟩, (agrees_first_iff stored).mpr first⟩ ?_
      rintro d m d' ⟨asMade, agrees⟩ old hmove
      refine ⟨asMade.move hmove, ?_⟩
      rw [cacheAgrees_iff stored asMade] at agrees
      rw [cacheAgrees_iff stored (asMade.move hmove)]
      exact fun entry => (agrees entry).trans (featuresOf_move old hmove entry).symm
    exact fun k d hd => (both k d hd).2

section Runs

def enrolment (id : Int) (bytes : List Byte) : Run :=
  .start (.addFeature [0xff] id) :: List.replicate 14 (.act 0 (oneFace bytes))

def emptyMemory : Memory := fun _ _ => 0

theorem always_cacheAgrees_same_feature :
    (arcServer.run (opened (fun _ => 0) true [⟨7, 2, [1, 2]⟩] emptyMemory [])
        (enrolment 7 [1, 2])).isSome ∧
      arcServer.Always CacheAgrees (opened (fun _ => 0) true [⟨7, 2, [1, 2]⟩] emptyMemory [])
        (enrolment 7 [1, 2]) :=
  ⟨by decide, (always_cacheAgrees_iff (by decide) _ _ _ _ _).mpr
    ⟨.inl rfl, arcServer.eachMove_of_check (by decide)⟩⟩

def enrolmentThenComp (id : Int) (bytes : List Byte) : Run :=
  enrolment id bytes ++
    .start (.compareFace [0xff] "10.0.0.2") :: List.replicate 18 (.act 1 (oneFace bytes))

def userRead : Event Action Action.Response → Option (List UserModel)
  | ⟨.db .readCache, list⟩ => some list
  | _ => none

def scannedBy (i : ℕ) (c : Requests) : Option (List (List UserModel)) :=
  c.threads[i]?.map fun t => t.past.filterMap userRead

/-- User 7 is enrolled and answered "ok", but the comparison that follows scans a cache
without the feature. -/
theorem enrolment_not_cached :
    ((arcServer.run (opened (fun _ => 0) true [⟨7, 0, []⟩] emptyMemory [])
        (enrolmentThenComp 7 [1, 2])).map fun d =>
          (scannedBy 1 d, featuresOf d.shared.userInformation)) =
        some (some [[]], [(7, [1, 2])]) ∧
      ¬arcServer.Always CacheAgrees (opened (fun _ => 0) true [⟨7, 0, []⟩] emptyMemory [])
        (enrolmentThenComp 7 [1, 2]) := by
  refine ⟨by decide, fun agrees => ?_⟩
  have seen : (arcServer.run (opened (fun _ => 0) true [⟨7, 0, []⟩] emptyMemory [])
      (enrolmentThenComp 7 [1, 2])).map (fun d => (contents d.shared.memory d.shared.cache,
        featuresOf d.shared.userInformation)) = some ([], [(7, [1, 2])]) := by decide
  obtain ⟨d, hd, both⟩ := Option.map_eq_some_iff.mp seen
  obtain ⟨cache, table⟩ := Prod.mk.inj both
  have agree := System.Always.last _ agrees hd (7, [1, 2])
  rw [cache, table] at agree
  exact absurd (agree.mpr List.mem_cons_self) List.not_mem_nil

end Runs

end ARCServer.UserCache
