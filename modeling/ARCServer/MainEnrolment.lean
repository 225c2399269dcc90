import ARCServer.EnrolmentAnswers
import ARCServer.FeatureRestart
import ARCServer.MainService

/-! Users that are enrolled while the program runs. On its one thread nobody extracts between
the end of an extraction and the copy of its feature, so every update has the feature
of its own picture; the cache gets to know of it when the program is started again. -/

namespace ARCServer.MainEnrolment

open InterleavedPrograms ProgramsAlone SerialRuns ConnectionLoop FaceSdk RequestHandlers
  HandlerOutcomes EnrolmentAnswers RequestAccounting FeatureMemory FeatureTable FeatureRestart
  MainLoop MainService MachineIntegers
open CompareServer (noReply)
open FrameCodec (okReply)
open FrameCodec (Service)

section Handlers

/-- No update was executed, or one, with the feature that the request has got out of its
picture. -/
def StoresFeature (request : Request) (rows : List UserRow) (past : HandlerOutcomes.Events)
    (ret : Int) (rows' : List UserRow) : Prop :=
  (executed past = [] ∧ rows' = rows) ∨ ∃ data id bytes, request = .addFeature data id ∧ ret = 0 ∧
    Extracted request past bytes ∧ executed past = [⟨id, bytes.length, bytes⟩] ∧
      rows' = updateRows id bytes.length bytes rows

variable {i : ℕ} {s : Server}

theorem executed_offDb {past : HandlerOutcomes.Events} (h : OffDb past) : executed past = [] := by
  rw [executed, updates_offDb h]
  rfl

theorem ensures_addFeature_stores (data : List Byte) (id : Int) :
    (onServer i fun _ _ _ => True).Ensures (addFeature data id) s fun past ret s' =>
      StoresFeature (.addFeature data id) s.userInformation past ret s'.userInformation := by
  rw [addFeature]
  refine ensures_decoded (fun _ => rfl)
    (fun _ _ past _ _ quiet => .inl ⟨executed_offDb quiet, rfl⟩)
    fun _ _ img sem e stack past _ image pool quiet loaded => ?_
  rw [World.ensures_bind]
  refine ensures_getFeature rfl (fun _ calls model memory called _ => ?_) ?_
  · rw [World.ensures_bind]
    refine ensures_pushEngineIndex rfl fun pushes pushed => ?_
    rw [if_neg (show (-1 : Int) ≠ mok by decide), World.ensures_pure]
    refine .inl ⟨?_, rfl⟩
    simp only [executed, updates_append, updates_offDb quiet, updates_offDb called,
      updates_offDb pushed]
    rfl
  · intro found rcFace outcome slot bytes _ detection _ extraction
    rw [World.ensures_bind]
    refine ensures_pushEngineIndex rfl fun pushes pushed => ?_
    rw [if_pos rfl, World.ensures_bind]
    -- the engine is back already, but the copy is made before anyone else can take it
    refine ensures_addFeatureUser (bytesOf_extracted e slot bytes outcome.scratch s.memory)
      fun answer _ => ?_
    rw [World.ensures_pure, StoresFeature,
      executed_of_updates ⟨id, bytes.length, bytes⟩ answer.exec]
    · cases exec : answer.exec with
      | false => exact .inl ⟨rfl, rfl⟩
      | true =>
        refine .inr ⟨data, id, bytes, rfl, rfl, ⟨.fromHeader, img, e, ⟨rcFace 0, afrFsdkFoc0⟩, slot,
          List.mem_append_left _ loaded, ?_⟩, rfl, rfl⟩
        exact List.mem_append_right _ (List.mem_append_left _
          (List.mem_cons_of_mem _ List.mem_cons_self))
    · simp only [updates_append, updates_offDb quiet, updates_offDb pushed]
      rfl

theorem ensures_table_kept {request : Request} (other : ∀ data id, request ≠ .addFeature data id) :
    (onServer i fun _ _ _ => True).Ensures request.handler s fun past _ s' =>
      executed past = [] ∧ s'.userInformation = s.userInformation := by
  have follows : accounting.Follows (accounting.after (.opened request) []) request.handler
    Account.Closes := RequestAccounting.follows_handler request
  refine (World.ensures_of_follows follows (fun past t =>
    (accounting.after (.opened request) past).request = request ∧ updates past = [] ∧
      t.userInformation = s.userInformation) ?_ ⟨rfl, rfl, rfl⟩).mono fun past _ _ ends => ?_
  swap
  · rw [List.nil_append] at ends
    rw [executed, ends.2.2.1]
    exact ⟨rfl, ends.2.2.2⟩
  rintro past act outside r t t' adm - taken ⟨own, quiet, same⟩
  have notUpdate : ∀ id len feature, act ≠ .db (.updateUser id len feature) := by
    rintro id len feature rfl
    obtain ⟨-, data, enrols⟩ := adm
    exact absurd (own.symm.trans enrols) (other data id)
  refine ⟨?_, ?_, ?_⟩
  · rw [accounting.after_concat]
    change (Account.next _ act r).request = request
    unfold Account.next
    split <;> exact own
  · rw [updates_append, quiet]
    cases act with
    | db call =>
      cases call with
      | updateUser id len feature => exact absurd rfl (notUpdate id len feature)
      | _ => rfl
    | _ => rfl
  · rcases userInformation_step taken with still | ⟨id, len, feature, updates, -, -⟩
    · exact still.trans same
    · exact absurd updates (notUpdate id len feature)

theorem ensures_stores (request : Request) :
    (onServer i fun _ _ _ => True).Ensures request.handler s fun past ret s' =>
      StoresFeature request s.userInformation past ret s'.userInformation := by
  cases request with
  | addFeature data id => exact ensures_addFeature_stores data id
  | compareFace data ip =>
    exact (ensures_table_kept fun _ _ same => Request.noConfusion same).mono fun _ _ _ => .inl
  | addFeatureG data id =>
    exact (ensures_table_kept fun _ _ same => Request.noConfusion same).mono fun _ _ _ => .inl

end Handlers

section Log

structure Enrolment where
  number : ℕ
  id : Int
  feature : List Byte

def Enrolment.row (e : Enrolment) : UserRow := ⟨e.id, e.feature.length, e.feature⟩

def enrol (rows : List UserRow) (e : Enrolment) : List UserRow :=
  updateRows e.id e.feature.length e.feature rows

def FromPicture (threads : List PoolExclusivity.RequestThread) (e : Enrolment) : Prop :=
  ∃ data past, threads[e.number]? = some ⟨.addFeature data e.id, .ret 0, past⟩ ∧
    Extracted (.addFeature data e.id) past e.feature

def rowsOf (log : List Enrolment) (k : ℕ) : List UserRow :=
  (log.filter fun e => e.number = k).map Enrolment.row

theorem rowsOf_concat (log : List Enrolment) (e : Enrolment) (k : ℕ) :
    rowsOf (log ++ [e]) k = rowsOf log k ++ if e.number = k then [e.row] else [] := by
  rw [rowsOf, List.filter_append, List.map_append, ← rowsOf, List.filter_singleton]
  split_ifs with own <;> simp [own]

/-- The table is what the enrolments have made of it, in the order of their requests, and
they are the updates that were executed. -/
structure Remembered (database : Server) (c : PoolExclusivity.Requests) (log : List Enrolment) :
    Prop where
  table : c.shared.userInformation = log.foldl enrol database.userInformation
  order : log.Pairwise fun e e' => e.number < e'.number
  own : ∀ e ∈ log, FromPicture c.threads e
  executed : ∀ (k : ℕ) t, c.threads[k]? = some t → executed t.past = rowsOf log k

variable {initEngine : ℕ → Int} {database : Server} {ip : ℕ → String} {events : MainLoop.Events}
  {s : State} {log : List Enrolment} {c d : PoolExclusivity.Requests}

theorem FromPicture.append {threads : List PoolExclusivity.RequestThread} {e : Enrolment}
    (h : FromPicture threads e) (t : PoolExclusivity.RequestThread) :
    FromPicture (threads ++ [t]) e := by
  obtain ⟨data, past, there, extracted⟩ := h
  have inside := (List.getElem?_eq_some_iff.mp there).1
  exact ⟨data, past, (List.getElem?_append_left inside).trans there, extracted⟩

theorem FromPicture.number_lt {threads : List PoolExclusivity.RequestThread} {e : Enrolment}
    (h : FromPicture threads e) : e.number < threads.length := by
  obtain ⟨data, past, there, -⟩ := h
  exact (List.getElem?_eq_some_iff.mp there).1

theorem Remembered.rowsOf_next (h : Remembered database c log) :
    rowsOf log c.threads.length = [] := by
  rw [rowsOf, List.filter_eq_nil_iff.mpr, List.map_nil]
  intro e mem own
  exact absurd (of_decide_eq_true own) (h.own e mem).number_lt.ne

theorem Remembered.request (h : Remembered database c log) {request : Request} {ret : Int}
    {past : HandlerOutcomes.Events}
    (grown : d.threads = c.threads ++ [⟨request, .ret ret, past⟩])
    (stores : StoresFeature request c.shared.userInformation past ret d.shared.userInformation) :
    ∃ log', Remembered database d log' := by
  have earlier : ∀ e ∈ log, FromPicture d.threads e := fun e mem => by
    rw [grown]
    exact (h.own e mem).append _
  rcases stores with ⟨nothing, same⟩ | ⟨data, id, bytes, rfl, rfl, extracted, once, table⟩
  · refine ⟨log, same.trans h.table, h.order, earlier, fun k t at_k => ?_⟩
    rw [grown] at at_k
    rcases of_getElem?_concat at_k with before | ⟨rfl, rfl⟩
    · exact h.executed k t before
    · exact nothing.trans h.rowsOf_next.symm
  · refine ⟨log ++ [⟨c.threads.length, id, bytes⟩], ?_, ?_, fun e mem => ?_, fun k t at_k => ?_⟩
    · rw [table, h.table, List.foldl_append]
      rfl
    · refine List.pairwise_append.mpr ⟨h.order, List.pairwise_singleton _ _, ?_⟩
      intro e mem e' last
      rw [List.mem_singleton.mp last]
      exact (h.own e mem).number_lt
    · rcases List.mem_append.mp mem with old | new
      · exact earlier e old
      · rw [List.mem_singleton.mp new, grown]
        exact ⟨data, past, List.getElem?_concat_length, extracted⟩
    · rw [grown] at at_k
      rw [rowsOf_concat]
      rcases of_getElem?_concat at_k with before | ⟨rfl, rfl⟩
      · have other : c.threads.length ≠ k := (List.getElem?_eq_some_iff.mp before).1.ne'
        rw [if_neg other, List.append_nil]
        exact h.executed k t before
      · rw [if_pos rfl, h.rowsOf_next]
        exact once

theorem remembered_of_main (h : main initEngine database ip events = .ok s) :
    ∃ log, Remembered database s.shared.requests log := by
  refine requests_of_main (fun c => ∃ log, Remembered database c log)
    ⟨[], rfl, List.Pairwise.nil, fun e mem => absurd mem List.not_mem_nil, fun k t at_k => by
      cases at_k⟩ ?_ h
  rintro c d request past ret - ⟨log, remembered⟩ completes grown
  exact remembered.request grown ((ensures_stores request).completes completes)

end Log

section Restart

variable {initEngine : ℕ → Int} {database : Server} {ip : ℕ → String} {events : MainLoop.Events}
  {s : State} {log : List Enrolment} {rows : List UserRow}

def written (log : List Enrolment) : List (Int × Int × List Byte) :=
  (log.map fun e => (e.id, (e.feature.length : Int), e.feature)).reverse

theorem written_concat (log : List Enrolment) (e : Enrolment) :
    written (log ++ [e]) = (e.id, (e.feature.length : Int), e.feature) :: written log := by
  rw [written, List.map_append, List.reverse_append]
  rfl

theorem foldl_enrol (log : List Enrolment) (rows : List UserRow) :
    log.foldl enrol rows = rows.map (rewritten (written log)) := by
  induction log using List.reverseRecOn with
  | nil => exact (List.map_id' _).symm
  | append_singleton log e ih =>
    rw [List.foldl_append, List.foldl_cons, List.foldl_nil, ih, enrol, updateRows, List.map_map,
      written_concat]
    exact List.map_congr_left fun row _ => (rewritten_cons _ _ _ _ row).symm

theorem wellStored_enrol (stored : WellStored rows) (e : Enrolment) :
    WellStored (enrol rows e) := by
  intro row mem
  obtain ⟨before, there, rfl⟩ := List.mem_map.mp mem
  split
  · exact .inr rfl
  · exact stored before there

theorem wellStored_foldl (stored : WellStored rows) (log : List Enrolment) :
    WellStored (log.foldl enrol rows) := by
  induction log generalizing rows with
  | nil => exact stored
  | cons e log ih => exact ih (wellStored_enrol stored e)

theorem featuresOf_perm {rows rows' : List UserRow} (h : rows.Perm rows') :
    (featuresOf rows).Perm (featuresOf rows') :=
  (h.filter _).map _

structure Enrolments (ip : ℕ → String) (s : State) (log : List Enrolment) : Prop where
  order : log.Pairwise fun e e' => e.number < e'.number
  own : ∀ e ∈ log, ∃ data past,
    (compareCalls ip s)[e.number]? = some (.addFeature data e.id, okReply) ∧
      s.shared.requests.threads[e.number]? = some ⟨.addFeature data e.id, .ret 0, past⟩ ∧
        Extracted (.addFeature data e.id) past e.feature
  executed : ∀ (k : ℕ) t, s.shared.requests.threads[k]? = some t →
    executed t.past = rowsOf log k

theorem Remembered.enrolments (h : Remembered database s.shared.requests log)
    (recorded : Recorded initEngine database ip s) : Enrolments ip s log := by
  refine ⟨h.order, fun e mem => ?_, h.executed⟩
  obtain ⟨data, past, there, extracted⟩ := h.own e mem
  refine ⟨data, past, ?_, there, extracted⟩
  obtain ⟨call, at_k, same, ret, code, answer⟩ := recorded.call there
  cases code
  rw [at_k]
  exact congrArg some (Prod.ext same.symm answer)

/-- After any events on any connections the program itself still compares with the users it
was started with. When it is started again, it has for every user, in whatever order the
rows come, the feature of the last enrolment that was executed, or what was there before. -/
theorem main_restart (h : main initEngine database ip events = .ok s)
    (stored : WellStored database.userInformation) :
    ∃ log, Enrolments ip s log ∧
      s.shared.requests.shared.userInformation = log.foldl enrol database.userInformation ∧
      s.shared.requests.shared.cache = database.cache ∧
      ∀ result, result.Perm s.shared.requests.shared.userInformation → ∀ memory imports,
        (contents (construct true result memory imports).memory
          (construct true result memory imports).cache).Perm
            (featuresOf (database.userInformation.map (rewritten (written log)))) := by
  obtain ⟨log, remembered⟩ := remembered_of_main h
  have recorded := recorded_of_main h
  obtain ⟨moves, reached⟩ := recorded.quiet.requests
  obtain ⟨changes, made, -⟩ := serialised_of_run reached
  refine ⟨log, remembered.enrolments recorded, remembered.table, made.cache,
    fun result returned memory imports => ?_⟩
  have table := remembered.table
  have kept : WellStored result := fun row mem => by
    have there := returned.mem_iff.mp mem
    rw [table] at there
    exact wellStored_foldl stored log row there
  rw [contents_construct kept, if_pos rfl, ← foldl_enrol, ← table]
  exact featuresOf_perm returned

def enrolment : MainLoop.Events :=
  [.accept .compare,
    .read 0 [13, 0, 0, 0, 0x61, 0x64, 0x64, 0x66, 7, 0, 0, 0, 0xff] calm, .close 0]

theorem enrolment_table :
    ((main (fun _ => 0) oneUser (fun _ => "gate") enrolment).toOption.map fun s =>
      (s.shared.requests.shared.userInformation,
        s.shared.requests.threads.map fun t => executed t.past)) =
      some ([⟨7, 2, [1, 2]⟩], [[⟨7, 2, [1, 2]⟩]]) := by
  decide +kernel

theorem enrolment_runs : ∃ s, main (fun _ => 0) oneUser (fun _ => "gate") enrolment = .ok s ∧
    s.shared.requests.shared.userInformation = [⟨7, 2, [1, 2]⟩] ∧
      s.shared.requests.threads.map (fun t => executed t.past) = [[⟨7, 2, [1, 2]⟩]] := by
  obtain ⟨s, ran, both⟩ := Option.map_eq_some_iff.mp enrolment_table
  exact ⟨s, ok_of_toOption ran, Prod.mk.inj both⟩

theorem enrolment_restart : ∃ s, main (fun _ => 0) oneUser (fun _ => "gate") enrolment = .ok s ∧
    s.shared.requests.threads.map (fun t => executed t.past) = [[⟨7, 2, [1, 2]⟩]] ∧
      ∃ log, Enrolments (fun _ => "gate") s log ∧
        [⟨7, 2, [1, 2]⟩] = log.foldl enrol [⟨7, 0, []⟩] ∧
        s.shared.requests.shared.cache = [] ∧
        ∀ memory imports, (contents (construct true [⟨7, 2, [1, 2]⟩] memory imports).memory
          (construct true [⟨7, 2, [1, 2]⟩] memory imports).cache).Perm
            (featuresOf ([⟨7, 0, []⟩].map (rewritten (written log)))) := by
  obtain ⟨s, ran, rows, wrote⟩ := enrolment_runs
  obtain ⟨log, enrolments, table, cache, loads⟩ := main_restart ran (by decide)
  exact ⟨s, ran, wrote, log, enrolments, rows.symm.trans table, cache, fun memory imports =>
    loads _ (rows ▸ .refl _) memory imports⟩

end Restart

end ARCServer.MainEnrolment
