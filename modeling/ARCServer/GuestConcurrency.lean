import ARCServer.GuestVisits

/-! The guest server's handlers under any interleaving. The read-write lock makes
each section of a handler act as if it ran alone. -/

namespace ARCServer.GuestConcurrency

open InterleavedPrograms RequestLocks GuardedData GuestServer MachineIntegers GuestHandlers
open GuestVisits

section Runs

abbrev Calls := Config (Guarded Store) Request (LockAction Access)
  (LockAction.Response Access.Response) (List (List Byte))

abbrev CallThread := Thread Request (LockAction Access) (LockAction.Response Access.Response)
  (List (List Byte))

abbrev Moves := List (Move Request Outside)

def opened : Calls := ⟨⟨.free, .empty⟩, []⟩

abbrev phaseOf (t : CallThread) : Phase := System.localState visit Phase.start t

abbrev phases (c : Calls) : List Phase := System.locals visit Phase.start c

structure Consistent (c : Calls) : Prop where
  disciplined : System.Disciplined visit Phase.start finished c
  holds : Holds Phase.start Phase.role Settled Knows c.shared (phases c)

theorem always_consistent (moves : Moves) : guestServer.Always Consistent opened moves := by
  have empty : Settled .empty :=
    ⟨⟨rfl, List.nodup_nil, List.nodup_nil, fun _ mem => absurd mem List.not_mem_nil⟩, rfl⟩
  have unused : ∀ i request, Knows i (Phase.start request) .empty := by
    intro i request
    cases request with
    | appl data len id => exact ⟨List.not_mem_nil, List.not_mem_nil⟩
    | qury id => trivial
  intro k d reached
  obtain ⟨disciplined, holds⟩ :=
    always_holds visit_guards follows_handler empty unused moves k d reached
  exact ⟨disciplined, holds⟩

variable {c d : Calls}

theorem Consistent.proper (h : Consistent c) :
    c.shared.data.misused = false ∧ c.shared.data.freed.Nodup := by
  cases writer : c.shared.lock.writer with
  | false => exact ⟨(h.holds.settled writer).proper, (h.holds.settled writer).once⟩
  | true =>
    have count := h.holds.lock.writer
    rw [writer, if_pos rfl] at count
    obtain ⟨ρ, mem, writing⟩ := List.countP_pos_iff.mp (show 0 < _ from count ▸ Nat.one_pos)
    obtain ⟨φ, inside, rfl⟩ := List.mem_map.mp mem
    obtain ⟨i, at_i⟩ := List.mem_iff_getElem?.mp inside
    have knows := h.holds.knows i φ at_i
    cases φ with
    | adding request => exact ⟨knows.1.proper, knows.1.once⟩
    | added => exact ⟨knows.1.proper, knows.1.once⟩
    | clearing => exact ⟨knows.1.proper, knows.1.once⟩
    | scanning curTime fuel it => exact ⟨knows.1.proper, knows.1.once⟩
    | seen curTime fuel it pic => exact ⟨knows.1.proper, knows.1.once⟩
    | released curTime fuel it =>
      obtain ⟨⟨rest, released⟩, -⟩ := knows
      exact ⟨released.proper, released.once⟩
    | advanced curTime fuel it it' =>
      obtain ⟨⟨rest, released, -⟩, -⟩ := knows
      exact ⟨released.proper, released.once⟩
    | swept => exact ⟨knows.1.proper, knows.1.once⟩
    | _ => cases writing

theorem Consistent.accounted (h : Consistent c) {i : ℕ} {t : CallThread}
    (at_i : c.threads[i]? = some t) {data : List Byte} {len id : Int}
    (appl : t.request = .appl data len id) {sent : List (List Byte)} (code : t.code = .ret sent) :
    StoredOrFreed i c.shared.data := by
  have follows := h.disciplined t (List.mem_of_getElem? at_i)
  rw [code, appl] at follows
  have stored : phaseOf t = .stored := follows.2
  have knows := h.holds.knows i (phaseOf t) (System.locals_getElem? at_i)
  rw [stored] at knows
  exact knows

theorem brings_phaseOf (t : CallThread) :
    (phaseOf t).brings = none ∨ (phaseOf t).brings = some t.request := by
  suffices h : ∀ (past : List (Event (LockAction Access) (LockAction.Response Access.Response)))
      (φ : Phase), φ.brings = none ∨ φ.brings = some t.request →
        (visit.after φ past).brings = none ∨ (visit.after φ past).brings = some t.request by
    refine h t.past (Phase.start t.request) (Or.inr ?_)
    cases t.request <;> rfl
  intro past
  induction past with
  | nil => exact fun φ brought => brought
  | cons event past ih =>
    intro φ brought
    refine ih _ ?_
    rcases brings_next φ event.act event.answer with none | same
    · exact Or.inl none
    · exact brought.imp same.trans same.trans

def GenuinePictures (c : Calls) : Prop :=
  ∀ entry ∈ c.shared.data.guestList, ∃ t, c.threads[entry.block]? = some t ∧
    t.request.Stores entry.pic

theorem step_entries {i : ℕ} {act : LockAction Access} {r : act.Response Access.Response}
    {outside : Outside} {s s' : Guarded Store}
    (hs : guestServer.step i act outside s = some (r, s')) {entry : Entry}
    (mem : entry ∈ s'.data.guestList) :
    entry ∈ s.data.guestList ∨ ∃ pic, act = .access (.pushBack pic) ∧ entry = ⟨i, pic⟩ := by
  cases act with
  | lockForRead | lockForWrite =>
    obtain ⟨l, -, eq⟩ := Option.map_eq_some_iff.mp hs
    cases eq
    exact Or.inl mem
  | access a =>
    cases hs
    exact (access_entries mem).imp id fun ⟨pic, push, new⟩ => ⟨pic, congrArg _ push, new⟩
  | _ =>
    cases hs
    exact Or.inl mem

theorem each_consistent (moves : Moves) :
    guestServer.EachMove (fun c _ => Consistent c) opened moves :=
  fun k d _ reached _ => always_consistent moves k d reached

theorem always_genuine (moves : Moves) : guestServer.Always GenuinePictures opened moves := by
  refine guestServer.always_of_step (each_consistent moves)
    (fun entry mem => absurd mem List.not_mem_nil) ?_
  intro d m d' genuine consistent hmove entry mem
  cases m with
  | start request =>
    cases hmove
    obtain ⟨t, at_block, stores⟩ := genuine entry mem
    have inside := (List.getElem?_eq_some_iff.mp at_block).1
    exact ⟨t, (List.getElem?_append_left inside).trans at_block, stores⟩
  | act i outcome =>
    obtain ⟨t, act, next, r, s, ht, hcode, hstep, rfl⟩ := guestServer.move_act hmove
    have inside := (List.getElem?_eq_some_iff.mp ht).1
    rcases step_entries hstep mem with old | ⟨pic, rfl, rfl⟩
    · obtain ⟨u, at_block, stores⟩ := genuine entry old
      by_cases mine : i = entry.block
      · subst mine
        rw [ht] at at_block
        cases at_block
        exact ⟨_, List.getElem?_set_self inside, stores⟩
      · exact ⟨u, (List.getElem?_set_ne mine).trans at_block, stores⟩
    · refine ⟨_, List.getElem?_set_self inside, ?_⟩
      have adm := consistent.disciplined.admits ht hcode
      change (phaseOf t).admits (.access (.pushBack pic)) at adm
      have brings := brings_phaseOf t
      cases phase : phaseOf t with
      | adding request =>
        rw [phase] at adm brings
        rcases brings with none | same
        · cases none
        · cases same
          exact adm
      | _ =>
        rw [phase] at adm
        exact adm.elim

/-- In every state of every run: nothing freed or erased is used, no block is freed
twice, every picture is as it was sent, an acknowledged one is stored or its block
freed, and between write sections the list is what these make one after another. -/
structure SectionsAtomic (c : Calls) : Prop where
  proper : c.shared.data.misused = false
  once : c.shared.data.freed.Nodup
  genuine : GenuinePictures c
  accounted : ∀ (i : ℕ) t data len id sent, c.threads[i]? = some t →
    t.request = .appl data len id → t.code = .ret sent → StoredOrFreed i c.shared.data
  settled : c.shared.lock.writer = false →
    c.shared.data.pics = replay c.shared.data.changes ∧
      ∀ b ∈ c.shared.data.blocks, b ∉ c.shared.data.freed

theorem always_sectionsAtomic (moves : Moves) :
    guestServer.Always SectionsAtomic opened moves := by
  intro k d reached
  have consistent := always_consistent moves k d reached
  refine ⟨consistent.proper.1, consistent.proper.2, always_genuine moves k d reached, ?_, ?_⟩
  · intro i t data len id sent at_i appl code
    exact consistent.accounted at_i appl code
  · intro writer
    have settled := consistent.holds.settled writer
    exact ⟨settled.list, settled.live⟩

theorem always_goes_on (moves : Moves) :
    guestServer.Always (fun c => (∃ t ∈ c.threads, ∀ sent, t.code ≠ .ret sent) →
      ∀ outside, ∃ i, (guestServer.move c (.act i outside)).isSome) opened moves := by
  intro k d reached unfinished outside
  have consistent := always_consistent moves k d reached
  refine exists_enabled visit_guards ?_ consistent.disciplined consistent.holds unfinished outside
  intro request sent φ done
  cases request with
  | appl data len id => rw [done.2]; rfl
  | qury id => rw [show φ = .answered sent from done]; rfl

theorem handler_running (request : Request) (sent : List (List Byte)) :
    handler request ≠ .ret sent := by
  cases request <;> nofun

/-- The answer of a query is that of the plain query on the list that the write
sections so far make one after another, at one moment while the call was running
and nobody was writing. -/
theorem query_at_one_moment {moves : Moves} {d : Calls}
    (reached : guestServer.run opened moves = some d) {i : ℕ} {t : CallThread}
    (at_i : d.threads[i]? = some t) {id : Int} (qury : t.request = .qury id)
    {sent : List (List Byte)} (code : t.code = .ret sent) :
    ∃ k c, k < moves.length ∧ guestServer.run opened (moves.take k) = some c ∧
      (∃ u, c.threads[i]? = some u ∧ u.request = .qury id ∧ ∀ s, u.code ≠ .ret s) ∧
      c.shared.lock.writer = false ∧
      sent = (onStringMessageQuery id (replay c.shared.data.changes)).sent := by
  induction moves using List.reverseRecOn generalizing d t with
  | nil =>
    cases reached
    cases at_i
  | append_singleton moves m ih =>
    have consistent := (always_consistent (moves ++ [m])).last guestServer reached
    rw [guestServer.run_concat] at reached
    obtain ⟨c, before, moved⟩ := Option.bind_eq_some_iff.mp reached
    have short (k : ℕ) (inside : k < moves.length) : (moves ++ [m]).take k = moves.take k :=
      List.take_append_of_le_length inside.le
    have length : (moves ++ [m]).length = moves.length + 1 := List.length_append
    -- The call was over before the last move: then the moment lies before it, too.
    have earlier (u : CallThread) (at_u : c.threads[i]? = some u) (asked : u.request = .qury id)
        (ended : u.code = .ret sent) :
        ∃ k c, k < (moves ++ [m]).length ∧
          guestServer.run opened ((moves ++ [m]).take k) = some c ∧
          (∃ u, c.threads[i]? = some u ∧ u.request = .qury id ∧ ∀ s, u.code ≠ .ret s) ∧
          c.shared.lock.writer = false ∧
          sent = (onStringMessageQuery id (replay c.shared.data.changes)).sent := by
      obtain ⟨k, e, inside, ran, moment⟩ := ih before at_u asked ended
      exact ⟨k, e, by omega, by rw [short k inside]; exact ran, moment⟩
    cases m with
    | start request =>
      cases moved
      rcases of_getElem?_concat at_i with before | ⟨-, rfl⟩
      · exact earlier t before qury code
      · exact absurd code (handler_running request sent)
    | act j outcome =>
      obtain ⟨u, act, next, r, s, hu, hcode, hstep, rfl⟩ := guestServer.move_act moved
      by_cases mine : j = i
      swap
      · exact earlier t ((List.getElem?_set_ne mine).symm.trans at_i) qury code
      subst mine
      have inside := (List.getElem?_eq_some_iff.mp hu).1
      obtain rfl : _ = t := Option.some.inj ((List.getElem?_set_self inside).symm.trans at_i)
      have was : Consistent c := (always_consistent moves).last guestServer before
      have adm : (phaseOf u).admits act := was.disciplined.admits hu hcode
      have asked : u.request = .qury id := qury
      have follows := consistent.disciplined _ (List.mem_of_getElem? at_i)
      rw [code, System.localState_step] at follows
      have ended : (phaseOf u).next act r = .answered sent := by
        simp only [asked] at follows
        exact follows
      obtain ⟨id', fuel, it, flag, answers, phase, through, rfl⟩ := walking_of_answered adm ended
      have brings := brings_phaseOf u
      rw [phase] at brings
      obtain rfl : id' = id := by
        rcases brings with none | same
        · cases none
        · rw [asked] at same
          cases same
          rfl
      have at_phase : (phases c)[j]? = some (.walking id' fuel it flag answers) :=
        phase ▸ System.locals_getElem? hu
      have knows := was.holds.knows j _ at_phase
      have writer := was.holds.unwritten at_phase rfl
      refine ⟨moves.length, c, by omega, ?_, ⟨u, hu, qury, fun s ended => ?_⟩, writer, ?_⟩
      · rw [List.take_left]
        exact before
      · rw [hcode] at ended
        cases ended
      · rw [← (was.holds.settled writer).list]
        exact Walking.answer knows through

def noon : Outside := ⟨43200000, ⟨0, [], 0, 0⟩⟩

/-- A query that gets the lock between the section that stores a picture and the one
that would clear the list. -/
def storedThenAsked : Moves :=
  [.start (.appl [1, 2] 2 7), .start (.qury 7), .act 0 noon, .act 0 noon, .act 0 noon, .act 0 noon,
    .act 0 noon, .act 1 noon, .act 0 noon, .act 1 noon, .act 1 noon, .act 1 noon, .act 1 noon,
    .act 1 noon]

theorem storedThenAsked_run : ∃ d t, guestServer.run opened storedThenAsked = some d ∧
    d.threads[1]? = some t ∧ t.request = .qury 7 ∧ t.code = .ret [hostBytes 6, [1, 2]] :=
  ⟨_, _, rfl, rfl, rfl, rfl⟩

theorem query_between_sections : ∃ k c, k < storedThenAsked.length ∧
    guestServer.run opened (storedThenAsked.take k) = some c ∧
      (∃ u, c.threads[1]? = some u ∧ u.request = .qury 7 ∧ ∀ s, u.code ≠ .ret s) ∧
      c.shared.lock.writer = false ∧
      [hostBytes 6, [1, 2]] = (onStringMessageQuery 7 (replay c.shared.data.changes)).sent := by
  obtain ⟨d, t, reached, at_one, qury, code⟩ := storedThenAsked_run
  exact query_at_one_moment reached at_one qury code

end Runs

end ARCServer.GuestConcurrency
