import ARCServer.GuestHandlers

/-! What a call of a guest handler may do next, what it knows of the list at that
point, and that each access leads from the one to the other. -/

namespace ARCServer.GuestVisits

open InterleavedPrograms RequestLocks GuardedData GuestServer MachineIntegers GuestHandlers
open FrameCodec (okReply)

inductive Phase
  | pending (request : Request)
  | queued (request : Request)
  | adding (request : Request)
  | added
  | stored
  | clearing
  | scanning (curTime : QTime) (fuel : ℕ) (it : Iterator)
  | seen (curTime : QTime) (fuel it : ℕ) (pic : GuestPic)
  | released (curTime : QTime) (fuel it : ℕ)
  | advanced (curTime : QTime) (fuel it : ℕ) (it' : Iterator)
  | swept
  | asking (id : Int)
  | reading (id : Int)
  | walking (id : Int) (fuel : ℕ) (it : Iterator) (flag : ℕ) (sent : List (List Byte))
  | looked (id : Int) (fuel it : ℕ) (pic : GuestPic) (flag : ℕ) (sent : List (List Byte))
  | loaded (id : Int) (fuel it flag : ℕ) (sent : List (List Byte))
  | answered (sent : List (List Byte))
  deriving DecidableEq, Repr

namespace Phase

def role : Phase → Role
  | .pending _ | .stored | .asking _ | .answered _ => .none
  | .queued _ => .waiting
  | .reading _ | .walking _ _ _ _ _ | .looked _ _ _ _ _ _ | .loaded _ _ _ _ _ => .reading
  | _ => .writing

def start : Request → Phase
  | .appl data len id => .pending (.appl data len id)
  | .qury id => .asking id

def admits : Phase → LockAction Access → Prop
  | .pending _, .access .currentTime => True
  | .pending _, .queueForWrite => True
  | .queued _, .lockForWrite => True
  | .adding request, .access (.pushBack pic) => request.Stores pic
  | .added, .unlock => True
  | .stored, .tryLockForWrite => True
  | .clearing, .access .currentTime => True
  | .clearing, .access (.scan _) => True
  | .scanning _ fuel _, .unlock => fuel = 0
  | .scanning _ _ it, .access .pastEnd => it = none
  | .scanning _ _ it, .access (.deref it') => it = some it'
  | .seen curTime _ _ pic, .unlock => ¬ pic.addTime ≤ curTime
  | .seen curTime _ it pic, .access (.free it') => it' = it ∧ pic.addTime ≤ curTime
  | .released _ _ it, .access (.advance it') => it' = it
  | .advanced _ _ it _, .access (.erase it') => it' = it
  | .swept, .unlock => True
  | .asking _, .lockForRead => True
  | .reading _, .access .begin => True
  | .walking _ fuel it _ _, .unlock => fuel = 0 ∨ it = none
  | .walking _ _ it _ _, .access (.deref it') => it = some it'
  | .looked id _ it pic _ _, .access (.load it') => it' = it ∧ id = pic.id
  | .looked id _ it pic _ _, .access (.advance it') => it' = it ∧ id ≠ pic.id
  | .loaded _ _ it _ _, .access (.advance it') => it' = it
  | _, _ => False

def total (flag : ℕ) (sent : List (List Byte)) : List (List Byte) :=
  if flag = 0 then sent ++ [emptyReply] else sent

def next : Phase → (act : LockAction Access) → act.Response Access.Response → Phase
  | .pending request, .queueForWrite, _ => .queued request
  | .queued request, .lockForWrite, _ => .adding request
  | .adding _, .access (.pushBack _), _ => .added
  | .added, .unlock, _ => .stored
  | .stored, .tryLockForWrite, got => if got then .clearing else .stored
  | .clearing, .access (.scan curTime), r => .scanning curTime (r.2 + 1) r.1
  | .scanning _ _ _, .unlock, _ => .stored
  | .scanning _ _ _, .access .pastEnd, _ => .swept
  | .scanning curTime fuel _, .access (.deref it), pic => .seen curTime (fuel - 1) it pic
  | .seen _ _ _ _, .unlock, _ => .stored
  | .seen curTime fuel it _, .access (.free _), _ => .released curTime fuel it
  | .released curTime fuel it, .access (.advance _), it' => .advanced curTime fuel it it'
  | .advanced curTime fuel _ it', .access (.erase _), _ => .scanning curTime fuel it'
  | .swept, .unlock, _ => .stored
  | .asking id, .lockForRead, _ => .reading id
  | .reading id, .access .begin, r => .walking id (r.2 + 1) r.1 0 []
  | .walking _ _ _ flag sent, .unlock, _ => .answered (total flag sent)
  | .walking id fuel _ flag sent, .access (.deref it), pic =>
    .looked id (fuel - 1) it pic flag sent
  | .looked id fuel it pic flag sent, .access (.load _), bytes =>
    .loaded id fuel it (flag + 1) (sent ++ [hostBytes (toInt32 (pic.len_pic + 4)), bytes])
  | .looked id fuel _ _ flag sent, .access (.advance _), it' => .walking id fuel it' flag sent
  | .loaded id fuel _ flag sent, .access (.advance _), it' => .walking id fuel it' flag sent
  | φ, _, _ => φ

end Phase

def visit : Protocol (LockAction Access) (LockAction.Response Access.Response) Phase :=
  ⟨Phase.admits, Phase.next⟩

def finished : Request → List (List Byte) → Phase → Prop
  | .appl _ _ _, sent, φ => sent = [okReply] ∧ φ = .stored
  | .qury _, sent, φ => φ = .answered sent

theorem follows_clearLoop (curTime : QTime) (fuel : ℕ) (it : Iterator) :
    visit.Follows (.scanning curTime fuel it) (clearLoop curTime fuel it)
      fun _ φ => φ.admits .unlock ∧ φ.next .unlock () = .stored := by
  induction fuel generalizing it with
  | zero => exact ⟨rfl, rfl⟩
  | succ fuel ih =>
    cases it with
    | none => exact ⟨rfl, fun _ => ⟨trivial, rfl⟩⟩
    | some it =>
      refine ⟨rfl, fun pic => ?_⟩
      change visit.Follows (.seen curTime fuel it pic) (if pic.addTime ≤ curTime then _ else _) _
      by_cases old : pic.addTime ≤ curTime
      · rw [if_pos old]
        exact ⟨⟨rfl, old⟩, fun _ => ⟨rfl, fun it' => ⟨rfl, fun _ => ih it'⟩⟩⟩
      · rw [if_neg old]
        exact ⟨old, rfl⟩

theorem follows_queryLoop (id : Int) (fuel : ℕ) (it : Iterator) (flag : ℕ)
    (sent : List (List Byte)) :
    visit.Follows (.walking id fuel it flag sent) (queryLoop id fuel it flag sent)
      fun r φ => φ.admits .unlock ∧ φ.next .unlock () = .answered (Phase.total r.1 r.2) := by
  induction fuel generalizing it flag sent with
  | zero => exact ⟨Or.inl rfl, rfl⟩
  | succ fuel ih =>
    cases it with
    | none => exact ⟨Or.inr rfl, rfl⟩
    | some it =>
      refine ⟨rfl, fun pic => ?_⟩
      change visit.Follows (.looked id fuel it pic flag sent) (if id = pic.id then _ else _) _
      by_cases same : id = pic.id
      · rw [if_pos same]
        exact ⟨⟨rfl, same⟩, fun bytes => ⟨rfl, fun it' => ih it' _ _⟩⟩
      · rw [if_neg same]
        exact ⟨⟨rfl, same⟩, fun it' => ih it' _ _⟩

theorem follows_clearList (retainTime : Int) :
    visit.Follows .stored (clearList retainTime) fun _ φ => φ = .stored := by
  refine ⟨trivial, fun got => ?_⟩
  cases got with
  | false => rfl
  | true =>
    refine ⟨trivial, fun now => ⟨trivial, fun first => ?_⟩⟩
    change visit.Follows (.scanning (addSecs now (-retainTime)) (first.2 + 1) first.1)
      (clearLoop (addSecs now (-retainTime)) (first.2 + 1) first.1 >>= fun _ => unlock) _
    rw [Protocol.follows_bind]
    exact (follows_clearLoop _ _ _).mono fun _ φ unlocks => ⟨unlocks.1, fun _ => unlocks.2⟩

theorem follows_handler (request : Request) :
    visit.Follows (Phase.start request) (handler request) (finished request) := by
  cases request with
  | appl data len id =>
    refine ⟨trivial, fun addTime => ⟨trivial, fun _ => ⟨trivial, fun _ => ⟨⟨rfl, rfl, rfl⟩, fun _ =>
      ⟨trivial, fun _ => ?_⟩⟩⟩⟩⟩
    change visit.Follows .stored (clearList retainTime >>= fun _ => pure [okReply]) _
    rw [Protocol.follows_bind]
    exact (follows_clearList retainTime).mono fun _ φ stored => ⟨rfl, stored⟩
  | qury id =>
    refine ⟨trivial, fun _ => ⟨trivial, fun first => ?_⟩⟩
    change visit.Follows (.walking id (first.2 + 1) first.1 0 [])
      (queryLoop id (first.2 + 1) first.1 0 [] >>= fun r => unlock >>= fun _ =>
        pure (Phase.total r.1 r.2)) _
    rw [Protocol.follows_bind]
    exact (follows_queryLoop _ _ _ _ _).mono fun r φ unlocks =>
      ⟨unlocks.1, fun _ => unlocks.2⟩

/-! What the list is, and what a call in each phase knows of it. -/

/-- Every stored picture has its own block, which is not freed, and nothing was
ever freed twice or used after that. -/
structure Clean (d : Store) : Prop where
  proper : d.misused = false
  distinct : d.blocks.Nodup
  once : d.freed.Nodup
  live : ∀ b ∈ d.blocks, b ∉ d.freed

structure Settled (d : Store) : Prop extends Clean d where
  list : d.pics = replay d.changes

def Unused (i : ℕ) (d : Store) : Prop := i ∉ d.blocks ∧ i ∉ d.freed

def StoredOrFreed (i : ℕ) (d : Store) : Prop := i ∈ d.blocks ∨ i ∈ d.freed

/-- The scan of `clearList` is at the front, and what it will leave is what the
section stands for. -/
structure Scanning (curTime : QTime) (fuel : ℕ) (it : Iterator) (d : Store) : Prop
    extends Clean d where
  front : it = begin d.guestList
  rounds : d.guestList.length < fuel
  list : replay d.changes = (expire curTime d.pics).1

structure Seen (curTime : QTime) (fuel it : ℕ) (pic : GuestPic) (d : Store) : Prop
    extends Clean d where
  front : ∃ rest, d.guestList = ⟨it, pic⟩ :: rest ∧ rest.length < fuel
  list : replay d.changes = (expire curTime d.pics).1

structure Released (curTime : QTime) (fuel it : ℕ) (rest : List Entry) (d : Store) : Prop where
  proper : d.misused = false
  distinct : d.blocks.Nodup
  once : d.freed.Nodup
  front : ∃ pic, d.guestList = ⟨it, pic⟩ :: rest
  gone : it ∈ d.freed
  live : ∀ b ∈ rest.map Entry.block, b ∉ d.freed
  rounds : rest.length < fuel
  list : replay d.changes = (expire curTime (rest.map Entry.pic)).1

structure Walking (id : Int) (fuel : ℕ) (it : Iterator) (flag : ℕ) (sent : List (List Byte))
    (d : Store) : Prop where
  place : ∃ done todo, d.guestList = done ++ todo ∧ it = begin todo ∧ todo.length < fuel ∧
    (flag, sent) = sendPictures id (done.map Entry.pic) 0

structure Looked (id : Int) (fuel it : ℕ) (pic : GuestPic) (flag : ℕ) (sent : List (List Byte))
    (d : Store) : Prop where
  place : ∃ done todo, d.guestList = done ++ ⟨it, pic⟩ :: todo ∧ todo.length < fuel ∧
    (flag, sent) = sendPictures id (done.map Entry.pic) 0

structure PicLoaded (id : Int) (fuel it flag : ℕ) (sent : List (List Byte)) (d : Store) : Prop where
  place : ∃ done pic todo, d.guestList = done ++ ⟨it, pic⟩ :: todo ∧ todo.length < fuel ∧
    (flag, sent) = sendPictures id ((done ++ [⟨it, pic⟩]).map Entry.pic) 0

def Knows (i : ℕ) : Phase → Store → Prop
  | .pending _, d | .queued _, d => Unused i d
  | .adding _, d => Settled d ∧ Unused i d
  | .added, d | .clearing, d | .swept, d => Settled d ∧ StoredOrFreed i d
  | .stored, d => StoredOrFreed i d
  | .scanning curTime fuel it, d => Scanning curTime fuel it d ∧ StoredOrFreed i d
  | .seen curTime fuel it pic, d => Seen curTime fuel it pic d ∧ StoredOrFreed i d
  | .released curTime fuel it, d => (∃ rest, Released curTime fuel it rest d) ∧ StoredOrFreed i d
  | .advanced curTime fuel it it', d =>
    (∃ rest, Released curTime fuel it rest d ∧ it' = begin rest) ∧ StoredOrFreed i d
  | .asking _, _ | .reading _, _ | .answered _, _ => True
  | .walking id fuel it flag sent, d => Walking id fuel it flag sent d
  | .looked id fuel it pic flag sent, d => Looked id fuel it pic flag sent d
  | .loaded id fuel it flag sent, d => PicLoaded id fuel it flag sent d

section Lists

variable {it : ℕ} {pic : GuestPic} {done todo rest guestList : List Entry}

theorem begin_eq_some (h : some it = begin guestList) :
    ∃ pic rest, guestList = ⟨it, pic⟩ :: rest := by
  cases guestList with
  | nil => cases h
  | cons entry rest =>
    cases h
    exact ⟨entry.pic, rest, rfl⟩

theorem begin_eq_none (h : none = begin guestList) : guestList = [] := by
  cases guestList with
  | nil => rfl
  | cons entry rest => cases h

theorem other_before (distinct : ((done ++ ⟨it, pic⟩ :: todo).map Entry.block).Nodup)
    {entry : Entry} (mem : entry ∈ done) : entry.block ≠ it := by
  rw [List.map_append, List.map_cons] at distinct
  exact (List.nodup_append.mp distinct).2.2 _ (List.mem_map_of_mem mem) it List.mem_cons_self

theorem find_middle (distinct : ((done ++ ⟨it, pic⟩ :: todo).map Entry.block).Nodup) :
    find it (done ++ ⟨it, pic⟩ :: todo) = some ⟨it, pic⟩ := by
  have skipped : done.find? (fun entry => entry.block = it) = none :=
    List.find?_eq_none.mpr fun entry mem => by simpa using other_before distinct mem
  rw [find, List.find?_append, skipped]
  simp

theorem next_middle (distinct : ((done ++ ⟨it, pic⟩ :: todo).map Entry.block).Nodup) :
    next it (done ++ ⟨it, pic⟩ :: todo) = begin todo := by
  have skipped : (done ++ ⟨it, pic⟩ :: todo).dropWhile (fun entry => entry.block ≠ it) =
      ⟨it, pic⟩ :: todo := by
    rw [List.dropWhile_append_of_pos fun entry mem => by simpa using other_before distinct mem]
    simp
  rw [next, skipped, List.tail_cons]

theorem find_front (distinct : ((⟨it, pic⟩ :: rest).map Entry.block).Nodup) :
    find it (⟨it, pic⟩ :: rest) = some ⟨it, pic⟩ := by
  have middle : (([] ++ ⟨it, pic⟩ :: rest : List Entry).map Entry.block).Nodup := distinct
  exact find_middle middle

theorem erase_front (distinct : ((⟨it, pic⟩ :: rest).map Entry.block).Nodup) :
    ((⟨it, pic⟩ :: rest : List Entry).filter fun entry => entry.block ≠ it) = rest := by
  rw [List.map_cons, List.nodup_cons] at distinct
  rw [List.filter_cons_of_neg (by simp), List.filter_eq_self]
  intro entry mem
  have other : entry.block ≠ it := fun same =>
    distinct.1 (List.mem_map.mpr ⟨entry, mem, same⟩)
  simpa using other

end Lists

section Knowledge

variable {d : Store} {i : ℕ} {outside : Outside}

theorem Scanning.settled_of_end {curTime : QTime} {fuel : ℕ}
    (h : Scanning curTime fuel none d) : Settled d := by
  have empty := begin_eq_none h.front
  have list := h.list
  unfold Store.pics at list
  rw [empty] at list
  exact ⟨h.toClean, by rw [list, Store.pics, empty]; rfl⟩

theorem Seen.settled_of_fresh {curTime : QTime} {fuel it : ℕ} {pic : GuestPic}
    (h : Seen curTime fuel it pic d) (fresh : ¬ pic.addTime ≤ curTime) : Settled d := by
  obtain ⟨rest, list, -⟩ := h.front
  have replayed := h.list
  have pics : d.pics = pic :: rest.map Entry.pic := by rw [Store.pics, list]; rfl
  rw [pics, expire, if_neg fresh] at replayed
  exact ⟨h.toClean, pics.trans replayed.symm⟩

/-! One lemma for each access: what the call knows after it. -/

theorem Settled.pushBack (h : Settled d) (unused : Unused i d) (pic : GuestPic) :
    Settled (access i (.pushBack pic) outside d).2 ∧
      StoredOrFreed i (access i (.pushBack pic) outside d).2 := by
  have blocks : (access i (.pushBack pic) outside d).2.blocks = d.blocks ++ [i] := by
    simp [access, Store.blocks]
  have pics : (access i (.pushBack pic) outside d).2.pics = d.pics ++ [pic] := by
    simp [access, Store.pics]
  refine ⟨⟨⟨h.proper, ?_, h.once, ?_⟩, ?_⟩, Or.inl ?_⟩
  · rw [blocks, List.nodup_append]
    refine ⟨h.distinct, List.pairwise_singleton _ i, fun b mem c single same => ?_⟩
    rw [List.mem_singleton.mp single] at same
    exact unused.1 (same ▸ mem)
  · rw [blocks]
    intro b mem
    rcases List.mem_append.mp mem with old | new
    · exact h.live b old
    · rw [List.mem_singleton.mp new]
      exact unused.2
  · rw [pics, h.list]
    exact (replay_concat d.changes (.add pic)).symm
  · rw [blocks]
    exact List.mem_append_right _ (List.mem_singleton.mpr rfl)

theorem Settled.scan (h : Settled d) (curTime : QTime) :
    Scanning curTime (d.guestList.length + 1) (begin d.guestList)
      { d with changes := d.changes ++ [.clear curTime] } := by
  refine ⟨⟨h.proper, h.distinct, h.once, h.live⟩, rfl, Nat.lt_succ_self _, ?_⟩
  change replay (d.changes ++ [.clear curTime]) = (expire curTime d.pics).1
  rw [replay_concat, ← h.list]
  rfl

theorem deref_middle {it : ℕ} {pic : GuestPic} {done todo : List Entry} (clean : Clean d)
    (place : d.guestList = done ++ ⟨it, pic⟩ :: todo) :
    access i (.deref it) outside d = (pic, d) := by
  have distinct := clean.distinct
  rw [Store.blocks, place] at distinct
  have found : find it d.guestList = some ⟨it, pic⟩ := by rw [place, find_middle distinct]
  simp only [access, found, Option.map_some, Option.getD_some, Option.isNone_some, Bool.or_false]

theorem advance_middle {it : ℕ} {pic : GuestPic} {done todo : List Entry} (proper : d.blocks.Nodup)
    (place : d.guestList = done ++ ⟨it, pic⟩ :: todo) :
    access i (.advance it) outside d = (begin todo, d) := by
  rw [Store.blocks, place] at proper
  have found : find it d.guestList = some ⟨it, pic⟩ := by rw [place, find_middle proper]
  have after : next it d.guestList = begin todo := by rw [place, next_middle proper]
  simp only [access, found, after, Option.isNone_some, Bool.or_false]

theorem load_middle {it : ℕ} {pic : GuestPic} {done todo : List Entry} (clean : Clean d)
    (place : d.guestList = done ++ ⟨it, pic⟩ :: todo) :
    access i (.load it) outside d = (pic.data.take pic.len_pic.toNat, d) := by
  have distinct := clean.distinct
  rw [Store.blocks, place] at distinct
  have found : find it d.guestList = some ⟨it, pic⟩ := by rw [place, find_middle distinct]
  have live : it ∉ d.freed := by
    refine clean.live it ?_
    rw [Store.blocks, place]
    simp
  have unfreed : d.freed.contains it = false := by simpa using live
  simp only [access, found, Option.map_some, Option.getD_some, Option.isNone_some, unfreed,
    Bool.or_false]

theorem Scanning.deref {curTime : QTime} {fuel it : ℕ} (h : Scanning curTime fuel (some it) d) :
    Seen curTime (fuel - 1) it (access i (.deref it) outside d).1
      (access i (.deref it) outside d).2 := by
  obtain ⟨pic, rest, list⟩ := begin_eq_some h.front
  have place : d.guestList = [] ++ ⟨it, pic⟩ :: rest := list
  have rounds := h.rounds
  rw [list, List.length_cons] at rounds
  rw [deref_middle h.toClean place]
  exact ⟨h.toClean, ⟨rest, list, by omega⟩, h.list⟩

theorem Seen.free {curTime : QTime} {fuel it : ℕ} {pic : GuestPic}
    (h : Seen curTime fuel it pic d) (old : pic.addTime ≤ curTime) :
    ∃ rest, Released curTime fuel it rest (access i (.free it) outside d).2 := by
  obtain ⟨rest, list, rounds⟩ := h.front
  have distinct := h.distinct
  rw [Store.blocks, list] at distinct
  have found : find it d.guestList = some ⟨it, pic⟩ := by
    rw [list, find_front distinct]
  have front : it ∈ d.blocks := by
    rw [Store.blocks, list]
    exact List.mem_cons_self
  have live := h.live it front
  have unfreed : d.freed.contains it = false := by simpa using live
  have replayed := h.list
  have pics : d.pics = pic :: rest.map Entry.pic := by rw [Store.pics, list]; rfl
  rw [pics, expire, if_pos old] at replayed
  rw [List.map_cons, List.nodup_cons] at distinct
  refine ⟨rest, ?_, h.distinct, ?_, ⟨pic, list⟩, List.mem_cons_self, ?_, rounds, replayed⟩
  · simp only [access, found, Option.isNone_some, unfreed, Bool.or_false]
    exact h.proper
  · exact List.nodup_cons.mpr ⟨live, h.once⟩
  · intro b mem freed
    rcases List.mem_cons.mp freed with same | before
    · exact distinct.1 (same ▸ mem)
    · refine h.live b ?_ before
      rw [Store.blocks, list]
      exact List.mem_cons_of_mem _ mem

theorem Released.advance {curTime : QTime} {fuel it : ℕ} {rest : List Entry}
    (h : Released curTime fuel it rest d) :
    access i (.advance it) outside d = (begin rest, d) := by
  obtain ⟨pic, list⟩ := h.front
  have place : d.guestList = [] ++ ⟨it, pic⟩ :: rest := list
  exact advance_middle h.distinct place

theorem Released.erase {curTime : QTime} {fuel it : ℕ} {rest : List Entry}
    (h : Released curTime fuel it rest d) :
    Scanning curTime fuel (begin rest) (access i (.erase it) outside d).2 := by
  obtain ⟨pic, list⟩ := h.front
  have distinct := h.distinct
  rw [Store.blocks, list] at distinct
  have found : find it d.guestList = some ⟨it, pic⟩ := by
    rw [list, find_front distinct]
  have left : (d.guestList.filter fun entry => entry.block ≠ it) = rest := by
    rw [list, erase_front distinct]
  rw [List.map_cons, List.nodup_cons] at distinct
  have erased : (access i (.erase it) outside d).2 = { d with guestList := rest } := by
    simp only [access, found, Option.isNone_some, Bool.or_false]
    rw [left]
  rw [erased]
  exact ⟨⟨h.proper, distinct.2, h.once, h.live⟩, rfl, h.rounds, h.list⟩

theorem Walking.deref {id : Int} {fuel it flag : ℕ} {sent : List (List Byte)}
    (h : Walking id fuel (some it) flag sent d) (settled : Settled d) :
    Looked id (fuel - 1) it (access i (.deref it) outside d).1 flag sent
      (access i (.deref it) outside d).2 := by
  obtain ⟨done, todo, list, front, rounds, answers⟩ := h.place
  obtain ⟨pic, rest, rfl⟩ := begin_eq_some front
  rw [List.length_cons] at rounds
  rw [deref_middle settled.toClean list]
  exact ⟨done, rest, list, by omega, answers⟩

theorem Looked.load {id : Int} {fuel it flag : ℕ} {pic : GuestPic} {sent : List (List Byte)}
    (h : Looked id fuel it pic flag sent d) (settled : Settled d) (same : id = pic.id) :
    PicLoaded id fuel it (flag + 1)
      (sent ++ [hostBytes (toInt32 (pic.len_pic + 4)), (access i (.load it) outside d).1])
      (access i (.load it) outside d).2 := by
  obtain ⟨done, todo, list, rounds, answers⟩ := h.place
  rw [load_middle settled.toClean list]
  refine ⟨done, pic, todo, list, rounds, ?_⟩
  rw [sendPictures_eq, Prod.mk.injEq] at answers
  rw [sendPictures_eq, List.map_append, List.filter_append, List.map_singleton,
    List.filter_cons_of_pos (by simpa using same), List.filter_nil, List.length_append,
    List.flatMap_append, answers.1, answers.2]
  rfl

theorem Looked.advance {id : Int} {fuel it flag : ℕ} {pic : GuestPic} {sent : List (List Byte)}
    (h : Looked id fuel it pic flag sent d) (settled : Settled d) (other : id ≠ pic.id) :
    Walking id fuel (access i (.advance it) outside d).1 flag sent
      (access i (.advance it) outside d).2 := by
  obtain ⟨done, todo, list, rounds, answers⟩ := h.place
  rw [advance_middle settled.distinct list]
  refine ⟨done ++ [⟨it, pic⟩], todo, by rw [list, List.append_assoc]; rfl, rfl, rounds, ?_⟩
  rw [sendPictures_eq, List.map_append, List.filter_append, List.map_singleton,
    List.filter_cons_of_neg (by simpa using other), List.filter_nil, List.append_nil,
    ← sendPictures_eq]
  exact answers

theorem PicLoaded.advance {id : Int} {fuel it flag : ℕ} {sent : List (List Byte)}
    (h : PicLoaded id fuel it flag sent d) (settled : Settled d) :
    Walking id fuel (access i (.advance it) outside d).1 flag sent
      (access i (.advance it) outside d).2 := by
  obtain ⟨done, pic, todo, list, rounds, answers⟩ := h.place
  rw [advance_middle settled.distinct list]
  exact ⟨done ++ [⟨it, pic⟩], todo, by rw [list, List.append_assoc]; rfl, rfl, rounds, answers⟩

end Knowledge

theorem unlock_settled (φ : Phase) (adm : φ.admits .unlock) (writing : φ.role = .writing) (i : ℕ)
    (d : Store) (knows : Knows i φ d) : Settled d := by
  cases φ with
  | added => exact knows.1
  | swept => exact knows.1
  | scanning curTime fuel it =>
    obtain rfl : fuel = 0 := adm
    exact absurd knows.1.rounds (Nat.not_lt_zero _)
  | seen curTime fuel it pic => exact knows.1.settled_of_fresh adm
  | walking id fuel it flag sent => cases writing
  | _ => exact adm.elim

section Interference

variable {d : Store} {i j : ℕ} {outside : Outside}

theorem StoredOrFreed.pushBack (h : StoredOrFreed j d) (pic : GuestPic) :
    StoredOrFreed j (access i (.pushBack pic) outside d).2 := by
  refine h.imp (fun mem => ?_) id
  rw [Store.blocks] at mem ⊢
  simp only [access, List.map_append]
  exact List.mem_append_left _ mem

theorem Unused.pushBack (h : Unused j d) (other : j ≠ i) (pic : GuestPic) :
    Unused j (access i (.pushBack pic) outside d).2 := by
  refine ⟨fun mem => ?_, h.2⟩
  rw [Store.blocks] at mem
  simp only [access, List.map_append] at mem
  rcases List.mem_append.mp mem with old | new
  · exact h.1 old
  · exact other (List.mem_singleton.mp new)

theorem Seen.mem_blocks {curTime : QTime} {fuel it : ℕ} {pic : GuestPic}
    (h : Seen curTime fuel it pic d) : it ∈ d.blocks := by
  obtain ⟨rest, list, -⟩ := h.front
  rw [Store.blocks, list]
  exact List.mem_cons_self

theorem Unused.free {it : ℕ} (h : Unused j d) (mem : it ∈ d.blocks) :
    Unused j (access i (.free it) outside d).2 := by
  refine ⟨h.1, fun freed => ?_⟩
  rcases List.mem_cons.mp freed with same | before
  · exact h.1 (same ▸ mem)
  · exact h.2 before

theorem StoredOrFreed.free (h : StoredOrFreed j d) (it : ℕ) :
    StoredOrFreed j (access i (.free it) outside d).2 :=
  h.imp id (List.mem_cons_of_mem it)

theorem Unused.erase (h : Unused j d) (it : ℕ) : Unused j (access i (.erase it) outside d).2 := by
  refine ⟨fun mem => h.1 ?_, h.2⟩
  obtain ⟨entry, kept, same⟩ := List.mem_map.mp mem
  exact List.mem_map.mpr ⟨entry, List.mem_of_mem_filter kept, same⟩

theorem StoredOrFreed.erase (h : StoredOrFreed j d) {it : ℕ} (gone : it ∈ d.freed) :
    StoredOrFreed j (access i (.erase it) outside d).2 := by
  rcases h with stored | freed
  · by_cases same : j = it
    · exact Or.inr (same ▸ gone)
    · obtain ⟨entry, mem, block⟩ := List.mem_map.mp stored
      refine Or.inl (List.mem_map.mpr ⟨entry, List.mem_filter.mpr ⟨mem, ?_⟩, block⟩)
      simpa [block] using same
  · exact Or.inr freed

/-- What the others know outlasts every access of the writer. -/
theorem visit_stable (φ : Phase) (a : Access) (adm : φ.admits (.access a))
    (writing : φ.role = .writing) (knows : Knows i φ d) :
    (∀ j, StoredOrFreed j d → StoredOrFreed j (access i a outside d).2) ∧
      ∀ j, j ≠ i → Unused j d → Unused j (access i a outside d).2 := by
  cases φ with
  | adding request =>
    cases a with
    | pushBack pic => exact ⟨fun j h => h.pushBack pic, fun j other h => h.pushBack other pic⟩
    | _ => exact adm.elim
  | clearing =>
    cases a with
    | currentTime => exact ⟨fun j h => h, fun j _ h => h⟩
    | scan curTime => exact ⟨fun j h => h, fun j _ h => h⟩
    | _ => exact adm.elim
  | scanning curTime fuel it =>
    cases a with
    | pastEnd => exact ⟨fun j h => h, fun j _ h => h⟩
    | deref it => exact ⟨fun j h => h, fun j _ h => h⟩
    | _ => exact adm.elim
  | seen curTime fuel it pic =>
    cases a with
    | free it' =>
      obtain ⟨rfl, -⟩ := adm
      exact ⟨fun j h => h.free it', fun j _ h => h.free knows.1.mem_blocks⟩
    | _ => exact adm.elim
  | released curTime fuel it =>
    cases a with
    | advance it' => exact ⟨fun j h => h, fun j _ h => h⟩
    | _ => exact adm.elim
  | advanced curTime fuel it it' =>
    cases a with
    | erase it'' =>
      obtain rfl : it'' = it := adm
      obtain ⟨⟨rest, released, -⟩, -⟩ := knows
      exact ⟨fun j h => h.erase released.gone, fun j _ h => h.erase it''⟩
    | _ => exact adm.elim
  | added => cases a <;> exact adm.elim
  | swept => cases a <;> exact adm.elim
  | _ => cases writing

/-- Every access leads from what is known in its phase to what is known in the next. -/
theorem visit_access (φ : Phase) (a : Access) (adm : φ.admits (.access a)) (knows : Knows i φ d)
    (settled : φ.role = .reading → Settled d) :
    (φ.next (.access a) (access i a outside d).1).role = φ.role ∧
      Knows i (φ.next (.access a) (access i a outside d).1) (access i a outside d).2 := by
  cases φ with
  | pending request =>
    cases a with
    | currentTime => exact ⟨rfl, knows⟩
    | _ => exact adm.elim
  | adding request =>
    cases a with
    | pushBack pic => exact ⟨rfl, knows.1.pushBack knows.2 pic⟩
    | _ => exact adm.elim
  | clearing =>
    cases a with
    | currentTime => exact ⟨rfl, knows⟩
    | scan curTime => exact ⟨rfl, knows.1.scan curTime, knows.2⟩
    | _ => exact adm.elim
  | scanning curTime fuel it =>
    cases a with
    | pastEnd =>
      obtain rfl : it = none := adm
      exact ⟨rfl, knows.1.settled_of_end, knows.2⟩
    | deref it' =>
      obtain rfl : it = some it' := adm
      exact ⟨rfl, knows.1.deref, knows.2⟩
    | _ => exact adm.elim
  | seen curTime fuel it pic =>
    cases a with
    | free it' =>
      obtain ⟨rfl, old⟩ := adm
      exact ⟨rfl, knows.1.free old, knows.2.free it'⟩
    | _ => exact adm.elim
  | released curTime fuel it =>
    cases a with
    | advance it' =>
      obtain rfl : it' = it := adm
      obtain ⟨⟨rest, released⟩, accounted⟩ := knows
      rw [released.advance]
      exact ⟨rfl, ⟨rest, released, rfl⟩, accounted⟩
    | _ => exact adm.elim
  | advanced curTime fuel it it' =>
    cases a with
    | erase it'' =>
      obtain rfl : it'' = it := adm
      obtain ⟨⟨rest, released, rfl⟩, accounted⟩ := knows
      exact ⟨rfl, released.erase, accounted.erase released.gone⟩
    | _ => exact adm.elim
  | reading id =>
    cases a with
    | begin =>
      refine ⟨rfl, [], d.guestList, rfl, rfl, Nat.lt_succ_self _, rfl⟩
    | _ => exact adm.elim
  | walking id fuel it flag sent =>
    cases a with
    | deref it' =>
      obtain rfl : it = some it' := adm
      exact ⟨rfl, Walking.deref knows (settled rfl)⟩
    | _ => exact adm.elim
  | looked id fuel it pic flag sent =>
    cases a with
    | load it' =>
      obtain ⟨rfl, same⟩ := adm
      exact ⟨rfl, Looked.load knows (settled rfl) same⟩
    | advance it' =>
      obtain ⟨rfl, other⟩ := adm
      exact ⟨rfl, Looked.advance knows (settled rfl) other⟩
    | _ => exact adm.elim
  | loaded id fuel it flag sent =>
    cases a with
    | advance it' =>
      obtain rfl : it' = it := adm
      exact ⟨rfl, PicLoaded.advance knows (settled rfl)⟩
    | _ => exact adm.elim
  | queued request => cases a <;> exact adm.elim
  | added => cases a <;> exact adm.elim
  | stored => cases a <;> exact adm.elim
  | swept => cases a <;> exact adm.elim
  | asking id => cases a <;> exact adm.elim
  | answered sent => cases a <;> exact adm.elim

theorem visit_unchanged (φ : Phase) (a : Access) (adm : φ.admits (.access a))
    (reader : φ.role ≠ .writing) (knows : Knows i φ d) (settled : φ.role = .reading → Settled d) :
    (access i a outside d).2 = d := by
  cases φ with
  | pending request =>
    cases a with
    | currentTime => rfl
    | _ => exact adm.elim
  | reading id =>
    cases a with
    | begin => rfl
    | _ => exact adm.elim
  | walking id fuel it flag sent =>
    cases a with
    | deref it' =>
      obtain rfl : it = some it' := adm
      obtain ⟨done, todo, list, front, -⟩ := Walking.place knows
      obtain ⟨pic, rest, rfl⟩ := begin_eq_some front
      rw [deref_middle (settled rfl).toClean list]
    | _ => exact adm.elim
  | looked id fuel it pic flag sent =>
    obtain ⟨done, todo, list, -⟩ := Looked.place knows
    cases a with
    | load it' =>
      obtain ⟨rfl, -⟩ := adm
      rw [load_middle (settled rfl).toClean list]
    | advance it' =>
      obtain ⟨rfl, -⟩ := adm
      rw [advance_middle (settled rfl).distinct list]
    | _ => exact adm.elim
  | loaded id fuel it flag sent =>
    obtain ⟨done, pic, todo, list, -⟩ := PicLoaded.place knows
    cases a with
    | advance it' =>
      obtain rfl : it' = it := adm
      rw [advance_middle (settled rfl).distinct list]
    | _ => exact adm.elim
  | queued request => cases a <;> exact adm.elim
  | stored => cases a <;> exact adm.elim
  | asking id => cases a <;> exact adm.elim
  | answered sent => cases a <;> exact adm.elim
  | _ => exact absurd rfl reader

end Interference

theorem visit_guards : Guards access visit Phase.start Phase.role Settled Knows where
  arrive request := by cases request <;> rfl
  lockForRead φ adm := by
    cases φ with
    | asking id => exact ⟨rfl, rfl, fun _ _ _ _ => trivial⟩
    | _ => exact adm.elim
  queueForWrite φ adm := by
    cases φ with
    | pending request => exact ⟨rfl, rfl, fun _ _ unused => unused⟩
    | _ => exact adm.elim
  lockForWrite φ adm := by
    cases φ with
    | queued request => exact ⟨rfl, rfl, fun _ _ settled unused => ⟨settled, unused⟩⟩
    | _ => exact adm.elim
  tryLockForWrite φ adm := by
    cases φ with
    | stored =>
      exact ⟨rfl, rfl, rfl, fun _ _ settled accounted => ⟨settled, accounted⟩,
        fun _ _ accounted => accounted⟩
    | _ => exact adm.elim
  unlock φ adm := by
    refine ⟨?_, ?_, ?_, fun writing i d knows => unlock_settled φ adm writing i d knows⟩
    · cases φ with
      | walking id fuel it flag sent => exact Or.inl rfl
      | added | swept | scanning curTime fuel it | seen curTime fuel it pic => exact Or.inr rfl
      | _ => exact adm.elim
    · cases φ with
      | walking | added | swept | scanning | seen => rfl
      | _ => exact adm.elim
    · intro i d knows
      cases φ with
      | walking id fuel it flag sent => trivial
      | added | swept | scanning curTime fuel it | seen curTime fuel it pic => exact knows.2
      | _ => exact adm.elim
  access φ a adm i outcome d knows settled := visit_access φ a adm knows settled
  unchanged φ a adm reader i outcome d knows settled := visit_unchanged φ a adm reader knows settled
  stable φ a adm writing i outcome d knows j ψ other outside known := by
    obtain ⟨accounted, unused⟩ := @visit_stable d i outcome φ a adm writing knows
    cases ψ with
    | pending request => exact unused j other known
    | queued request => exact unused j other known
    | stored => exact accounted j known
    | asking id => trivial
    | answered sent => trivial
    | _ => rcases outside with h | h <;> cases h

def Phase.brings : Phase → Option Request
  | .pending request | .queued request | .adding request => some request
  | .asking id | .reading id | .walking id _ _ _ _ | .looked id _ _ _ _ _
  | .loaded id _ _ _ _ => some (.qury id)
  | _ => none

theorem brings_next (φ : Phase) (act : LockAction Access) (r : act.Response Access.Response) :
    (φ.next act r).brings = none ∨ (φ.next act r).brings = φ.brings := by
  unfold Phase.next
  split
  case h_5 =>
    split
    · exact Or.inl rfl
    · exact Or.inl rfl
  all_goals first
    | exact Or.inr rfl
    | exact Or.inl rfl

theorem access_entries {i : ℕ} {a : Access} {outside : Outside} {s : Store} {entry : Entry}
    (mem : entry ∈ (access i a outside s).2.guestList) :
    entry ∈ s.guestList ∨ ∃ pic, a = .pushBack pic ∧ entry = ⟨i, pic⟩ := by
  cases a with
  | pushBack pic =>
    rcases List.mem_append.mp mem with old | new
    · exact Or.inl old
    · exact Or.inr ⟨pic, rfl, List.mem_singleton.mp new⟩
  | erase it => exact Or.inl (List.mem_of_mem_filter mem)
  | _ => exact Or.inl mem

theorem Walking.answer {id : Int} {fuel : ℕ} {it : Iterator} {flag : ℕ} {sent : List (List Byte)}
    {s : Store} (h : Walking id fuel it flag sent s) (through : fuel = 0 ∨ it = none) :
    Phase.total flag sent = (onStringMessageQuery id s.pics).sent := by
  obtain ⟨done, todo, list, front, rounds, answers⟩ := h.place
  have none_left : todo = [] := by
    rcases through with rfl | rfl
    · exact absurd rounds (Nat.not_lt_zero _)
    · exact begin_eq_none front
  rw [none_left, List.append_nil] at list
  rw [← list] at answers
  rw [onStringMessageQuery, Store.pics, ← answers, Phase.total]
  split
  · rfl
  · exact (List.append_nil sent).symm

theorem walking_of_answered {φ : Phase} {act : LockAction Access}
    {r : act.Response Access.Response} {sent : List (List Byte)} (adm : φ.admits act)
    (h : φ.next act r = .answered sent) :
    ∃ id fuel it flag before, φ = .walking id fuel it flag before ∧ (fuel = 0 ∨ it = none) ∧
      sent = Phase.total flag before := by
  cases φ with
  | walking id fuel it flag before =>
    cases act with
    | unlock =>
      cases h
      exact ⟨id, fuel, it, flag, before, rfl, adm, rfl⟩
    | access a => cases a <;> first | exact adm.elim | cases h
    | _ => exact adm.elim
  | answered before => exact adm.elim
  | _ =>
    exfalso
    cases act with
    | access a => cases a <;> first | exact adm.elim | cases h
    | tryLockForWrite => first | exact adm.elim | cases r <;> cases h
    | _ => first | exact adm.elim | cases h

end ARCServer.GuestVisits
