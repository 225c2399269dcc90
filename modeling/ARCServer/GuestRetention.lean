import ARCServer.GuestServer
import Mathlib.Data.List.Induction
import Mathlib.Data.List.Basic
import Mathlib.Data.List.TakeWhile

/-! How long a stored picture stays. The history of acknowledged pictures, with
their real times, is compared with the list the server keeps: the list is always
a final part of the history, and what is gone from it is old as long as no scan
is fooled by midnight. -/

namespace ARCServer.GuestRetention

open MachineIntegers GuestServer

structure Stored where
  time : ℕ
  pic : GuestPic
  deriving DecidableEq, Repr

def stored : List Event → List Stored :=
  List.filterMap fun
    | .appl now data len id _ => some ⟨now, ⟨len, data, id, currentTime now⟩⟩
    | .qury _ _ => none

def fresh (events : List Event) (now : ℕ) (id : Int) : List GuestPic :=
  ((stored events).filter fun e => id = e.pic.id ∧ now < e.time + 1800000).map Stored.pic

theorem stored_concat (events : List Event) (event : Event) :
    stored (events ++ [event]) = stored events ++ stored [event] :=
  List.filterMap_append

theorem mem_stored_addTime {events : List Event} {e : Stored} (h : e ∈ stored events) :
    e.pic.addTime = currentTime e.time := by
  obtain ⟨event, -, heq⟩ := List.mem_filterMap.mp h
  cases event with
  | appl now data len id tryLock =>
    cases heq
    rfl
  | qury now id => cases heq

theorem mem_stored_event {events : List Event} {e : Stored} (h : e ∈ stored events) :
    ∃ event ∈ events, event.now = e.time := by
  obtain ⟨event, mem, heq⟩ := List.mem_filterMap.mp h
  refine ⟨event, mem, ?_⟩
  cases event with
  | appl now data len id tryLock =>
    cases heq
    rfl
  | qury now id => cases heq

theorem stored_inOrder {events : List Event} (ordered : InOrder events) :
    (stored events).Pairwise fun a b => a.time ≤ b.time := by
  refine List.Pairwise.filterMap _ ?_ ordered
  intro a b le x hx y hy
  cases a with
  | appl now data len id tryLock =>
    cases b with
    | appl now' data' len' id' tryLock' =>
      cases hx
      cases hy
      exact le
    | qury now' id' => cases hy
  | qury now id => cases hx

/-- The scan of a request at `now` is not fooled by midnight: the lock was not
free, or half an hour of the day has passed, or the list holds a picture whose
time of day is later than the wrapped limit. -/
def ClearsSafely (guestList : List GuestPic) (now : ℕ) (tryLock : Bool) : Prop :=
  tryLock = false ∨ 1800000 ≤ now % 86400000 ∨
    ∃ pic ∈ guestList, addSecs (currentTime now) (-retainTime) < pic.addTime

def AllClearSafely (events : List Event) : Prop :=
  ∀ before after now data len id tryLock,
    events = before ++ .appl now data len id tryLock :: after →
      ClearsSafely (run before) now tryLock

def KeepsFresh (events : List Event) (now : ℕ) : Prop :=
  ∃ gone kept, stored events = gone ++ kept ∧ run events = kept.map Stored.pic ∧
    ∀ e ∈ gone, e.time + 1800000 ≤ now

theorem KeepsFresh.mono {events : List Event} {now later : ℕ} (h : KeepsFresh events now)
    (le : now ≤ later) : KeepsFresh events later := by
  obtain ⟨gone, kept, split, list, old⟩ := h
  exact ⟨gone, kept, split, list, fun e mem => (old e mem).trans le⟩

theorem limit_val (now : ℕ) :
    (addSecs (currentTime now) (-retainTime)).val =
      if 1800000 ≤ now % 86400000 then now % 86400000 - 1800000
      else now % 86400000 + 84600000 := by
  unfold addSecs currentTime retainTime
  dsimp only
  split <;> omega

theorem old_of_daytime {time now : ℕ} (past : time ≤ now) (day : 1800000 ≤ now % 86400000)
    (stale : currentTime time ≤ addSecs (currentTime now) (-retainTime)) :
    time + 1800000 ≤ now := by
  rw [Fin.le_def, limit_val, if_pos day] at stale
  unfold currentTime at stale
  dsimp only at stale
  omega

/-- So are those that come before a picture past the limit: after midnight that
picture is from an earlier day. -/
theorem old_of_shield {time now shield : ℕ} (before : time ≤ shield) (past : shield ≤ now)
    (stale : currentTime time ≤ addSecs (currentTime now) (-retainTime))
    (kept : addSecs (currentTime now) (-retainTime) < currentTime shield) :
    time + 1800000 ≤ now := by
  by_cases day : 1800000 ≤ now % 86400000
  · exact old_of_daytime (before.trans past) day stale
  rw [Fin.le_def, limit_val, if_neg day] at stale
  rw [Fin.lt_def, limit_val, if_neg day] at kept
  unfold currentTime at stale kept
  dsimp only at stale kept
  omega

theorem le_last {events : List Event} {last event : Event} (ordered : InOrder (events ++ [last]))
    (mem : event ∈ events ++ [last]) : event.now ≤ last.now := by
  rcases List.mem_append.mp mem with inside | same
  · exact (List.pairwise_append.mp ordered).2.2 event inside last (List.mem_singleton.mpr rfl)
  · rw [List.mem_singleton.mp same]

def Stored.stale (now : ℕ) (e : Stored) : Bool :=
  e.pic.addTime ≤ addSecs (currentTime now) (-retainTime)

theorem stale_iff (now : ℕ) (e : Stored) :
    e.stale now = true ↔ e.pic.addTime ≤ addSecs (currentTime now) (-retainTime) :=
  decide_eq_true_iff

theorem scan_old {all : List Stored} {now : ℕ} (ordered : all.Pairwise fun a b => a.time ≤ b.time)
    (clock : ∀ e ∈ all, e.pic.addTime = currentTime e.time ∧ e.time ≤ now)
    (safe : 1800000 ≤ now % 86400000 ∨
      ∃ e ∈ all, addSecs (currentTime now) (-retainTime) < e.pic.addTime) :
    ∀ e ∈ all.takeWhile (Stored.stale now), e.time + 1800000 ≤ now := by
  intro e removed
  obtain ⟨addTime, past⟩ := clock e ((List.takeWhile_sublist _).mem removed)
  have stale := (stale_iff now e).mp (List.mem_takeWhile_imp removed)
  rw [addTime] at stale
  rcases safe with day | ⟨shield, member, kept⟩
  · exact old_of_daytime past day stale
  · obtain ⟨shieldTime, shieldPast⟩ := clock shield member
    -- The shield is not removed, so it comes after everything that is.
    rw [← @List.takeWhile_append_dropWhile _ (Stored.stale now) all] at ordered member
    have behind : shield ∈ all.dropWhile (Stored.stale now) := by
      refine (List.mem_append.mp member).resolve_left fun gone => ?_
      exact absurd kept (Fin.not_lt.mpr ((stale_iff now shield).mp (List.mem_takeWhile_imp gone)))
    rw [shieldTime] at kept
    exact old_of_shield ((List.pairwise_append.mp ordered).2.2 e removed shield behind)
      shieldPast stale kept

theorem appl_keepsFresh {events : List Event} {now : ℕ} {data : List Byte} {len id : Int}
    {tryLock : Bool} (ordered : InOrder (events ++ [.appl now data len id tryLock]))
    (safe : ClearsSafely (run events) now tryLock) (h : KeepsFresh events now) :
    KeepsFresh (events ++ [.appl now data len id tryLock]) now := by
  obtain ⟨gone, kept, split, list, old⟩ := h
  let entry : Stored := ⟨now, ⟨len, data, id, currentTime now⟩⟩
  have history : stored (events ++ [.appl now data len id tryLock]) =
      gone ++ (kept ++ [entry]) := by
    rw [stored_concat, split, List.append_assoc]
    rfl
  have after : run (events ++ [.appl now data len id tryLock]) =
      (clearList now tryLock ((kept ++ [entry]).map Stored.pic)).1 := by
    rw [run_concat, List.map_append, ← list]
    rfl
  have clock : ∀ e ∈ kept ++ [entry], e.pic.addTime = currentTime e.time ∧ e.time ≤ now := by
    intro e mem
    have inHistory : e ∈ stored (events ++ [.appl now data len id tryLock]) := by
      rw [history]
      exact List.mem_append_right gone mem
    obtain ⟨event, eventMem, same⟩ := mem_stored_event inHistory
    exact ⟨mem_stored_addTime inHistory, same ▸ le_last ordered eventMem⟩
  cases tryLock with
  | false => exact ⟨gone, kept ++ [entry], history, after, old⟩
  | true =>
    have sorted := stored_inOrder ordered
    rw [history] at sorted
    have shielded : 1800000 ≤ now % 86400000 ∨
        ∃ e ∈ kept ++ [entry], addSecs (currentTime now) (-retainTime) < e.pic.addTime := by
      rcases safe with locked | day | ⟨pic, mem, later⟩
      · cases locked
      · exact Or.inl day
      · rw [list] at mem
        obtain ⟨e, eMem, rfl⟩ := List.mem_map.mp mem
        exact Or.inr ⟨e, List.mem_append_left _ eMem, later⟩
    have scan := scan_old (List.pairwise_append.mp sorted).2.1 clock shielded
    refine ⟨gone ++ (kept ++ [entry]).takeWhile (Stored.stale now),
      (kept ++ [entry]).dropWhile (Stored.stale now), ?_, ?_, ?_⟩
    · rw [List.append_assoc, List.takeWhile_append_dropWhile, history]
    · rw [after, clearList, if_pos rfl, expire_eq, List.dropWhile_map]
      rfl
    · intro e mem
      rcases List.mem_append.mp mem with before | removed
      · exact old e before
      · exact scan e removed

theorem inOrder_of_concat {events : List Event} {last : Event}
    (ordered : InOrder (events ++ [last])) : InOrder events :=
  (List.pairwise_append.mp ordered).1

theorem run_keepsFresh {events : List Event} (ordered : InOrder events)
    (safe : AllClearSafely events) {now : ℕ} (past : ∀ event ∈ events, event.now ≤ now) :
    KeepsFresh events now := by
  induction events using List.reverseRecOn generalizing now with
  | nil => exact ⟨[], [], rfl, rfl, by simp⟩
  | append_singleton events last ih =>
    have earlier : AllClearSafely events := by
      intro before after time data len id tryLock split
      refine safe before (after ++ [last]) time data len id tryLock ?_
      rw [split, List.append_assoc, List.cons_append]
    have kept := ih (inOrder_of_concat ordered) earlier
      (fun event mem => le_last ordered (List.mem_append_left _ mem))
    refine KeepsFresh.mono ?_ (past last (List.mem_append_right _ (List.mem_singleton.mpr rfl)))
    cases last with
    | appl time data len id tryLock =>
      exact appl_keepsFresh ordered (safe events [] time data len id tryLock rfl) kept
    | qury time id =>
      obtain ⟨gone, left, split, list, old⟩ := kept
      refine ⟨gone, left, ?_, ?_, old⟩
      · rw [stored_concat, split]
        exact List.append_nil _
      · rw [run_concat, ← list]
        rfl

def SendsFresh (events : List Event) (now : ℕ) (id : Int) : Prop :=
  ∃ pics, (onStringMessageQuery id (run events)).sent = reply pics ∧
    (fresh events now id).Sublist pics

theorem KeepsFresh.sendsFresh {events : List Event} {now : ℕ} (h : KeepsFresh events now)
    (id : Int) : SendsFresh events now id := by
  obtain ⟨gone, kept, split, list, old⟩ := h
  refine ⟨_, query_sent id (run events), ?_⟩
  have none_gone : gone.filter (fun e => id = e.pic.id ∧ now < e.time + 1800000) = [] := by
    rw [List.filter_eq_nil_iff]
    intro e mem
    have expired := old e mem
    simp only [decide_eq_true_eq, not_and, not_lt]
    exact fun _ => expired
  unfold fresh
  rw [split, List.filter_append, none_gone, List.nil_append, list, List.filter_map]
  refine List.Sublist.map Stored.pic (List.monotone_filter_right _ fun e => ?_)
  simp only [decide_eq_true_eq, Function.comp]
  exact And.left

theorem appl_drops_all {guestList : List GuestPic} {now : ℕ} {data : List Byte} {len id : Int}
    {tryLock : Bool} (fooled : ¬ ClearsSafely guestList now tryLock) :
    (handle guestList (.appl now data len id tryLock)).guestList = [] := by
  unfold ClearsSafely at fooled
  obtain ⟨locked, fooled⟩ := not_or.mp fooled
  obtain ⟨night, unshielded⟩ := not_or.mp fooled
  have unlocked : tryLock = true := by simpa using locked
  rw [handle, onStringMessageAdd, clearList, if_pos unlocked, expire_eq, List.dropWhile_eq_nil_iff]
  intro pic mem
  rw [decide_eq_true_eq]
  rcases List.mem_append.mp mem with old | new
  · exact Fin.not_lt.mp fun later => unshielded ⟨pic, old, later⟩
  · rw [List.mem_singleton.mp new, Fin.le_def, limit_val, if_neg night]
    unfold currentTime
    dsimp only
    omega

theorem not_sendsFresh_of_empty {events : List Event} {now : ℕ} {id : Int}
    (empty : run events = []) (some_fresh : fresh events now id ≠ []) :
    ¬ SendsFresh events now id := by
  rintro ⟨pics, sent, sub⟩
  cases pics with
  | nil => exact some_fresh (List.sublist_nil.mp sub)
  | cons pic rest =>
    rw [empty, query_sent, List.filter_nil, reply, if_pos rfl, reply, if_neg (List.cons_ne_nil _ _),
      List.flatMap_cons] at sent
    have count := congrArg List.length sent
    simp [sendPic] at count

def AnswersFresh (events : List Event) : Prop :=
  ∀ before after now id, events = before ++ after → (∀ event ∈ before, event.now ≤ now) →
    SendsFresh before now id

/-- No picture is lost early in a run exactly when no scan of it is fooled by midnight. -/
theorem answersFresh_iff (events : List Event) (ordered : InOrder events) :
    AnswersFresh events ↔ AllClearSafely events := by
  constructor
  · intro answers before after now data len id tryLock split
    by_contra fooled
    have empty : run (before ++ [.appl now data len id tryLock]) = [] := by
      rw [run_concat]
      exact appl_drops_all fooled
    have whole : events = before ++ [.appl now data len id tryLock] ++ after := by
      rw [split, List.append_assoc, List.singleton_append]
    have past : ∀ event ∈ before ++ [.appl now data len id tryLock], event.now ≤ now := by
      rw [whole] at ordered
      exact fun event mem => le_last (List.pairwise_append.mp ordered).1 mem
    refine not_sendsFresh_of_empty empty ?_ (answers _ after now id whole past)
    simp [fresh, stored]
  · intro safe before after now id split past
    rw [split] at ordered
    refine (run_keepsFresh (List.pairwise_append.mp ordered).1 ?_ past).sendsFresh id
    intro first later time data len id' tryLock here
    refine safe first (later ++ after) time data len id' tryLock ?_
    rw [split, here, List.append_assoc, List.cons_append]

theorem answersFresh_morning : AnswersFresh [.appl 36000000 [1, 2] 2 7 true] := by
  refine (answersFresh_iff [.appl 36000000 [1, 2] 2 7 true] (List.pairwise_singleton _ _)).mpr ?_
  rintro before after now data len id tryLock split
  cases before with
  | nil =>
    cases split
    exact Or.inr (Or.inl (by decide))
  | cons event rest => simp at split

/-- Ten minutes after midnight a new picture is dropped by its own request, and
a query at the same moment is answered with "empty". -/
theorem midnight_picture_lost :
    InOrder [.appl 600000 [1, 2] 2 7 true, .qury 600000 7] ∧
      fresh [.appl 600000 [1, 2] 2 7 true] 600000 7 = [⟨2, [1, 2], 7, 600000⟩] ∧
      (onStringMessageQuery 7 (run [.appl 600000 [1, 2] 2 7 true])).sent = [emptyReply] ∧
      ¬ AnswersFresh [.appl 600000 [1, 2] 2 7 true] := by
  have empty : run [.appl 600000 [1, 2] 2 7 true] = [] := by decide
  refine ⟨by simp [InOrder, Event.now], by decide, by decide, fun answers => ?_⟩
  refine not_sendsFresh_of_empty empty ?_ (answers _ [] 600000 7 (List.append_nil _).symm ?_)
  · decide
  · simp [Event.now]

end ARCServer.GuestRetention
