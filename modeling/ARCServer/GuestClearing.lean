import ARCServer.GuestRetention

/-! What a clearing of the guest list leaves behind, and how far its scan reads. The
scan compares times of day only: a picture of another day can look fresh to it, and just
after midnight nothing at all may look fresh. -/

namespace ARCServer.GuestClearing

open MachineIntegers GuestServer GuestRetention

/-- The pictures in the list with the real times of their requests. They are the last of
the acknowledged ones. -/
def held (events : List Event) : List Stored :=
  (stored events).drop ((stored events).length - (run events).length)

theorem clearList_suffix (now : ℕ) (tryLock : Bool) (guestList : List GuestPic) :
    (clearList now tryLock guestList).1 <:+ guestList := by
  unfold clearList
  split
  · rw [expire_eq]
    exact List.dropWhile_suffix _
  · exact List.suffix_rfl

theorem run_suffix (events : List Event) : run events <:+ (stored events).map Stored.pic := by
  induction events using List.reverseRecOn with
  | nil => exact List.suffix_rfl
  | append_singleton events last ih =>
    rw [run_concat, stored_concat, List.map_append]
    cases last with
    | appl now data len id tryLock =>
      refine (clearList_suffix now tryLock _).trans ?_
      obtain ⟨gone, split⟩ := ih
      exact ⟨gone, by rw [← split, List.append_assoc]; rfl⟩
    | qury now id => exact (List.append_nil _).symm ▸ ih

theorem run_eq_held (events : List Event) : run events = (held events).map Stored.pic := by
  have last := List.suffix_iff_eq_drop.mp (run_suffix events)
  rwa [List.length_map, ← List.map_drop] at last

theorem held_eq_of_suffix {events : List Event} {kept : List Stored}
    (last : kept <:+ stored events) (list : run events = kept.map Stored.pic) :
    held events = kept := by
  rw [held, list, List.length_map]
  exact (List.suffix_iff_eq_drop.mp last).symm

def entry (now : ℕ) (data : List Byte) (len id : Int) : Stored :=
  ⟨now, ⟨len, data, id, currentTime now⟩⟩

theorem held_appl (events : List Event) (now : ℕ) (data : List Byte) (len id : Int) :
    held (events ++ [.appl now data len id true]) =
      (held events ++ [entry now data len id]).dropWhile (Stored.stale now) := by
  apply held_eq_of_suffix
  · refine (List.dropWhile_suffix _).trans ?_
    obtain ⟨gone, split⟩ : held events <:+ stored events := List.drop_suffix _ _
    exact ⟨gone, by rw [stored_concat, ← split, List.append_assoc]; rfl⟩
  · rw [run_concat, run_eq_held]
    change (expire _ (_ ++ [(entry now data len id).pic])).1 = _
    rw [expire_eq, ← List.map_singleton, ← List.map_append, List.dropWhile_map]
    rfl

theorem held_past {events : List Event} {last : Event} (ordered : InOrder (events ++ [last]))
    {e : Stored} (mem : e ∈ held events) : e.time ≤ last.now := by
  obtain ⟨event, inside, same⟩ := mem_stored_event ((List.drop_suffix _ _).subset mem)
  exact same ▸ le_last ordered (List.mem_append_left _ inside)

theorem held_inOrder {events : List Event} (ordered : InOrder events) :
    (held events).Pairwise fun a b => a.time ≤ b.time :=
  (stored_inOrder ordered).sublist (List.drop_sublist _ _)

def ClearsOutdated (events : List Event) : Prop :=
  ∀ before after now data len id, events = before ++ .appl now data len id true :: after →
    ∀ e ∈ held (before ++ [.appl now data len id true]), now < e.time + 1800000

/-- No outdated picture in the list has a time of day after the limit of a scan at `now`. -/
def NoneLooksFresh (events : List Event) (now : ℕ) : Prop :=
  ∀ e ∈ held events, e.time + 1800000 ≤ now →
    e.pic.addTime ≤ addSecs (currentTime now) (-retainTime)

theorem oldest_kept {all : List Stored} (sorted : all.Pairwise fun a b => a.time ≤ b.time)
    {now : ℕ} {e : Stored} (mem : e ∈ all.dropWhile (Stored.stale now)) :
    ∃ first ∈ all, ¬ first.stale now = true ∧ first.time ≤ e.time := by
  have head := List.head?_dropWhile_not (Stored.stale now) all
  have sorted_kept := sorted.sublist (List.dropWhile_sublist (Stored.stale now))
  have place : all.dropWhile (Stored.stale now) ⊆ all :=
    (List.dropWhile_sublist (Stored.stale now)).subset
  cases kept : all.dropWhile (Stored.stale now) with
  | nil =>
    rw [kept] at mem
    cases mem
  | cons first rest =>
    rw [kept] at mem head sorted_kept place
    refine ⟨first, place List.mem_cons_self, by simpa using head, ?_⟩
    rcases List.mem_cons.mp mem with rfl | later
    · exact le_rfl
    · exact (List.pairwise_cons.mp sorted_kept).1 e later

theorem appl_clears_iff {events : List Event} {now : ℕ} {data : List Byte} {len id : Int}
    (ordered : InOrder (events ++ [.appl now data len id true])) :
    (∀ e ∈ held (events ++ [.appl now data len id true]), now < e.time + 1800000) ↔
      NoneLooksFresh events now := by
  rw [held_appl]
  constructor
  · intro clears e mem outdated
    by_contra fresh
    have member := List.mem_append_left [entry now data len id] mem
    rw [← @List.takeWhile_append_dropWhile _ (Stored.stale now) (held events ++ _)] at member
    rcases List.mem_append.mp member with dropped | kept
    · exact fresh ((stale_iff now e).mp (List.mem_takeWhile_imp dropped))
    · exact absurd (clears e kept) (not_lt.mpr outdated)
  · intro none_looks_fresh e mem
    have sorted : (held events ++ [entry now data len id]).Pairwise fun a b => a.time ≤ b.time := by
      refine List.pairwise_append.mpr ⟨held_inOrder (inOrder_of_concat ordered),
        List.pairwise_singleton _ _, fun a a_mem b b_mem => ?_⟩
      rw [List.mem_singleton.mp b_mem]
      exact held_past ordered a_mem
    obtain ⟨first, place, not_stale, oldest⟩ := oldest_kept sorted mem
    rcases List.mem_append.mp place with old | new
    · by_contra outdated
      exact not_stale ((stale_iff now first).mpr (none_looks_fresh first old (by omega)))
    · have time : first.time = now := by rw [List.mem_singleton.mp new]; rfl
      omega

/-- No picture is kept too long in a run exactly when at each clearing no outdated picture
of the list has a time of day after the limit. -/
theorem clearsOutdated_iff (events : List Event) (ordered : InOrder events) :
    ClearsOutdated events ↔
      ∀ before after now data len id, events = before ++ .appl now data len id true :: after →
        NoneLooksFresh before now := by
  refine forall_congr' fun before => forall_congr' fun after => forall_congr' fun now =>
    forall_congr' fun data => forall_congr' fun len => forall_congr' fun id =>
      forall_congr' fun split => appl_clears_iff ?_
  rw [split, ← List.singleton_append, ← List.append_assoc] at ordered
  exact (List.pairwise_append.mp ordered).1

theorem noneLooksFresh_of_day {events : List Event} {now : ℕ}
    (day : ∀ event ∈ events, event.now / 86400000 = now / 86400000) :
    NoneLooksFresh events now := by
  intro e mem outdated
  have acknowledged := (List.drop_suffix _ _).subset mem
  obtain ⟨event, inside, same⟩ := mem_stored_event acknowledged
  have today := day event inside
  rw [same] at today
  rw [mem_stored_addTime acknowledged, Fin.le_def, limit_val]
  unfold currentTime
  dsimp only
  split <;> omega

theorem clearsOutdated_morning :
    ClearsOutdated [.appl 36000000 [1, 2] 2 7 true, .appl 38400000 [3] 1 8 true] := by
  refine (clearsOutdated_iff _ (by simp [InOrder, Event.now])).mpr ?_
  intro before after now data len id split
  have day : ∀ event ∈ before ++ .appl now data len id true :: after,
      event.now / 86400000 = 0 := by
    rw [← split]
    decide
  refine noneLooksFresh_of_day fun event mem => (day event (List.mem_append_left _ mem)).trans ?_
  exact (day (.appl now data len id true) (by simp)).symm

/-- A picture of 10:05 is still there after a clearing at 10:00 on the next day. -/
theorem yesterday_picture_kept :
    InOrder [.appl 36300000 [1, 2] 2 7 true, .appl 122400000 [3] 1 8 true] ∧
      run [.appl 36300000 [1, 2] 2 7 true, .appl 122400000 [3] 1 8 true] =
        [⟨2, [1, 2], 7, 36300000⟩, ⟨1, [3], 8, 36000000⟩] ∧
      ¬ ClearsOutdated [.appl 36300000 [1, 2] 2 7 true, .appl 122400000 [3] 1 8 true] := by
  refine ⟨by simp [InOrder, Event.now], by decide, fun clears => ?_⟩
  have kept : entry 36300000 [1, 2] 2 7 ∈ held ([.appl 36300000 [1, 2] 2 7 true] ++
      [.appl 122400000 [3] 1 8 true]) := by decide
  have young := clears [.appl 36300000 [1, 2] 2 7 true] [] 122400000 [3] 1 8 rfl _ kept
  exact absurd young (by decide)

section Bounds

theorem expire_readPastEnd_iff (curTime : QTime) (guestList : List GuestPic) :
    (expire curTime guestList).2 = true ↔ ∀ pic ∈ guestList, pic.addTime ≤ curTime := by
  induction guestList with
  | nil => simp [expire]
  | cons pic rest ih =>
    rw [expire, List.forall_mem_cons]
    by_cases old : pic.addTime ≤ curTime
    · rw [if_pos old, ih, and_iff_right old]
    · rw [if_neg old]
      simp [old]

theorem new_looks_outdated_iff (now : ℕ) :
    currentTime now ≤ addSecs (currentTime now) (-retainTime) ↔ now % 86400000 < 1800000 := by
  rw [Fin.le_def, limit_val]
  unfold currentTime
  dsimp only
  split <;> omega

theorem appl_inside_iff (guestList : List GuestPic) (now : ℕ) (data : List Byte) (len id : Int)
    (tryLock : Bool) :
    (handle guestList (.appl now data len id tryLock)).readPastEnd = false ↔
      ClearsSafely guestList now tryLock := by
  unfold ClearsSafely
  rw [handle, onStringMessageAdd]
  dsimp only
  rw [clearList]
  cases tryLock with
  | false => simp
  | true =>
    rw [if_pos rfl, ← Bool.not_eq_true, expire_readPastEnd_iff, List.forall_mem_append,
      List.forall_mem_singleton, new_looks_outdated_iff]
    simp only [Bool.true_eq_false, false_or, not_and_or, not_forall, Fin.not_le, not_lt,
      exists_prop]
    exact or_comm

def ScansInside (events : List Event) : Prop :=
  ∀ before after now data len id tryLock,
    events = before ++ .appl now data len id tryLock :: after →
      (handle (run before) (.appl now data len id tryLock)).readPastEnd = false

/-- The scans of a run stay inside the list exactly when none is fooled by midnight. -/
theorem scansInside_iff (events : List Event) : ScansInside events ↔ AllClearSafely events :=
  forall_congr' fun before => forall_congr' fun _ => forall_congr' fun now =>
    forall_congr' fun data => forall_congr' fun len => forall_congr' fun id =>
      forall_congr' fun tryLock => imp_congr_right fun _ =>
        appl_inside_iff (run before) now data len id tryLock

theorem midnight_scan_outside :
    InOrder [.appl 600000 [1, 2] 2 7 true] ∧ ¬ ScansInside [.appl 600000 [1, 2] 2 7 true] := by
  refine ⟨List.pairwise_singleton _ _, fun inside => ?_⟩
  have stays := inside [] [] 600000 [1, 2] 2 7 true rfl
  exact absurd stays (by decide)

end Bounds

end ARCServer.GuestClearing
