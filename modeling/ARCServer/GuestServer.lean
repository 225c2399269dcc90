import ARCServer.FrameCodec
import Mathlib.Data.Fin.Basic

/-! The guest server: pictures are stored on request, handed out by id, and
dropped from the front of the list once they are old. Real time is counted in
milliseconds from some midnight; the code sees it only through `QTime`, a time
of day of that resolution. Times here do not depend on a time zone. -/

namespace ARCServer.GuestServer

open MachineIntegers
open FrameCodec (okReply)

abbrev QTime := Fin 86400000

def currentTime (now : ℕ) : QTime := ⟨now % 86400000, Nat.mod_lt _ (by decide)⟩

/-- `QTime::addSecs`, which wraps at midnight. -/
def addSecs (t : QTime) (secs : Int) : QTime :=
  ⟨((t.val + 1000 * secs) % 86400000).toNat, by omega⟩

def retainTime : Int := 30 * 60

structure GuestPic where
  len_pic : Int
  data : List Byte
  id : Int
  addTime : QTime
  deriving DecidableEq, Repr

/-- The list after a request, whether the scan read `it->addTime` with
`it == guestList.end()`, and the byte strings sent in answer. -/
structure Outcome where
  guestList : List GuestPic
  readPastEnd : Bool
  sent : List (List Byte)
  deriving DecidableEq, Repr

/-- The `while` loop of `clearList`. The element is looked at before the end of
the list is; whatever is read there, the loop stops. -/
def expire (curTime : QTime) : List GuestPic → List GuestPic × Bool
  | [] => ([], true)
  | pic :: rest => if pic.addTime ≤ curTime then expire curTime rest else (pic :: rest, false)

/-- `tryLock` is the answer of `lock.tryLockForWrite()`. -/
def clearList (now : ℕ) (tryLock : Bool) (guestList : List GuestPic) :
    List GuestPic × Bool :=
  if tryLock then expire (addSecs (currentTime now) (-retainTime)) guestList
  else (guestList, false)

def emptyReply : List Byte := [0x65, 0x6d, 0x70, 0x74, 0x79]

/-- The clock is read twice: for the entry, and again in `clearList`. -/
def onStringMessageAdd (data : List Byte) (len id : Int) (added cleared : ℕ) (tryLock : Bool)
    (guestList : List GuestPic) : Outcome :=
  let guestPic : GuestPic := ⟨len, data, id, currentTime added⟩
  let scan := clearList cleared tryLock (guestList ++ [guestPic])
  ⟨scan.1, scan.2, [okReply]⟩

def sendPic (pic : GuestPic) : List (List Byte) :=
  [hostBytes (toInt32 (pic.len_pic + 4)), pic.data.take pic.len_pic.toNat]

def sendPictures (id : Int) : List GuestPic → ℕ → ℕ × List (List Byte)
  | [], flag => (flag, [])
  | pic :: rest, flag =>
    if id = pic.id then
      let later := sendPictures id rest (flag + 1)
      (later.1, sendPic pic ++ later.2)
    else sendPictures id rest flag

def onStringMessageQuery (id : Int) (guestList : List GuestPic) : Outcome :=
  let pictures := sendPictures id guestList 0
  ⟨guestList, false, pictures.2 ++ if pictures.1 = 0 then [emptyReply] else []⟩

theorem expire_eq (curTime : QTime) (guestList : List GuestPic) :
    (expire curTime guestList).1 = guestList.dropWhile fun pic => pic.addTime ≤ curTime := by
  induction guestList with
  | nil => rfl
  | cons pic rest ih =>
    rw [expire, List.dropWhile_cons]
    by_cases old : pic.addTime ≤ curTime
    · rw [if_pos old, if_pos (decide_eq_true old), ih]
    · rw [if_neg old, if_neg (by simpa using old)]

theorem sendPictures_eq (id : Int) (guestList : List GuestPic) (flag : ℕ) :
    sendPictures id guestList flag =
      (flag + (guestList.filter fun pic => id = pic.id).length,
        (guestList.filter fun pic => id = pic.id).flatMap sendPic) := by
  induction guestList generalizing flag with
  | nil => rfl
  | cons pic rest ih =>
    rw [sendPictures, List.filter_cons]
    by_cases same : id = pic.id
    · rw [if_pos same, if_pos (decide_eq_true same), ih, List.length_cons, List.flatMap_cons]
      dsimp only
      rw [Nat.add_right_comm, Nat.add_assoc]
    · rw [if_neg same, if_neg (by simpa using same), ih]

def reply (pics : List GuestPic) : List (List Byte) :=
  if pics = [] then [emptyReply] else pics.flatMap sendPic

theorem query_sent (id : Int) (guestList : List GuestPic) :
    (onStringMessageQuery id guestList).sent =
      reply (guestList.filter fun pic => id = pic.id) := by
  simp only [onStringMessageQuery, sendPictures_eq, reply, Nat.zero_add, List.length_eq_zero_iff]
  split
  case isTrue none => rw [none, List.flatMap_nil, List.nil_append]
  case isFalse => rw [List.append_nil]

inductive Event
  | appl (now : ℕ) (data : List Byte) (len id : Int) (tryLock : Bool)
  | qury (now : ℕ) (id : Int)
  deriving DecidableEq, Repr

def Event.now : Event → ℕ
  | .appl now _ _ _ _ => now
  | .qury now _ => now

/-- The entry of an `appl` and its `clearList` see one time: the two readings of the clock
are taken to fall into the same millisecond. -/
def handle (guestList : List GuestPic) : Event → Outcome
  | .appl now data len id tryLock => onStringMessageAdd data len id now now tryLock guestList
  | .qury _ id => onStringMessageQuery id guestList

def run (events : List Event) : List GuestPic :=
  events.foldl (fun guestList event => (handle guestList event).guestList) []

theorem run_concat (events : List Event) (event : Event) :
    run (events ++ [event]) = (handle (run events) event).guestList := by
  rw [run, List.foldl_append]
  rfl

def InOrder (events : List Event) : Prop := events.Pairwise fun a b => a.now ≤ b.now

end ARCServer.GuestServer
