import ARCServer.GuardedData
import ARCServer.GuestServer

/-! The guest server's handlers as programs of single steps. The list, its iterators
and the blocks its pictures lie in are shared; an access to an erased entry or to a
freed block is recorded. -/

namespace ARCServer.GuestHandlers

open InterleavedPrograms RequestLocks GuardedData GuestServer MachineIntegers
open FrameCodec (okReply)

/-- An entry of `guestList`. Its block is the one allocated for the request that
stored it, so entries and blocks have the number of that request. -/
structure Entry where
  block : ℕ
  pic : GuestPic
  deriving DecidableEq, Repr

inductive Change
  | add (pic : GuestPic)
  | clear (curTime : QTime)
  deriving DecidableEq, Repr

structure Store where
  guestList : List Entry
  freed : List ℕ
  /-- An erased entry, or a block that was freed, has been accessed. -/
  misused : Bool
  changes : List Change
  deriving DecidableEq, Repr

def Store.empty : Store := ⟨[], [], false, []⟩

abbrev Iterator := Option ℕ

def begin (guestList : List Entry) : Iterator := guestList.head?.map Entry.block

def find (it : ℕ) (guestList : List Entry) : Option Entry :=
  guestList.find? fun entry => entry.block = it

def next (it : ℕ) (guestList : List Entry) : Iterator :=
  begin (guestList.dropWhile fun entry => entry.block ≠ it).tail

inductive Access
  /-- `QTime::currentTime()` -/
  | currentTime
  /-- `guestList.push_back(guestPic)`, with the block of the request. -/
  | pushBack (pic : GuestPic)
  /-- `guestList.begin()`, with the number of entries as a bound for the loop. -/
  | begin
  /-- The same in `clearList`, for the given time. -/
  | scan (curTime : QTime)
  /-- The members of `*it`. -/
  | deref (it : ℕ)
  /-- `it->addTime` with `it == guestList.end()`. -/
  | pastEnd
  /-- The `it->len_pic` bytes at `it->data`. -/
  | load (it : ℕ)
  | advance (it : ℕ)
  /-- `free(it->data)` -/
  | free (it : ℕ)
  | erase (it : ℕ)
  deriving DecidableEq, Repr

abbrev Access.Response : Access → Type
  | .currentTime => QTime
  | .begin => Iterator × ℕ
  | .scan _ => Iterator × ℕ
  | .deref _ => GuestPic
  | .pastEnd => QTime
  | .load _ => List Byte
  | .advance _ => Iterator
  | _ => Unit

/-- The clock, and whatever lies behind the end of the list. -/
structure Outside where
  time : QTime
  garbage : GuestPic

def access (i : ℕ) : (a : Access) → Outside → Store → a.Response × Store
  | .currentTime, outside, d => (outside.time, d)
  | .pushBack pic, _, d =>
    ((), { d with guestList := d.guestList ++ [⟨i, pic⟩], changes := d.changes ++ [.add pic] })
  | .begin, _, d => ((begin d.guestList, d.guestList.length), d)
  | .scan curTime, _, d =>
    ((begin d.guestList, d.guestList.length), { d with changes := d.changes ++ [.clear curTime] })
  | .deref it, outside, d =>
    (((find it d.guestList).map Entry.pic).getD outside.garbage,
      { d with misused := d.misused || (find it d.guestList).isNone })
  | .pastEnd, outside, d => (outside.garbage.addTime, d)
  | .load it, outside, d =>
    let pic := ((find it d.guestList).map Entry.pic).getD outside.garbage
    (pic.data.take pic.len_pic.toNat,
      { d with misused := d.misused || (find it d.guestList).isNone || d.freed.contains it })
  | .advance it, _, d =>
    (next it d.guestList, { d with misused := d.misused || (find it d.guestList).isNone })
  | .free it, _, d =>
    ((), { d with
      freed := it :: d.freed
      misused := d.misused || (find it d.guestList).isNone || d.freed.contains it })
  | .erase it, _, d =>
    ((), { d with
      guestList := d.guestList.filter fun entry => entry.block ≠ it
      misused := d.misused || (find it d.guestList).isNone })

abbrev Handler (α : Type) := Prog (LockAction Access) (LockAction.Response Access.Response) α

def call (a : Access) : Handler a.Response := perform (LockAction.access a)

def lockForRead : Handler Unit := perform LockAction.lockForRead

/-- `lockForWrite`: a place in the queue, and the lock when its turn comes. -/
def lockForWrite : Handler Unit := do
  perform LockAction.queueForWrite
  perform LockAction.lockForWrite

def tryLockForWrite : Handler Bool := perform LockAction.tryLockForWrite

def unlock : Handler Unit := perform LockAction.unlock

/-- The `while` loop of `clearList`; `fuel` bounds its rounds. -/
def clearLoop (curTime : QTime) : ℕ → Iterator → Handler Unit
  | 0, _ => pure ()
  | _ + 1, none => do
    -- `it->addTime` is read before `it` is compared with the end
    let _ ← call .pastEnd
  | fuel + 1, some it => do
    let pic ← call (.deref it)
    if pic.addTime ≤ curTime then
      call (.free it)
      let it' ← call (.advance it)
      call (.erase it)
      clearLoop curTime fuel it'
    else
      pure ()

def clearList (retainTime : Int) : Handler Unit := do
  if ← tryLockForWrite then
    let now ← call .currentTime
    let curTime := addSecs now (-retainTime)
    let first ← call (.scan curTime)
    clearLoop curTime (first.2 + 1) first.1
    unlock
  else
    pure ()

def onStringMessage_add (data : List Byte) (len id : Int) : Handler (List (List Byte)) := do
  let addTime ← call .currentTime
  lockForWrite
  call (.pushBack ⟨len, data, id, addTime⟩)
  unlock
  clearList retainTime
  return [okReply]

def queryLoop (id : Int) : ℕ → Iterator → ℕ → List (List Byte) → Handler (ℕ × List (List Byte))
  | 0, _, flag, sent => return (flag, sent)
  | _ + 1, none, flag, sent => return (flag, sent)
  | fuel + 1, some it, flag, sent => do
    let pic ← call (.deref it)
    if id = pic.id then
      let total_len := hostBytes (toInt32 (pic.len_pic + 4))
      let bytes ← call (.load it)
      let it' ← call (.advance it)
      queryLoop id fuel it' (flag + 1) (sent ++ [total_len, bytes])
    else
      let it' ← call (.advance it)
      queryLoop id fuel it' flag sent

def onStringMessage_query (id : Int) : Handler (List (List Byte)) := do
  lockForRead
  let first ← call .begin
  let pictures ← queryLoop id (first.2 + 1) first.1 0 []
  let sent := if pictures.1 = 0 then pictures.2 ++ [emptyReply] else pictures.2
  unlock
  return sent

inductive Request
  | appl (data : List Byte) (len id : Int)
  | qury (id : Int)
  deriving DecidableEq, Repr

def Request.Stores : Request → GuestPic → Prop
  | .appl data len id, pic => pic.data = data ∧ pic.len_pic = len ∧ pic.id = id
  | .qury _, _ => False

def handler : Request → Handler (List (List Byte))
  | .appl data len id => onStringMessage_add data len id
  | .qury id => onStringMessage_query id

def guestServer : System (Guarded Store) Outside Request (LockAction Access)
    (LockAction.Response Access.Response) (List (List Byte)) :=
  system access handler

/-! What the sections stand for, one after another. -/

def Change.apply (pics : List GuestPic) : Change → List GuestPic
  | .add pic => pics ++ [pic]
  | .clear curTime => (expire curTime pics).1

def replay (changes : List Change) : List GuestPic := changes.foldl Change.apply []

def Store.blocks (d : Store) : List ℕ := d.guestList.map Entry.block

def Store.pics (d : Store) : List GuestPic := d.guestList.map Entry.pic

theorem replay_concat (changes : List Change) (change : Change) :
    replay (changes ++ [change]) = change.apply (replay changes) := by
  rw [replay, List.foldl_append]
  rfl

theorem replay_add_clear (changes : List Change) (data : List Byte) (len id : Int)
    (added cleared : ℕ) :
    replay (changes ++ [.add ⟨len, data, id, GuestServer.currentTime added⟩,
        .clear (addSecs (GuestServer.currentTime cleared) (-retainTime))]) =
      (onStringMessageAdd data len id added cleared true (replay changes)).guestList := by
  rw [replay, List.foldl_append]
  rfl

end ARCServer.GuestHandlers
