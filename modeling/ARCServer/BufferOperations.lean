import ARCServer.MuduoBuffer

/-! The public operations of `Buffer.h` over the few that touch its indices, and
the byte queue they are meant to be. The queue knows how many bytes may surely be
put in front and behind, never where its bytes lie. -/

namespace ARCServer.BufferOperations

open MachineIntegers NetworkWords MuduoBuffer

/-- What the other operations are written with; `require` is `assert`. -/
structure Primitives (m : Type → Type) where
  require : Bool → m Unit
  readableBytes : m ℕ
  copyOut : ℕ → m (List Byte)
  retrieve : ℕ → m Unit
  retrieveAll : m Unit
  append : List Byte → m Unit
  prepend : List Byte → m Unit
  unwrite : ℕ → m Unit
  /-- The caller copies the bytes to `beginWrite()` and calls `hasWritten`. -/
  hasWritten : List Byte → m Unit
  ensureWritableBytes : ℕ → m Unit
  shrink : ℕ → m Unit

namespace Primitives

variable {m : Type → Type} [Monad m] (o : Primitives m)

/-- `retrieveUntil(end)`, with `end` as an offset from `peek()`. -/
def retrieveUntil (offset : Int) : m Unit := do
  o.require (0 ≤ offset)
  o.require (offset ≤ (← o.readableBytes))
  o.retrieve (toSizeT offset)

def retrieveInt64 : m Unit := o.retrieve 8

def retrieveInt32 : m Unit := o.retrieve 4

def retrieveInt16 : m Unit := o.retrieve 2

def retrieveInt8 : m Unit := o.retrieve 1

def retrieveAsString (len : ℕ) : m (List Byte) := do
  o.require (len ≤ (← o.readableBytes))
  let result ← o.copyOut len
  o.retrieve len
  return result

def retrieveAllAsString : m (List Byte) := do
  o.retrieveAsString (← o.readableBytes)

def appendWord (n : ℕ) (x : Int) : m Unit := do
  let be := hostToNetwork n x
  o.append (hostImage n be)

def appendInt64 : Int → m Unit := o.appendWord 8

def appendInt32 : Int → m Unit := o.appendWord 4

def appendInt16 : Int → m Unit := o.appendWord 2

def appendInt8 (x : Int) : m Unit := o.append (hostImage 1 x)

def peekWord (n : ℕ) : m Int := do
  o.require (n ≤ (← o.readableBytes))
  let be := ofHostImage (← o.copyOut n)
  return networkToHost n be

def peekInt64 : m Int := o.peekWord 8

def peekInt32 : m Int := o.peekWord 4

def peekInt16 : m Int := o.peekWord 2

def peekInt8 : m Int := do
  o.require (1 ≤ (← o.readableBytes))
  return ofHostImage (← o.copyOut 1)

def readInt64 : m Int := do
  let result ← o.peekInt64
  o.retrieveInt64
  return result

def readInt32 : m Int := do
  let result ← o.peekInt32
  o.retrieveInt32
  return result

def readInt16 : m Int := do
  let result ← o.peekInt16
  o.retrieveInt16
  return result

def readInt8 : m Int := do
  let result ← o.peekInt8
  o.retrieveInt8
  return result

def prependWord (n : ℕ) (x : Int) : m Unit := do
  let be := hostToNetwork n x
  o.prepend (hostImage n be)

def prependInt64 : Int → m Unit := o.prependWord 8

def prependInt32 : Int → m Unit := o.prependWord 4

def prependInt16 : Int → m Unit := o.prependWord 2

def prependInt8 (x : Int) : m Unit := o.prepend (hostImage 1 x)

end Primitives

inductive Width
  | int8
  | int16
  | int32
  | int64
  deriving DecidableEq, Repr

def Width.bytes : Width → ℕ
  | .int8 => 1
  | .int16 => 2
  | .int32 => 4
  | .int64 => 8

theorem bytes_le_max (width : Width) : width.bytes ≤ maxSize := by
  cases width <;> decide

inductive Op
  | readableBytes
  | retrieve (len : ℕ)
  | retrieveUntil (offset : Int)
  | retrieveInt (width : Width)
  | retrieveAll
  | retrieveAsString (len : ℕ)
  | retrieveAllAsString
  | append (data : List Byte)
  | ensureWritableBytes (len : ℕ)
  | hasWritten (data : List Byte)
  | unwrite (len : ℕ)
  | appendInt (width : Width) (x : Int)
  | readInt (width : Width)
  | peekInt (width : Width)
  | prependInt (width : Width) (x : Int)
  | prepend (data : List Byte)
  | shrink (reserve : ℕ)
  deriving DecidableEq, Repr

inductive Value
  | void
  | size (n : ℕ)
  | number (x : Int)
  | string (bytes : List Byte)
  deriving DecidableEq, Repr

variable {m : Type → Type} [Monad m] (o : Primitives m)

def Primitives.retrieveInt : Width → m Unit
  | .int8 => o.retrieveInt8
  | .int16 => o.retrieveInt16
  | .int32 => o.retrieveInt32
  | .int64 => o.retrieveInt64

def Primitives.appendInt : Width → Int → m Unit
  | .int8 => o.appendInt8
  | .int16 => o.appendInt16
  | .int32 => o.appendInt32
  | .int64 => o.appendInt64

def Primitives.peekInt : Width → m Int
  | .int8 => o.peekInt8
  | .int16 => o.peekInt16
  | .int32 => o.peekInt32
  | .int64 => o.peekInt64

def Primitives.readInt : Width → m Int
  | .int8 => o.readInt8
  | .int16 => o.readInt16
  | .int32 => o.readInt32
  | .int64 => o.readInt64

def Primitives.prependInt : Width → Int → m Unit
  | .int8 => o.prependInt8
  | .int16 => o.prependInt16
  | .int32 => o.prependInt32
  | .int64 => o.prependInt64

def Op.run : Op → m Value
  | .readableBytes => return .size (← o.readableBytes)
  | .retrieve len => do o.retrieve len; return .void
  | .retrieveUntil offset => do o.retrieveUntil offset; return .void
  | .retrieveInt width => do o.retrieveInt width; return .void
  | .retrieveAll => do o.retrieveAll; return .void
  | .retrieveAsString len => return .string (← o.retrieveAsString len)
  | .retrieveAllAsString => return .string (← o.retrieveAllAsString)
  | .append data => do o.append data; return .void
  | .ensureWritableBytes len => do o.ensureWritableBytes len; return .void
  | .hasWritten data => do o.hasWritten data; return .void
  | .unwrite len => do o.unwrite len; return .void
  | .appendInt width x => do o.appendInt width x; return .void
  | .readInt width => return .number (← o.readInt width)
  | .peekInt width => return .number (← o.peekInt width)
  | .prependInt width x => do o.prependInt width x; return .void
  | .prepend data => do o.prepend data; return .void
  | .shrink reserve => do o.shrink reserve; return .void

abbrev Buffered := StateT Buffer (Except Fault)

def command (f : Buffer → Except Fault Buffer) : Buffered Unit := fun b =>
  (f b).map fun b' => ((), b')

def bufferOps : Primitives Buffered where
  require ok := fun b => if ok then .ok ((), b) else .error .assertion
  readableBytes := fun b => .ok (b.readableBytes, b)
  copyOut len := fun b => (b.copyOut len).map fun image => (image, b)
  retrieve len := command (Buffer.retrieve · len)
  retrieveAll := fun b => .ok ((), b.retrieveAll)
  append data := command (Buffer.append · data)
  prepend data := command (Buffer.prepend · data)
  unwrite len := command (Buffer.unwrite · len)
  hasWritten data := command fun b => (b.copyIn data).bind (Buffer.hasWritten · data.length)
  ensureWritableBytes len := command (Buffer.ensureWritableBytes · len)
  shrink reserve := command (Buffer.shrink · reserve)

/-- The bytes not yet retrieved, how many may surely be prepended to them, and how
many surely fit behind them without growing. -/
structure Queue where
  content : List Byte
  room : ℕ
  space : ℕ
  deriving DecidableEq, Repr

def Queue.new (initialSize : ℕ) : Queue := ⟨[], kCheapPrepend, initialSize⟩

def Queue.emptied (q : Queue) : Queue :=
  ⟨[], kCheapPrepend, q.room + q.content.length + q.space - kCheapPrepend⟩

inductive QueueFault
  | assertion
  /-- Outside what the queue promises. -/
  | undefined
  deriving DecidableEq, Repr

abbrev Queued := StateT Queue (Except QueueFault)

def queueOps : Primitives Queued where
  require ok := fun q => if ok then .ok ((), q) else .error .assertion
  readableBytes := fun q => .ok (q.content.length, q)
  copyOut len := fun q =>
    if len ≤ q.content.length then .ok (q.content.take len, q) else .error .undefined
  retrieve len := fun q =>
    if len < q.content.length then
      .ok ((), ⟨q.content.drop len, min kCheapPrepend (q.room + len), q.space⟩)
    else if len = q.content.length then .ok ((), q.emptied)
    else .error .assertion
  retrieveAll := fun q => .ok ((), q.emptied)
  append data := fun q =>
    if data.length ≤ maxSize then
      .ok ((), ⟨q.content ++ data, q.room, q.space - data.length⟩)
    else .error .undefined
  prepend data := fun q =>
    if data.length ≤ q.room then .ok ((), ⟨data ++ q.content, q.room - data.length, q.space⟩)
    else .error .undefined
  unwrite len := fun q =>
    if len ≤ q.content.length then
      .ok ((), ⟨q.content.take (q.content.length - len), q.room, q.space + len⟩)
    else .error .assertion
  hasWritten data := fun q =>
    if data.length ≤ q.space then
      .ok ((), ⟨q.content ++ data, q.room, q.space - data.length⟩)
    else .error .undefined
  ensureWritableBytes len := fun q =>
    if len ≤ maxSize then .ok ((), { q with space := max q.space len }) else .error .undefined
  shrink reserve := fun q =>
    if q.content.length < 2147483648 ∧ q.content.length + reserve ≤ maxSize then
      .ok ((), ⟨q.content, kCheapPrepend,
        max kInitialSize (q.content.length + reserve) - q.content.length⟩)
    else .error .undefined

/-- The calls about which the queue promises nothing: more bytes in front or behind
than surely fit, a size no vector has, and a copy that a string piece cannot carry. -/
def Op.Outside (q : Queue) : Op → Prop
  | .append data => maxSize < data.length
  | .ensureWritableBytes len => maxSize < len
  | .hasWritten data => q.space < data.length
  | .prependInt width _ => q.room < width.bytes
  | .prepend data => q.room < data.length
  | .shrink reserve => 2147483648 ≤ q.content.length ∨ maxSize < q.content.length + reserve
  | _ => False

end ARCServer.BufferOperations
