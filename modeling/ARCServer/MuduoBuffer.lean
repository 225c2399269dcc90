import ARCServer.NetworkWords

/-! The buffer of `Buffer.h`: a vector, the indices of its readable part, and the
free space in front of it. A count of bytes in memory is below 2^63; the sums a
caller can make wrap are taken modulo 2^64. -/

namespace ARCServer.MuduoBuffer

open MachineIntegers NetworkWords

section Blocks

variable {α : Type*}

def slice (v : List α) (i j : ℕ) : List α := (v.take j).drop i

def overwrite (v : List α) (i : ℕ) (data : List α) : List α :=
  v.take i ++ (data ++ v.drop (i + data.length))

def resize (v : List α) (n : ℕ) (zero : α) : List α :=
  v.take n ++ List.replicate (n - v.length) zero

theorem slice_length (v : List α) {i j : ℕ} (h : j ≤ v.length) :
    (slice v i j).length = j - i := by
  rw [slice, List.length_drop, List.length_take, Nat.min_eq_left h]

theorem overwrite_length {v : List α} {i : ℕ} {data : List α} (h : i + data.length ≤ v.length) :
    (overwrite v i data).length = v.length := by
  simp only [overwrite, List.length_append, List.length_take, List.length_drop]
  omega

theorem resize_length (v : List α) (n : ℕ) (zero : α) : (resize v n zero).length = n := by
  simp only [resize, List.length_append, List.length_take, List.length_replicate]
  omega

theorem slice_resize {v : List α} {i j n : ℕ} (inside : j ≤ v.length) (kept : j ≤ n) (zero : α) :
    slice (resize v n zero) i j = slice v i j := by
  rw [slice, resize, List.take_append_of_le_length (by rw [List.length_take]; omega),
    List.take_take, Nat.min_eq_left kept, slice]

theorem slice_overwrite_behind {v data : List α} {i k : ℕ} (order : i ≤ k) (inside : k ≤ v.length) :
    slice (overwrite v k data) i (k + data.length) = slice v i k ++ data := by
  have front : (v.take k).length = k := by rw [List.length_take, Nat.min_eq_left inside]
  rw [slice, overwrite, List.take_append, List.take_append, front, Nat.add_sub_cancel_left,
    List.take_length, Nat.sub_self, List.take_zero, List.append_nil,
    List.take_of_length_le (by omega), List.drop_append_of_le_length (by omega), slice]

theorem slice_overwrite_front {v data : List α} {k j : ℕ} (inside : k ≤ v.length)
    (order : k + data.length ≤ j) :
    slice (overwrite v k data) k j = data ++ slice v (k + data.length) j := by
  have front : (v.take k).length = k := by rw [List.length_take, Nat.min_eq_left inside]
  rw [slice, overwrite, List.drop_take, List.drop_append_of_le_length (by omega),
    List.drop_of_length_le (by omega), List.nil_append, List.take_append,
    List.take_of_length_le (by omega), slice, List.drop_take, Nat.sub_sub]

theorem slice_slice_take (v : List α) (i j n : ℕ) :
    (slice v i j).take n = slice v i (min (i + n) j) := by
  rw [slice, slice, List.take_drop, List.take_take]

theorem slice_slice_drop (v : List α) (i j n : ℕ) :
    (slice v i j).drop n = slice v (i + n) j := by
  rw [slice, slice, List.drop_drop]

end Blocks

inductive Fault
  /-- A failed `assert`. -/
  | assertion
  /-- `std::length_error` of the vector. -/
  | lengthError
  /-- The vector is cut below the indices: a size that wrapped. -/
  | wrapped
  /-- An access past the end of the vector. -/
  | outside
  deriving DecidableEq, Repr

theorem ok_bind {α κ : Type} (a : α) (f : α → Except Fault κ) : (Except.ok a >>= f) = f a := rfl

def kCheapPrepend : ℕ := 8

def kInitialSize : ℕ := 1024

def maxSize : ℕ := 9223372036854775807

def sizeValues : ℕ := 18446744073709551616

structure Buffer where
  buffer : List Byte
  readerIndex : ℕ
  writerIndex : ℕ
  reader_le_writer : readerIndex ≤ writerIndex
  writer_le_size : writerIndex ≤ buffer.length
  cheapPrepend_le_size : kCheapPrepend ≤ buffer.length
  size_le_max : buffer.length ≤ maxSize

namespace Buffer

def new (initialSize : ℕ) : Except Fault Buffer :=
  if fits : kCheapPrepend + initialSize ≤ maxSize then
    .ok {
      buffer := List.replicate (kCheapPrepend + initialSize) 0
      readerIndex := kCheapPrepend
      writerIndex := kCheapPrepend
      reader_le_writer := le_rfl
      writer_le_size := by simp
      cheapPrepend_le_size := by simp
      size_le_max := by simpa using fits }
  else .error .lengthError

def fresh : Buffer where
  buffer := List.replicate (kCheapPrepend + kInitialSize) 0
  readerIndex := kCheapPrepend
  writerIndex := kCheapPrepend
  reader_le_writer := le_rfl
  writer_le_size := by
    rw [List.length_replicate]
    exact Nat.le_add_right _ _
  cheapPrepend_le_size := by
    rw [List.length_replicate]
    exact Nat.le_add_right _ _
  size_le_max := by
    rw [List.length_replicate]
    decide

variable (b : Buffer)

def readableBytes : ℕ := b.writerIndex - b.readerIndex

def writableBytes : ℕ := b.buffer.length - b.writerIndex

def prependableBytes : ℕ := b.readerIndex

def readable : List Byte := slice b.buffer b.readerIndex b.writerIndex

def retrieveAll : Buffer :=
  { b with
    readerIndex := kCheapPrepend
    writerIndex := kCheapPrepend
    reader_le_writer := le_rfl
    writer_le_size := b.cheapPrepend_le_size }

def retrieve (len : ℕ) : Except Fault Buffer :=
  if len ≤ b.readableBytes then
    if less : len < b.readableBytes then
      .ok { b with
        readerIndex := b.readerIndex + len
        reader_le_writer := by
          unfold readableBytes at less
          omega }
    else .ok b.retrieveAll
  else .error .assertion

def store (i : ℕ) (data : List Byte) (inside : i + data.length ≤ b.buffer.length) : Buffer :=
  { b with
    buffer := overwrite b.buffer i data
    writer_le_size := by
      rw [overwrite_length inside]
      exact b.writer_le_size
    cheapPrepend_le_size := by
      rw [overwrite_length inside]
      exact b.cheapPrepend_le_size
    size_le_max := by
      rw [overwrite_length inside]
      exact b.size_le_max }

theorem readable_length : b.readable.length = b.readableBytes :=
  slice_length b.buffer b.writer_le_size

theorem front_inside (room : kCheapPrepend < b.readerIndex) :
    kCheapPrepend + b.readable.length ≤ b.buffer.length := by
  have order := b.reader_le_writer
  have inside := b.writer_le_size
  rw [readable_length, readableBytes]
  omega

/-- The last branch of `makeSpace`: the readable bytes move to the front. -/
def moveToFront (room : kCheapPrepend < b.readerIndex) : Buffer :=
  { b.store kCheapPrepend b.readable (b.front_inside room) with
    readerIndex := kCheapPrepend
    writerIndex := kCheapPrepend + b.readableBytes
    reader_le_writer := Nat.le_add_right _ _
    writer_le_size := by
      have inside := b.front_inside room
      rw [store, overwrite_length inside, ← readable_length]
      exact inside }

def grow (len : ℕ) (short : b.writableBytes < len) (fits : b.writerIndex + len ≤ maxSize) :
    Buffer :=
  { b with
    buffer := resize b.buffer (b.writerIndex + len) 0
    writer_le_size := by
      rw [resize_length]
      exact Nat.le_add_right _ _
    cheapPrepend_le_size := by
      have room := b.cheapPrepend_le_size
      have inside := b.writer_le_size
      unfold writableBytes at short
      rw [resize_length]
      omega
    size_le_max := by rwa [resize_length] }

def makeSpace (len : ℕ) (short : b.writableBytes < len) : Except Fault Buffer :=
  if b.writableBytes + b.prependableBytes < (len + kCheapPrepend) % sizeValues then
    if fits : b.writerIndex + len ≤ maxSize then .ok (b.grow len short fits)
    else if b.writerIndex + len < sizeValues then .error .lengthError
    else .error .wrapped
  else if room : kCheapPrepend < b.readerIndex then .ok (b.moveToFront room)
  else .error .assertion

def ensureWritableBytes (len : ℕ) : Except Fault Buffer :=
  (if short : b.writableBytes < len then b.makeSpace len short else .ok b).bind fun b' =>
    if len ≤ b'.writableBytes then .ok b' else .error .assertion

def copyIn (data : List Byte) : Except Fault Buffer :=
  if inside : b.writerIndex + data.length ≤ b.buffer.length then
    .ok (b.store b.writerIndex data inside)
  else .error .outside

def hasWritten (len : ℕ) : Except Fault Buffer :=
  if room : len ≤ b.writableBytes then
    .ok { b with
      writerIndex := b.writerIndex + len
      reader_le_writer := le_trans b.reader_le_writer (Nat.le_add_right _ _)
      writer_le_size := by
        have inside := b.writer_le_size
        unfold writableBytes at room
        omega }
  else .error .assertion

def append (data : List Byte) : Except Fault Buffer := do
  let b ← b.ensureWritableBytes data.length
  let b ← b.copyIn data
  b.hasWritten data.length

def unwrite (len : ℕ) : Except Fault Buffer :=
  if few : len ≤ b.readableBytes then
    .ok { b with
      writerIndex := b.writerIndex - len
      reader_le_writer := by
        have order := b.reader_le_writer
        unfold readableBytes at few
        omega
      writer_le_size := le_trans (Nat.sub_le _ _) b.writer_le_size }
  else .error .assertion

theorem prepend_inside {data : List Byte} (room : data.length ≤ b.prependableBytes) :
    b.readerIndex - data.length + data.length ≤ b.buffer.length := by
  have order := b.reader_le_writer
  have inside := b.writer_le_size
  unfold prependableBytes at room
  omega

def prepend (data : List Byte) : Except Fault Buffer :=
  if room : data.length ≤ b.prependableBytes then
    .ok { b.store (b.readerIndex - data.length) data (b.prepend_inside room) with
      readerIndex := b.readerIndex - data.length
      reader_le_writer := le_trans (Nat.sub_le _ _) b.reader_le_writer }
  else .error .assertion

def copyOut (len : ℕ) : Except Fault (List Byte) :=
  if b.readerIndex + len ≤ b.buffer.length then
    .ok (slice b.buffer b.readerIndex (b.readerIndex + len))
  else .error .outside

/-- `toStringPiece()`: the memory from `peek()` on, and a length that is an `int`. -/
def toStringPiece : List Byte × Int := (b.buffer.drop b.readerIndex, toInt32 b.readableBytes)

def appendPiece (piece : List Byte × Int) : Except Fault Buffer := do
  let b ← b.ensureWritableBytes (toSizeT piece.2)
  if toSizeT piece.2 ≤ piece.1.length then
    let b ← b.copyIn (piece.1.take (toSizeT piece.2))
    b.hasWritten (toSizeT piece.2)
  else .error .outside

/-- `shrink`; the swap leaves `other` in place of the buffer. -/
def shrink (reserve : ℕ) : Except Fault Buffer := do
  let other ← fresh.ensureWritableBytes ((b.readableBytes + reserve) % sizeValues)
  other.appendPiece b.toStringPiece

variable {b}

theorem readable_store_front {i : ℕ} {data : List Byte} (inside : i + data.length ≤ b.buffer.length)
    (order : i + data.length ≤ b.writerIndex) :
    slice (b.store i data inside).buffer i b.writerIndex =
      data ++ slice b.buffer (i + data.length) b.writerIndex :=
  slice_overwrite_front (by omega) order

theorem readable_moveToFront (room : kCheapPrepend < b.readerIndex) :
    (b.moveToFront room).readable = b.readable := by
  have inside := b.front_inside room
  have moved : slice (overwrite b.buffer kCheapPrepend b.readable) kCheapPrepend
      (kCheapPrepend + b.readable.length) =
        slice b.buffer kCheapPrepend kCheapPrepend ++ b.readable :=
    slice_overwrite_behind le_rfl (by omega)
  rw [readable_length] at moved
  refine moved.trans ?_
  rw [slice, List.drop_of_length_le (by rw [List.length_take]; omega), List.nil_append]

theorem readable_grow {len : ℕ} (short : b.writableBytes < len)
    (fits : b.writerIndex + len ≤ maxSize) : (b.grow len short fits).readable = b.readable :=
  slice_resize b.writer_le_size (Nat.le_add_right _ _) 0

theorem parts_length (b : Buffer) :
    b.readerIndex + b.readableBytes + b.writableBytes = b.buffer.length := by
  have order := b.reader_le_writer
  have inside := b.writer_le_size
  unfold readableBytes writableBytes
  omega

theorem parts_readable (b : Buffer) :
    b.readerIndex + b.readable.length + b.writableBytes = b.buffer.length := by
  rw [readable_length, parts_length]

theorem ensureWritableBytes_of_room {len : ℕ} (room : len ≤ b.writableBytes) :
    b.ensureWritableBytes len = .ok b := by
  simp [ensureWritableBytes, Nat.not_lt.mpr room, room, Except.bind]

/-- Room is made without touching the readable bytes, in a vector of at most
twice the new bytes beside them. Neither assertion on the way can fail. -/
theorem ensureWritableBytes_spec {len : ℕ} (small : len ≤ maxSize) :
    (∃ b', b.ensureWritableBytes len = .ok b' ∧ b'.readable = b.readable ∧
      min kCheapPrepend b.readerIndex ≤ b'.readerIndex ∧
      max b.writableBytes len ≤ b'.writableBytes ∧
      b'.buffer.length ≤ max b.buffer.length (b.readableBytes + 2 * len + kCheapPrepend)) ∨
    b.ensureWritableBytes len = .error .lengthError ∧
      maxSize < b.readableBytes + 2 * len + kCheapPrepend := by
  by_cases short : b.writableBytes < len
  swap
  · exact Or.inl ⟨b, ensureWritableBytes_of_room (not_lt.mp short), rfl, min_le_right _ _,
      max_le le_rfl (not_lt.mp short), le_max_left _ _⟩
  have order := b.reader_le_writer
  have inside := b.writer_le_size
  have sum : (len + kCheapPrepend) % sizeValues = len + kCheapPrepend := by
    refine Nat.mod_eq_of_lt ?_
    unfold maxSize at small
    unfold kCheapPrepend sizeValues
    omega
  have writable : b.writableBytes = b.buffer.length - b.writerIndex := rfl
  have readable : b.readableBytes = b.writerIndex - b.readerIndex := rfl
  have prependable : b.prependableBytes = b.readerIndex := rfl
  unfold ensureWritableBytes makeSpace
  rw [sum]
  by_cases tight : b.writableBytes + b.prependableBytes < len + kCheapPrepend
  · by_cases fits : b.writerIndex + len ≤ maxSize
    · have grown : (b.grow len short fits).writableBytes = len := by
        simp only [writableBytes, grow, resize_length]
        omega
      refine Or.inl ⟨b.grow len short fits, ?_, readable_grow short fits, min_le_right _ _,
        max_le (by omega) grown.ge, ?_⟩
      · simp [short, tight, fits, grown, Except.bind]
      · simp only [grow, resize_length]
        omega
    · have noWrap : b.writerIndex + len < sizeValues := by
        have bound := b.size_le_max
        unfold maxSize at small bound
        unfold sizeValues
        omega
      refine Or.inr ⟨?_, by omega⟩
      simp [short, tight, fits, noWrap, Except.bind]
  · have room : kCheapPrepend < b.readerIndex := by omega
    have size := overwrite_length (b.front_inside room)
    have enough : len ≤ (b.moveToFront room).writableBytes := by
      simp only [writableBytes, moveToFront, store, size]
      omega
    refine Or.inl ⟨b.moveToFront room, ?_, readable_moveToFront room, min_le_left _ _,
      max_le (by omega) enough, ?_⟩
    · simp [short, tight, room, enough, Except.bind]
    · simp only [moveToFront, store, size]
      exact le_max_left _ _

theorem write_spec {data : List Byte} (room : data.length ≤ b.writableBytes) :
    ∃ b', (b.copyIn data).bind (fun c => c.hasWritten data.length) = .ok b' ∧
      b'.readable = b.readable ++ data ∧ b'.readerIndex = b.readerIndex ∧
      b'.buffer.length = b.buffer.length := by
  have bound := b.writer_le_size
  have inside : b.writerIndex + data.length ≤ b.buffer.length := by
    unfold writableBytes at room
    omega
  have size := overwrite_length inside
  have stored : data.length ≤ (b.store b.writerIndex data inside).writableBytes := by
    simp only [writableBytes, store, size]
    omega
  unfold copyIn
  rw [dif_pos inside]
  simp only [Except.bind, hasWritten, dif_pos stored]
  exact ⟨_, rfl, slice_overwrite_behind b.reader_le_writer bound, rfl, size⟩

theorem writable_of_written {b' : Buffer} {data : List Byte}
    (readable : b'.readable = b.readable ++ data) (reader : b'.readerIndex = b.readerIndex)
    (size : b'.buffer.length = b.buffer.length) :
    b'.writableBytes = b.writableBytes - data.length := by
  have parts := b.parts_readable
  have parts' := b'.parts_readable
  rw [readable, List.length_append] at parts'
  omega

theorem append_spec {data : List Byte} (small : data.length ≤ maxSize) :
    (∃ b', b.append data = .ok b' ∧ b'.readable = b.readable ++ data ∧
      min kCheapPrepend b.readerIndex ≤ b'.readerIndex ∧
      b.writableBytes - data.length ≤ b'.writableBytes ∧
      b'.buffer.length ≤
        max b.buffer.length (b.readableBytes + 2 * data.length + kCheapPrepend)) ∨
    b.append data = .error .lengthError ∧
      maxSize < b.readableBytes + 2 * data.length + kCheapPrepend := by
  unfold append
  obtain ⟨c, made, same, front, room, size⟩ | ⟨failed, full⟩ :=
    ensureWritableBytes_spec (b := b) small
  · obtain ⟨b', written, readable, reader, kept⟩ := write_spec (le_trans (le_max_right _ _) room)
    have space := writable_of_written readable reader kept
    refine Or.inl ⟨b', ?_, by rw [readable, same], by omega, by omega, by omega⟩
    rw [made]
    exact written
  · refine Or.inr ⟨?_, full⟩
    rw [failed]
    rfl

theorem readable_retrieveAll : b.retrieveAll.readable = [] :=
  List.drop_of_length_le (by simp [retrieveAll])

theorem retrieve_spec {len : ℕ} (few : len ≤ b.readableBytes) :
    ∃ b', b.retrieve len = .ok b' ∧ b'.readable = b.readable.drop len ∧
      (if len < b.readableBytes then b'.readerIndex = b.readerIndex + len
        else b'.readerIndex = kCheapPrepend) ∧
      b'.buffer.length = b.buffer.length := by
  unfold retrieve
  rw [if_pos few]
  by_cases less : len < b.readableBytes
  · rw [dif_pos less]
    simp only [if_pos less]
    exact ⟨_, rfl, (slice_slice_drop _ _ _ _).symm, rfl, rfl⟩
  · rw [dif_neg less]
    simp only [if_neg less]
    refine ⟨_, rfl, ?_, rfl, rfl⟩
    rw [readable_retrieveAll, List.drop_of_length_le (by rw [readable_length]; omega)]

theorem unwrite_spec {len : ℕ} (few : len ≤ b.readableBytes) :
    ∃ b', b.unwrite len = .ok b' ∧ b'.readable = b.readable.take (b.readable.length - len) ∧
      b'.readerIndex = b.readerIndex ∧ b'.buffer.length = b.buffer.length := by
  have order := b.reader_le_writer
  have bytes : b.readableBytes = b.writerIndex - b.readerIndex := rfl
  have shorter : slice b.buffer b.readerIndex (b.writerIndex - len) =
      b.readable.take (b.readable.length - len) := by
    rw [readable_length, readable, slice_slice_take]
    congr 1
    omega
  unfold unwrite
  rw [dif_pos few]
  exact ⟨_, rfl, shorter, rfl, rfl⟩

theorem prepend_spec {data : List Byte} (room : data.length ≤ b.readerIndex) :
    ∃ b', b.prepend data = .ok b' ∧ b'.readable = data ++ b.readable ∧
      b'.readerIndex = b.readerIndex - data.length ∧ b'.buffer.length = b.buffer.length := by
  have order := b.reader_le_writer
  have inside := b.prepend_inside room
  have front := readable_store_front inside (by omega)
  unfold prepend
  rw [dif_pos (show data.length ≤ b.prependableBytes from room)]
  refine ⟨_, rfl, front.trans ?_, rfl, overwrite_length inside⟩
  rw [show b.readerIndex - data.length + data.length = b.readerIndex by omega]
  rfl

theorem copyOut_spec {len : ℕ} (few : len ≤ b.readableBytes) :
    b.copyOut len = .ok (b.readable.take len) := by
  have order := b.reader_le_writer
  have inside := b.writer_le_size
  unfold readableBytes at few
  unfold copyOut
  rw [if_pos (by omega), readable, slice_slice_take, Nat.min_eq_left (by omega)]

theorem copyOut_error {len : ℕ} {e : Fault} (h : b.copyOut len = .error e) : e = .outside := by
  unfold copyOut at h
  split at h
  · cases h
  · exact (Except.error.inj h).symm

theorem readable_fresh : fresh.readable = [] :=
  List.drop_of_length_le (by simp [fresh])

theorem fresh_size : fresh.buffer.length = kCheapPrepend + kInitialSize := List.length_replicate

/-- The `int` of a string piece is the number of readable bytes below 2^31 only. -/
theorem toStringPiece_take {n : ℕ} (few : n ≤ b.readableBytes) :
    b.toStringPiece.1.take n = b.readable.take n := by
  have order := b.reader_le_writer
  unfold readableBytes at few
  rw [toStringPiece, readable, slice, List.drop_take, List.take_take, Nat.min_eq_left few]

theorem readableBytes_le_max : b.readableBytes ≤ maxSize :=
  le_trans (Nat.sub_le _ _) (le_trans b.writer_le_size b.size_le_max)

theorem fresh_ensureWritableBytes (len : ℕ) (small : len ≤ maxSize) :
    (∃ b', fresh.ensureWritableBytes len = .ok b' ∧ b'.readable = [] ∧
      b'.readerIndex = kCheapPrepend ∧
      b'.buffer.length = kCheapPrepend + max kInitialSize len) ∨
    fresh.ensureWritableBytes len = .error .lengthError ∧ maxSize < kCheapPrepend + len := by
  have writable : fresh.writableBytes = kInitialSize := by
    rw [writableBytes, fresh_size]
    exact Nat.add_sub_cancel_left _ _
  have writer : fresh.writerIndex = kCheapPrepend := rfl
  have prependable : fresh.prependableBytes = kCheapPrepend := rfl
  by_cases short : fresh.writableBytes < len
  swap
  · refine Or.inl ⟨fresh, ensureWritableBytes_of_room (not_lt.mp short), readable_fresh, rfl, ?_⟩
    rw [fresh_size, max_eq_left (by omega)]
  have sum : (len + kCheapPrepend) % sizeValues = len + kCheapPrepend := by
    refine Nat.mod_eq_of_lt ?_
    unfold maxSize at small
    unfold kCheapPrepend sizeValues
    omega
  have tight : fresh.writableBytes + fresh.prependableBytes < len + kCheapPrepend := by omega
  unfold ensureWritableBytes makeSpace
  rw [sum]
  by_cases fits : fresh.writerIndex + len ≤ maxSize
  · have size : (fresh.grow len short fits).buffer.length = kCheapPrepend + len :=
      resize_length _ _ _
    have grown : len ≤ (fresh.grow len short fits).writableBytes := by
      rw [writableBytes, size]
      exact (Nat.add_sub_cancel_left _ _).ge
    refine Or.inl ⟨fresh.grow len short fits, ?_, (readable_grow short fits).trans readable_fresh,
      rfl, ?_⟩
    · simp [short, tight, fits, grown, Except.bind]
    · rw [size, max_eq_right (by omega)]
  · have noWrap : fresh.writerIndex + len < sizeValues := by
      unfold maxSize at small
      unfold sizeValues
      rw [writer]
      unfold kCheapPrepend
      omega
    refine Or.inr ⟨?_, by omega⟩
    simp [short, tight, fits, noWrap, Except.bind]

theorem shrink_spec {reserve : ℕ} (small : b.readableBytes < 2147483648)
    (total : b.readableBytes + reserve ≤ maxSize) :
    (∃ b', b.shrink reserve = .ok b' ∧ b'.readable = b.readable ∧
      b'.readerIndex = kCheapPrepend ∧
      b'.buffer.length = kCheapPrepend + max kInitialSize (b.readableBytes + reserve)) ∨
    b.shrink reserve = .error .lengthError ∧
      maxSize < kCheapPrepend + (b.readableBytes + reserve) := by
  have wrap : (b.readableBytes + reserve) % sizeValues = b.readableBytes + reserve := by
    refine Nat.mod_eq_of_lt ?_
    unfold maxSize at total
    unfold sizeValues
    omega
  have int : toSizeT b.toStringPiece.2 = b.readableBytes := by
    have range : toInt32 b.readableBytes = b.readableBytes := by
      unfold toInt32
      omega
    rw [toStringPiece, range, toSizeT_natCast small]
  unfold shrink appendPiece
  rw [wrap, int]
  obtain ⟨c, made, same, front, size⟩ | ⟨failed, full⟩ := fresh_ensureWritableBytes _ total
  · have room : b.readableBytes ≤ c.writableBytes := by
      have parts := c.parts_readable
      rw [same, List.length_nil] at parts
      omega
    have long : b.readableBytes ≤ b.toStringPiece.1.length := by
      have order := b.reader_le_writer
      have inside := b.writer_le_size
      rw [toStringPiece, List.length_drop, readableBytes]
      omega
    have length : (b.toStringPiece.1.take b.readableBytes).length = b.readableBytes := by
      rw [List.length_take, Nat.min_eq_left long]
    obtain ⟨b', written, readable, reader, kept⟩ := write_spec (length.trans_le room)
    refine Or.inl ⟨b', ?_, ?_, reader.trans front, kept.trans size⟩
    · rw [length] at written
      simp only [bind, Except.bind, made, ensureWritableBytes_of_room room, if_pos long]
      exact written
    · rw [readable, same, toStringPiece_take le_rfl, List.nil_append, ← readable_length,
        List.take_length]
  · refine Or.inr ⟨?_, full⟩
    simp only [bind, Except.bind, failed]

theorem room_of_ensureWritableBytes {len : ℕ} {b' : Buffer}
    (made : b.ensureWritableBytes len = .ok b') : len ≤ b'.writableBytes := by
  unfold ensureWritableBytes at made
  cases space : (if short : b.writableBytes < len then b.makeSpace len short else .ok b) with
  | error fault =>
    rw [space] at made
    cases made
  | ok c =>
    rw [space] at made
    by_cases enough : len ≤ c.writableBytes
    · simp only [Except.bind, if_pos enough, Except.ok.injEq] at made
      exact made ▸ enough
    · simp only [Except.bind, if_neg enough, reduceCtorEq] at made

theorem appendPiece_readable {piece : List Byte × Int} (range : IsInt32 piece.2) {b' : Buffer}
    (made : b.appendPiece piece = .ok b') :
    toSizeT piece.2 < 2147483648 ∧ b'.readable.length = b.readableBytes + toSizeT piece.2 := by
  unfold appendPiece at made
  cases space : b.ensureWritableBytes (toSizeT piece.2) with
  | error fault =>
    rw [space] at made
    cases made
  | ok c =>
    have room := room_of_ensureWritableBytes space
    have bound : toSizeT piece.2 ≤ maxSize :=
      le_trans room (le_trans (Nat.sub_le _ _) c.size_le_max)
    have same : c.readable = b.readable := by
      obtain ⟨d, again, same, -⟩ | ⟨failed, -⟩ := ensureWritableBytes_spec (b := b) bound
      · rw [space] at again
        exact Except.ok.inj again ▸ same
      · rw [space] at failed
        cases failed
    rw [space] at made
    by_cases long : toSizeT piece.2 ≤ piece.1.length
    · have length : (piece.1.take (toSizeT piece.2)).length = toSizeT piece.2 := by
        rw [List.length_take, Nat.min_eq_left long]
      obtain ⟨d, written, readable, -, -⟩ := write_spec (b := c)
        (show (piece.1.take (toSizeT piece.2)).length ≤ c.writableBytes by omega)
      rw [length] at written
      simp only [bind, Except.bind, if_pos long] at made
      rw [← Except.ok.inj (written.symm.trans made), readable, List.length_append, length, same,
        readable_length]
      refine ⟨?_, rfl⟩
      unfold IsInt32 at range
      unfold toSizeT maxSize at bound
      unfold toSizeT
      omega
    · simp only [bind, Except.bind, if_neg long, reduceCtorEq] at made

end Buffer

end ARCServer.MuduoBuffer
