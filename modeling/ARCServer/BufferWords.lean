import ARCServer.BufferRefinement

/-! Typed values through the buffer. What the `appendInt` operations write, the
`readInt` operations return, in order and whatever the byte layout. -/

namespace ARCServer.BufferWords

open MachineIntegers NetworkWords MuduoBuffer BufferOperations DataRefinement BufferRefinement

structure Word where
  width : Width
  value : Int
  fits : Fits width.bytes value

def Word.wire (w : Word) : List Byte := (hostImage w.width.bytes w.value).reverse

section Programs

variable {m : Type → Type} [Monad m] (o : Primitives m)

def appendWords (words : List Word) : m (List Unit) :=
  words.mapM fun w => o.appendInt w.width w.value

def readWords (words : List Word) : m (List Int) :=
  words.mapM fun w => o.readInt w.width

/-- Words appended behind older bytes, and read when these have been retrieved. -/
def writeThenRead (words : List Word) : m (List Int) := do
  let older ← o.readableBytes
  let _ ← appendWords o words
  o.retrieve older
  readWords o words

end Programs

theorem wire_length (w : Word) : w.wire.length = w.width.bytes := by
  rw [Word.wire, List.length_reverse, hostImage_length]

section Queues

variable {q : Queue} {front rest : List Byte}

theorem appendInt_image (q : Queue) (width : Width) (x : Int) :
    ∃ q', queueOps.appendInt width x q = .ok ((), q') ∧
      q'.content = q.content ++ (hostImage width.bytes x).reverse := by
  have small : (hostImage width.bytes x).reverse.length ≤ maxSize := by
    rw [List.length_reverse, hostImage_length]
    exact bytes_le_max width
  obtain ⟨q', appended, content⟩ : ∃ q',
      queueOps.append (hostImage width.bytes x).reverse q = .ok ((), q') ∧
        q'.content = q.content ++ (hostImage width.bytes x).reverse := ⟨_, if_pos small, rfl⟩
  refine ⟨q', ?_, content⟩
  cases width with
  | int8 => exact appended
  | int16 => exact (congrArg (queueOps.append · q) (hostImage_hostToNetwork 2 x)).trans appended
  | int32 => exact (congrArg (queueOps.append · q) (hostImage_hostToNetwork 4 x)).trans appended
  | int64 => exact (congrArg (queueOps.append · q) (hostImage_hostToNetwork 8 x)).trans appended

theorem retrieve_front (holds : q.content = front ++ rest) :
    ∃ q', queueOps.retrieve front.length q = .ok ((), q') ∧ q'.content = rest := by
  simp only [queueOps, holds, List.length_append]
  cases rest with
  | nil =>
    rw [List.length_nil, Nat.add_zero, if_neg (lt_irrefl _), if_pos rfl]
    exact ⟨_, rfl, rfl⟩
  | cons b bs =>
    rw [if_pos (by rw [List.length_cons]; omega)]
    exact ⟨_, rfl, List.drop_left⟩

theorem copyOut_front (holds : q.content = front ++ rest) :
    queueOps.copyOut front.length q = .ok (front, q) := by
  simp only [queueOps, holds]
  rw [if_pos (by rw [List.length_append]; omega), List.take_left]

theorem load_front {α : Type} (holds : q.content = front ++ rest) (f : List Byte → α) :
    (do
      queueOps.require (front.length ≤ (← queueOps.readableBytes))
      return f (← queueOps.copyOut front.length) : Queued α) q = .ok (f front, q) := by
  have counted : queueOps.readableBytes q = .ok ((front ++ rest).length, q) := by
    rw [← holds]
    rfl
  have asserted : queueOps.require (front.length ≤ (front ++ rest).length) q = .ok ((), q) := by
    simp only [queueOps, List.length_append]
    rw [if_pos (by rw [decide_eq_true_eq]; omega)]
  rw [bind_ok counted, bind_ok asserted, bind_ok (copyOut_front holds)]
  rfl

theorem peekInt_front (w : Word) (holds : q.content = w.wire ++ rest) :
    queueOps.peekInt w.width q = .ok (w.value, q) := by
  have length := wire_length w
  have swapped := load_front holds fun image => networkToHost w.width.bytes (ofHostImage image)
  have plain := load_front holds ofHostImage
  rw [length] at swapped plain
  rw [show networkToHost w.width.bytes (ofHostImage w.wire) = w.value from
    networkToHost_ofHostImage w.fits] at swapped
  obtain ⟨width, value, fits⟩ := w
  cases width with
  | int8 =>
    have single : (Word.mk .int8 value fits).wire = hostImage 1 value := rfl
    have value : ofHostImage (hostImage 1 value) = value := ofHostImage_hostImage fits
    rw [single, value] at plain
    exact plain
  | int16 => exact swapped
  | int32 => exact swapped
  | int64 => exact swapped

theorem readInt_front (w : Word) (holds : q.content = w.wire ++ rest) :
    ∃ q', queueOps.readInt w.width q = .ok (w.value, q') ∧ q'.content = rest := by
  obtain ⟨q', retrieved, content⟩ := retrieve_front holds
  refine ⟨q', ?_, content⟩
  have call : queueOps.retrieveInt w.width = queueOps.retrieve w.wire.length := by
    rw [wire_length]
    cases w.width <;> rfl
  rw [readInt_eq, bind_ok (peekInt_front w holds), call, bind_ok retrieved]
  rfl

theorem appendWords_wire (words : List Word) (q : Queue) :
    ∃ units q', appendWords queueOps words q = .ok (units, q') ∧
      q'.content = q.content ++ words.flatMap Word.wire := by
  induction words generalizing q with
  | nil => exact ⟨[], q, rfl, by rw [List.flatMap_nil, List.append_nil]⟩
  | cons w words ih =>
    obtain ⟨q', first, front⟩ := appendInt_image q w.width w.value
    obtain ⟨units, q'', later, content⟩ := ih q'
    refine ⟨() :: units, q'', ?_, ?_⟩
    · unfold appendWords at later ⊢
      rw [List.mapM_cons, bind_ok first, bind_ok later]
      rfl
    · rw [content, front, List.flatMap_cons, List.append_assoc]
      rfl

theorem readWords_wire (words : List Word) (holds : q.content = words.flatMap Word.wire ++ rest) :
    ∃ q', readWords queueOps words q = .ok (words.map Word.value, q') ∧ q'.content = rest := by
  induction words generalizing q with
  | nil => exact ⟨q, rfl, holds⟩
  | cons w words ih =>
    rw [List.flatMap_cons, List.append_assoc] at holds
    obtain ⟨q', first, front⟩ := readInt_front w holds
    obtain ⟨q'', later, content⟩ := ih front
    refine ⟨q'', ?_, content⟩
    unfold readWords at later ⊢
    rw [List.mapM_cons, bind_ok first, bind_ok later]
    rfl

end Queues

theorem writeThenRead_queue (words : List Word) (q : Queue) :
    ∃ q', writeThenRead queueOps words q = .ok (words.map Word.value, q') ∧ q'.content = [] := by
  obtain ⟨units, p, appended, both⟩ := appendWords_wire words q
  obtain ⟨p', retrieved, behind⟩ := retrieve_front both
  obtain ⟨q', read, content⟩ := readWords_wire words (behind.trans (List.append_nil _).symm)
  have counted : queueOps.readableBytes q = .ok (q.content.length, q) := rfl
  refine ⟨q', ?_, content⟩
  unfold writeThenRead
  rw [bind_ok counted, bind_ok appended, bind_ok retrieved]
  exact read

theorem appendWords_refines (words : List Word) :
    Refines HoldsQueue faults (appendWords bufferOps words) (appendWords queueOps words) :=
  Refines.mapM (c := fun w : Word => bufferOps.appendInt w.width w.value)
    (a := fun w => queueOps.appendInt w.width w.value)
    (fun w => bufferOps_simulates.appendInt w.width w.value) words

theorem readWords_refines (words : List Word) :
    Refines HoldsQueue faults (readWords bufferOps words) (readWords queueOps words) :=
  Refines.mapM (c := fun w : Word => bufferOps.readInt w.width)
    (a := fun w => queueOps.readInt w.width)
    (fun w => bufferOps_simulates.readInt w.width) words

theorem writeThenRead_refines (words : List Word) :
    Refines HoldsQueue faults (writeThenRead bufferOps words) (writeThenRead queueOps words) :=
  bufferOps_simulates.readableBytes.bind fun older =>
    (appendWords_refines words).bind fun _ =>
      (bufferOps_simulates.retrieve older).bind fun _ => readWords_refines words

/-- From any state of the buffer, words that are appended come back as they were
written once what stood before them is retrieved, and nothing else is left. -/
theorem words_round_trip (words : List Word) (b : Buffer) :
    (∃ b', writeThenRead bufferOps words b = .ok (words.map Word.value, b') ∧
      b'.readable = []) ∨
    writeThenRead bufferOps words b = .error .lengthError := by
  obtain ⟨q', spec, empty⟩ := writeThenRead_queue words ⟨b.readable, 0, 0⟩
  obtain ⟨b', read, holds'⟩ | ⟨e, failed, full⟩ :=
    (writeThenRead_refines words).result (holds_readable rfl) spec
  · exact Or.inl ⟨b', read, holds'.content.trans empty⟩
  · exact Or.inr (failed.trans (congrArg _ full))

end ARCServer.BufferWords
