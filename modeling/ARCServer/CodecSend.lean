import ARCServer.BufferWords

/-! `send` of the two codecs: a message behind its length in network order, in a
buffer of its own. The messages of a stream can be told apart again. -/

namespace ARCServer.CodecSend

open MachineIntegers NetworkWords MuduoBuffer BufferOperations DataRefinement BufferRefinement
  BufferWords

/-- What a string piece can hold: its size is an `int`. -/
structure Message where
  bytes : List Byte
  small : bytes.length < 2147483648

section Programs

variable {m : Type → Type} [Monad m] (o : Primitives m)

/-- The body of `send` before `conn->send(&buf)`. -/
def frame (message : Message) : m Unit := do
  o.append message.bytes
  let len := toInt32 message.bytes.length
  let be32 := hostToNetwork 4 len
  o.prepend (hostImage 4 be32)

def framed (message : Message) : m (List Byte) := do
  frame o message
  o.retrieveAllAsString

def readMessage : m (List Byte) := do
  let len ← o.readInt32
  o.retrieveAsString (toSizeT len)

def readMessages (messages : List Message) : m (List (List Byte)) :=
  messages.mapM fun _ => readMessage o

end Programs

def send (message : Message) : Except Fault (List Byte) :=
  (framed bufferOps message Buffer.fresh).map Prod.fst

def Message.header (message : Message) : Word where
  width := .int32
  value := message.bytes.length
  fits := by
    have small := message.small
    have width : (256 ^ Width.int32.bytes : ℕ) = 4294967296 := rfl
    unfold Fits
    rw [width]
    omega

def Message.wire (message : Message) : List Byte := message.header.wire ++ message.bytes

theorem toInt32_length (message : Message) :
    toInt32 message.bytes.length = message.bytes.length := by
  have small := message.small
  unfold toInt32
  omega

section Queues

variable {q : Queue} {front rest : List Byte}

theorem readInt32_front (message : Message) (holds : q.content = message.header.wire ++ rest) :
    ∃ q', queueOps.readInt32 q = .ok ((message.bytes.length : Int), q') ∧ q'.content = rest :=
  readInt_front message.header holds

theorem retrieveAsString_front (holds : q.content = front ++ rest) :
    ∃ q', queueOps.retrieveAsString front.length q = .ok (front, q') ∧ q'.content = rest := by
  obtain ⟨q', retrieved, content⟩ := retrieve_front holds
  refine ⟨q', ?_, content⟩
  have counted : queueOps.readableBytes q = .ok ((front ++ rest).length, q) := by
    rw [← holds]
    rfl
  have asserted : queueOps.require (front.length ≤ (front ++ rest).length) q = .ok ((), q) := by
    simp only [queueOps, List.length_append]
    rw [if_pos (by rw [decide_eq_true_eq]; omega)]
  unfold Primitives.retrieveAsString
  rw [bind_ok counted, bind_ok asserted, bind_ok (copyOut_front holds), bind_ok retrieved]
  rfl

theorem readMessage_front (message : Message) (holds : q.content = message.wire ++ rest) :
    ∃ q', readMessage queueOps q = .ok (message.bytes, q') ∧ q'.content = rest := by
  rw [Message.wire, List.append_assoc] at holds
  obtain ⟨p, header, behind⟩ := readInt32_front message holds
  obtain ⟨q', body, content⟩ := retrieveAsString_front behind
  refine ⟨q', ?_, content⟩
  unfold readMessage
  rw [bind_ok header, toSizeT_natCast message.small]
  exact body

theorem readMessages_front (messages : List Message)
    (holds : q.content = messages.flatMap Message.wire ++ rest) :
    ∃ q', readMessages queueOps messages q = .ok (messages.map Message.bytes, q') ∧
      q'.content = rest := by
  induction messages generalizing q with
  | nil => exact ⟨q, rfl, holds⟩
  | cons message messages ih =>
    rw [List.flatMap_cons, List.append_assoc] at holds
    obtain ⟨q', first, behind⟩ := readMessage_front message holds
    obtain ⟨q'', later, content⟩ := ih behind
    refine ⟨q'', ?_, content⟩
    unfold readMessages at later ⊢
    rw [List.mapM_cons, bind_ok first, bind_ok later]
    rfl

theorem frame_queue (message : Message) (initialSize : ℕ) :
    ∃ q', frame queueOps message (Queue.new initialSize) = .ok ((), q') ∧
      q'.content = message.wire := by
  have small := message.small
  have header : hostImage 4 (hostToNetwork 4 (toInt32 message.bytes.length)) =
      message.header.wire := by
    rw [hostImage_hostToNetwork, toInt32_length]
    rfl
  have room : message.header.wire.length ≤ kCheapPrepend := by
    rw [wire_length]
    exact (show Width.int32.bytes ≤ kCheapPrepend by decide)
  have appended : queueOps.append message.bytes (Queue.new initialSize) =
      .ok ((), ⟨message.bytes, kCheapPrepend, initialSize - message.bytes.length⟩) :=
    if_pos (by unfold maxSize; omega)
  unfold frame
  rw [bind_ok appended, header]
  simp only [queueOps]
  rw [if_pos room]
  exact ⟨_, rfl, rfl⟩

theorem framed_queue (message : Message) (initialSize : ℕ) :
    ∃ q', framed queueOps message (Queue.new initialSize) = .ok (message.wire, q') := by
  obtain ⟨p, put, content⟩ := frame_queue message initialSize
  obtain ⟨q', taken, -⟩ := retrieveAsString_front (content.trans (List.append_nil _).symm)
  have counted : queueOps.readableBytes p = .ok (message.wire.length, p) := by
    rw [← content]
    rfl
  refine ⟨q', ?_⟩
  unfold framed Primitives.retrieveAllAsString
  rw [bind_ok put, bind_ok counted]
  exact taken

end Queues

theorem framed_refines (message : Message) :
    Refines HoldsQueue faults (framed bufferOps message) (framed queueOps message) :=
  ((bufferOps_simulates.append _).bind fun _ => bufferOps_simulates.prepend _).bind fun _ =>
    bufferOps_simulates.readableBytes.bind fun n => bufferOps_simulates.retrieveAsString n

theorem framed_within (message : Message) :
    Within 4294968336 (framed bufferOps message Buffer.fresh) := by
  have small := message.small
  have empty : Buffer.fresh.readableBytes = 0 := rfl
  have size : Buffer.fresh.buffer.length ≤ 4294968336 := by
    rw [Buffer.fresh_size]
    decide
  have appended : Within 4294968336 (bufferOps.append message.bytes Buffer.fresh) :=
    within_append (by decide) size (by rw [empty]; unfold kCheapPrepend; omega)
  exact (appended.bind fun _ => keeps_prepend _).bind fun _ =>
    keeps_readableBytes.bind fun n => keeps_retrieveAsString n

theorem send_wire (message : Message) : send message = .ok message.wire := by
  obtain ⟨q, spec⟩ := framed_queue message 0
  have holds : HoldsQueue Buffer.fresh (Queue.new 0) :=
    ⟨Buffer.readable_fresh, le_rfl, le_rfl, Nat.zero_le _⟩
  unfold send
  obtain ⟨b, made, -⟩ | ⟨e, failed, full⟩ := (framed_refines message).result holds spec
  · rw [made]
    rfl
  · exact absurd (failed.trans (congrArg _ full)) (framed_within message).2

theorem readMessage_refines :
    Refines HoldsQueue faults (readMessage bufferOps) (readMessage queueOps) :=
  (bufferOps_simulates.readInt .int32).bind fun _ => bufferOps_simulates.retrieveAsString _

theorem readMessages_refines (messages : List Message) :
    Refines HoldsQueue faults (readMessages bufferOps messages) (readMessages queueOps messages) :=
  Refines.mapM (c := fun _ : Message => readMessage bufferOps)
    (a := fun _ => readMessage queueOps) (fun _ => readMessage_refines) messages

theorem keeps_readMessages (N : ℕ) (messages : List Message) :
    KeepsWithin N (readMessages bufferOps messages) := by
  have one : KeepsWithin N (readMessage bufferOps) :=
    ((keeps_peekInt .int32).bind fun _ => (keeps_retrieveInt .int32).bind fun _ =>
      .pure _).bind fun _ => keeps_retrieveAsString _
  unfold readMessages
  induction messages with
  | nil => exact .pure []
  | cons message messages ih =>
    rw [List.mapM_cons]
    exact one.bind fun first => ih.bind fun later => .pure (first :: later)

/-- Any messages can be sent, and whoever holds what was sent, with anything behind
it, reads exactly these messages off its buffer and leaves the rest. -/
theorem sent_messages_read_back (messages : List Message) :
    ∃ sent, messages.mapM send = .ok sent ∧
      ∀ (b : Buffer) (rest : List Byte), b.readable = sent.flatten ++ rest →
        ∃ b', readMessages bufferOps messages b = .ok (messages.map Message.bytes, b') ∧
          b'.readable = rest := by
  have sent : messages.mapM send = .ok (messages.map Message.wire) := by
    induction messages with
    | nil => rfl
    | cons message messages ih =>
      rw [List.mapM_cons, send_wire, ih]
      rfl
  refine ⟨_, sent, fun b rest holds => ?_⟩
  rw [← List.flatMap_def] at holds
  obtain ⟨q', spec, content⟩ :=
    readMessages_front (q := ⟨messages.flatMap Message.wire ++ rest, 0, 0⟩) messages rfl
  obtain ⟨b', read, holds'⟩ | ⟨e, failed, full⟩ :=
    (readMessages_refines messages).result (holds_readable holds) spec
  · exact ⟨b', read, holds'.content.trans content⟩
  · have within := keeps_readMessages b.buffer.length messages b le_rfl
    exact absurd (failed.trans (congrArg _ full)) within.2

end ARCServer.CodecSend
