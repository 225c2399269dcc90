import ARCServer.BufferRefinement
import ARCServer.CodecDelivery

/-! The codecs on the buffer of `Buffer.h`. On the vector with its indices they do
what they do on the byte queue, up to which check stops a faulty call. -/

namespace ARCServer.CodecOnBuffer

open MachineIntegers NetworkWords DataRefinement CodecSafety
open FrameCodec (queueOperations)

/-- The operations of `Buffer.h`. A load and a copy read the vector at `peek()`,
also past the readable bytes. -/
def bufferOperations : FrameCodec.Operations BufferOperations.Buffered where
  readableBytes := fun b => .ok (b.readableBytes, b)
  loadInt32 := fun b => (b.copyOut 4).map fun image => (ofHostImage image, b)
  retrieve len := BufferOperations.command (MuduoBuffer.Buffer.retrieve · len)
  copyOut imglen := fun b => (b.copyOut (toSizeT imglen)).map fun data => (data, b)

def Reads (b : MuduoBuffer.Buffer) (buf : FrameCodec.Buffer) : Prop := b.readable = buf

/-- Every fault of the queue stops the call on the vector: by an assertion, or by
an access outside the vector. -/
def faults : Faults MuduoBuffer.Fault FrameCodec.Fault where
  same e _ := e = .assertion ∨ e = .outside
  exhausted _ := False
  undefined _ := False

theorem ofHostImage_word (b0 b1 b2 b3 : Byte) :
    ofHostImage [b0, b1, b2, b3] = hostWord b0 b1 b2 b3 := by
  have h0 := b0.toNat_lt
  have h1 := b1.toNat_lt
  have h2 := b2.toNat_lt
  have h3 := b3.toNat_lt
  have digits : Nat.ofDigits 256 ([b0, b1, b2, b3].map UInt8.toNat) =
      b0.toNat + 256 * b1.toNat + 65536 * b2.toNat + 16777216 * b3.toNat := by
    simp only [List.map_cons, List.map_nil, Nat.ofDigits_cons, Nat.ofDigits_nil]
    omega
  unfold ofHostImage toSigned
  rw [digits, show [b0, b1, b2, b3].length = 4 from rfl]
  unfold hostWord toInt32
  norm_num
  split <;> omega

theorem ofHostImage_take {buf : FrameCodec.Buffer} (long : 4 ≤ buf.length) :
    ofHostImage (buf.take 4) = FrameCodec.declaredLength buf := by
  match buf, long with
  | b0 :: b1 :: b2 :: b3 :: rest, _ => exact ofHostImage_word b0 b1 b2 b3

section Refinement

variable {κ : Type}

theorem load_ok {b : MuduoBuffer.Buffer} (long : 4 ≤ b.readableBytes) :
    bufferOperations.loadInt32 b = .ok (FrameCodec.declaredLength b.readable, b) := by
  simp only [bufferOperations, MuduoBuffer.Buffer.copyOut_spec long, Except.map]
  rw [ofHostImage_take (by rwa [MuduoBuffer.Buffer.readable_length])]

theorem retrieve_refines (len : ℕ) :
    Refines Reads faults (bufferOperations.retrieve len) (queueOperations.retrieve len) := by
  rintro b buf rfl
  have length := b.readable_length
  simp only [bufferOperations, queueOperations, BufferOperations.command, FrameCodec.retrieve]
  by_cases few : len ≤ b.readableBytes
  · obtain ⟨b', made, readable, -, -⟩ := MuduoBuffer.Buffer.retrieve_spec few
    rw [made, if_pos (by omega)]
    exact .done readable
  · rw [MuduoBuffer.Buffer.retrieve, if_neg few, if_neg (by omega)]
    exact .fault (Or.inl rfl)

/-- A header word. When it is not readable the vector may still hold four stale
bytes; the assertion of the `retrieve` behind the load then stops the call. -/
theorem header_refines {c : Int → BufferOperations.Buffered κ} {a : Int → FrameCodec.Buffered κ}
    (later : ∀ x, Refines Reads faults (c x) (a x)) :
    Refines Reads faults
      (do
        let x ← bufferOperations.loadInt32
        bufferOperations.retrieve FrameCodec.kHeaderLen
        c x)
      (do
        let x ← queueOperations.loadInt32
        queueOperations.retrieve FrameCodec.kHeaderLen
        a x) := by
  rintro b buf rfl
  have length := b.readable_length
  by_cases long : 4 ≤ b.readableBytes
  · have loaded : queueOperations.loadInt32 b.readable =
        .ok (FrameCodec.declaredLength b.readable, b.readable) :=
      FrameCodec.loadInt32_ok (by omega)
    rw [bind_ok (load_ok long), bind_ok loaded]
    exact ((retrieve_refines FrameCodec.kHeaderLen).bind fun _ => later _) b b.readable rfl
  · have short : queueOperations.loadInt32 b.readable = .error .overread := by
      simp only [queueOperations]
      rw [FrameCodec.loadInt32_eq, if_neg (by omega)]
    rw [bind_error short]
    cases stale : b.copyOut 4 with
    | error e =>
      have failed : bufferOperations.loadInt32 b = .error e := by
        simp only [bufferOperations, stale, Except.map]
      rw [bind_error failed]
      exact .fault (Or.inr (MuduoBuffer.Buffer.copyOut_error stale))
    | ok image =>
      have loaded : bufferOperations.loadInt32 b = .ok (ofHostImage image, b) := by
        simp only [bufferOperations, stale, Except.map]
      have stopped : bufferOperations.retrieve FrameCodec.kHeaderLen b = .error .assertion := by
        simp only [bufferOperations, BufferOperations.command, MuduoBuffer.Buffer.retrieve]
        rw [if_neg (show ¬ FrameCodec.kHeaderLen ≤ b.readableBytes from long)]
        rfl
      rw [bind_ok loaded, bind_error stopped]
      exact .fault (Or.inl rfl)

theorem readId_refines :
    Refines Reads faults bufferOperations.readId queueOperations.readId :=
  header_refines fun x => .pure x

/-- A payload. A negative length asks for more bytes than any vector has; one past
the readable bytes is stopped by the `retrieve` behind the copy. -/
theorem takeImage_refines (len : Int) (headers : ℕ) :
    Refines Reads faults (bufferOperations.takeImage len headers)
      (queueOperations.takeImage len headers) := by
  rintro b buf rfl
  have length := b.readable_length
  have most := MuduoBuffer.Buffer.readableBytes_le_max (b := b)
  unfold FrameCodec.Operations.takeImage
  generalize image : toInt32 (toSizeT len - headers * FrameCodec.kHeaderLen) = imglen
  have range : IsInt32 imglen := image ▸ toInt32_isInt32 _
  by_cases fits : 0 ≤ imglen ∧ imglen ≤ b.readable.length
  · have size : toSizeT imglen = imglen.toNat := toSizeT_of_nonneg range fits.1
    have copied : queueOperations.copyOut imglen b.readable =
        .ok (b.readable.take imglen.toNat, b.readable) := if_pos fits
    have taken : bufferOperations.copyOut imglen b =
        .ok (b.readable.take imglen.toNat, b) := by
      simp only [bufferOperations, size]
      rw [MuduoBuffer.Buffer.copyOut_spec (by omega)]
      rfl
    rw [bind_ok copied, bind_ok taken]
    exact ((retrieve_refines (toSizeT imglen)).bind fun _ => .pure _) b b.readable rfl
  · have failed : queueOperations.copyOut imglen b.readable = .error .copy := if_neg fits
    rw [bind_error failed]
    cases stale : b.copyOut (toSizeT imglen) with
    | error e =>
      have stopped : bufferOperations.copyOut imglen b = .error e := by
        simp only [bufferOperations, stale, Except.map]
      rw [bind_error stopped]
      exact .fault (Or.inr (MuduoBuffer.Buffer.copyOut_error stale))
    | ok data =>
      have taken : bufferOperations.copyOut imglen b = .ok (data, b) := by
        simp only [bufferOperations, stale, Except.map]
      have beyond : ¬ toSizeT imglen ≤ b.readableBytes := by
        unfold IsInt32 at range
        unfold MuduoBuffer.maxSize at most
        unfold toSizeT
        omega
      have stopped : bufferOperations.retrieve (toSizeT imglen) b = .error .assertion := by
        simp only [bufferOperations, BufferOperations.command, MuduoBuffer.Buffer.retrieve]
        rw [if_neg beyond]
        rfl
      rw [bind_ok taken, bind_error stopped]
      exact .fault (Or.inl rfl)

theorem onFrame_refines {c : Int → Int → BufferOperations.Buffered (Option κ)}
    {a : Int → Int → FrameCodec.Buffered (Option κ)}
    (dispatch : ∀ len flag, Refines Reads faults (c len flag) (a len flag)) :
    Refines Reads faults (bufferOperations.onFrame c) (queueOperations.onFrame a) := by
  rintro b buf rfl
  have length := b.readable_length
  have counted : queueOperations.readableBytes b.readable =
      .ok (b.readableBytes, b.readable) := by
    rw [← length]
    rfl
  have counted' : bufferOperations.readableBytes b = .ok (b.readableBytes, b) := rfl
  unfold FrameCodec.Operations.onFrame
  rw [bind_ok counted, bind_ok counted']
  by_cases some : b.readableBytes > FrameCodec.kHeaderLen
  · have long : 4 ≤ b.readableBytes := le_of_lt some
    have loaded : queueOperations.loadInt32 b.readable =
        .ok (FrameCodec.declaredLength b.readable, b.readable) :=
      FrameCodec.loadInt32_ok (by omega)
    rw [if_pos some, if_pos some, bind_ok (load_ok long), bind_ok loaded, bind_ok counted,
      bind_ok counted']
    by_cases received : toSizeT (FrameCodec.declaredLength b.readable) ≤ b.readableBytes
    · rw [if_pos received, if_pos received]
      exact ((retrieve_refines FrameCodec.kHeaderLen).bind fun _ =>
        header_refines fun _ => dispatch _ _) b b.readable rfl
    · rw [if_neg received, if_neg received]
      exact .done rfl
  · rw [if_neg some, if_neg some]
    exact .done rfl

theorem compareDispatch_refines (codec : FrameCodec.CompareCodec κ) (len flag : Int) :
    Refines Reads faults (bufferOperations.compareDispatch codec len flag)
      (queueOperations.compareDispatch codec len flag) :=
  .ite ((takeImage_refines len 2).bind fun _ => .pure _) <|
    .ite (readId_refines.bind fun _ => (takeImage_refines len 3).bind fun _ => .pure _) <|
      .ite (readId_refines.bind fun _ => (takeImage_refines len 3).bind fun _ => .pure _)
        (.pure none)

theorem guestDispatch_refines (codec : FrameCodec.GuestCodec κ) (len flag : Int) :
    Refines Reads faults (bufferOperations.guestDispatch codec len flag)
      (queueOperations.guestDispatch codec len flag) :=
  .ite (readId_refines.bind fun _ => (takeImage_refines len 3).bind fun _ => .pure _) <|
    .ite (readId_refines.bind fun _ => .pure _) (.pure none)

theorem onMessage_refines (service : FrameCodec.Service) :
    Refines Reads faults (bufferOperations.onMessage service) service.onMessage := by
  cases service with
  | compare => exact onFrame_refines fun len flag => compareDispatch_refines _ len flag
  | guest => exact onFrame_refines fun len flag => guestDispatch_refines _ len flag

end Refinement

def receive (service : FrameCodec.Service) (read : List Byte) :
    BufferOperations.Buffered (Option FrameCodec.Request) := do
  BufferOperations.bufferOps.append read
  bufferOperations.onMessage service

def connection (service : FrameCodec.Service) (reads : List (List Byte)) :
    Except MuduoBuffer.Fault (List (Option FrameCodec.Request) × MuduoBuffer.Buffer) :=
  reads.mapM (receive service) MuduoBuffer.Buffer.fresh

section Connections

open FrameStream

theorem receive_outcome (service : FrameCodec.Service) {b : MuduoBuffer.Buffer} {read : List Byte}
    (room : b.readableBytes + 2 * read.length + MuduoBuffer.kCheapPrepend ≤ MuduoBuffer.maxSize) :
    Outcome Reads faults (receive service read b) (service.onMessage (b.readable ++ read)) := by
  obtain ⟨b', made, readable, -, -⟩ | ⟨-, full⟩ := MuduoBuffer.Buffer.append_spec (b := b)
    (show read.length ≤ MuduoBuffer.maxSize by omega)
  · have appended : BufferOperations.bufferOps.append read b = .ok ((), b') := by
      simp only [BufferOperations.bufferOps, BufferOperations.command, made, Except.map]
    unfold receive
    rw [bind_ok appended]
    exact onMessage_refines service b' _ readable
  · omega

theorem reads_agree (service : FrameCodec.Service) (reads : List (List Byte))
    {b : MuduoBuffer.Buffer} {s : Connection Byte FrameCodec.Request}
    (holds : b.readable = s.unread)
    (room : 2 * (s.unread.length + reads.flatten.length) + MuduoBuffer.kCheapPrepend ≤
      MuduoBuffer.maxSize) :
    (∀ t, reads.foldlM (FrameStream.receive service.onMessage) s = .ok t →
      ∃ outs b', reads.mapM (receive service) b = .ok (outs, b') ∧
        t.delivered = s.delivered ++ outs.reduceOption ∧ b'.readable = t.unread) ∧
    ∀ e, reads.foldlM (FrameStream.receive service.onMessage) s = .error e →
      reads.mapM (receive service) b = .error .assertion ∨
        reads.mapM (receive service) b = .error .outside := by
  induction reads generalizing b s with
  | nil =>
    refine ⟨fun t h => ?_, fun e h => ?_⟩
    · cases h
      exact ⟨[], b, rfl, (List.append_nil _).symm, holds⟩
    · cases h
  | cons read reads ih =>
    have length := b.readable_length
    rw [List.flatten_cons, List.length_append] at room
    have outcome : Outcome Reads faults (receive service read b)
        (service.onMessage (b.readable ++ read)) :=
      receive_outcome service (by rw [← length, holds]; omega)
    rw [holds] at outcome
    rw [List.mapM_cons, List.foldlM_cons]
    cases spec : service.onMessage (s.unread ++ read) with
    | error e =>
      have failed : FrameStream.receive service.onMessage s read = .error e := by
        simp only [FrameStream.receive, spec]
      rw [failed]
      rw [spec] at outcome
      refine ⟨fun t h => ?_, fun _ _ => ?_⟩
      · cases h
      cases conc : receive service read b with
      | ok r =>
        rw [conc] at outcome
        cases outcome with
        | undefined outside => exact outside.elim
      | error fault =>
        rw [conc] at outcome
        rw [bind_error conc]
        cases outcome with
        | fault same => exact same.imp (congrArg _) (congrArg _)
        | exhausted full => exact full.elim
        | undefined outside => exact outside.elim
    | ok r =>
      obtain ⟨out, rest⟩ := r
      have passed : FrameStream.receive service.onMessage s read =
          .ok ⟨rest, s.delivered ++ out.toList⟩ := by
        simp only [FrameStream.receive, spec]
      rw [spec] at outcome
      obtain ⟨b', conc, holds'⟩ | ⟨-, -, ⟨⟩⟩ := outcome.of_ok
      have shorter := (consumes_onMessage service _ _ _ spec).length_le
      rw [List.length_append] at shorter
      have later := ih (s := ⟨rest, s.delivered ++ out.toList⟩) holds' (by dsimp only; omega)
      rw [passed, bind_ok conc]
      refine ⟨fun t h => ?_, fun e h => ?_⟩
      · obtain ⟨outs, b'', conc', delivered, unread⟩ := later.1 t h
        refine ⟨out :: outs, b'', by rw [bind_ok conc']; rfl, ?_, unread⟩
        rw [delivered, List.append_assoc]
        cases out <;> rfl
      · exact (later.2 e h).imp bind_error bind_error

/-- On the buffer of `Buffer.h` a connection hands over the requests, keeps the
bytes and fails where it does on the byte queue. -/
theorem connection_on_buffer (service : FrameCodec.Service) {reads : List (List Byte)}
    (room : 2 * reads.flatten.length + MuduoBuffer.kCheapPrepend ≤ MuduoBuffer.maxSize) :
    (∀ s, run service.onMessage reads = .ok s →
      ∃ outs b, connection service reads = .ok (outs, b) ∧ outs.reduceOption = s.delivered ∧
        b.readable = s.unread) ∧
    ∀ fault, run service.onMessage reads = .error fault →
      connection service reads = .error .assertion ∨
        connection service reads = .error .outside := by
  have agree := reads_agree service reads (s := ⟨[], []⟩) MuduoBuffer.Buffer.readable_fresh
    (by rw [List.length_nil]; omega)
  refine ⟨fun s h => ?_, agree.2⟩
  obtain ⟨outs, b, conc, delivered, unread⟩ := agree.1 s h
  exact ⟨outs, b, conc, delivered.symm, unread⟩

theorem enrolments_on_buffer :
    ∃ outs b, connection .compare CodecDelivery.enrolmentReads = .ok (outs, b) ∧
      outs.reduceOption = [.addu [1, 2] 2 7, .addg [5, 6, 7] 3 (-3)] ∧ b.readable = [] := by
  have ran : run FrameCodec.Service.compare.onMessage CodecDelivery.enrolmentReads =
      .ok ⟨[], [.addu [1, 2] 2 7, .addg [5, 6, 7] 3 (-3)]⟩ := by decide +kernel
  exact (connection_on_buffer .compare (by decide)).1 _ ran

end Connections

end ARCServer.CodecOnBuffer
