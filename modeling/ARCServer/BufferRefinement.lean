import ARCServer.BufferOperations
import ARCServer.DataRefinement

/-! Every program over the buffer does what it does on the byte queue, in a vector
that stays within twice the largest amount it was asked to hold. -/

namespace ARCServer.BufferRefinement

open MachineIntegers NetworkWords MuduoBuffer BufferOperations DataRefinement

structure HoldsQueue (b : Buffer) (q : Queue) : Prop where
  content : b.readable = q.content
  room : q.room ≤ b.readerIndex
  cheap : q.room ≤ kCheapPrepend
  space : q.space ≤ b.writableBytes

/-- The queue's assertions are the buffer's; only the vector may run out. -/
def faults : Faults Fault QueueFault where
  same e d := e = .assertion ∧ d = .assertion
  exhausted e := e = .lengthError
  undefined d := d = .undefined

structure Simulates {σ τ : Type} {ε δ : Type} (R : σ → τ → Prop) (F : Faults ε δ)
    (c : Primitives (StateT σ (Except ε))) (a : Primitives (StateT τ (Except δ))) : Prop where
  require ok : Refines R F (c.require ok) (a.require ok)
  readableBytes : Refines R F c.readableBytes a.readableBytes
  copyOut len : Refines R F (c.copyOut len) (a.copyOut len)
  retrieve len : Refines R F (c.retrieve len) (a.retrieve len)
  retrieveAll : Refines R F c.retrieveAll a.retrieveAll
  append data : Refines R F (c.append data) (a.append data)
  prepend data : Refines R F (c.prepend data) (a.prepend data)
  unwrite len : Refines R F (c.unwrite len) (a.unwrite len)
  hasWritten data : Refines R F (c.hasWritten data) (a.hasWritten data)
  ensureWritableBytes len : Refines R F (c.ensureWritableBytes len) (a.ensureWritableBytes len)
  shrink reserve : Refines R F (c.shrink reserve) (a.shrink reserve)

section Operations

variable {σ τ : Type} {ε δ : Type} {R : σ → τ → Prop} {F : Faults ε δ}
  {c : Primitives (StateT σ (Except ε))} {a : Primitives (StateT τ (Except δ))}

theorem Simulates.retrieveUntil (h : Simulates R F c a) (offset : Int) :
    Refines R F (c.retrieveUntil offset) (a.retrieveUntil offset) :=
  (h.require _).bind fun _ => h.readableBytes.bind fun _ => (h.require _).bind fun _ =>
    h.retrieve _

theorem Simulates.retrieveAsString (h : Simulates R F c a) (len : ℕ) :
    Refines R F (c.retrieveAsString len) (a.retrieveAsString len) :=
  h.readableBytes.bind fun _ => (h.require _).bind fun _ => (h.copyOut len).bind fun result =>
    (h.retrieve len).bind fun _ => .pure result

theorem Simulates.peekWord (h : Simulates R F c a) (n : ℕ) :
    Refines R F (c.peekWord n) (a.peekWord n) :=
  h.readableBytes.bind fun _ => (h.require _).bind fun _ => (h.copyOut n).bind fun _ => .pure _

theorem Simulates.peekInt (h : Simulates R F c a) (width : Width) :
    Refines R F (c.peekInt width) (a.peekInt width) := by
  cases width with
  | int8 =>
    exact h.readableBytes.bind fun _ => (h.require _).bind fun _ => (h.copyOut 1).bind fun _ =>
      .pure _
  | int16 => exact h.peekWord 2
  | int32 => exact h.peekWord 4
  | int64 => exact h.peekWord 8

theorem Simulates.retrieveInt (h : Simulates R F c a) (width : Width) :
    Refines R F (c.retrieveInt width) (a.retrieveInt width) := by
  cases width <;> exact h.retrieve _

theorem Simulates.appendInt (h : Simulates R F c a) (width : Width) (x : Int) :
    Refines R F (c.appendInt width x) (a.appendInt width x) := by
  cases width <;> exact h.append _

theorem Simulates.prependInt (h : Simulates R F c a) (width : Width) (x : Int) :
    Refines R F (c.prependInt width x) (a.prependInt width x) := by
  cases width <;> exact h.prepend _

theorem readInt_eq {m : Type → Type} [Monad m] (o : Primitives m) (width : Width) :
    o.readInt width = do
      let result ← o.peekInt width
      o.retrieveInt width
      return result := by
  cases width <;> rfl

theorem Simulates.readInt (h : Simulates R F c a) (width : Width) :
    Refines R F (c.readInt width) (a.readInt width) := by
  rw [readInt_eq, readInt_eq]
  exact (h.peekInt width).bind fun result => (h.retrieveInt width).bind fun _ => .pure result

theorem Simulates.run (h : Simulates R F c a) (op : Op) : Refines R F (op.run c) (op.run a) := by
  cases op with
  | readableBytes => exact h.readableBytes.bind fun _ => .pure _
  | retrieve len => exact (h.retrieve len).bind fun _ => .pure _
  | retrieveUntil offset => exact (h.retrieveUntil offset).bind fun _ => .pure _
  | retrieveInt width => exact (h.retrieveInt width).bind fun _ => .pure _
  | retrieveAll => exact h.retrieveAll.bind fun _ => .pure _
  | retrieveAsString len => exact (h.retrieveAsString len).bind fun _ => .pure _
  | retrieveAllAsString =>
    exact (h.readableBytes.bind fun n => h.retrieveAsString n).bind fun _ => .pure _
  | append data => exact (h.append data).bind fun _ => .pure _
  | ensureWritableBytes len => exact (h.ensureWritableBytes len).bind fun _ => .pure _
  | hasWritten data => exact (h.hasWritten data).bind fun _ => .pure _
  | unwrite len => exact (h.unwrite len).bind fun _ => .pure _
  | appendInt width x => exact (h.appendInt width x).bind fun _ => .pure _
  | readInt width => exact (h.readInt width).bind fun _ => .pure _
  | peekInt width => exact (h.peekInt width).bind fun _ => .pure _
  | prependInt width x => exact (h.prependInt width x).bind fun _ => .pure _
  | prepend data => exact (h.prepend data).bind fun _ => .pure _
  | shrink reserve => exact (h.shrink reserve).bind fun _ => .pure _

end Operations

theorem holds_readable {b : Buffer} {content : List Byte} (same : b.readable = content) :
    HoldsQueue b ⟨content, 0, 0⟩ :=
  ⟨same, Nat.zero_le _, Nat.zero_le _, Nat.zero_le _⟩

theorem HoldsQueue.length {b : Buffer} {q : Queue} (h : HoldsQueue b q) :
    b.readableBytes = q.content.length := by
  rw [← Buffer.readable_length, h.content]

theorem HoldsQueue.parts {b : Buffer} {q : Queue} (h : HoldsQueue b q) :
    b.readerIndex + q.content.length + b.writableBytes = b.buffer.length := by
  rw [← h.content, b.parts_readable]

theorem command_outcome {f : Buffer → Except Fault Buffer} {b : Buffer} {q' : Queue}
    (h : (∃ b', f b = .ok b' ∧ HoldsQueue b' q') ∨ f b = .error .lengthError) :
    Outcome HoldsQueue faults (command f b) (.ok ((), q')) := by
  rw [command]
  obtain ⟨b', made, holds⟩ | full := h
  · rw [made]
    exact .done holds
  · rw [full]
    exact .exhausted rfl

theorem HoldsQueue.emptied {b b' : Buffer} {q : Queue} (h : HoldsQueue b q)
    (empty : b'.readable = []) (reader : b'.readerIndex = kCheapPrepend)
    (size : b'.buffer.length = b.buffer.length) :
    HoldsQueue b' q.emptied := by
  have parts := h.parts
  have parts' := b'.parts_readable
  have room := h.room
  have space := h.space
  rw [empty, List.length_nil] at parts'
  refine ⟨empty, reader.ge, le_rfl, ?_⟩
  simp only [Queue.emptied]
  omega

/-- Each operation on the vector and its indices is the queue's operation. -/
theorem bufferOps_simulates : Simulates HoldsQueue faults bufferOps queueOps where
  require ok := by
    intro b q h
    cases ok with
    | false => exact .fault ⟨rfl, rfl⟩
    | true => exact .done h
  readableBytes := by
    intro b q h
    simp only [bufferOps, queueOps, h.length]
    exact .done h
  copyOut len := by
    intro b q h
    simp only [bufferOps, queueOps]
    by_cases few : len ≤ q.content.length
    · rw [if_pos few, Buffer.copyOut_spec (by rw [h.length]; exact few), h.content]
      exact .done h
    · rw [if_neg few]
      exact .undefined rfl
  retrieve len := by
    intro b q h
    have length := h.length
    simp only [bufferOps, queueOps]
    by_cases few : len ≤ q.content.length
    · obtain ⟨b', made, readable, reader, size⟩ := Buffer.retrieve_spec
        (show len ≤ b.readableBytes by omega)
      have content : b'.readable = q.content.drop len := by rw [readable, h.content]
      by_cases less : len < q.content.length
      · rw [if_pos less]
        rw [if_pos (by omega)] at reader
        have room := h.room
        have space := h.space
        have parts := h.parts
        have parts' := b'.parts_readable
        rw [content, List.length_drop] at parts'
        exact command_outcome (Or.inl ⟨b', made, content, le_trans (min_le_right _ _) (by omega),
          min_le_left _ _, by dsimp only; omega⟩)
      · rw [if_neg less, if_pos (by omega)]
        rw [if_neg (by omega)] at reader
        rw [List.drop_of_length_le (by omega)] at content
        exact command_outcome (Or.inl ⟨b', made, h.emptied content reader size⟩)
    · rw [if_neg (by omega), if_neg (by omega)]
      have failed : b.retrieve len = .error .assertion := if_neg (by omega)
      rw [command, failed]
      exact .fault ⟨rfl, rfl⟩
  retrieveAll := fun _ _ h => .done (h.emptied Buffer.readable_retrieveAll rfl rfl)
  append data := by
    intro b q h
    have room := h.room
    have cheap := h.cheap
    have space := h.space
    simp only [bufferOps, queueOps]
    by_cases small : data.length ≤ maxSize
    · rw [if_pos small]
      refine command_outcome ?_
      obtain ⟨b', made, readable, reader, writable, -⟩ | ⟨failed, -⟩ :=
        Buffer.append_spec (b := b) small
      · have kept : q.room ≤ b'.readerIndex := by omega
        have left : q.space - data.length ≤ b'.writableBytes := by omega
        exact Or.inl ⟨b', made, by rw [readable, h.content], kept, cheap, left⟩
      · exact Or.inr failed
    · rw [if_neg small]
      exact .undefined rfl
  prepend data := by
    intro b q h
    have room := h.room
    have cheap := h.cheap
    have space := h.space
    simp only [bufferOps, queueOps]
    by_cases fits : data.length ≤ q.room
    · rw [if_pos fits]
      obtain ⟨b', made, readable, reader, size⟩ := Buffer.prepend_spec
        (show data.length ≤ b.readerIndex by omega)
      have kept : q.room - data.length ≤ b'.readerIndex := by omega
      have parts := b.parts_readable
      have parts' := b'.parts_readable
      rw [readable, List.length_append] at parts'
      exact command_outcome (Or.inl ⟨b', made, by rw [readable, h.content], kept,
        le_trans (Nat.sub_le _ _) cheap, by dsimp only; omega⟩)
    · rw [if_neg fits]
      exact .undefined rfl
  unwrite len := by
    intro b q h
    have length := h.length
    have space := h.space
    simp only [bufferOps, queueOps]
    by_cases few : len ≤ q.content.length
    · rw [if_pos few]
      obtain ⟨b', made, readable, reader, size⟩ := Buffer.unwrite_spec
        (show len ≤ b.readableBytes by omega)
      have parts := h.parts
      have parts' := b'.parts_readable
      rw [readable, List.length_take, h.content] at parts'
      exact command_outcome (Or.inl ⟨b', made, by rw [readable, h.content], reader ▸ h.room,
        h.cheap, by dsimp only; omega⟩)
    · rw [if_neg few]
      have failed : b.unwrite len = .error .assertion := dif_neg (by omega)
      rw [command, failed]
      exact .fault ⟨rfl, rfl⟩
  hasWritten data := by
    intro b q h
    have space := h.space
    simp only [bufferOps, queueOps]
    by_cases fits : data.length ≤ q.space
    · rw [if_pos fits]
      obtain ⟨b', made, readable, reader, size⟩ := Buffer.write_spec
        (show data.length ≤ b.writableBytes by omega)
      have writable := Buffer.writable_of_written readable reader size
      exact command_outcome (Or.inl ⟨b', made, by rw [readable, h.content], reader ▸ h.room,
        h.cheap, by dsimp only; omega⟩)
    · rw [if_neg fits]
      exact .undefined rfl
  ensureWritableBytes len := by
    intro b q h
    have room := h.room
    have cheap := h.cheap
    have space := h.space
    simp only [bufferOps, queueOps]
    by_cases small : len ≤ maxSize
    · rw [if_pos small]
      refine command_outcome ?_
      obtain ⟨b', made, readable, reader, writable, -⟩ | ⟨failed, -⟩ :=
        Buffer.ensureWritableBytes_spec (b := b) small
      · exact Or.inl ⟨b', made, readable.trans h.content, by dsimp only; omega, cheap,
          by dsimp only; omega⟩
      · exact Or.inr failed
    · rw [if_neg small]
      exact .undefined rfl
  shrink reserve := by
    intro b q h
    have length := h.length
    simp only [bufferOps, queueOps]
    by_cases small : q.content.length < 2147483648 ∧ q.content.length + reserve ≤ maxSize
    · rw [if_pos small]
      refine command_outcome ?_
      obtain ⟨b', made, readable, reader, size⟩ | ⟨failed, -⟩ :=
        Buffer.shrink_spec (b := b) (by omega)
          (show b.readableBytes + reserve ≤ maxSize by omega)
      · have parts := b'.parts_readable
        rw [readable, h.content] at parts
        exact Or.inl ⟨b', made, readable.trans h.content, reader.ge, le_rfl,
          by dsimp only; omega⟩
      · exact Or.inr failed
    · rw [if_neg small]
      exact .undefined rfl

theorem new_holds {initialSize : ℕ} (fits : kCheapPrepend + initialSize ≤ maxSize) :
    ∃ b, Buffer.new initialSize = .ok b ∧ HoldsQueue b (Queue.new initialSize) ∧
      b.buffer.length = kCheapPrepend + initialSize := by
  unfold Buffer.new
  rw [dif_pos fits]
  refine ⟨_, rfl, ⟨List.drop_of_length_le (by simp), le_rfl, le_rfl, ?_⟩, List.length_replicate⟩
  rw [Buffer.writableBytes, List.length_replicate]
  exact (Nat.add_sub_cancel_left _ _).ge

/-! What the queue leaves open. -/

section Promises

variable {α κ : Type}

def Promised (x : Queued α) : Prop := ∀ q, x q ≠ .error .undefined

theorem Promised.pure (a : α) : Promised (pure a) := fun _ => nofun

theorem Promised.bind {x : Queued α} {f : α → Queued κ} (first : Promised x)
    (second : ∀ a, Promised (f a)) : Promised (x >>= f) := by
  intro q undefined
  obtain failed | ⟨a, q', -, failed⟩ := bind_error_iff.mp undefined
  · exact first q failed
  · exact second a q' failed

theorem promised_require (ok : Bool) : Promised (queueOps.require ok) := by
  intro q
  cases ok <;> exact nofun

theorem promised_readableBytes : Promised queueOps.readableBytes := fun _ => nofun

theorem promised_retrieve (len : ℕ) : Promised (queueOps.retrieve len) := by
  intro q
  simp only [queueOps]
  split_ifs <;> exact nofun

theorem promised_unwrite (len : ℕ) : Promised (queueOps.unwrite len) := by
  intro q
  simp only [queueOps]
  split_ifs <;> exact nofun

theorem promised_load (n : ℕ) {f : List Byte → Queued α} (later : ∀ image, Promised (f image)) :
    Promised (do
      queueOps.require (n ≤ (← queueOps.readableBytes))
      let image ← queueOps.copyOut n
      f image) := by
  intro q
  have counted : queueOps.readableBytes q = .ok (q.content.length, q) := rfl
  rw [bind_ok counted]
  by_cases few : n ≤ q.content.length
  · have asserted : queueOps.require (n ≤ q.content.length) q = .ok ((), q) :=
      if_pos (decide_eq_true few)
    have copied : queueOps.copyOut n q = .ok (q.content.take n, q) := if_pos few
    rw [bind_ok asserted, bind_ok copied]
    exact later _ q
  · have failed : queueOps.require (n ≤ q.content.length) q = .error .assertion :=
      if_neg (by rwa [decide_eq_true_eq])
    rw [bind_error failed]
    exact nofun

theorem promised_retrieveAsString (len : ℕ) : Promised (queueOps.retrieveAsString len) :=
  promised_load len fun _ => (promised_retrieve len).bind fun _ => .pure _

theorem promised_peekInt (width : Width) : Promised (queueOps.peekInt width) := by
  cases width <;> exact promised_load _ fun _ => .pure _

theorem promised_retrieveInt (width : Width) : Promised (queueOps.retrieveInt width) := by
  cases width <;> exact promised_retrieve _

theorem promised_readInt (width : Width) : Promised (queueOps.readInt width) := by
  rw [readInt_eq]
  exact (promised_peekInt width).bind fun _ => (promised_retrieveInt width).bind fun _ => .pure _

theorem promised_append {data : List Byte} (small : data.length ≤ maxSize) :
    Promised (queueOps.append data) := by
  intro q
  simp only [queueOps, if_pos small]
  exact nofun

theorem promised_appendInt (width : Width) (x : Int) : Promised (queueOps.appendInt width x) := by
  have small : ∀ y, (hostImage width.bytes y).length ≤ maxSize := fun y =>
    (hostImage_length _ y).trans_le (bytes_le_max width)
  cases width <;> exact promised_append (small _)

theorem undefined_ite {p : Prop} [Decidable p] {q' q : Queue} {x : Queued Unit} {v : Value}
    (h : x q = if p then .ok ((), q') else .error .undefined) :
    (do x; return v : Queued Value) q = .error .undefined ↔ ¬ p := by
  refine bind_pure_error_iff.trans ?_
  rw [h]
  split_ifs with inside
  · exact iff_of_false nofun (not_not.mpr inside)
  · exact iff_of_true rfl inside

theorem prependInt_eq (width : Width) (x : Int) (q : Queue) :
    ∃ q', queueOps.prependInt width x q =
      if width.bytes ≤ q.room then .ok ((), q') else .error .undefined := by
  have prepended : ∀ y, queueOps.prepend (hostImage width.bytes y) q =
      if width.bytes ≤ q.room then
        .ok ((), ⟨hostImage width.bytes y ++ q.content, q.room - width.bytes, q.space⟩)
      else .error .undefined := by
    intro y
    simp only [queueOps, hostImage_length]
  cases width <;> exact ⟨_, prepended _⟩

theorem run_undefined_iff (op : Op) (q : Queue) :
    op.run queueOps q = .error .undefined ↔ op.Outside q := by
  cases op with
  | readableBytes => exact iff_of_false (promised_readableBytes.bind (fun _ => .pure _) q) id
  | retrieve len => exact iff_of_false ((promised_retrieve len).bind (fun _ => .pure _) q) id
  | retrieveUntil offset =>
    exact iff_of_false (((promised_require _).bind fun _ => promised_readableBytes.bind fun _ =>
      (promised_require _).bind fun _ => promised_retrieve _).bind (fun _ => .pure _) q) id
  | retrieveInt width =>
    exact iff_of_false ((promised_retrieveInt width).bind (fun _ => .pure _) q) id
  | retrieveAll => exact iff_of_false nofun id
  | retrieveAsString len =>
    exact iff_of_false ((promised_retrieveAsString len).bind (fun _ => .pure _) q) id
  | retrieveAllAsString =>
    exact iff_of_false ((promised_readableBytes.bind fun n => promised_retrieveAsString n).bind
      (fun _ => .pure _) q) id
  | append data => exact (undefined_ite rfl).trans not_le
  | ensureWritableBytes len => exact (undefined_ite rfl).trans not_le
  | hasWritten data => exact (undefined_ite rfl).trans not_le
  | unwrite len => exact iff_of_false ((promised_unwrite len).bind (fun _ => .pure _) q) id
  | appendInt width x =>
    exact iff_of_false ((promised_appendInt width x).bind (fun _ => .pure _) q) id
  | readInt width => exact iff_of_false ((promised_readInt width).bind (fun _ => .pure _) q) id
  | peekInt width => exact iff_of_false ((promised_peekInt width).bind (fun _ => .pure _) q) id
  | prependInt width x =>
    obtain ⟨q', prepended⟩ := prependInt_eq width x q
    exact (undefined_ite prepended).trans not_le
  | prepend data => exact (undefined_ite rfl).trans not_le
  | shrink reserve =>
    refine (undefined_ite rfl).trans ?_
    rw [not_and_or, not_lt, not_le]
    rfl

def Inside : List Op → Queue → Prop
  | [], _ => True
  | op :: ops, q => ¬ op.Outside q ∧ ∀ v q', op.run queueOps q = .ok (v, q') → Inside ops q'

theorem inside_iff (ops : List Op) (q : Queue) :
    Inside ops q ↔ ops.mapM (Op.run queueOps) q ≠ .error .undefined := by
  induction ops generalizing q with
  | nil => exact iff_of_true trivial nofun
  | cons op ops ih =>
    rw [List.mapM_cons, Inside, ← run_undefined_iff, Ne, bind_error_iff, not_or]
    refine and_congr_right fun _ => ⟨fun inside => ?_, fun defined v q' ran => ?_⟩
    · rintro ⟨v, q', ran, failed⟩
      exact (ih q').mp (inside v q' ran) (bind_pure_error_iff.mp failed)
    · exact (ih q').mpr fun failed => defined ⟨v, q', ran, bind_pure_error_iff.mpr failed⟩

end Promises

def start (initialSize : ℕ) (ops : List Op) : Except Fault (List Value × Buffer) :=
  (Buffer.new initialSize).bind (ops.mapM (Op.run bufferOps))

def Queue.start (initialSize : ℕ) (ops : List Op) : Except QueueFault (List Value × Queue) :=
  ops.mapM (Op.run queueOps) (Queue.new initialSize)

def Within {α : Type} (N : ℕ) (r : Except Fault (α × Buffer)) : Prop :=
  (∀ a b, r = .ok (a, b) → b.buffer.length ≤ N) ∧ r ≠ .error .lengthError

def KeepsWithin {α : Type} (N : ℕ) (x : Buffered α) : Prop :=
  ∀ b, b.buffer.length ≤ N → Within N (x b)

section Space

variable {α κ : Type} {N : ℕ}

theorem Within.ok {a : α} {b : Buffer} (size : b.buffer.length ≤ N) :
    Within N (.ok (a, b) : Except Fault (α × Buffer)) := by
  refine ⟨fun a' b' same => ?_, nofun⟩
  cases same
  exact size

theorem Within.error {fault : Fault} (other : fault ≠ .lengthError) :
    Within N (.error fault : Except Fault (α × Buffer)) := by
  refine ⟨nofun, fun same => other ?_⟩
  cases same
  rfl

theorem Within.bind {x : Buffered α} {f : α → Buffered κ} {b : Buffer} (first : Within N (x b))
    (second : ∀ a, KeepsWithin N (f a)) : Within N ((x >>= f) b) := by
  cases result : x b with
  | error fault =>
    rw [result] at first
    have other : fault ≠ .lengthError := fun same => first.2 (by rw [same])
    simp only [Bind.bind, StateT.bind, result, Except.bind]
    exact .error other
  | ok r =>
    rw [result] at first
    simp only [Bind.bind, StateT.bind, result, Except.bind]
    exact second r.1 r.2 (first.1 r.1 r.2 rfl)

theorem KeepsWithin.bind {x : Buffered α} {f : α → Buffered κ} (first : KeepsWithin N x)
    (second : ∀ a, KeepsWithin N (f a)) : KeepsWithin N (x >>= f) :=
  fun b size => (first b size).bind second

theorem KeepsWithin.pure (a : α) : KeepsWithin N (pure a : Buffered α) := fun _ size => .ok size

theorem within_command {f : Buffer → Except Fault Buffer} {b : Buffer}
    (h : (∃ b', f b = .ok b' ∧ b'.buffer.length ≤ N) ∨
      ∃ fault, f b = .error fault ∧ fault ≠ .lengthError) : Within N (command f b) := by
  rw [command]
  obtain ⟨b', made, size⟩ | ⟨fault, failed, other⟩ := h
  · rw [made]
    exact .ok size
  · rw [failed]
    exact .error other

theorem keeps_require (ok : Bool) : KeepsWithin N (bufferOps.require ok) := by
  intro b size
  cases ok with
  | false => exact .error nofun
  | true => exact .ok size

theorem keeps_readableBytes : KeepsWithin N bufferOps.readableBytes := fun _ size => .ok size

theorem keeps_copyOut (len : ℕ) : KeepsWithin N (bufferOps.copyOut len) := by
  intro b size
  simp only [bufferOps, Buffer.copyOut]
  split
  · exact .ok size
  · exact .error nofun

theorem keeps_retrieve (len : ℕ) : KeepsWithin N (bufferOps.retrieve len) := by
  intro b size
  refine within_command (f := (Buffer.retrieve · len)) ?_
  by_cases few : len ≤ b.readableBytes
  · obtain ⟨b', made, -, -, same⟩ := Buffer.retrieve_spec few
    exact Or.inl ⟨b', made, same.trans_le size⟩
  · exact Or.inr ⟨_, if_neg few, nofun⟩

theorem keeps_unwrite (len : ℕ) : KeepsWithin N (bufferOps.unwrite len) := by
  intro b size
  refine within_command (f := (Buffer.unwrite · len)) ?_
  by_cases few : len ≤ b.readableBytes
  · obtain ⟨b', made, -, -, same⟩ := Buffer.unwrite_spec few
    exact Or.inl ⟨b', made, same.trans_le size⟩
  · exact Or.inr ⟨_, dif_neg few, nofun⟩

theorem keeps_hasWritten (data : List Byte) : KeepsWithin N (bufferOps.hasWritten data) := by
  intro b size
  refine within_command
    (f := fun b => (b.copyIn data).bind (Buffer.hasWritten · data.length)) ?_
  by_cases room : data.length ≤ b.writableBytes
  · obtain ⟨b', made, -, -, same⟩ := Buffer.write_spec room
    exact Or.inl ⟨b', made, same.trans_le size⟩
  · have full : ¬ b.writerIndex + data.length ≤ b.buffer.length := by
      unfold Buffer.writableBytes at room
      omega
    have failed : b.copyIn data = .error .outside := dif_neg full
    exact Or.inr ⟨_, congrArg (Except.bind · _) failed, nofun⟩

theorem keeps_prepend (data : List Byte) : KeepsWithin N (bufferOps.prepend data) := by
  intro b size
  refine within_command (f := (Buffer.prepend · data)) ?_
  by_cases room : data.length ≤ b.readerIndex
  · obtain ⟨b', made, -, -, same⟩ := Buffer.prepend_spec room
    exact Or.inl ⟨b', made, same.trans_le size⟩
  · exact Or.inr ⟨_, dif_neg room, nofun⟩

theorem keeps_peekInt (width : Width) : KeepsWithin N (bufferOps.peekInt width) := by
  cases width <;>
    exact keeps_readableBytes.bind fun _ => (keeps_require _).bind fun _ =>
      (keeps_copyOut _).bind fun _ => .pure _

theorem keeps_retrieveInt (width : Width) : KeepsWithin N (bufferOps.retrieveInt width) := by
  cases width <;> exact keeps_retrieve _

theorem keeps_prependInt (width : Width) (x : Int) :
    KeepsWithin N (bufferOps.prependInt width x) := by
  cases width <;> exact keeps_prepend _

theorem keeps_retrieveAsString (len : ℕ) : KeepsWithin N (bufferOps.retrieveAsString len) :=
  keeps_readableBytes.bind fun _ => (keeps_require _).bind fun _ => (keeps_copyOut _).bind fun _ =>
    (keeps_retrieve _).bind fun _ => .pure _

theorem within_append {data : List Byte} {b : Buffer} (limit : N ≤ maxSize)
    (size : b.buffer.length ≤ N)
    (demand : b.readableBytes + 2 * data.length + kCheapPrepend ≤ N) :
    Within N (bufferOps.append data b) := by
  refine within_command (f := (Buffer.append · data)) (Or.inl ?_)
  obtain ⟨b', made, -, -, -, bound⟩ | ⟨-, full⟩ := Buffer.append_spec (b := b)
    (show data.length ≤ maxSize by omega)
  · exact ⟨b', made, by omega⟩
  · omega

end Space

/-- The vector an operation may ask for when so many bytes are readable. -/
def Op.demand (readable : ℕ) : Op → ℕ
  | .append data => readable + 2 * data.length + kCheapPrepend
  | .ensureWritableBytes len => readable + 2 * len + kCheapPrepend
  | .appendInt width _ => readable + 2 * width.bytes + kCheapPrepend
  | .shrink reserve =>
    if readable < 2147483648 then kCheapPrepend + max kInitialSize (readable + reserve)
    else maxSize + 1
  | _ => 0

theorem within_shrink {reserve : ℕ} {b : Buffer} {N : ℕ} (limit : N ≤ maxSize)
    (demand : Op.demand b.readableBytes (.shrink reserve) ≤ N) :
    Within N (bufferOps.shrink reserve b) := by
  have call : bufferOps.shrink reserve b = command (Buffer.shrink · reserve) b := by
    simp only [bufferOps]
  rw [call]
  refine within_command (Or.inl ?_)
  simp only [Op.demand] at demand
  by_cases small : b.readableBytes < 2147483648
  · rw [if_pos small] at demand
    obtain ⟨b', made, -, -, bound⟩ | ⟨-, full⟩ :=
      Buffer.shrink_spec small (show b.readableBytes + reserve ≤ maxSize by omega)
    · exact ⟨b', made, by omega⟩
    · omega
  · rw [if_neg small] at demand
    omega

theorem run_within (op : Op) {b : Buffer} {N : ℕ} (limit : N ≤ maxSize)
    (size : b.buffer.length ≤ N) (demand : Op.demand b.readableBytes op ≤ N) :
    Within N (op.run bufferOps b) := by
  cases op with
  | readableBytes => exact (keeps_readableBytes.bind fun _ => .pure _) b size
  | retrieve len => exact ((keeps_retrieve len).bind fun _ => .pure _) b size
  | retrieveUntil offset =>
    exact (((keeps_require _).bind fun _ => keeps_readableBytes.bind fun _ =>
      (keeps_require _).bind fun _ => keeps_retrieve _).bind fun _ => .pure _) b size
  | retrieveInt width => exact ((keeps_retrieveInt width).bind fun _ => .pure _) b size
  | retrieveAll => exact .ok size
  | retrieveAsString len => exact ((keeps_retrieveAsString len).bind fun _ => .pure _) b size
  | retrieveAllAsString =>
    exact ((keeps_readableBytes.bind fun n => keeps_retrieveAsString n).bind fun _ => .pure _)
      b size
  | append data => exact (within_append limit size demand).bind fun _ => .pure _
  | ensureWritableBytes len =>
    refine Within.bind
      (within_command (f := (Buffer.ensureWritableBytes · len)) (Or.inl ?_)) fun _ => .pure _
    simp only [Op.demand] at demand
    obtain ⟨b', made, -, -, -, bound⟩ | ⟨-, full⟩ :=
      Buffer.ensureWritableBytes_spec (b := b) (show len ≤ maxSize by omega)
    · exact ⟨b', made, by omega⟩
    · omega
  | hasWritten data => exact ((keeps_hasWritten data).bind fun _ => .pure _) b size
  | unwrite len => exact ((keeps_unwrite len).bind fun _ => .pure _) b size
  | appendInt width x =>
    simp only [Op.demand] at demand
    refine Within.bind ?_ fun _ => .pure _
    cases width <;> exact within_append limit size (by rw [hostImage_length]; exact demand)
  | readInt width =>
    rw [Op.run, readInt_eq]
    exact ((((keeps_peekInt width).bind fun _ => (keeps_retrieveInt width).bind fun _ =>
      .pure _)).bind fun _ => .pure _) b size
  | peekInt width => exact ((keeps_peekInt width).bind fun _ => .pure _) b size
  | prependInt width x => exact ((keeps_prependInt width x).bind fun _ => .pure _) b size
  | prepend data => exact ((keeps_prepend data).bind fun _ => .pure _) b size
  | shrink reserve => exact (within_shrink limit demand).bind fun _ => .pure _

def peak : List Op → Queue → ℕ
  | [], _ => 0
  | op :: ops, q =>
    max (Op.demand q.content.length op)
      (match op.run queueOps q with
        | .ok (_, q') => peak ops q'
        | .error _ => 0)

theorem mapM_within_peak {N : ℕ} (limit : N ≤ maxSize) (ops : List Op) {b : Buffer} {q : Queue}
    (holds : HoldsQueue b q) (size : b.buffer.length ≤ N) (bound : peak ops q ≤ N)
    (defined : ops.mapM (Op.run queueOps) q ≠ .error .undefined) :
    (∃ values b' q', ops.mapM (Op.run bufferOps) b = .ok (values, b') ∧
      ops.mapM (Op.run queueOps) q = .ok (values, q') ∧ HoldsQueue b' q' ∧ b'.buffer.length ≤ N) ∨
    (ops.mapM (Op.run bufferOps) b = .error .assertion ∧
      ops.mapM (Op.run queueOps) q = .error .assertion) := by
  induction ops generalizing b q with
  | nil => exact Or.inl ⟨[], b, q, rfl, rfl, holds, size⟩
  | cons op ops ih =>
    rw [peak] at bound
    have within := run_within op limit size (holds.length ▸ le_trans (le_max_left _ _) bound)
    have outcome := bufferOps_simulates.run op b q holds
    simp only [List.mapM_cons] at defined ⊢
    cases spec : op.run queueOps q with
    | error d =>
      rw [bind_error spec] at defined ⊢
      rw [spec] at outcome
      refine Or.inr ?_
      cases conc : op.run bufferOps b with
      | ok r =>
        rw [conc] at outcome
        cases outcome with
        | undefined outside => exact absurd (congrArg _ outside) defined
      | error e =>
        rw [conc] at outcome within
        rw [bind_error conc]
        cases outcome with
        | fault same => exact ⟨congrArg _ same.1, congrArg _ same.2⟩
        | exhausted full => exact absurd (congrArg _ full) within.2
        | undefined outside => exact absurd (congrArg _ outside) defined
    | ok r =>
      rw [spec] at bound outcome
      rw [bind_ok spec] at defined ⊢
      obtain ⟨b', conc, holds'⟩ | ⟨e, conc, full⟩ := outcome.of_ok
      swap
      · rw [conc, show e = .lengthError from full] at within
        exact absurd rfl within.2
      rw [bind_ok conc]
      have rest : ops.mapM (Op.run queueOps) r.2 ≠ .error .undefined :=
        fun outside => defined (bind_error outside)
      obtain ⟨values, b'', q'', conc', spec', done⟩ | ⟨conc', spec'⟩ :=
        ih holds' (within.1 r.1 b' conc) (le_trans (le_max_right _ _) bound) rest
      · exact Or.inl ⟨r.1 :: values, b'', q'', bind_ok conc', bind_ok spec', done⟩
      · exact Or.inr ⟨bind_error conc', bind_error spec'⟩

/-- A program whose demands stay within `N` never makes the vector larger, and
returns or asserts exactly as the byte queue does. -/
theorem start_within_peak {initialSize N : ℕ} {ops : List Op} (limit : N ≤ maxSize)
    (initial : kCheapPrepend + initialSize ≤ N) (bound : peak ops (Queue.new initialSize) ≤ N)
    (inside : Inside ops (Queue.new initialSize)) :
    (∃ values b q, start initialSize ops = .ok (values, b) ∧
      Queue.start initialSize ops = .ok (values, q) ∧ b.readable = q.content ∧
      b.buffer.length ≤ N) ∨
    (start initialSize ops = .error .assertion ∧
      Queue.start initialSize ops = .error .assertion) := by
  obtain ⟨b, made, holds, size⟩ := new_holds (le_trans initial limit)
  unfold start
  rw [made]
  obtain ⟨values, b', q, conc, spec, holds', size'⟩ | failed :=
    mapM_within_peak limit ops holds (size.trans_le initial) bound ((inside_iff ops _).mp inside)
  · exact Or.inl ⟨values, b', q, conc, spec, holds'.content, size'⟩
  · exact Or.inr failed

def headed : List Op :=
  [.append [1, 2, 3], .appendInt .int32 70000, .prependInt .int16 7, .readInt .int16,
    .retrieveAsString 3, .readInt .int32]

theorem headed_within :
    (∃ values b q, start kInitialSize headed = .ok (values, b) ∧
      Queue.start kInitialSize headed = .ok (values, q) ∧ b.readable = q.content ∧
      b.buffer.length ≤ 1032) ∨
    (start kInitialSize headed = .error .assertion ∧
      Queue.start kInitialSize headed = .error .assertion) :=
  start_within_peak (by decide) (by decide) (by decide +kernel)
    ((inside_iff _ _).mpr (by decide +kernel))

/-- `shrink` keeps the readable bytes exactly when their number fits an `int`:
the copy is made through a string piece, whose length is one. -/
theorem shrink_keeps_iff (b : Buffer) {reserve : ℕ}
    (room : kCheapPrepend + (b.readableBytes + reserve) ≤ maxSize) :
    (∃ b', b.shrink reserve = .ok b' ∧ b'.readable = b.readable) ↔
      b.readableBytes < 2147483648 := by
  constructor
  · rintro ⟨b', made, same⟩
    unfold Buffer.shrink at made
    cases space : Buffer.fresh.ensureWritableBytes ((b.readableBytes + reserve) % sizeValues) with
    | error fault =>
      rw [space] at made
      cases made
    | ok other =>
      rw [space, ok_bind] at made
      have range : IsInt32 b.toStringPiece.2 := by
        rw [Buffer.toStringPiece]
        exact toInt32_isInt32 _
      obtain ⟨small, length⟩ := Buffer.appendPiece_readable range made
      have bound : (b.readableBytes + reserve) % sizeValues ≤ maxSize :=
        le_trans (Nat.mod_le _ _) (by omega)
      have fresh : other.readable = [] := by
        obtain ⟨c, again, readable, -⟩ | ⟨failed, -⟩ := Buffer.fresh_ensureWritableBytes _ bound
        · rw [space] at again
          rw [Except.ok.inj again, readable]
        · rw [space] at failed
          cases failed
      have empty := other.readable_length
      rw [fresh, List.length_nil] at empty
      rw [same, Buffer.readable_length, ← empty, Nat.zero_add] at length
      exact length.trans_lt small
  · intro small
    obtain ⟨b', made, readable, -, -⟩ | ⟨-, full⟩ :=
      Buffer.shrink_spec small (show b.readableBytes + reserve ≤ maxSize by omega)
    · exact ⟨b', made, readable⟩
    · omega

theorem shrink_keeps_written :
    ∃ b, Buffer.fresh.append [1, 2, 3] = .ok b ∧ b.readable = [1, 2, 3] ∧
      ((∃ b', b.shrink 16 = .ok b' ∧ b'.readable = b.readable) ↔
        b.readableBytes < 2147483648) := by
  have small : ([1, 2, 3] : List Byte).length ≤ maxSize := by decide
  obtain ⟨b, made, readable, -⟩ | ⟨-, full⟩ := Buffer.append_spec (b := Buffer.fresh) small
  · rw [Buffer.readable_fresh, List.nil_append] at readable
    have count : b.readableBytes = 3 := by
      rw [← Buffer.readable_length, readable]
      rfl
    exact ⟨b, made, readable, shrink_keeps_iff b (by rw [count]; decide)⟩
  · exact absurd full (by decide)

end ARCServer.BufferRefinement
