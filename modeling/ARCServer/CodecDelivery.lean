import ARCServer.CodecSafety

/-! Delivery of well-formed frames under any segmentation. Both codecs are
instances of one-frame-per-call reassembly: they never lose, reorder or alter a
frame, and they drain the stream when every read completes at most one. -/

namespace ARCServer.CodecDelivery

open MachineIntegers FrameCodec FrameStream CodecSafety

inductive Frame
  | comp (data : List Byte)
  | addf (id : Int) (data : List Byte)
  | addg (id : Int) (data : List Byte)
  | appl (id : Int) (data : List Byte)
  | qury (id : Int)
  deriving DecidableEq, Repr

def Frame.flag : Frame → Int
  | .comp _ => 0x636f6d70
  | .addf _ _ => 0x61646466
  | .addg _ _ => 0x61646467
  | .appl _ _ => 0x6170706c
  | .qury _ => 0x71757279

def Frame.body : Frame → List Byte
  | .comp data => data
  | .addf id data => hostBytes id ++ data
  | .addg id data => hostBytes id ++ data
  | .appl id data => hostBytes id ++ data
  | .qury id => hostBytes id

def Frame.size (f : Frame) : ℕ := 8 + f.body.length

def Frame.bytes (f : Frame) : List Byte :=
  hostBytes f.size ++ (networkBytes f.flag ++ f.body)

def Frame.request : Frame → Request
  | .comp data => .comp data data.length
  | .addf id data => .addu data data.length id
  | .addg id data => .addg data data.length id
  | .appl id data => .add data data.length id
  | .qury id => .query id

def Frame.ServedBy : Frame → Service → Prop
  | .comp _, service => service = .compare
  | .addf id _, service => service = .compare ∧ IsInt32 id
  | .addg id _, service => service = .compare ∧ IsInt32 id
  | .appl id _, service => service = .guest ∧ IsInt32 id
  | .qury id, service => service = .guest ∧ IsInt32 id

/-- A frame a client of the service may send: an `int32_t` declares its real length. -/
structure WireFrame (service : Service) where
  frame : Frame
  served : frame.ServedBy service
  declared : frame.size < 2147483648

def WireFrame.bytes {service : Service} (f : WireFrame service) : List Byte := f.frame.bytes

def WireFrame.request {service : Service} (f : WireFrame service) : Request := f.frame.request

theorem bytes_length (f : Frame) : f.bytes.length = f.size := by
  simp only [Frame.bytes, List.length_append, hostBytes_length, networkBytes_length, Frame.size]
  omega

theorem declaredLength_hostBytes {x : Int} (h : IsInt32 x) (rest : Buffer) :
    declaredLength (hostBytes x ++ rest) = x := hostWord_hostBytes h

theorem frameFlag_networkBytes (x : Int) {y : Int} (h : IsInt32 y) (rest : Buffer) :
    frameFlag (hostBytes x ++ (networkBytes y ++ rest)) = y := hostWord_hostBytes h

theorem drop_hostBytes (x : Int) (rest : Buffer) : (hostBytes x ++ rest).drop 4 = rest := rfl

theorem drop_headers (x y : Int) (rest : Buffer) :
    (hostBytes x ++ (networkBytes y ++ rest)).drop 8 = rest := rfl

theorem flag_isInt32 (f : Frame) : IsInt32 f.flag := by
  cases f <;> simp only [Frame.flag] <;> decide

theorem declaredLength_of_front {part whole : Buffer} (h : part <+: whole)
    (word : 4 ≤ part.length) : declaredLength part = declaredLength whole := by
  obtain ⟨rest, rfl⟩ := h
  match part, word with
  | b0 :: b1 :: b2 :: b3 :: more, _ => rfl

section Bodies

variable {data rest : List Byte} {id : Int}

theorem rawBody_delivers (callback : List Byte → Int → Request)
    (small : 8 + data.length < 2147483648) :
    (Layout.raw callback).body (8 + data.length : ℕ) (data ++ rest) =
      .ok (some (callback data data.length), rest) := by
  have range : IsInt32 (8 + data.length : ℕ) := by
    unfold IsInt32
    omega
  rw [rawBody_eq callback range (by omega), if_pos (by rw [List.length_append]; omega),
    show (((8 + data.length : ℕ) : Int)).toNat - 8 = data.length by omega,
    show ((8 + data.length : ℕ) : Int) - 8 = data.length by omega,
    List.take_left, List.drop_left]

theorem taggedBody_delivers (callback : List Byte → Int → Int → Request) (hid : IsInt32 id)
    (small : 12 + data.length < 2147483648) :
    (Layout.tagged callback).body (12 + data.length : ℕ) (hostBytes id ++ (data ++ rest)) =
      .ok (some (callback data data.length id), rest) := by
  have range : IsInt32 (12 + data.length : ℕ) := by
    unfold IsInt32
    omega
  have length : (hostBytes id ++ (data ++ rest)).length = 4 + (data.length + rest.length) := by
    simp only [List.length_append, hostBytes_length]
  rw [taggedBody_eq callback range (by omega), if_neg (by omega), if_pos (by omega),
    declaredLength_hostBytes hid, drop_hostBytes,
    show (((12 + data.length : ℕ) : Int)).toNat - 12 = data.length by omega,
    show (((12 + data.length : ℕ) : Int)).toNat - 8 = 4 + data.length by omega,
    show ((12 + data.length : ℕ) : Int) - 12 = data.length by omega,
    ← List.drop_drop, drop_hostBytes, List.take_left, List.drop_left]

theorem queryBody_delivers (callback : Int → Request) (hid : IsInt32 id) (len : Int) :
    (Layout.query callback).body len (hostBytes id ++ rest) = .ok (some (callback id), rest) := by
  have length : (hostBytes id ++ rest).length = 4 + rest.length := by
    simp only [List.length_append, hostBytes_length]
  rw [queryBody_eq, if_neg (by omega), declaredLength_hostBytes hid, drop_hostBytes]

end Bodies

theorem body_delivers {service : Service} (f : WireFrame service) (rest : Buffer) :
    ∃ layout, service.layout f.frame.flag = some layout ∧
      layout.body f.frame.size (f.frame.body ++ rest) = .ok (some f.request, rest) := by
  obtain ⟨frame, served, declared⟩ := f
  cases frame with
  | comp data =>
    obtain rfl := served
    exact ⟨.raw .comp, rfl, rawBody_delivers .comp declared⟩
  | addf id data =>
    obtain ⟨rfl, hid⟩ := served
    refine ⟨.tagged .addu, rfl, ?_⟩
    simp only [Frame.size, Frame.body, List.length_append, hostBytes_length] at declared ⊢
    rw [List.append_assoc, ← add_assoc]
    exact taggedBody_delivers .addu hid (by omega)
  | addg id data =>
    obtain ⟨rfl, hid⟩ := served
    refine ⟨.tagged .addg, rfl, ?_⟩
    simp only [Frame.size, Frame.body, List.length_append, hostBytes_length] at declared ⊢
    rw [List.append_assoc, ← add_assoc]
    exact taggedBody_delivers .addg hid (by omega)
  | appl id data =>
    obtain ⟨rfl, hid⟩ := served
    refine ⟨.tagged .add, rfl, ?_⟩
    simp only [Frame.size, Frame.body, List.length_append, hostBytes_length] at declared ⊢
    rw [List.append_assoc, ← add_assoc]
    exact taggedBody_delivers .add hid (by omega)
  | qury id =>
    obtain ⟨rfl, hid⟩ := served
    exact ⟨.query .query, rfl, queryBody_delivers .query hid _⟩

theorem bytes_append (f : Frame) (rest : Buffer) :
    f.bytes ++ rest = hostBytes f.size ++ (networkBytes f.flag ++ (f.body ++ rest)) := by
  simp only [Frame.bytes, List.append_assoc]

theorem size_isInt32 {service : Service} (f : WireFrame service) : IsInt32 f.frame.size := by
  have declared := f.declared
  unfold IsInt32
  omega

theorem onMessage_complete {service : Service} (f : WireFrame service) (rest : Buffer) :
    service.onMessage (f.bytes ++ rest) = .ok (some f.request, rest) := by
  obtain ⟨layout, branch, delivers⟩ := body_delivers f rest
  have length : (f.bytes ++ rest).length = 8 + f.frame.body.length + rest.length := by
    rw [List.length_append, WireFrame.bytes, bytes_length, Frame.size]
  have front : declaredLength (f.bytes ++ rest) = f.frame.size := by
    rw [WireFrame.bytes, bytes_append]
    exact declaredLength_hostBytes (size_isInt32 f) _
  have size : toSizeT f.frame.size = 8 + f.frame.body.length := toSizeT_natCast f.declared
  rw [onMessage_eq, front, size, if_neg (by omega), if_neg (by omega), WireFrame.bytes,
    bytes_append, frameFlag_networkBytes _ (flag_isInt32 f.frame), drop_headers, branch]
  exact delivers

theorem onMessage_waits {service : Service} (f : WireFrame service) {part : Buffer}
    (front : part <+: f.bytes) (proper : part ≠ f.bytes) :
    service.onMessage part = .ok (none, part) := by
  have shorter : part.length < f.frame.size := by
    have bound := front.length_le
    rw [WireFrame.bytes, bytes_length] at bound
    refine lt_of_le_of_ne bound fun same => proper (front.eq_of_length ?_)
    rw [WireFrame.bytes, bytes_length, same]
  have size : toSizeT f.frame.size = f.frame.size := toSizeT_natCast f.declared
  rw [onMessage_eq]
  by_cases short : part.length ≤ 4
  · rw [if_pos (Or.inl short)]
  · have declared : declaredLength part = f.frame.size := by
      rw [declaredLength_of_front front (by omega), WireFrame.bytes, Frame.bytes]
      exact declaredLength_hostBytes (size_isInt32 f) _
    rw [declared, size, if_pos (Or.inr shorter)]

theorem onMessage_framing (service : Service) :
    Framing service.onMessage (@WireFrame.bytes service) WireFrame.request where
  nonempty f := by
    refine List.ne_nil_of_length_pos ?_
    rw [WireFrame.bytes, bytes_length, Frame.size]
    omega
  idle := by rw [onMessage_eq]; rfl
  complete := onMessage_complete
  waits f part := onMessage_waits f

/-- At every point of a run the calls made are the first frames, with their ids
and payloads, and the buffer holds exactly the bytes received after them. -/
theorem run_delivers_in_order (service : Service) (fs : List (WireFrame service))
    (reads : List (List Byte)) (whole : reads.flatten = stream WireFrame.bytes fs) (k : ℕ) :
    ∃ s n, run service.onMessage (reads.take k) = .ok s ∧ n ≤ fs.length ∧
      s.delivered = (fs.take n).map WireFrame.request ∧
      stream WireFrame.bytes (fs.take n) ++ s.unread = (reads.take k).flatten := by
  have part : (reads.take k).flatten <+: stream WireFrame.bytes fs :=
    whole ▸ take_flatten_front reads k
  obtain ⟨s, hs, progress⟩ := run_progress (onMessage_framing service) part
  exact ⟨s, s.delivered.length, hs, progress.count_le, progress.delivered, progress.unread⟩

def userEnrolment : WireFrame .compare := ⟨.addf 7 [1, 2], ⟨rfl, by decide⟩, by decide⟩

def guestEnrolment : WireFrame .compare := ⟨.addg (-3) [5, 6, 7], ⟨rfl, by decide⟩, by decide⟩

def enrolmentReads : List (List Byte) :=
  [[14, 0, 0], [0, 0x61, 0x64], [0x64, 0x66, 7, 0, 0, 0, 1], [2, 15, 0],
    [0, 0, 0x61, 0x64, 0x64, 0x67, 0xfd, 0xff, 0xff, 0xff, 5], [6, 7]]

theorem run_delivers_in_order_enrolments :
    (∃ s n, run Service.compare.onMessage (enrolmentReads.take 4) = .ok s ∧
      n ≤ [userEnrolment, guestEnrolment].length ∧
      s.delivered = ([userEnrolment, guestEnrolment].take n).map WireFrame.request ∧
      stream WireFrame.bytes ([userEnrolment, guestEnrolment].take n) ++ s.unread =
        (enrolmentReads.take 4).flatten ∧
      s = ⟨[15, 0], [.addu [1, 2] 2 7]⟩) ∧
    ∃ s n, run Service.compare.onMessage (enrolmentReads.take 6) = .ok s ∧
      n ≤ [userEnrolment, guestEnrolment].length ∧
      s.delivered = ([userEnrolment, guestEnrolment].take n).map WireFrame.request ∧
      stream WireFrame.bytes ([userEnrolment, guestEnrolment].take n) ++ s.unread =
        (enrolmentReads.take 6).flatten ∧
      s = ⟨[], [.addu [1, 2] 2 7, .addg [5, 6, 7] 3 (-3)]⟩ := by
  have first : run Service.compare.onMessage (enrolmentReads.take 4) =
      .ok ⟨[15, 0], [.addu [1, 2] 2 7]⟩ := by decide +kernel
  have both : run Service.compare.onMessage (enrolmentReads.take 6) =
      .ok ⟨[], [.addu [1, 2] 2 7, .addg [5, 6, 7] 3 (-3)]⟩ := by decide +kernel
  have whole : enrolmentReads.flatten =
      stream WireFrame.bytes [userEnrolment, guestEnrolment] := by decide
  constructor
  · obtain ⟨s, n, ran, few, delivered, bytes⟩ :=
      run_delivers_in_order .compare [userEnrolment, guestEnrolment] enrolmentReads whole 4
    exact ⟨s, n, ran, few, delivered, bytes, Except.ok.inj (ran.symm.trans first)⟩
  · obtain ⟨s, n, ran, few, delivered, bytes⟩ :=
      run_delivers_in_order .compare [userEnrolment, guestEnrolment] enrolmentReads whole 6
    exact ⟨s, n, ran, few, delivered, bytes, Except.ok.inj (ran.symm.trans both)⟩

/-- Segmentation does not matter exactly when no read completes two frames: then
every frame reaches its handler and none is left waiting after a call. For the
state after the last byte alone it is enough that the reads catch up. -/
theorem drained_iff_one_frame_per_read (service : Service) (fs : List (WireFrame service))
    (reads : List (List Byte)) (whole : reads.flatten = stream WireFrame.bytes fs) :
    (Drained service.onMessage WireFrame.bytes WireFrame.request fs reads ↔
      Paced WireFrame.bytes fs reads) ∧
    (run service.onMessage reads = .ok ⟨[], fs.map WireFrame.request⟩ ↔
      CatchesUp WireFrame.bytes fs reads) :=
  ⟨drained_iff_paced (onMessage_framing service) whole,
    finished_iff_catchesUp (onMessage_framing service) whole⟩

def emptyComp : WireFrame .compare := ⟨.comp [], rfl, by decide⟩

def someQuery : WireFrame .guest := ⟨.qury 7, ⟨rfl, by decide⟩, by decide⟩

theorem drained_two_reads :
    Drained Service.compare.onMessage WireFrame.bytes WireFrame.request [emptyComp, emptyComp]
      [emptyComp.bytes, emptyComp.bytes] := by
  refine (drained_iff_one_frame_per_read .compare [emptyComp, emptyComp]
    [emptyComp.bytes, emptyComp.bytes] (by decide)).1.mpr ?_
  unfold Paced
  decide

/-- Two frames in one read: the second is left in the buffer when the last byte
of the stream has been read. -/
theorem coalesced_frame_waits :
    ¬ Drained Service.compare.onMessage WireFrame.bytes WireFrame.request [emptyComp, emptyComp]
        [emptyComp.bytes ++ emptyComp.bytes] ∧
      ¬ Drained Service.guest.onMessage WireFrame.bytes WireFrame.request [someQuery, someQuery]
        [someQuery.bytes ++ someQuery.bytes] := by
  have comp : run Service.compare.onMessage [emptyComp.bytes ++ emptyComp.bytes] =
      .ok ⟨emptyComp.bytes, [.comp [] 0]⟩ := by decide +kernel
  have query : run Service.guest.onMessage [someQuery.bytes ++ someQuery.bytes] =
      .ok ⟨someQuery.bytes, [.query 7]⟩ := by decide +kernel
  constructor
  · intro drained
    have finished := drained.finished
    rw [comp] at finished
    exact absurd finished (by decide)
  · intro drained
    have finished := drained.finished
    rw [query] at finished
    exact absurd finished (by decide)

end ARCServer.CodecDelivery
