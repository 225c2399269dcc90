import ARCServer.CodecSafety
import ARCServer.GuestClearing

/-! What the answer to a query says. Pictures are sent one after another, each behind its
length; the answer without pictures is a string that no such sequence equals. -/

namespace ARCServer.GuestReplies

open MachineIntegers FrameCodec FrameStream CodecSafety GuestServer GuestRetention GuestClearing

/-- Read an `int32_t` n in host order, take n - 4 bytes, and so on to the end. -/
def decodeFrames : ℕ → List Byte → Option (List (List Byte))
  | _, [] => some []
  | fuel + 1, b0 :: b1 :: b2 :: b3 :: rest =>
    let n := hostWord b0 b1 b2 b3
    if 4 ≤ n ∧ n ≤ 4 + rest.length then
      (decodeFrames fuel (rest.drop (n.toNat - 4))).map fun pics =>
        rest.take (n.toNat - 4) :: pics
    else none
  | _, _ => none

theorem decodeFrames_cons (fuel : ℕ) (b0 b1 b2 b3 : Byte) (rest : List Byte) :
    decodeFrames (fuel + 1) (b0 :: b1 :: b2 :: b3 :: rest) =
      if 4 ≤ hostWord b0 b1 b2 b3 ∧ hostWord b0 b1 b2 b3 ≤ 4 + rest.length then
        (decodeFrames fuel (rest.drop ((hostWord b0 b1 b2 b3).toNat - 4))).map fun pics =>
          rest.take ((hostWord b0 b1 b2 b3).toNat - 4) :: pics
      else none := by
  rw [decodeFrames]

def decodeReply (bytes : List Byte) : Option (List (List Byte)) :=
  if bytes = emptyReply then some [] else decodeFrames bytes.length bytes

/-- The length of a picture is its number of bytes and leaves room for three headers. -/
structure WellFormed (len : Int) (data : List Byte) : Prop where
  nonneg : 0 ≤ len
  small : len ≤ 2147483635
  size : (data.length : Int) = len

theorem guest_layout (flag : Int) :
    Service.guest.layout flag = none ∨ Service.guest.layout flag = some (.tagged .add) ∨
      Service.guest.layout flag = some (.query .query) := by
  unfold Service.layout
  dsimp only
  split_ifs <;> simp

theorem wellFormed_of_onMessage {buf rest : Buffer} {data : List Byte} {len id : Int}
    (small : buf.length < 9223372036854775808)
    (h : Service.guest.onMessage buf = .ok (some (.add data len id), rest)) :
    WellFormed len data := by
  rw [onMessage_eq] at h
  by_cases waiting : buf.length ≤ 4 ∨ buf.length < toSizeT (declaredLength buf)
  · rw [if_pos waiting] at h
    cases h
  by_cases cut : buf.length < 8
  · rw [if_neg waiting, if_pos cut] at h
    cases h
  rw [if_neg waiting, if_neg cut] at h
  have range := declaredLength_isInt32 buf
  have nonneg := declaredLength_nonneg small (not_or.mp waiting).2
  rcases guest_layout (frameFlag buf) with other | add | query
  · rw [other] at h
    cases h
  · rw [add] at h
    dsimp only at h
    rw [taggedBody_eq _ range nonneg] at h
    split_ifs at h with short fits
    cases h
    unfold IsInt32 at range
    rw [List.length_drop] at short fits
    refine ⟨by omega, by omega, ?_⟩
    simp only [List.length_take, List.length_drop]
    omega
  · rw [query] at h
    dsimp only at h
    rw [queryBody_eq] at h
    split_ifs at h
    cases h

def FromFrames (events : List Event) : Prop :=
  ∀ now data len id tryLock, .appl now data len id tryLock ∈ events → WellFormed len data

theorem wellFormed_of_mem_run {events : List Event} (frames : FromFrames events) {pic : GuestPic}
    (mem : pic ∈ run events) : WellFormed pic.len_pic pic.data := by
  obtain ⟨e, acknowledged, rfl⟩ := List.mem_map.mp ((run_suffix events).subset mem)
  obtain ⟨event, inside, heq⟩ := List.mem_filterMap.mp acknowledged
  cases event with
  | appl now data len id tryLock =>
    cases heq
    exact frames now data len id tryLock inside
  | qury now id => cases heq

section Frames

variable {len : Int} {data : List Byte}

theorem WellFormed.isInt32 (h : WellFormed len data) : IsInt32 (len + 4) := by
  have nonneg := h.nonneg
  have small := h.small
  unfold IsInt32
  omega

theorem sendPic_flatten {pic : GuestPic} (h : WellFormed pic.len_pic pic.data) :
    (sendPic pic).flatten = hostBytes (pic.len_pic + 4) ++ pic.data := by
  have total : toInt32 (pic.len_pic + 4) = pic.len_pic + 4 := by
    have range := h.isInt32
    unfold IsInt32 at range
    unfold toInt32
    omega
  have whole : pic.data.length ≤ pic.len_pic.toNat := by
    have size := h.size
    omega
  simp only [sendPic, List.flatten_cons, List.flatten_nil, List.append_nil, total,
    List.take_of_length_le whole]

theorem decodeFrames_append (h : WellFormed len data) (fuel : ℕ) (rest : List Byte) :
    decodeFrames (fuel + 1) (hostBytes (len + 4) ++ data ++ rest) =
      (decodeFrames fuel rest).map (data :: ·) := by
  have size := h.size
  have nonneg := h.nonneg
  have payload : (len + 4).toNat - 4 = data.length := by omega
  rw [List.append_assoc, hostBytes]
  simp only [List.cons_append, List.nil_append]
  rw [decodeFrames_cons, hostWord_hostBytes h.isInt32,
    if_pos (by rw [List.length_append]; omega), payload, List.drop_left, List.take_left]

theorem decodeFrames_frames (pics : List GuestPic)
    (wellFormed : ∀ pic ∈ pics, WellFormed pic.len_pic pic.data) {fuel : ℕ}
    (enough : pics.length ≤ fuel) :
    decodeFrames fuel (pics.flatMap sendPic).flatten = some (pics.map GuestPic.data) := by
  induction pics generalizing fuel with
  | nil => cases fuel <;> rfl
  | cons pic pics ih =>
    obtain ⟨first, others⟩ := List.forall_mem_cons.mp wellFormed
    cases fuel with
    | zero => cases enough
    | succ fuel =>
      rw [List.flatMap_cons, List.flatten_append, sendPic_flatten first,
        decodeFrames_append first, ih others (Nat.le_of_succ_le_succ enough)]
      rfl

theorem length_le_frames (pics : List GuestPic) :
    pics.length ≤ (pics.flatMap sendPic).flatten.length := by
  induction pics with
  | nil => exact le_rfl
  | cons pic pics ih =>
    rw [List.flatMap_cons, List.flatten_append, List.length_append, List.length_cons]
    have header : 4 ≤ (sendPic pic).flatten.length := by simp [sendPic]
    omega

/-- Read as a frame, "empty" declares a length that does not follow. -/
theorem decodeFrames_emptyReply (fuel : ℕ) : decodeFrames fuel emptyReply = none := by
  cases fuel with
  | zero => rfl
  | succ fuel =>
    rw [emptyReply, decodeFrames_cons]
    exact if_neg (by decide)

theorem frames_ne_emptyReply (pics : List GuestPic)
    (wellFormed : ∀ pic ∈ pics, WellFormed pic.len_pic pic.data) :
    (pics.flatMap sendPic).flatten ≠ emptyReply := by
  intro same
  have decoded := decodeFrames_frames pics wellFormed le_rfl
  rw [same, decodeFrames_emptyReply] at decoded
  cases decoded

theorem reply_eq_emptyReply_iff (pics : List GuestPic)
    (wellFormed : ∀ pic ∈ pics, WellFormed pic.len_pic pic.data) :
    (reply pics).flatten = emptyReply ↔ pics = [] := by
  unfold reply
  split
  case isTrue none => exact iff_of_true rfl none
  case isFalse some => exact iff_of_false (frames_ne_emptyReply pics wellFormed) some

theorem decodeReply_reply (pics : List GuestPic)
    (wellFormed : ∀ pic ∈ pics, WellFormed pic.len_pic pic.data) :
    decodeReply (reply pics).flatten = some (pics.map GuestPic.data) := by
  unfold decodeReply
  by_cases none : pics = []
  · subst none
    rfl
  · rw [if_neg ((reply_eq_emptyReply_iff pics wellFormed).not.mpr none), reply, if_neg none]
    exact decodeFrames_frames pics wellFormed (length_le_frames pics)

end Frames

def answer (events : List Event) (id : Int) : List Byte :=
  (onStringMessageQuery id (run events)).sent.flatten

structure Decodable (events : List Event) (id : Int) : Prop where
  decoded : decodeReply (answer events id) =
    some (((run events).filter fun pic => id = pic.id).map GuestPic.data)
  empty : answer events id = emptyReply ↔ ∀ pic ∈ run events, id ≠ pic.id
  inOrder : run events <:+ (stored events).map Stored.pic
  totals : ∀ pic ∈ run events, IsInt32 (pic.len_pic + 4)

/-- Every query of every id is answered with bytes that determine the answer, as long as
the pictures came in frames. -/
theorem query_decodable (events : List Event) (frames : FromFrames events) (id : Int) :
    Decodable events id := by
  have wellFormed : ∀ pic ∈ (run events).filter (fun pic => id = pic.id),
      WellFormed pic.len_pic pic.data := fun pic mem =>
    wellFormed_of_mem_run frames (List.mem_of_mem_filter mem)
  refine ⟨?_, ?_, run_suffix events, fun pic mem => (wellFormed_of_mem_run frames mem).isInt32⟩
  · rw [answer, query_sent]
    exact decodeReply_reply _ wellFormed
  · rw [answer, query_sent, reply_eq_emptyReply_iff _ wellFormed, List.filter_eq_nil_iff]
    simp only [decide_eq_true_eq, ne_eq]

theorem query_decodable_twice :
    FromFrames [.appl 36000000 [1, 2] 2 7 true, .appl 36000000 [] 0 8 true,
        .appl 36000001 [1, 2] 2 7 true] ∧
      decodeReply (answer [.appl 36000000 [1, 2] 2 7 true, .appl 36000000 [] 0 8 true,
        .appl 36000001 [1, 2] 2 7 true] 7) = some [[1, 2], [1, 2]] := by
  have frames : FromFrames [.appl 36000000 [1, 2] 2 7 true, .appl 36000000 [] 0 8 true,
      .appl 36000001 [1, 2] 2 7 true] := by
    intro now data len id tryLock mem
    simp only [List.mem_cons, Event.appl.injEq, List.not_mem_nil, or_false] at mem
    rcases mem with ⟨-, rfl, rfl, -, -⟩ | ⟨-, rfl, rfl, -, -⟩ | ⟨-, rfl, rfl, -, -⟩ <;>
      exact ⟨by decide, by decide, by decide⟩
  exact ⟨frames, (query_decodable _ frames 7).decoded.trans (by decide)⟩

end ARCServer.GuestReplies
