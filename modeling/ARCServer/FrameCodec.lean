import ARCServer.DataRefinement
import ARCServer.MachineIntegers
import Mathlib.Tactic.NormNum

/-! The two frame codecs over what they do with a connection's input buffer, and on a
queue of readable bytes, where an operation that the code may not perform stops the
call with a fault. A frame is `length | flag | ...`: the length is in host order and
counts every header, the flag is in network order. -/

namespace ARCServer.FrameCodec

open MachineIntegers
open DataRefinement (bind_ok bind_error)

inductive Fault
  /-- An `int32_t` was read at `peek()` with fewer than four readable bytes. -/
  | overread
  /-- `assert(len <= readableBytes())` of `Buffer::retrieve`. -/
  | retrieve
  /-- `malloc` and `memcpy` of a negative length or past the readable bytes. -/
  | copy
  deriving DecidableEq, Repr

structure Operations (m : Type → Type) where
  readableBytes : m ℕ
  /-- `*static_cast<const int32_t*>(buf->peek())`. -/
  loadInt32 : m Int
  retrieve : ℕ → m Unit
  /-- `data = malloc(imglen); memcpy(data, buf->peek(), imglen)`. -/
  copyOut : Int → m (List Byte)

def kHeaderLen : ℕ := 4

structure CompareCodec (κ : Type) where
  messageCallbackComp : List Byte → Int → κ
  messageCallbackAddf : List Byte → Int → Int → κ
  messageCallbackAddu : List Byte → Int → Int → κ

structure GuestCodec (κ : Type) where
  messageCallbackAdd : List Byte → Int → Int → κ
  messageCallbackQuery : Int → κ

inductive Request
  | comp (data : List Byte) (len : Int)
  | addu (data : List Byte) (len id : Int)
  | addg (data : List Byte) (len id : Int)
  | add (data : List Byte) (len id : Int)
  | query (id : Int)
  deriving DecidableEq, Repr

inductive Service
  | compare
  | guest
  deriving DecidableEq, Repr

/-- The callbacks bound in the constructor of `ARCCompareServer`. -/
def compareCodec : CompareCodec Request := ⟨.comp, .addu, .addg⟩

/-- The callbacks bound in the constructor of `ARCGuestServer`. -/
def guestCodec : GuestCodec Request := ⟨.add, .query⟩

namespace Operations

variable {m : Type → Type} [Monad m] (o : Operations m) {κ : Type}

/-- The common beginning of both `onMessage` functions. One call handles at most
one frame: the source tests with `if`, not `while`. -/
def onFrame (dispatch : Int → Int → m (Option κ)) : m (Option κ) := do
  if (← o.readableBytes) > kHeaderLen then
    let len ← o.loadInt32
    if toSizeT len ≤ (← o.readableBytes) then
      o.retrieve kHeaderLen
      let flag_be32 ← o.loadInt32
      let flag := networkToHost32 flag_be32
      o.retrieve kHeaderLen
      dispatch len flag
    else
      return none
  else
    return none

def readId : m Int := do
  let id_be32 ← o.loadInt32
  o.retrieve kHeaderLen
  return id_be32

/-- The payload of a frame with the given number of header words. The length is
computed in `size_t` and stored in an `int`. -/
def takeImage (len : Int) (headers : ℕ) : m (List Byte × Int) := do
  let imglen := toInt32 (toSizeT len - headers * kHeaderLen)
  let data ← o.copyOut imglen
  o.retrieve (toSizeT imglen)
  return (data, imglen)

def compareDispatch (codec : CompareCodec κ) (len flag : Int) : m (Option κ) := do
  if flag = 0x636f6d70 then
    let (data, imglen) ← o.takeImage len 2
    return some (codec.messageCallbackComp data imglen)
  else if flag = 0x61646466 then
    let id ← o.readId
    let (data, imglen) ← o.takeImage len 3
    return some (codec.messageCallbackAddf data imglen id)
  else if flag = 0x61646467 then
    let id ← o.readId
    let (data, imglen) ← o.takeImage len 3
    return some (codec.messageCallbackAddu data imglen id)
  else
    return none

def guestDispatch (codec : GuestCodec κ) (len flag : Int) : m (Option κ) := do
  if flag = 0x6170706c then
    let id ← o.readId
    let (data, imglen) ← o.takeImage len 3
    return some (codec.messageCallbackAdd data imglen id)
  else if flag = 0x71757279 then
    let id ← o.readId
    return some (codec.messageCallbackQuery id)
  else
    return none

def dispatch : Service → Int → Int → m (Option Request)
  | .compare => o.compareDispatch compareCodec
  | .guest => o.guestDispatch guestCodec

def onMessage (service : Service) : m (Option Request) := o.onFrame (o.dispatch service)

end Operations

abbrev Buffer := List Byte

abbrev Buffered := StateT Buffer (Except Fault)

def readableBytes : Buffered ℕ := fun buf => .ok (buf.length, buf)

def loadInt32 : Buffered Int
  | b0 :: b1 :: b2 :: b3 :: rest => .ok (hostWord b0 b1 b2 b3, b0 :: b1 :: b2 :: b3 :: rest)
  | _ => .error .overread

def retrieve (len : ℕ) : Buffered Unit := fun buf =>
  if len ≤ buf.length then .ok ((), buf.drop len) else .error .retrieve

def copyOut (imglen : Int) : Buffered (List Byte) := fun buf =>
  if 0 ≤ imglen ∧ imglen ≤ buf.length then .ok (buf.take imglen.toNat, buf) else .error .copy

def queueOperations : Operations Buffered where
  readableBytes := readableBytes
  loadInt32 := loadInt32
  retrieve := retrieve
  copyOut := copyOut

def readId : Buffered Int := queueOperations.readId

def takeImage (len : Int) (headers : ℕ) : Buffered (List Byte × Int) :=
  queueOperations.takeImage len headers

def Service.dispatch (service : Service) : Int → Int → Buffered (Option Request) :=
  queueOperations.dispatch service

def Service.onMessage (service : Service) : Buffered (Option Request) :=
  queueOperations.onMessage service

theorem Service.onMessage_eq (service : Service) :
    service.onMessage = queueOperations.onFrame service.dispatch := rfl

def okReply : List Byte := [0x6f, 0x6b]

def declaredLength : Buffer → Int
  | b0 :: b1 :: b2 :: b3 :: _ => hostWord b0 b1 b2 b3
  | _ => 0

def frameFlag (buf : Buffer) : Int :=
  match buf.drop 4 with
  | b0 :: b1 :: b2 :: b3 :: _ => hostWord b3 b2 b1 b0
  | _ => 0

theorem declaredLength_isInt32 (buf : Buffer) : IsInt32 (declaredLength buf) := by
  unfold declaredLength
  split
  · exact hostWord_isInt32 _ _ _ _
  · decide

theorem loadInt32_eq (buf : Buffer) :
    loadInt32 buf =
      if 4 ≤ buf.length then .ok (declaredLength buf, buf) else .error .overread := by
  match buf with
  | b0 :: b1 :: b2 :: b3 :: rest => simp [loadInt32, declaredLength]
  | [] | [_] | [_, _] | [_, _, _] => rfl

theorem networkToHost32_flag {buf : Buffer} (h : 8 ≤ buf.length) :
    networkToHost32 (declaredLength (buf.drop 4)) = frameFlag buf := by
  have long : 4 ≤ (buf.drop 4).length := by
    rw [List.length_drop]
    omega
  unfold frameFlag declaredLength
  match buf.drop 4, long with
  | b0 :: b1 :: b2 :: b3 :: rest, _ => exact networkToHost32_hostWord b0 b1 b2 b3

def Consumes {α : Type} (x : Buffered α) : Prop :=
  ∀ buf a rest, x buf = .ok (a, rest) → rest <:+ buf

theorem Consumes.pure {α : Type} (a : α) : Consumes (pure a) := by
  rintro buf b rest ⟨⟩
  exact List.suffix_rfl

theorem Consumes.bind {α κ : Type} {x : Buffered α} {f : α → Buffered κ}
    (first : Consumes x) (second : ∀ a, Consumes (f a)) : Consumes (x >>= f) := by
  intro buf b rest h
  cases hx : x buf with
  | error fault =>
    rw [bind_error hx] at h
    cases h
  | ok r =>
    obtain ⟨a, middle⟩ := r
    rw [bind_ok hx] at h
    exact (second a middle b rest h).trans (first buf a middle hx)

theorem consumes_loadInt32 : Consumes loadInt32 := by
  intro buf a rest h
  rw [loadInt32_eq] at h
  split at h
  · cases h
    exact List.suffix_rfl
  · cases h

theorem consumes_retrieve (len : ℕ) : Consumes (retrieve len) := by
  intro buf a rest h
  unfold retrieve at h
  split at h
  · cases h
    exact List.drop_suffix len buf
  · cases h

theorem consumes_copyOut (imglen : Int) : Consumes (copyOut imglen) := by
  intro buf a rest h
  unfold copyOut at h
  split at h
  · cases h
    exact List.suffix_rfl
  · cases h

theorem consumes_readId : Consumes readId :=
  consumes_loadInt32.bind fun _ => (consumes_retrieve _).bind fun _ => .pure _

theorem consumes_takeImage (len : Int) (headers : ℕ) : Consumes (takeImage len headers) :=
  (consumes_copyOut _).bind fun _ => (consumes_retrieve _).bind fun _ => .pure _

theorem retrieve_ok {len : ℕ} {buf : Buffer} (h : len ≤ buf.length) :
    retrieve len buf = .ok ((), buf.drop len) := if_pos h

theorem loadInt32_ok {buf : Buffer} (h : 4 ≤ buf.length) :
    loadInt32 buf = .ok (declaredLength buf, buf) := by
  rw [loadInt32_eq, if_pos h]

theorem onFrame_eq {κ : Type} (dispatch : Int → Int → Buffered (Option κ)) (buf : Buffer) :
    queueOperations.onFrame dispatch buf =
      if buf.length ≤ 4 ∨ buf.length < toSizeT (declaredLength buf) then .ok (none, buf)
      else if buf.length < 8 then .error .overread
      else dispatch (declaredLength buf) (frameFlag buf) (buf.drop 8) := by
  have counted : ∀ b : Buffer, readableBytes b = .ok (b.length, b) := fun _ => rfl
  unfold Operations.onFrame kHeaderLen
  simp only [queueOperations]
  rw [bind_ok (counted buf)]
  by_cases short : buf.length ≤ 4
  · rw [if_neg (by omega), if_pos (Or.inl short)]
    rfl
  rw [if_pos (by omega), bind_ok (loadInt32_ok (by omega)), bind_ok (counted buf)]
  by_cases partly : buf.length < toSizeT (declaredLength buf)
  · rw [if_neg (by omega), if_pos (Or.inr partly)]
    rfl
  rw [if_pos (by omega), if_neg (by omega), bind_ok (retrieve_ok (by omega))]
  by_cases cut : buf.length < 8
  · rw [if_pos cut]
    refine bind_error ?_
    rw [loadInt32_eq, if_neg (by rw [List.length_drop]; omega)]
  · have long : 4 ≤ (buf.drop 4).length := by
      rw [List.length_drop]
      omega
    rw [if_neg cut, bind_ok (loadInt32_ok long), bind_ok (retrieve_ok long), List.drop_drop,
      networkToHost32_flag (Nat.not_lt.mp cut)]

theorem readId_eq (buf : Buffer) :
    readId buf =
      if 4 ≤ buf.length then .ok (declaredLength buf, buf.drop 4) else .error .overread := by
  unfold readId Operations.readId kHeaderLen
  simp only [queueOperations]
  by_cases h : 4 ≤ buf.length
  · rw [if_pos h, bind_ok (loadInt32_ok h), bind_ok (retrieve_ok h)]
    rfl
  · rw [if_neg h]
    refine bind_error ?_
    rw [loadInt32_eq, if_neg h]

theorem takeImage_eq {len : Int} (range : IsInt32 len) (nonneg : 0 ≤ len) {headers : ℕ}
    (few : headers ≤ 3) (buf : Buffer) :
    takeImage len headers buf =
      if 4 * headers ≤ len ∧ len ≤ 4 * headers + buf.length then
        .ok ((buf.take (len.toNat - 4 * headers), len - 4 * headers),
          buf.drop (len.toNat - 4 * headers))
      else .error .copy := by
  have imglen : toInt32 (toSizeT len - headers * kHeaderLen) = len - 4 * headers := by
    unfold IsInt32 at range
    unfold toInt32 toSizeT kHeaderLen
    omega
  unfold takeImage Operations.takeImage
  simp only [queueOperations]
  rw [imglen]
  by_cases fits : 4 * headers ≤ len ∧ len ≤ 4 * headers + buf.length
  · have copied : copyOut (len - 4 * headers) buf =
        .ok (buf.take (len.toNat - 4 * headers), buf) := by
      rw [copyOut, if_pos (by omega)]
      congr 4
      omega
    have size : toSizeT (len - 4 * headers) = len.toNat - 4 * headers := by
      unfold IsInt32 at range
      unfold toSizeT
      omega
    rw [if_pos fits]
    rw [bind_ok copied, size, bind_ok (retrieve_ok (by omega))]
    rfl
  · rw [if_neg fits]
    refine bind_error ?_
    rw [copyOut, if_neg (by omega)]

inductive Layout
  | raw (callback : List Byte → Int → Request)
  | tagged (callback : List Byte → Int → Int → Request)
  | query (callback : Int → Request)

def Service.layout : Service → Int → Option Layout
  | .compare, flag =>
    if flag = 0x636f6d70 then some (.raw .comp)
    else if flag = 0x61646466 then some (.tagged .addu)
    else if flag = 0x61646467 then some (.tagged .addg)
    else none
  | .guest, flag =>
    if flag = 0x6170706c then some (.tagged .add)
    else if flag = 0x71757279 then some (.query .query)
    else none

def Layout.body : Layout → Int → Buffered (Option Request)
  | .raw callback, len => do
    let (data, imglen) ← takeImage len 2
    return some (callback data imglen)
  | .tagged callback, len => do
    let id ← readId
    let (data, imglen) ← takeImage len 3
    return some (callback data imglen id)
  | .query callback, _ => do
    let id ← readId
    return some (callback id)

theorem dispatch_eq (service : Service) (len flag : Int) :
    service.dispatch len flag =
      match service.layout flag with
      | none => pure none
      | some layout => layout.body len := by
  cases service with
  | compare =>
    simp only [Service.dispatch, Operations.dispatch, Operations.compareDispatch, compareCodec,
      Service.layout]
    by_cases comp : flag = 0x636f6d70
    · simp only [if_pos comp, Layout.body]
      rfl
    by_cases user : flag = 0x61646466
    · simp only [if_neg comp, if_pos user, Layout.body]
      rfl
    by_cases guest : flag = 0x61646467
    · simp only [if_neg comp, if_neg user, if_pos guest, Layout.body]
      rfl
    · simp only [if_neg comp, if_neg user, if_neg guest]
  | guest =>
    simp only [Service.dispatch, Operations.dispatch, Operations.guestDispatch, guestCodec,
      Service.layout]
    by_cases add : flag = 0x6170706c
    · simp only [if_pos add, Layout.body]
      rfl
    by_cases query : flag = 0x71757279
    · simp only [if_neg add, if_pos query, Layout.body]
      rfl
    · simp only [if_neg add, if_neg query]

theorem consumes_body (layout : Layout) (len : Int) : Consumes (layout.body len) := by
  cases layout with
  | raw callback => exact (consumes_takeImage _ _).bind fun _ => .pure _
  | tagged callback =>
    exact consumes_readId.bind fun _ => (consumes_takeImage _ _).bind fun _ => .pure _
  | query callback => exact consumes_readId.bind fun _ => .pure _

theorem rawBody_eq (callback : List Byte → Int → Request) {len : Int} (range : IsInt32 len)
    (nonneg : 0 ≤ len) (buf : Buffer) :
    (Layout.raw callback).body len buf =
      if 8 ≤ len ∧ len ≤ 8 + buf.length then
        .ok (some (callback (buf.take (len.toNat - 8)) (len - 8)), buf.drop (len.toNat - 8))
      else .error .copy := by
  have image := takeImage_eq range nonneg (show 2 ≤ 3 by decide) buf
  norm_num at image
  rw [Layout.body]
  by_cases fits : 8 ≤ len ∧ len ≤ 8 + buf.length
  · rw [if_pos fits] at image ⊢
    rw [bind_ok image]
    rfl
  · rw [if_neg fits] at image ⊢
    exact bind_error image

theorem taggedBody_eq (callback : List Byte → Int → Int → Request) {len : Int}
    (range : IsInt32 len) (nonneg : 0 ≤ len) (buf : Buffer) :
    (Layout.tagged callback).body len buf =
      if buf.length < 4 then .error .overread
      else if 12 ≤ len ∧ len ≤ 8 + buf.length then
        .ok (some (callback ((buf.drop 4).take (len.toNat - 12)) (len - 12) (declaredLength buf)),
          buf.drop (len.toNat - 8))
      else .error .copy := by
  rw [Layout.body]
  by_cases cut : buf.length < 4
  · rw [if_pos cut]
    refine bind_error ?_
    rw [readId_eq, if_neg (by omega)]
  have id : readId buf = .ok (declaredLength buf, buf.drop 4) := by
    rw [readId_eq, if_pos (by omega)]
  have image := takeImage_eq range nonneg (show 3 ≤ 3 by decide) (buf.drop 4)
  norm_num at image
  rw [if_neg cut, bind_ok id]
  by_cases fits : 12 ≤ len ∧ len ≤ 8 + buf.length
  · rw [if_pos (by omega)] at image
    rw [if_pos fits, bind_ok image]
    rw [show 4 + (len.toNat - 12) = len.toNat - 8 by omega]
    rfl
  · rw [if_neg (by omega)] at image
    rw [if_neg fits]
    exact bind_error image

theorem queryBody_eq (callback : Int → Request) (len : Int) (buf : Buffer) :
    (Layout.query callback).body len buf =
      if buf.length < 4 then .error .overread
      else .ok (some (callback (declaredLength buf)), buf.drop 4) := by
  rw [Layout.body]
  by_cases cut : buf.length < 4
  · rw [if_pos cut]
    refine bind_error ?_
    rw [readId_eq, if_neg (by omega)]
  · have id : readId buf = .ok (declaredLength buf, buf.drop 4) := by
      rw [readId_eq, if_pos (by omega)]
    rw [if_neg cut, bind_ok id]
    rfl

end ARCServer.FrameCodec
