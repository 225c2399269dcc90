import ARCServer.MachineIntegers
import Mathlib.Algebra.Ring.Int.Defs

/-! Images, features and the face SDK. The SDK is outside of this repository: each of
its calls may answer anything that its interface allows, and a call that does not
return `MOK` may leave its output unwritten. A feature is handed out as a pointer
into memory that belongs to the engine, good until the next extraction there. -/

namespace ARCServer.FaceSdk

open MachineIntegers

def mok : Int := 0

abbrev Failure := {code : Int // code ≠ mok}

inductive MFloat
  | dyadic (m : Int) (k : ℕ)
  | infinity
  | negInfinity
  | nan
  deriving DecidableEq, Repr

/-- The comparison `res > 0.95`. No `float` lies between the `double` 0.95 and 19/20. -/
def MFloat.isMatch : MFloat → Bool
  | .dyadic m k => 19 * 2 ^ k < 20 * m
  | .infinity => true
  | .negInfinity => false
  | .nan => false

/-- Where a feature can be: one of the result buffers of an engine, or a `malloc`ed block. -/
inductive Ptr
  | null
  | engine (e slot : ℕ)
  | block (k : ℕ)
  deriving DecidableEq, Repr

structure FaceModel where
  pbFeature : Ptr
  lFeatureSize : Int
  deriving DecidableEq, Repr

def FaceModel.zero : FaceModel := ⟨.null, 0⟩

abbrev Memory := Ptr → ℕ → Byte

def bytesOf (memory : Memory) (model : FaceModel) : List Byte :=
  (List.range model.lFeatureSize.toNat).map (memory model.pbFeature)

theorem bytesOf_eq_iff {memory memory' : Memory} {model : FaceModel} :
    bytesOf memory' model = bytesOf memory model ↔
      ∀ i < model.lFeatureSize.toNat, memory' model.pbFeature i = memory model.pbFeature i := by
  rw [bytesOf, bytesOf, List.map_inj_left]
  exact forall_congr' fun i => imp_congr_left List.mem_range

section Images

def bytesPerLine (width depth : ℕ) : ℕ := (width * depth + 31) / 32 * 4

structure QImage where
  width : ℕ
  height : ℕ
  depth : ℕ
  bits : List Byte
  bits_length : bits.length = height * bytesPerLine width depth
  deriving DecidableEq, Repr

def QImage.byteCount (img : QImage) : ℕ := img.bits.length

def malloc (size : ℕ) : List (Option Byte) := List.replicate size none

structure CopyState where
  bmpdata : List (Option Byte)
  ptr_bmp : ℕ
  deriving DecidableEq, Repr

/-- One round of the loop that drops every fourth byte. -/
def copyStep (rawdata : List Byte) (s : CopyState) (i : ℕ) : CopyState :=
  if (i + 1) % 4 = 0 then s else ⟨s.bmpdata.set s.ptr_bmp rawdata[i]?, s.ptr_bmp + 1⟩

def bmpSize (img : QImage) : ℕ := img.byteCount / 4 * 3

def bmpdata (img : QImage) : List (Option Byte) :=
  ((List.range (bmpSize img)).foldl (copyStep img.bits) ⟨malloc (bmpSize img), 0⟩).bmpdata

/-- `ASVLOFFSCREEN`. A plane is its offset into `data`; a plane or pitch that the
code does not set is `none`. -/
structure OffScreen where
  u32PixelArrayFormat : ℕ
  i32Width : Int
  i32Height : Int
  data : List (Option Byte)
  ppu8Plane : List (Option Int)
  pi32Pitch : List (Option Int)
  deriving DecidableEq, Repr

def asvlPafRgb24B8g8r8 : ℕ := 0x201
def asvlPafYuyv : ℕ := 0x501
def asvlPafI420 : ℕ := 0x601
def asvlPafI422h : ℕ := 0x603
def asvlPafNv12 : ℕ := 0x801
def asvlPafNv21 : ℕ := 0x802
def asvlPafLpi422h : ℕ := 0x803

/-- Planes after the first and the pitches, or `none` for a format that is not supported. -/
def planesOf (width height : Int) (format : ℕ) : Option (List (Option Int) × List (Option Int)) :=
  if format = asvlPafI420 then
    let plane₁ := width * height
    some ([some plane₁, some (plane₁ + (width.tdiv 2 * height).tdiv 2), none],
      [some width, some (width.tdiv 2), some (width.tdiv 2), none])
  else if format = asvlPafNv12 then
    some ([some (width * height), none, none], [some width, some width, none, none])
  else if format = asvlPafNv21 then
    some ([some (width * height), none, none], [some width, some width, none, none])
  else if format = asvlPafYuyv then
    some ([none, none, none], [some (width * 2), none, none, none])
  else if format = asvlPafI422h then
    let plane₁ := width * height
    some ([some plane₁, some (plane₁ + width.tdiv 2 * height), none],
      [some width, some (width.tdiv 2), some (width.tdiv 2), none])
  else if format = asvlPafLpi422h then
    some ([some (width * height), none, none], [some width, some width, none, none])
  else if format = asvlPafRgb24B8g8r8 then
    some ([none, none, none], [some (width * 3), none, none, none])
  else none

/-- The description is filled in before the format is looked at. -/
def getFaceInputImg (data : List (Option Byte)) (width height : Int) (format : ℕ) :
    Int × OffScreen :=
  match planesOf width height format with
  | some (planes, pitches) => (0, ⟨format, width, height, data, some 0 :: planes, pitches⟩)
  | none =>
    (-1, ⟨format, width, height, data, [some 0, none, none, none], [none, none, none, none]⟩)

def faceInputImg (img : QImage) : OffScreen :=
  (getFaceInputImg (bmpdata img) img.width img.height asvlPafRgb24B8g8r8).2

end Images

section Calls

/-- `QImage::loadFromData` looks at the header of the data or is told the format. -/
inductive ImageFormat
  | fromHeader
  | jpg
  deriving DecidableEq, Repr

structure Rect where
  left : Int
  top : Int
  right : Int
  bottom : Int
  deriving DecidableEq, Repr

structure FaceInput where
  rcFace : Rect
  lOrient : Int
  deriving DecidableEq, Repr

def afrFsdkFoc0 : Int := 1

/-- The answer of `AFD_FSDK_StillImageFaceDetection`: on success `faceResult`
points to the faces. -/
inductive Detection
  | ok (nFace : Int) (rcFace : ℕ → Rect)
  | failed (code : Failure)

/-- The answer of `AFR_FSDK_ExtractFRFeature`: on success the buffer of the engine and
the feature put there; otherwise the model may or may not have been written. -/
inductive Extraction
  | ok (slot : ℕ) (feature : List Byte)
  | failed (code : Failure) (written : Option FaceModel)

inductive Matching
  | ok (score : MFloat)
  | failed (code : Failure) (written : Option MFloat)
  deriving DecidableEq

structure Outside where
  image : Option QImage := none
  detection : Detection := .failed ⟨-1, by decide⟩
  extraction : Extraction := .failed ⟨-1, by decide⟩ none
  scratch : ℕ → ℕ → Byte := fun _ _ => 0
  matching : Matching := .ok (.dyadic 0 0)
  uninitialised : MFloat := .dyadic 0 0
  exec : Bool := true

def Extraction.model (e : ℕ) (before : FaceModel) : Extraction → FaceModel
  | .ok slot feature => ⟨.engine e slot, feature.length⟩
  | .failed _ written => written.getD before

/-- The buffers of an engine after an extraction: only the new feature is promised. -/
def Extraction.buffers (scratch : ℕ → ℕ → Byte) : Extraction → ℕ → ℕ → Byte
  | .ok slot feature => fun k i => if k = slot then feature[i]?.getD (scratch k i) else scratch k i
  | .failed _ _ => scratch

def Matching.score (before : MFloat) : Matching → MFloat
  | .ok score => score
  | .failed _ written => written.getD before

def overwrite (e : ℕ) (buffers : ℕ → ℕ → Byte) (memory : Memory) : Memory
  | .engine e' slot => if e' = e then buffers slot else memory (.engine e' slot)
  | p => memory p

@[simp] theorem overwrite_block (e : ℕ) (buffers : ℕ → ℕ → Byte) (memory : Memory) (k : ℕ) :
    overwrite e buffers memory (.block k) = memory (.block k) := rfl

theorem overwrite_other {e e' : ℕ} (h : e' ≠ e) (buffers : ℕ → ℕ → Byte) (memory : Memory)
    (slot : ℕ) : overwrite e buffers memory (.engine e' slot) = memory (.engine e' slot) :=
  if_neg h

@[simp] theorem overwrite_self (e : ℕ) (buffers : ℕ → ℕ → Byte) (memory : Memory) (slot : ℕ) :
    overwrite e buffers memory (.engine e slot) = buffers slot := if_pos rfl

theorem bytesOf_extracted (e slot : ℕ) (feature : List Byte) (scratch : ℕ → ℕ → Byte)
    (memory : Memory) :
    bytesOf (overwrite e ((Extraction.ok slot feature).buffers scratch) memory)
      ⟨.engine e slot, feature.length⟩ = feature := by
  apply List.ext_getElem
  · rw [bytesOf, List.length_map, List.length_range, Int.toNat_natCast]
  · intro i _ inside
    simp [bytesOf, Extraction.buffers, inside]

/-- An extraction on engine `e` uses the buffer that the model points into, and does not
happen to put the same bytes there. -/
def Outside.replaces (outside : Outside) (e : ℕ) (memory : Memory) (model : FaceModel) : Bool :=
  match model.pbFeature with
  | .engine e' slot => e' == e && (List.range model.lFeatureSize.toNat).any fun i =>
      outside.extraction.buffers outside.scratch slot i != memory (.engine e' slot) i
  | .null | .block _ => false

theorem bytesOf_overwrite_iff {outside : Outside} {e : ℕ} {memory : Memory} {model : FaceModel} :
    bytesOf (overwrite e (outside.extraction.buffers outside.scratch) memory) model =
      bytesOf memory model ↔ outside.replaces e memory model = false := by
  rw [bytesOf_eq_iff, Outside.replaces]
  split
  · next e' slot points =>
    rw [points]
    by_cases same : e' = e
    · subst same
      simp [List.any_eq_false]
    · simp [overwrite_other same, same]
  · next points => simp [points, overwrite]
  · next points => simp [points]

def onePixel : QImage := ⟨1, 1, 32, [0xff, 0xff, 0xff, 0xff], rfl⟩

def oneFace (bytes : List Byte) : Outside where
  image := some onePixel
  detection := .ok 1 fun _ => ⟨0, 0, 1, 1⟩
  extraction := .ok 0 bytes

end Calls

end ARCServer.FaceSdk
