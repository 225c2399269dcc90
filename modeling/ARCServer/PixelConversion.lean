import ARCServer.FaceSdk
import Mathlib.Tactic.Ring

/-! The loop that turns four bytes a pixel into three. It counts the bytes of the target
while it walks the source, so it stops after three quarters of the picture; and the
target is sized from the raw bytes, the description from the width. -/

namespace ARCServer.PixelConversion

open MachineIntegers FaceSdk

section Loop

variable (rawdata : List Byte) (size : ℕ)

def copied (k : ℕ) : CopyState :=
  (List.range k).foldl (copyStep rawdata) ⟨malloc size, 0⟩

theorem copied_succ (k : ℕ) :
    copied rawdata size (k + 1) = copyStep rawdata (copied rawdata size k) k := by
  rw [copied, List.range_succ, List.foldl_append]
  rfl

theorem bmpdata_eq_copied (img : QImage) :
    bmpdata img = (copied img.bits (bmpSize img) (bmpSize img)).bmpdata := rfl

theorem ptr_bmp_copied (k : ℕ) : (copied rawdata size k).ptr_bmp = k - k / 4 := by
  induction k with
  | zero => rfl
  | succ k ih =>
    rw [copied_succ, copyStep]
    split
    · rw [ih]
      omega
    · dsimp only
      rw [ih]
      omega

theorem length_copied (k : ℕ) : (copied rawdata size k).bmpdata.length = size := by
  induction k with
  | zero => exact List.length_replicate
  | succ k ih =>
    rw [copied_succ, copyStep]
    split
    · exact ih
    · exact List.length_set.trans ih

/-- Byte `j` of the target is byte `j + j / 3` of the source, from the round on that reads it. -/
theorem getElem?_copied (k : ℕ) {j : ℕ} (inside : j < size) :
    (copied rawdata size k).bmpdata[j]? =
      some (if j + j / 3 < k then rawdata[j + j / 3]? else none) := by
  induction k with
  | zero =>
    rw [if_neg (Nat.not_lt_zero _)]
    exact List.getElem?_replicate_of_lt inside
  | succ k ih =>
    rw [copied_succ, copyStep]
    by_cases fourth : (k + 1) % 4 = 0
    · have same : j + j / 3 < k + 1 ↔ j + j / 3 < k := by omega
      rw [if_pos fourth, ih]
      simp only [same]
    · rw [if_neg fourth]
      dsimp only
      by_cases here : j = k - k / 4
      · have source : j + j / 3 = k := by omega
        rw [ptr_bmp_copied, ← here, source, if_pos (Nat.lt_succ_self k)]
        exact List.getElem?_set_self ((length_copied rawdata size k).symm ▸ inside)
      · have same : j + j / 3 < k + 1 ↔ j + j / 3 < k := by omega
        rw [ptr_bmp_copied, List.getElem?_set_ne (Ne.symm here), ih]
        simp only [same]

end Loop

section Pixels

variable {img : QImage}

theorem byteCount_eq (img : QImage) :
    img.byteCount = img.height * bytesPerLine img.width img.depth := img.bits_length

theorem byteCount_rgb32 (depth : img.depth = 32) :
    img.byteCount = 4 * (img.width * img.height) := by
  have line : bytesPerLine img.width 32 = 4 * img.width := by
    unfold bytesPerLine
    omega
  rw [byteCount_eq, depth, line]
  ring

theorem bmpSize_rgb32 (depth : img.depth = 32) : bmpSize img = 3 * (img.width * img.height) := by
  rw [bmpSize, byteCount_rgb32 depth]
  omega

def Converted (img : QImage) (p c : ℕ) : Prop :=
  ∃ b, img.bits[4 * p + c]? = some b ∧ (bmpdata img)[3 * p + c]? = some (some b)

theorem converted_iff (depth : img.depth = 32) {p c : ℕ} (pixel : p < img.width * img.height)
    (channel : c < 3) : Converted img p c ↔ 4 * p + c < 3 * (img.width * img.height) := by
  have source : 3 * p + c + (3 * p + c) / 3 = 4 * p + c := by omega
  have raw : 4 * p + c < img.bits.length := by
    have count := byteCount_rgb32 depth
    rw [QImage.byteCount] at count
    omega
  rw [Converted, bmpdata_eq_copied, getElem?_copied _ _ _ (by rw [bmpSize_rgb32 depth]; omega),
    source, bmpSize_rgb32 depth, List.getElem?_eq_getElem raw]
  by_cases reached : 4 * p + c < 3 * (img.width * img.height)
  · rw [if_pos reached]
    exact iff_of_true ⟨_, rfl, rfl⟩ reached
  · rw [if_neg reached]
    refine iff_of_false ?_ reached
    rintro ⟨b, -, uninitialised⟩
    cases uninitialised

def Complete (img : QImage) : Prop :=
  ∀ p < img.width * img.height, ∀ c < 3, Converted img p c

/-- The conversion of a picture with 32 bits a pixel is complete only for a single pixel. -/
theorem complete_iff (img : QImage) (depth : img.depth = 32) (wide : 1 ≤ img.width)
    (high : 1 ≤ img.height) : Complete img ↔ img.width * img.height = 1 := by
  have some_pixel : 0 < img.width * img.height := Nat.mul_pos wide high
  constructor
  · intro complete
    have last := (converted_iff depth (Nat.sub_lt some_pixel Nat.one_pos) (by decide)).mp
      (complete (img.width * img.height - 1) (Nat.sub_lt some_pixel Nat.one_pos) 2 (by decide))
    omega
  · intro single p pixel c channel
    apply (converted_iff depth pixel channel).mpr
    omega

theorem complete_onePixel : Complete onePixel :=
  (complete_iff onePixel rfl le_rfl le_rfl).mpr rfl

def twoPixels : QImage := ⟨2, 1, 32, [1, 2, 3, 0xff, 4, 5, 6, 0xff], rfl⟩

/-- The last byte of the second pixel is never written. -/
theorem twoPixels_incomplete :
    bmpdata twoPixels = [some 1, some 2, some 3, some 4, some 5, none] ∧ ¬ Complete twoPixels := by
  refine ⟨by decide, fun complete => ?_⟩
  have last := (converted_iff rfl (by decide) (by decide)).mp (complete 1 (by decide) 2 (by decide))
  exact absurd last (by decide)

end Pixels

section Buffer

variable {img : QImage}

def depths : List ℕ := [1, 8, 16, 24, 32, 64]

/-- The rows that are described to the SDK lie in the buffer, and so does everything that
the loop reads and writes. -/
structure InsideBuffer (img : QImage) : Prop where
  described : ∃ pitch : Int, (faceInputImg img).pi32Pitch[0]? = some (some pitch) ∧
    img.height * pitch ≤ (faceInputImg img).data.length
  read : ∀ i < bmpSize img, i < img.byteCount
  written : ∀ i < bmpSize img, (i + 1) % 4 ≠ 0 →
    (copied img.bits (bmpSize img) i).ptr_bmp < bmpSize img

theorem faceInputImg_pitch (img : QImage) :
    (faceInputImg img).pi32Pitch[0]? = some (some (img.width * 3 : Int)) := rfl

theorem faceInputImg_data_length (img : QImage) : (faceInputImg img).data.length = bmpSize img :=
  length_copied img.bits (bmpSize img) (bmpSize img)

theorem loop_inside (img : QImage) : (∀ i < bmpSize img, i < img.byteCount) ∧
    ∀ i < bmpSize img, (i + 1) % 4 ≠ 0 →
      (copied img.bits (bmpSize img) i).ptr_bmp < bmpSize img := by
  constructor
  · intro i inside
    unfold bmpSize at inside
    omega
  · intro i inside _
    rw [ptr_bmp_copied]
    omega

theorem described_iff (high : 1 ≤ img.height) :
    (img.height * (img.width * 3) ≤ bmpSize img) ↔ 32 * img.width ≤ img.width * img.depth + 31 := by
  have size : bmpSize img = img.height * ((img.width * img.depth + 31) / 32 * 3) := by
    rw [bmpSize, byteCount_eq, bytesPerLine, ← Nat.mul_assoc, Nat.mul_div_cancel _ (by decide),
      Nat.mul_assoc]
  rw [size, Nat.mul_le_mul_left_iff high]
  omega

/-- What is described lies in the buffer exactly for 32 and 64 bits a pixel, for a picture of
24 bits at most three pixels wide, and for one of a single column. -/
theorem insideBuffer_iff (img : QImage) (depth : img.depth ∈ depths) (wide : 1 ≤ img.width)
    (high : 1 ≤ img.height) :
    InsideBuffer img ↔ 32 ≤ img.depth ∨ img.depth = 24 ∧ img.width ≤ 3 ∨ img.width = 1 := by
  have fits : InsideBuffer img ↔ img.height * (img.width * 3) ≤ bmpSize img := by
    constructor
    · rintro ⟨⟨pitch, first, inside⟩, -, -⟩
      rw [faceInputImg_pitch] at first
      cases first
      rw [faceInputImg_data_length] at inside
      exact_mod_cast inside
    · intro inside
      refine ⟨⟨_, faceInputImg_pitch img, ?_⟩, (loop_inside img).1, (loop_inside img).2⟩
      rw [faceInputImg_data_length]
      exact_mod_cast inside
  rw [fits, described_iff high]
  simp only [depths, List.mem_cons, List.not_mem_nil, or_false] at depth
  rcases depth with d | d | d | d | d | d <;> rw [d] <;> omega

theorem insideBuffer_onePixel : InsideBuffer onePixel :=
  (insideBuffer_iff onePixel (by decide) le_rfl le_rfl).mpr (.inl (by decide))

def greyPicture : QImage := ⟨2, 1, 8, [0x80, 0x80, 0, 0], rfl⟩

theorem greyPicture_outside : bmpSize greyPicture = 3 ∧
    (faceInputImg greyPicture).pi32Pitch[0]? = some (some 6) ∧ ¬ InsideBuffer greyPicture := by
  refine ⟨rfl, rfl, ?_⟩
  rintro ⟨⟨pitch, first, inside⟩, -, -⟩
  cases first
  exact absurd inside (by decide)

end Buffer

end ARCServer.PixelConversion
