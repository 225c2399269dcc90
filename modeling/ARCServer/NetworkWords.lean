import ARCServer.MachineIntegers
import Mathlib.Data.Nat.Digits.Defs
import Mathlib.Tactic.Ring

/-! The byte order conversions of `Endian.h` for words of any width, on a
little-endian host. A word of `n` bytes is a two's complement value and an image
in memory; network order is the reversed image. -/

namespace ARCServer.NetworkWords

open MachineIntegers

def Fits (n : ℕ) (x : Int) : Prop := -(256 ^ n : ℕ) ≤ 2 * x ∧ 2 * x < (256 ^ n : ℕ)

instance (n : ℕ) (x : Int) : Decidable (Fits n x) := inferInstanceAs (Decidable (_ ∧ _))

def toUnsigned (n : ℕ) (x : Int) : ℕ := (x % (256 ^ n : ℕ)).toNat

def toSigned (n u : ℕ) : Int := if 2 * u < 256 ^ n then u else u - (256 ^ n : ℕ)

def lowBytes : ℕ → ℕ → List Byte
  | 0, _ => []
  | n + 1, u => UInt8.ofNat u :: lowBytes n (u / 256)

def hostImage (n : ℕ) (x : Int) : List Byte := lowBytes n (toUnsigned n x)

def ofHostImage (image : List Byte) : Int :=
  toSigned image.length (Nat.ofDigits 256 (image.map UInt8.toNat))

/-- `htobe16`, `htobe32` and `htobe64`. -/
def hostToNetwork (n : ℕ) (x : Int) : Int := ofHostImage (hostImage n x).reverse

/-- `be16toh`, `be32toh` and `be64toh`. -/
def networkToHost (n : ℕ) (x : Int) : Int := ofHostImage (hostImage n x).reverse

@[simp] theorem lowBytes_length (n u : ℕ) : (lowBytes n u).length = n := by
  induction n generalizing u with
  | zero => rfl
  | succ n ih => rw [lowBytes, List.length_cons, ih]

@[simp] theorem hostImage_length (n : ℕ) (x : Int) : (hostImage n x).length = n :=
  lowBytes_length n _

theorem ofDigits_lowBytes (n u : ℕ) :
    Nat.ofDigits 256 ((lowBytes n u).map UInt8.toNat) = u % 256 ^ n := by
  induction n generalizing u with
  | zero => simp [lowBytes, Nat.mod_one]
  | succ n ih =>
    have split : u % 256 ^ (n + 1) = u % 256 + 256 * (u / 256 % 256 ^ n) := by
      rw [pow_succ', Nat.mod_mul]
    rw [lowBytes, List.map_cons, Nat.ofDigits_cons, ih, UInt8.toNat_ofNat', split]

theorem lowBytes_ofDigits (image : List Byte) :
    lowBytes image.length (Nat.ofDigits 256 (image.map UInt8.toNat)) = image := by
  induction image with
  | nil => rfl
  | cons b bs ih =>
    have small := b.toNat_lt
    rw [List.map_cons, Nat.ofDigits_cons, List.length_cons, lowBytes]
    congr 1
    · rw [← UInt8.toNat_inj, UInt8.toNat_ofNat']
      omega
    · rw [show (b.toNat + 256 * Nat.ofDigits 256 (bs.map UInt8.toNat)) / 256 =
        Nat.ofDigits 256 (bs.map UInt8.toNat) by omega, ih]

theorem ofDigits_lt (image : List Byte) :
    Nat.ofDigits 256 (image.map UInt8.toNat) < 256 ^ image.length := by
  have bound : Nat.ofDigits 256 (image.map UInt8.toNat) <
      256 ^ (image.map UInt8.toNat).length := by
    refine Nat.ofDigits_lt_base_pow_length (by decide) fun d mem => ?_
    obtain ⟨b, -, rfl⟩ := List.mem_map.mp mem
    exact b.toNat_lt
  rwa [List.length_map] at bound

theorem toUnsigned_lt (n : ℕ) (x : Int) : toUnsigned n x < 256 ^ n := by
  have pos : 0 < 256 ^ n := Nat.pow_pos (by decide)
  unfold toUnsigned
  generalize 256 ^ n = base at pos
  have bound := Int.emod_lt_of_pos x (show (0 : Int) < base by omega)
  omega

theorem toUnsigned_toSigned {n u : ℕ} (small : u < 256 ^ n) :
    toUnsigned n (toSigned n u) = u := by
  unfold toUnsigned toSigned
  generalize 256 ^ n = base at small
  split
  · rw [Int.emod_eq_of_lt (by omega) (by omega)]
    omega
  · rw [Int.sub_emod_right, Int.emod_eq_of_lt (by omega) (by omega)]
    omega

theorem toSigned_toUnsigned {n : ℕ} {x : Int} (h : Fits n x) :
    toSigned n (toUnsigned n x) = x := by
  unfold Fits at h
  unfold toUnsigned toSigned
  generalize 256 ^ n = base at h
  by_cases neg : x < 0
  · rw [show x % (base : Int) = x + base by
      rw [← Int.add_emod_right]
      exact Int.emod_eq_of_lt (by omega) (by omega)]
    split <;> omega
  · rw [Int.emod_eq_of_lt (by omega) (by omega)]
    split <;> omega

theorem hostImage_ofHostImage (image : List Byte) :
    hostImage image.length (ofHostImage image) = image := by
  unfold hostImage ofHostImage
  rw [toUnsigned_toSigned (ofDigits_lt image), lowBytes_ofDigits]

theorem ofHostImage_hostImage {n : ℕ} {x : Int} (h : Fits n x) :
    ofHostImage (hostImage n x) = x := by
  unfold ofHostImage hostImage
  rw [ofDigits_lowBytes, lowBytes_length, Nat.mod_eq_of_lt (toUnsigned_lt n x),
    toSigned_toUnsigned h]

theorem hostImage_hostToNetwork (n : ℕ) (x : Int) :
    hostImage n (hostToNetwork n x) = (hostImage n x).reverse := by
  have image := hostImage_ofHostImage (hostImage n x).reverse
  rwa [List.length_reverse, hostImage_length] at image

theorem networkToHost_ofHostImage {n : ℕ} {x : Int} (h : Fits n x) :
    networkToHost n (ofHostImage (hostImage n x).reverse) = x := by
  unfold networkToHost
  rw [show hostImage n (ofHostImage (hostImage n x).reverse) = (hostImage n x).reverse from
    hostImage_hostToNetwork n x, List.reverse_reverse, ofHostImage_hostImage h]

end ARCServer.NetworkWords
