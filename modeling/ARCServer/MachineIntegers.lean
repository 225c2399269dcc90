import Mathlib.Tactic.Common

/-! Conversions between the integer types of a 64-bit little-endian C++ target.
Values are mathematical integers; every conversion that can change a value is
written out. The four bytes of an `int32_t` are listed in address order. -/

namespace ARCServer.MachineIntegers

abbrev Byte := UInt8

def IsInt32 (x : Int) : Prop := -2147483648 ≤ x ∧ x < 2147483648

instance (x : Int) : Decidable (IsInt32 x) := inferInstanceAs (Decidable (_ ∧ _))

/-- Conversion to `int32_t`: the value modulo 2^32, in two's complement. -/
def toInt32 (x : Int) : Int := (x + 2147483648) % 4294967296 - 2147483648

def toUInt32 (x : Int) : Nat := (x % 4294967296).toNat

/-- Conversion to the 64-bit `size_t`; a negative value becomes a huge one. -/
def toSizeT (x : Int) : Nat := (x % 18446744073709551616).toNat

theorem toInt32_isInt32 (x : Int) : IsInt32 (toInt32 x) := by
  unfold IsInt32 toInt32
  omega

theorem toSizeT_of_nonneg {x : Int} (h : IsInt32 x) (nonneg : 0 ≤ x) :
    toSizeT x = x.toNat := by
  unfold IsInt32 at h
  unfold toSizeT
  omega

theorem toSizeT_natCast {n : Nat} (h : n < 2147483648) : toSizeT n = n := by
  unfold toSizeT
  omega

/-- No count below 2^63 reaches a negative `int` converted to `size_t`. -/
theorem lt_toSizeT_of_neg {x : Int} (h : IsInt32 x) (neg : x < 0) {n : Nat}
    (small : n < 9223372036854775808) : n < toSizeT x := by
  unfold IsInt32 at h
  unfold toSizeT
  omega

def hostWord (b0 b1 b2 b3 : Byte) : Int :=
  toInt32 (b0.toNat + 256 * b1.toNat + 65536 * b2.toNat + 16777216 * b3.toNat)

def byteSwap (n : Nat) : Nat :=
  16777216 * (n % 256) + 65536 * (n / 256 % 256) + 256 * (n / 65536 % 256) +
    n / 16777216 % 256

/-- `sockets::networkToHost32`, with the conversions of its call sites. -/
def networkToHost32 (net : Int) : Int := toInt32 (byteSwap (toUInt32 net))

def hostBytes (x : Int) : List Byte :=
  [UInt8.ofNat (toUInt32 x), UInt8.ofNat (toUInt32 x / 256),
    UInt8.ofNat (toUInt32 x / 65536), UInt8.ofNat (toUInt32 x / 16777216)]

def networkBytes (x : Int) : List Byte := (hostBytes x).reverse

@[simp] theorem hostBytes_length (x : Int) : (hostBytes x).length = 4 := rfl

@[simp] theorem networkBytes_length (x : Int) : (networkBytes x).length = 4 := rfl

theorem hostWord_isInt32 (b0 b1 b2 b3 : Byte) : IsInt32 (hostWord b0 b1 b2 b3) :=
  toInt32_isInt32 _

theorem toUInt32_hostWord (b0 b1 b2 b3 : Byte) :
    toUInt32 (hostWord b0 b1 b2 b3) =
      b0.toNat + 256 * b1.toNat + 65536 * b2.toNat + 16777216 * b3.toNat := by
  have h0 := b0.toNat_lt
  have h1 := b1.toNat_lt
  have h2 := b2.toNat_lt
  have h3 := b3.toNat_lt
  unfold toUInt32 hostWord toInt32
  omega

theorem networkToHost32_hostWord (b0 b1 b2 b3 : Byte) :
    networkToHost32 (hostWord b0 b1 b2 b3) = hostWord b3 b2 b1 b0 := by
  have h0 := b0.toNat_lt
  have h1 := b1.toNat_lt
  have h2 := b2.toNat_lt
  have h3 := b3.toNat_lt
  unfold networkToHost32
  rw [toUInt32_hostWord]
  refine congrArg toInt32 ?_
  unfold byteSwap
  omega

theorem hostWord_hostBytes {x : Int} (h : IsInt32 x) :
    hostWord (UInt8.ofNat (toUInt32 x)) (UInt8.ofNat (toUInt32 x / 256))
      (UInt8.ofNat (toUInt32 x / 65536)) (UInt8.ofNat (toUInt32 x / 16777216)) = x := by
  unfold IsInt32 at h
  have word : toUInt32 x < 4294967296 := by
    unfold toUInt32
    omega
  have value : toInt32 (toUInt32 x) = x := by
    unfold toInt32 toUInt32
    omega
  refine Eq.trans (congrArg toInt32 ?_) value
  simp only [UInt8.toNat_ofNat']
  omega

end ARCServer.MachineIntegers
