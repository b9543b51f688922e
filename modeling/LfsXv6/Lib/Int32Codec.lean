import LfsXv6.Lib.ByteFile

/-!
# Int32Codec — 32-bit integers in memory

Little-endian representation of a C `int` inside a byte memory, and the arithmetic facts that let
a proof pass between a C `int` and the natural number it denotes when nothing overflows.
-/

namespace LfsXv6
namespace Lib

/-! ## Little-endian bytes -/

/-- Byte `k` of the representation of `x`. -/
def intByte (x : Int32) (k : Nat) : UInt8 :=
  UInt8.ofNat (x.toBitVec.toNat / 256 ^ k)

/-- The `int` stored at offset `o`. -/
def getInt (m : Mem) (o : Nat) : Int32 :=
  Int32.ofNat ((m o).toNat + 256 * (m (o + 1)).toNat + 65536 * (m (o + 2)).toNat +
    16777216 * (m (o + 3)).toNat)

/-- Reading back the four bytes of an `int` gives the `int`. -/
theorem getInt_eq {m : Mem} {o : Nat} {x : Int32} (h : ∀ k, k < 4 → m (o + k) = intByte x k) :
    getInt m o = x := by
  have h0 := h 0 (by omega)
  have h1 := h 1 (by omega)
  have h2 := h 2 (by omega)
  have h3 := h 3 (by omega)
  have hlt : x.toBitVec.toNat < 2 ^ 32 := x.toBitVec.isLt
  rw [Nat.add_zero] at h0
  rw [getInt, h0, h1, h2, h3]
  simp only [intByte, UInt8.toNat_ofNat']
  have hsum : x.toBitVec.toNat / 256 ^ 0 % 2 ^ 8 + 256 * (x.toBitVec.toNat / 256 ^ 1 % 2 ^ 8) +
      65536 * (x.toBitVec.toNat / 256 ^ 2 % 2 ^ 8) +
      16777216 * (x.toBitVec.toNat / 256 ^ 3 % 2 ^ 8) = x.toBitVec.toNat := by
    omega
  rw [hsum, Int32.ofNat_bitVecToNat, Int32.ofBitVec_toBitVec]

theorem getInt_congr {m m' : Mem} {o : Nat} (h : ∀ k, k < 4 → m (o + k) = m' (o + k)) :
    getInt m o = getInt m' o := by
  have h0 := h 0 (by omega)
  rw [Nat.add_zero] at h0
  rw [getInt, getInt, h0, h 1 (by omega), h 2 (by omega), h 3 (by omega)]

/-! ## Arithmetic without overflow -/

section Arith

variable {x y : Int32}

theorem toInt_add_of_fits (h₁ : -2 ^ 31 ≤ x.toInt + y.toInt) (h₂ : x.toInt + y.toInt < 2 ^ 31) :
    (x + y).toInt = x.toInt + y.toInt := by
  rw [Int32.toInt_add]
  exact Int.bmod_eq_of_le (by omega) (by omega)

theorem toInt_mul_of_fits (h₁ : -2 ^ 31 ≤ x.toInt * y.toInt) (h₂ : x.toInt * y.toInt < 2 ^ 31) :
    (x * y).toInt = x.toInt * y.toInt := by
  rw [Int32.toInt_mul]
  exact Int.bmod_eq_of_le (by omega) (by omega)

end Arith

end Lib
end LfsXv6
