import Mathlib

/-!
# Bitmaps

A list of bytes as a set of numbers, with eight to a byte.
-/

namespace Xv6Users.Bitmap

open List

def mask (index : ℕ) : UInt8 :=
  1 <<< UInt8.ofNat (index % 8)

def testBit (bytes : List UInt8) (index : ℕ) : Bool :=
  bytes.getD (index / 8) 0 &&& mask index ≠ 0

def setBit (bytes : List UInt8) (index : ℕ) : List UInt8 :=
  bytes.set (index / 8) (bytes.getD (index / 8) 0 ||| mask index)

def clearBit (bytes : List UInt8) (index : ℕ) : List UInt8 :=
  bytes.set (index / 8) (bytes.getD (index / 8) 0 &&& ~~~mask index)

@[simp]
theorem length_setBit (bytes : List UInt8) (index : ℕ) :
    (setBit bytes index).length = bytes.length := length_set

@[simp]
theorem length_clearBit (bytes : List UInt8) (index : ℕ) :
    (clearBit bytes index).length = bytes.length := length_set

theorem toNat_mask (index : ℕ) : (mask index).toNat = 2 ^ (index % 8) := by
  have hlt : index % 8 < 8 := Nat.mod_lt _ (by decide)
  rw [mask]
  interval_cases index % 8 <;> rfl

theorem and_mask_ne_zero (byte : UInt8) (index : ℕ) :
    byte &&& mask index ≠ 0 ↔ byte.toNat.testBit (index % 8) := by
  have hvalue : (byte &&& mask index).toNat =
      (byte.toNat.testBit (index % 8)).toNat * 2 ^ (index % 8) := by
    rw [UInt8.toNat_and, toNat_mask, Nat.and_two_pow]
  rw [ne_eq, ← UInt8.toNat_inj, hvalue]
  cases byte.toNat.testBit (index % 8) with
  | false => simp
  | true => simp

theorem or_mask (byte : UInt8) (index other : ℕ) :
    (byte ||| mask index).toNat.testBit (other % 8) =
      (byte.toNat.testBit (other % 8) || decide (index % 8 = other % 8)) := by
  rw [UInt8.toNat_or, Nat.testBit_or, toNat_mask, Nat.testBit_two_pow]

theorem testBit_eq (bytes : List UInt8) (index : ℕ) :
    testBit bytes index = (bytes.getD (index / 8) 0).toNat.testBit (index % 8) := by
  rw [testBit, Bool.eq_iff_iff, decide_eq_true_eq]
  exact and_mask_ne_zero _ _

theorem testBit_setBit {bytes : List UInt8} {index : ℕ} (hindex : index / 8 < bytes.length)
    (other : ℕ) :
    testBit (setBit bytes index) other = (testBit bytes other || decide (index = other)) := by
  rw [testBit_eq, testBit_eq, setBit]
  by_cases hbyte : index / 8 = other / 8
  · rw [← hbyte, getD_eq_getElem?_getD, getElem?_set_self hindex, Option.getD_some, or_mask]
    have hsame : index % 8 = other % 8 ↔ index = other := by omega
    simp [hsame]
  · have hne : index ≠ other := fun hsame => hbyte (by rw [hsame])
    rw [getD_eq_getElem?_getD, getElem?_set_ne hbyte, ← getD_eq_getElem?_getD]
    simp [hne]

end Xv6Users.Bitmap
