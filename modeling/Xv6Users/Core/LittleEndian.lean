import Xv6Users.Core.Buffers

/-!
# Little-endian numbers

A number as a fixed count of bytes, the lowest first, and words at an offset of a
list of bytes.
-/

namespace Xv6Users.LittleEndian

open Buffers List

/-- The lowest `count` bytes of a number. -/
def toBytes : ℕ → ℕ → List UInt8
  | 0, _ => []
  | count + 1, value => UInt8.ofNat value :: toBytes count (value / 256)

def ofBytes : List UInt8 → ℕ
  | [] => 0
  | byte :: rest => byte.toNat + 256 * ofBytes rest

@[simp]
theorem length_toBytes (count value : ℕ) : (toBytes count value).length = count := by
  induction count generalizing value with
  | zero => rfl
  | succ count ih => rw [toBytes, length_cons, ih]

theorem ofBytes_toBytes (count value : ℕ) :
    ofBytes (toBytes count value) = value % 256 ^ count := by
  induction count generalizing value with
  | zero => rw [toBytes, ofBytes, pow_zero, Nat.mod_one]
  | succ count ih =>
    have hbyte : (UInt8.ofNat value).toNat = value % 256 := UInt8.toNat_ofNat'
    rw [toBytes, ofBytes, ih, hbyte, pow_succ', Nat.mod_mul]

theorem toBytes_ofBytes (bytes : List UInt8) : toBytes bytes.length (ofBytes bytes) = bytes := by
  induction bytes with
  | nil => rfl
  | cons byte rest ih =>
    have hbyte : byte.toNat < 256 := byte.toNat_lt
    have hfirst : (byte.toNat + 256 * ofBytes rest) / 256 = ofBytes rest := by omega
    have hlow : UInt8.ofNat (byte.toNat + 256 * ofBytes rest) = byte := by
      apply UInt8.toNat_inj.1
      rw [UInt8.toNat_ofNat']
      omega
    rw [length_cons, toBytes, ofBytes, hfirst, ih, hlow]

@[simp]
theorem ofBytes_zero (count : ℕ) : ofBytes (replicate count 0) = 0 := by
  induction count with
  | zero => rfl
  | succ count ih => rw [replicate_succ, ofBytes, ih]; rfl

/-! ## Words at an offset -/

def word16 (off : ℕ) (bytes : List UInt8) : UInt16 :=
  UInt16.ofNat (ofBytes (field 2 off bytes))

def word32 (off : ℕ) (bytes : List UInt8) : UInt32 :=
  UInt32.ofNat (ofBytes (field 4 off bytes))

def bytes16 (value : UInt16) : List UInt8 :=
  toBytes 2 value.toNat

def bytes32 (value : UInt32) : List UInt8 :=
  toBytes 4 value.toNat

@[simp]
theorem length_bytes16 (value : UInt16) : (bytes16 value).length = 2 :=
  length_toBytes 2 _

@[simp]
theorem length_bytes32 (value : UInt32) : (bytes32 value).length = 4 :=
  length_toBytes 4 _

theorem word16_bytes16 (value : UInt16) : UInt16.ofNat (ofBytes (bytes16 value)) = value := by
  have hlt : value.toNat < 256 ^ 2 := value.toNat_lt
  rw [bytes16, ofBytes_toBytes, Nat.mod_eq_of_lt hlt, UInt16.ofNat_toNat]

theorem word32_bytes32 (value : UInt32) : UInt32.ofNat (ofBytes (bytes32 value)) = value := by
  have hlt : value.toNat < 256 ^ 4 := value.toNat_lt
  rw [bytes32, ofBytes_toBytes, Nat.mod_eq_of_lt hlt, UInt32.ofNat_toNat]

@[simp]
theorem word32_zero (off count : ℕ) : word32 off (replicate count 0) = 0 := by
  rw [word32, field, drop_replicate, take_replicate, ofBytes_zero]
  rfl

end Xv6Users.LittleEndian
