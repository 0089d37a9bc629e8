import Mathlib.Tactic

/-!
# Masked CRC-32C checksums

`crc32c::Extend` continues a checksum over more bytes; the law it documents is the
field `extend_append`. Stored checksums are masked by a rotation and an addition,
and `Unmask` undoes both. The bit-at-a-time reference shows that the law is
satisfied by CRC-32C itself.
-/

namespace Tension.Io

/-- `crc32c::Extend` with the law its interface documents. -/
structure Crc where
  /-- Extend a checksum by further bytes. -/
  extend : UInt32 → List UInt8 → UInt32
  /-- Extending twice is extending by the concatenation. -/
  extend_append : ∀ c a b, extend (extend c a) b = extend c (a ++ b)

namespace Crc

/-- `crc32c::Value`. -/
def value (crc : Crc) (data : List UInt8) : UInt32 := crc.extend 0 data

/-- `kMaskDelta`. -/
def kMaskDelta : UInt32 := 0xa282ead8

/-- `crc32c::Mask`: rotate right by 15 bits and add a constant. -/
def mask (crc : UInt32) : UInt32 := ((crc >>> 15) ||| (crc <<< 17)) + kMaskDelta

/-- `crc32c::Unmask`. -/
def unmask (masked : UInt32) : UInt32 :=
  let rot := masked - kMaskDelta
  (rot >>> 17) ||| (rot <<< 15)

variable (c : UInt32)

/-- Rotating right by 15 bits and then by 17 more bits is the identity. -/
theorem rotate_rotate :
    (((c >>> 15) ||| (c <<< 17)) >>> 17) ||| (((c >>> 15) ||| (c <<< 17)) <<< 15) = c := by
  apply UInt32.toBitVec_inj.mp
  apply BitVec.eq_of_getLsbD_eq
  intro i hi
  interval_cases i <;> simp

theorem unmask_mask : unmask (mask c) = c := by
  unfold unmask mask
  rw [UInt32.add_sub_cancel]
  exact rotate_rotate c

/-- One bit of the reflected CRC-32C division. -/
def referenceBit : UInt32 :=
  if c &&& 1 = 1 then (c >>> 1) ^^^ 0x82f63b78 else c >>> 1

/-- One byte of the reflected CRC-32C division. -/
def referenceByte (b : UInt8) : UInt32 :=
  Nat.iterate referenceBit 8 (c ^^^ b.toUInt32)

/-- CRC-32C computed bit by bit. -/
def reference : Crc where
  extend c data := (data.foldl referenceByte (c ^^^ 0xffffffff)) ^^^ 0xffffffff
  extend_append c a b := by
    rw [UInt32.xor_assoc, UInt32.xor_self, UInt32.xor_zero, List.foldl_append]

example : reference.value [0x31, 0x32, 0x33, 0x34, 0x35, 0x36, 0x37, 0x38, 0x39] =
    0xe3069283 := by decide +kernel

end Crc

end Tension.Io
