import IronBus.ForStd.Bytes

/-!
# Checksums

The record and segment formats protect their structures with CRC32C and, for large bodies,
xxh3-64. Both come from external crates, so every definition of the model takes them from the
`Checksums` class. `castagnoli` is the CRC32C polynomial evaluated bit by bit, for evaluating
the model on concrete inputs.
-/

namespace IronBus

/-- The checksum functions the formats are built on. -/
class Checksums where
  crc32c : Bytes → UInt32
  xxh3 : Bytes → UInt64

/-- One bit of the reflected CRC32C shift register. -/
def castagnoliBit (c : Nat) : Nat :=
  if c % 2 = 1 then (c >>> 1) ^^^ 0x82F63B78 else c >>> 1

/-- Feeds one byte into the shift register. -/
def castagnoliByte (c : Nat) (b : UInt8) : Nat :=
  castagnoliBit <| castagnoliBit <| castagnoliBit <| castagnoliBit <|
    castagnoliBit <| castagnoliBit <| castagnoliBit <| castagnoliBit (c ^^^ b.toNat)

/-- CRC32C, as the `crc32c` crate computes it. -/
def castagnoli (bs : Bytes) : UInt32 :=
  UInt32.ofNat (bs.foldl castagnoliByte 0xFFFFFFFF ^^^ 0xFFFFFFFF)

/-- The check value of the ASCII digits `123456789`. -/
example : castagnoli [49, 50, 51, 52, 53, 54, 55, 56, 57] = 0xE3069283 := by decide +kernel

end IronBus
