import IronBus.Native.Checksum
import IronBus.Native.Error

/-!
# The two-slot checkpoint

A checkpoint file is two fixed-size slots. A write goes to the slot its sequence number
selects, alternating, and carries a CRC32C over the sequence, the payload length and the
payload. Opening the file classifies both slots and recovers the valid one with the higher
sequence. The payload capacity `cap` of a slot is a parameter, as in the source.
-/

namespace IronBus

namespace Checkpoint

variable [Checksums]

/-- Sequence, payload length and CRC: the framing overhead of a slot. -/
def slotOverhead : Nat := 8 + 2 + 4

/-- The classification of a single slot. -/
inductive SlotDecode where
  | empty
  | corrupt
  | valid (seq : Nat) (payload : Bytes)
  deriving DecidableEq

/-- Classifies a slot: never written, written but invalid, or valid. -/
def decodeSlot (cap : Nat) (slot : Bytes) : SlotDecode :=
  if slot.length ≠ slotOverhead + cap then .empty
  else
    let seq := slot.natAt 0 8
    if seq = 0 then .empty
    else
      let len := slot.natAt 8 2
      if cap < len then .corrupt
      else
        let storedCrc := slot.natAt (10 + cap) 4
        if (Checksums.crc32c (slot.readAt 0 (10 + len))).toNat ≠ storedCrc then .corrupt
        else .valid seq (slot.readAt 10 len)

/-- The bytes of a slot: sequence, length, payload, zero padding, CRC. -/
def encodeSlot (cap seq : Nat) (payload : Bytes) : Bytes :=
  -- a length that does not fit the `u16` field is stored as its maximum
  let lenField := min payload.length 65535
  let covered := Bytes.ofNatLE 8 seq ++ Bytes.ofNatLE 2 lenField ++ payload
  covered ++ List.replicate (cap - payload.length) 0
    ++ Bytes.ofNatLE 4 (Checksums.crc32c covered).toNat

/-- The length of one slot. -/
def slotLen (cap : Nat) : Nat := slotOverhead + cap

/-- The length of the file: two slots. -/
def fileLen (cap : Nat) : Nat := slotLen cap * 2

/-- The classification of a checkpoint file. -/
inductive Recovered where
  | valid (payload : Bytes)
  | empty
  | damaged
  deriving DecidableEq

/-- An open checkpoint: the sequence number its next write will carry. -/
structure Handle where
  nextSeq : Nat
  deriving DecidableEq

/-- The valid slot with the higher sequence; the first one on a tie. -/
def best : SlotDecode → SlotDecode → Option (Nat × Bytes)
  | .valid sa pa, .valid sb pb => if sb ≤ sa then some (sa, pa) else some (sb, pb)
  | .valid s p, _ => some (s, p)
  | _, .valid s p => some (s, p)
  | _, _ => none

/-- The handle that continues after a recovered slot. -/
def resume (seq : Nat) (payload : Bytes) : Except StorageError (Handle × Recovered) :=
  match checkedAdd seq 1 with
  | some next => .ok (⟨next⟩, .valid payload)
  | none => .error .segmentFull

/-- The handle and the classification the two decoded slots give. -/
def recover (a b : SlotDecode) : Except StorageError (Handle × Recovered) :=
  match best a b with
  | some (seq, payload) => resume seq payload
  | none =>
    if a = .corrupt ∧ b = .corrupt then .ok (⟨1⟩, .damaged) else .ok (⟨1⟩, .empty)

/-- Opens a checkpoint file and classifies it. -/
def «open» (cap : Nat) (file : Bytes) : Except StorageError (Handle × Recovered) :=
  -- a file shorter than two slots is read as all zeros
  let buf := if fileLen cap ≤ file.length then file.readAt 0 (fileLen cap)
    else List.replicate (fileLen cap) 0
  recover (decodeSlot cap (buf.readAt 0 (slotLen cap)))
    (decodeSlot cap (buf.readAt (slotLen cap) (slotLen cap)))

/-- How the two IO calls of a write end: both succeed, the positioned write fails and leaves
the given file behind, or the sync fails after the write. -/
inductive WriteIo where
  | ok
  | writeFailed (file : Bytes)
  | syncFailed

/-- The byte offset of the slot that sequence number `seq` selects. -/
def slotOffset (cap seq : Nat) : Nat := seq % 2 * slotLen cap

/-- Writes a payload: the result, the handle and the file afterwards. -/
def write (cap : Nat) (h : Handle) (file payload : Bytes) (io : WriteIo) :
    Except StorageError Unit × Handle × Bytes :=
  if cap < payload.length then (.error (.segment .truncated), h, file)
  else
    let slot := encodeSlot cap h.nextSeq payload
    let written := file.writeAt (slotOffset cap h.nextSeq) slot
    match io with
    | .writeFailed torn => (.error (.io .other), h, torn)
    | .syncFailed => (.error (.io .other), h, written)
    | .ok =>
      match checkedAdd h.nextSeq 1 with
      | some next => (.ok (), ⟨next⟩, written)
      | none => (.error .segmentFull, h, written)

end Checkpoint

end IronBus
