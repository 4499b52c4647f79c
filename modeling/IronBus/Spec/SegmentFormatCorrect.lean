import IronBus.Native.SegmentFormat
import IronBus.Spec.CodecCorrect

/-!
# The round trip of the segment header

The header of a segment reads back as it was written.
-/

namespace IronBus

open Bytes

variable [Checksums]

@[simp] theorem length_withCrc (covered : Bytes) :
    (withCrc covered).length = covered.length + 4 := by
  simp [withCrc]

/-- A structure passes its own CRC. -/
theorem crcOk_withCrc (covered : Bytes) {n : Nat} (hn : n = covered.length) :
    crcOk (withCrc covered) n = true := by
  subst hn
  rw [crcOk, withCrc, readAt_append_left rfl, natAt_append_at rfl, ← List.append_nil (ofNatLE 4 _),
    natAt_ofNatLE (UInt32.toNat_lt _)]
  simp

namespace SegmentHeader

/-- The values a header can store. -/
structure Fits (h : SegmentHeader) : Prop where
  id : h.segmentId < 2 ^ 64
  seq : h.baseSeq < 2 ^ 64
  offset : h.baseOffset < 2 ^ 64
  created : h.createdUnixMs < 2 ^ 64
  flags : h.flags < 2 ^ 16

@[simp] theorem length_encode (h : SegmentHeader) : h.encode.length = segmentHeaderLen := by
  simp [encode, coveredBytes, segmentMagic, segmentHeaderLen]

/-- A stored header reads back. -/
theorem decode_encode {h : SegmentHeader} (hf : h.Fits) : decode h.encode = .ok h := by
  have hlen : ¬ h.encode.length < segmentHeaderLen := by simp
  have hcov : h.coveredBytes.length = 60 := by simp [coveredBytes, segmentMagic]
  have hcrc : crcOk h.encode 60 = true := crcOk_withCrc _ hcov.symm
  have hver : (if h.isCompacted then segmentVersionCompacted else segmentVersion) < 256 ^ 1 := by
    split <;> decide
  obtain ⟨hid, hseq, hoff, hcreated, hflags⟩ := hf
  have hparts : h.encode = [segmentMagic,
      ofNatLE 1 (if h.isCompacted then segmentVersionCompacted else segmentVersion),
      ofNatLE 1 checksumAlgoCrc32c, ofNatLE 2 h.flags, ofNatLE 8 h.segmentId,
      ofNatLE 8 h.baseSeq, ofNatLE 8 h.baseOffset, ofNatLE 8 h.createdUnixMs,
      List.replicate 16 0 ++ ofNatLE 4 (Checksums.crc32c h.coveredBytes).toNat].flatten := by
    simp [encode, withCrc, coveredBytes]
  simp only [decode, hlen, if_false, hcrc]
  rw [hparts, readAt_flatten 0 0 8 (by rfl) (by rfl) (by rfl),
    natAt_flatten 1 8 1 (by rfl) (by rfl) hver,
    natAt_flatten 2 9 1 (by rfl) (by rfl) (by decide),
    natAt_flatten 3 10 2 (by rfl) (by rfl) (by omega),
    natAt_flatten 4 12 8 (by rfl) (by rfl) (by omega),
    natAt_flatten 5 20 8 (by rfl) (by rfl) (by omega),
    natAt_flatten 6 28 8 (by rfl) (by rfl) (by omega),
    natAt_flatten 7 36 8 (by rfl) (by rfl) (by omega)]
  cases hc : h.isCompacted <;> simp only [isCompacted] at hc <;>
    simp [hc, segmentVersion, segmentVersionCompacted]

end SegmentHeader

end IronBus
