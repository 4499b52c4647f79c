import IronBus.Native.Checksum
import IronBus.Native.Error

/-!
# Segment headers, footers and compaction metadata

The three fixed-size structures around a segment's records. A 64-byte header opens every
segment file; a 32-byte footer closes a sealed one; a compacted segment carries a 44-byte
metadata block right after its footer. All are little-endian and end in their own CRC32C.
-/

namespace IronBus

/-- The little-endian bytes of the segment magic `IRONBUS\0`. -/
def segmentMagic : Bytes := [0x49, 0x52, 0x4f, 0x4e, 0x42, 0x55, 0x53, 0x00]

def segmentHeaderLen : Nat := 64
def segmentFooterLen : Nat := 32
def compactionMetaLen : Nat := 44
def segmentFooterMagic : Nat := 0x4653
def segmentVersion : Nat := 1
def segmentVersionCompacted : Nat := 2
def checksumAlgoCrc32c : Nat := 1
def segmentFlagCompacted : Nat := 1
def segmentFlagEncrypted : Nat := 2

/-- The header of a segment file. -/
structure SegmentHeader where
  segmentId : Nat
  baseSeq : Nat
  baseOffset : Nat
  createdUnixMs : Nat
  flags : Nat
  deriving DecidableEq

/-- The footer of a sealed segment. -/
structure SegmentFooter where
  segmentId : Nat
  lastSeq : Nat
  recordCount : Nat
  deriving DecidableEq

/-- The range of source offsets and sequences a compacted segment stands for. -/
structure CompactionMeta where
  coveredBaseOffset : Nat
  coveredEndOffset : Nat
  coveredBaseSeq : Nat
  coveredEndSeq : Nat
  highestCoveredSourceId : Nat

/-- Appends the CRC32C of a structure's covered bytes. -/
def withCrc [Checksums] (covered : Bytes) : Bytes :=
  covered ++ Bytes.ofNatLE 4 (Checksums.crc32c covered).toNat

/-- The CRC32C over the first `n` bytes is the one stored right after them. -/
def crcOk [Checksums] (bytes : Bytes) (n : Nat) : Bool :=
  (Checksums.crc32c (bytes.readAt 0 n)).toNat == bytes.natAt n 4

namespace SegmentHeader

def isCompacted (h : SegmentHeader) : Bool := h.flags &&& segmentFlagCompacted != 0

def isEncrypted (h : SegmentHeader) : Bool := h.flags &&& segmentFlagEncrypted != 0

variable [Checksums]

/-- The 60 bytes under the header CRC: the AEAD suite and key id of a plaintext segment are
zero, as are the reserved bytes after them. -/
def coveredBytes (h : SegmentHeader) : Bytes :=
  segmentMagic
    ++ Bytes.ofNatLE 1 (if h.isCompacted then segmentVersionCompacted else segmentVersion)
    ++ Bytes.ofNatLE 1 checksumAlgoCrc32c ++ Bytes.ofNatLE 2 h.flags
    ++ Bytes.ofNatLE 8 h.segmentId ++ Bytes.ofNatLE 8 h.baseSeq ++ Bytes.ofNatLE 8 h.baseOffset
    ++ Bytes.ofNatLE 8 h.createdUnixMs ++ List.replicate 16 0

def encode (h : SegmentHeader) : Bytes := withCrc h.coveredBytes

def decode (bytes : Bytes) : Except SegmentError SegmentHeader :=
  if bytes.length < segmentHeaderLen then .error .truncated
  else if bytes.readAt 0 8 ≠ segmentMagic then .error .badMagic
  else
    let version := bytes.natAt 8 1
    let flags := bytes.natAt 10 2
    let compacted := flags &&& segmentFlagCompacted != 0
    -- a flag and a version that disagree are refused like an unknown version
    if ¬ (version = segmentVersion ∧ ¬ compacted
        ∨ version = segmentVersionCompacted ∧ compacted) then
      .error (.unsupportedVersion version)
    else if bytes.natAt 9 1 ≠ checksumAlgoCrc32c then
      .error (.unsupportedChecksumAlgo (bytes.natAt 9 1))
    else if ¬ crcOk bytes 60 then .error .badCrc
    else .ok {
      segmentId := bytes.natAt 12 8
      baseSeq := bytes.natAt 20 8
      baseOffset := bytes.natAt 28 8
      createdUnixMs := bytes.natAt 36 8
      flags := flags }

end SegmentHeader

namespace SegmentFooter

variable [Checksums]

def decode (bytes : Bytes) : Except SegmentError SegmentFooter :=
  if bytes.length < segmentFooterLen then .error .truncated
  else if bytes.natAt 0 2 ≠ segmentFooterMagic then .error .badMagic
  else if bytes.natAt 2 1 ≠ segmentVersion ∧ bytes.natAt 2 1 ≠ segmentVersionCompacted then
    .error (.unsupportedVersion (bytes.natAt 2 1))
  else if bytes.natAt 3 1 ≠ checksumAlgoCrc32c then
    .error (.unsupportedChecksumAlgo (bytes.natAt 3 1))
  else if ¬ crcOk bytes 28 then .error .badCrc
  else .ok {
    segmentId := bytes.natAt 4 8
    lastSeq := bytes.natAt 12 8
    recordCount := bytes.natAt 20 4 }

end SegmentFooter

namespace CompactionMeta

variable [Checksums]

def decode (bytes : Bytes) : Except SegmentError CompactionMeta :=
  if bytes.length < compactionMetaLen then .error .truncated
  else if ¬ crcOk bytes 40 then .error .badCrc
  else .ok {
    coveredBaseOffset := bytes.natAt 0 8
    coveredEndOffset := bytes.natAt 8 8
    coveredBaseSeq := bytes.natAt 16 8
    coveredEndSeq := bytes.natAt 24 8
    highestCoveredSourceId := bytes.natAt 32 8 }

end CompactionMeta

end IronBus
