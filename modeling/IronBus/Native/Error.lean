import Mathlib

/-!
# Errors

The error enumerations of the record codec, the segment codec and the storage layer. Variants that
belong to the cold tier, to encryption at rest and to the layout marker are left out with those
parts.
-/

instance Except.decidableEq {ε α : Type} [DecidableEq ε] [DecidableEq α] :
    DecidableEq (Except ε α)
  | .error e, .error e' => decidable_of_iff (e = e') ⟨congrArg _, Except.error.inj⟩
  | .ok a, .ok a' => decidable_of_iff (a = a') ⟨congrArg _, Except.ok.inj⟩
  | .error _, .ok _ => isFalse (by simp)
  | .ok _, .error _ => isFalse (by simp)

namespace IronBus

/-- An error returned by the record encoder. -/
inductive EncodeError where
  | tooLarge
  deriving DecidableEq

/-- An error returned by the record decoder. -/
inductive DecodeError where
  | truncated
  | badMagic
  | unsupportedVersion (v : Nat)
  | badHeaderCrc
  | badBodyCrc
  | badXxh3
  | badSubjectCrc
  | badStreamTagCrc
  | badLength
  | tooLarge
  | encrypted
  deriving DecidableEq

/-- An error returned by the segment header, footer and compaction-metadata codecs. -/
inductive SegmentError where
  | truncated
  | badMagic
  | unsupportedVersion (v : Nat)
  | unsupportedChecksumAlgo (a : Nat)
  | badCrc
  deriving DecidableEq

/-- Why recovery dropped a contiguous span of bytes. -/
inductive ReasonCode where
  | tornTail
  | corruptRecordHeader
  | corruptRecordBody
  | corruptSegmentHeader
  | sequenceGap
  deriving DecidableEq

/-- A bounded-loss cap that a recovery exceeded. -/
inductive CapViolation where
  | perEvent (bytesSkipped cap : Nat)
  | global (totalBytesSkipped cap : Nat)
  deriving DecidableEq

/-- The IO failures the storage layer distinguishes. -/
inductive IoError where
  | notFound
  | alreadyExists
  | unexpectedEof
  | other
  deriving DecidableEq

/-- An error of the storage layer. -/
inductive StorageError where
  | io (e : IoError)
  | record (e : DecodeError)
  | segment (e : SegmentError)
  | footerSegmentMismatch (header footer : Nat)
  | segmentFull
  | unsealedPredecessor (segmentId : Nat)
  | segmentIdMismatch (fileId headerId : Nat)
  | segmentChainBroken (segmentId expectedBaseOffset foundBaseOffset : Nat)
      (expectedBaseSeq foundBaseSeq : Nat)
  | recoveredSequenceMismatch (index expected found : Nat)
  | corruptCompacted (segmentId coveredBaseOffset coveredEndOffset : Nat)
      (recordRegionStart recordRegionEnd recordCountEstimate : Nat)
  | writerFrozen
  | offsetOutOfRange (requested oldest : Nat)
  | truncateOutOfRange (requested earliest nextOffset : Nat)
  | excessiveRecoveryLoss (v : CapViolation)
  | atCapacity (durableBytes cap : Nat)
  | dailyWriteBudgetExceeded (bytesToday budget : Nat)
  | encryptedSegmentNoKey (segmentId : Nat)
  deriving DecidableEq

/-! ## Machine integers -/

/-- The largest value of a `u64`. -/
def u64Max : Nat := 2 ^ 64 - 1

/-- Saturating `u64` addition. -/
def saturatingAdd (a b : Nat) : Nat := min (a + b) u64Max

theorem toNat_le_u64Max (x : UInt64) : x.toNat ≤ u64Max := by
  have := x.toNat_lt
  simp only [u64Max]
  omega

/-- Checked `u64` addition. -/
def checkedAdd (a b : Nat) : Option Nat := if a + b ≤ u64Max then some (a + b) else none

end IronBus
