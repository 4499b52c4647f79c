import IronBus.Native.SegmentReader

/-!
# Range reads

The bounded forward reads of the log: the decoded one, which goes through the segments one by one,
and the raw one, which takes the frames of one segment as they are stored and says where the
decoded read is to go on. A segment is given by the frames a scan of it finds. A dense segment holds
consecutive offsets; a compacted one holds the survivors of the offsets it covers.
-/

namespace IronBus

variable [Checksums]

/-- A stored frame at its log offset. -/
structure SlotRecord where
  offset : Nat
  stored : Stored

def SlotRecord.record (r : SlotRecord) : OwnedRecord := .fromView r.offset r.stored.frame

namespace RangeLog

structure Slot where
  baseOffset : Nat
  /-- The first of the offsets a compacted segment covers. -/
  compactedCovered : Option Nat
  /-- The dense seek index covers the offsets below. -/
  indexedEnd : Nat
  records : List SlotRecord

def Slot.coveredBaseOffset (s : Slot) : Nat := s.compactedCovered.getD s.baseOffset

/-- The records of a slot from an offset on. -/
def Slot.from (s : Slot) (offset : Nat) : List SlotRecord :=
  s.records.filter fun r => offset ≤ r.offset

end RangeLog

open RangeLog in
/-- A log as its reads see it. -/
structure RangeLog where
  segments : List Slot
  /-- The end of what is visible. -/
  flushedOffset : Nat
  encrypted : Bool

namespace RangeLog

def oldest (log : RangeLog) : Nat := (log.segments.head?.map Slot.coveredBaseOffset).getD 0

/-- The segment an offset belongs to: the last one that covers no later offset only. -/
def segmentIndexFor (log : RangeLog) (offset : Nat) : Nat :=
  log.segments.findIdx (fun s => offset < s.coveredBaseOffset) - 1

/-! ## The decoded read -/

structure ReadBounds where
  startV : Nat
  flushed : Nat
  max : Nat
  maxBytes : Option Nat

/-- Takes one more record unless a bound forbids it; whether the read is to stop. -/
def pushRecord (b : ReadBounds) (r : OwnedRecord) (out : List OwnedRecord) (byteTotal : Nat) :
    Bool × List OwnedRecord × Nat :=
  if b.flushed ≤ r.offset ∨ b.max ≤ out.length then (true, out, byteTotal)
  else if SegmentReader.overCap b.maxBytes (out = []) byteTotal r.encodedLen then
    (true, out, byteTotal)
  else (false, out ++ [r], byteTotal + r.encodedLen)

def pushRecords (b : ReadBounds) :
    List OwnedRecord → List OwnedRecord → Nat → Bool × List OwnedRecord × Nat
  | [], out, byteTotal => (false, out, byteTotal)
  | r :: rs, out, byteTotal =>
    match pushRecord b r out byteTotal with
    | (true, out, byteTotal) => (true, out, byteTotal)
    | (false, out, byteTotal) => pushRecords b rs out byteTotal

/-- The leading records a scan of a segment returns: at most `max`, and none past the byte cap but
the first. -/
def scanBounded (maxBytes : Option Nat) : Nat → Bool → Nat → List SlotRecord → List SlotRecord
  | 0, _, _, _ => []
  | _, _, _, [] => []
  | max + 1, first, byteTotal, r :: rs =>
    if SegmentReader.overCap maxBytes first byteTotal r.stored.bytes.length then []
    else r :: scanBounded maxBytes max false (byteTotal + r.stored.bytes.length) rs

/-- Reads from one segment. A compacted segment is scanned with what is left of the byte cap, and
the scan's stopping there is not passed on. -/
def readSlotInto (slot : Slot) (b : ReadBounds) (out : List OwnedRecord) (byteTotal : Nat) :
    Bool × List OwnedRecord × Nat :=
  let remaining := b.max - out.length
  match slot.compactedCovered with
  | some covered =>
    let found := scanBounded (b.maxBytes.map (· - byteTotal)) remaining true 0
      (slot.from (Nat.max b.startV covered))
    pushRecords b (found.map SlotRecord.record) out byteTotal
  | none =>
    let segStart := Nat.max b.startV slot.baseOffset
    if segStart < slot.indexedEnd then
      let found := (slot.from segStart).take (Nat.min remaining (b.flushed - segStart))
      pushRecords b (found.map SlotRecord.record) out byteTotal
    else pushRecords b ((slot.from b.startV).map SlotRecord.record) out byteTotal

def readSegments (b : ReadBounds) : List Slot → List OwnedRecord → Nat → List OwnedRecord
  | [], out, _ => out
  | slot :: rest, out, byteTotal =>
    if b.flushed ≤ slot.coveredBaseOffset then out
    else if b.max ≤ out.length then out
    else
      match readSlotInto slot b out byteTotal with
      | (true, out, _) => out
      | (false, out, byteTotal) => readSegments b rest out byteTotal

def readRange (log : RangeLog) (start maxRecords : Nat) (maxBytes : Option Nat) :
    Except StorageError (List OwnedRecord) :=
  if maxRecords = 0 ∨ log.flushedOffset ≤ start then .ok []
  else if start < log.oldest then .error (.offsetOutOfRange start log.oldest)
  else
    .ok (readSegments ⟨start, log.flushedOffset, maxRecords, maxBytes⟩
      (log.segments.drop (log.segmentIndexFor start)) [] 0)

/-! ## The raw read -/

/-- A run of consecutive frames as they are stored. -/
structure RawRun where
  bytes : Bytes
  firstOffset : Nat
  recordCount : Nat
  nextOffset : Nat

def RawRun.empty (start : Nat) : RawRun := ⟨[], start, 0, start⟩

/-- The frames of the segment `start` lies in, and where the decoded read is to go on. Nothing is
served raw from an encrypted log, a compacted segment or a tail that is not indexed yet. -/
def readRangeRaw (log : RangeLog) (start maxRecords : Nat) (maxBytes : Option Nat) :
    Except StorageError (RawRun × Option Nat) :=
  if maxRecords = 0 ∨ log.flushedOffset ≤ start then .ok (.empty start, none)
  else if log.encrypted then .ok (.empty start, some start)
  else if start < log.oldest then .error (.offsetOutOfRange start log.oldest)
  else
    match log.segments[log.segmentIndexFor start]? with
    | none => .ok (.empty start, some start)
    | some slot =>
      match slot.compactedCovered with
      | some covered => .ok (.empty start, some (Nat.max start covered))
      | none =>
        let segStart := Nat.max start slot.baseOffset
        if slot.indexedEnd ≤ segStart then .ok (.empty start, some start)
        else
          let found := scanBounded maxBytes maxRecords true 0
            ((slot.from segStart).take (log.flushedOffset - segStart))
          let next := segStart + found.length
          let run : RawRun := ⟨found.flatMap (·.stored.bytes), segStart, found.length, next⟩
          let tailFrom :=
            if next < log.flushedOffset ∧ maxRecords ≤ found.length then none
            else if next < log.flushedOffset then some next
            else none
          .ok (run, tailFrom)

end RangeLog

end IronBus
