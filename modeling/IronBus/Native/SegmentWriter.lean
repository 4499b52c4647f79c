import IronBus.Native.Codec
import IronBus.Native.Disk
import IronBus.Native.SegmentFormat

/-!
# Writing a segment

A writer buffers encoded frames and hands them to its file when the buffer passes a threshold,
when it is flushed, or when the segment is sealed. A failed hand-over leaves the buffer as it
was, so a retry writes the same bytes at the same position.
-/

namespace IronBus

/-- The writer of one segment file. -/
structure SegmentWriter where
  header : SegmentHeader
  /-- The file position behind the last appended frame, buffered frames included. -/
  writePos : Nat
  recordCount : Nat
  lastSeq : Nat
  maxTimestampMs : Nat
  /-- Encoded frames not yet written to the file. -/
  pending : Bytes
  /-- The file position the buffer belongs at. -/
  pendingBase : Nat

/-- A program over the directory and one writer. -/
abbrev WriterM := Prog (Disk × SegmentWriter) StorageError

namespace SegmentWriter

/-- The buffered bytes at which an append writes them out. -/
def pendingSpillBytes : Nat := 256 * 1024

def u32Max : Nat := 2 ^ 32 - 1

/-- A directory program, run by a writer. -/
def onDisk {α : Type} (m : DiskM α) : WriterM α :=
  .zoom Prod.fst (fun d s => (d, s.2)) m

/-- The writer of a segment whose file holds just its header. -/
def started (header : SegmentHeader) : SegmentWriter where
  header := header
  writePos := segmentHeaderLen
  recordCount := 0
  lastSeq := header.baseSeq
  maxTimestampMs := 0
  pending := []
  pendingBase := segmentHeaderLen

/-- The writer of a recovered segment. -/
def resume (header : SegmentHeader) (writePos recordCount lastSeq maxTimestampMs : Nat) :
    SegmentWriter where
  header := header
  writePos := writePos
  recordCount := recordCount
  lastSeq := lastSeq
  maxTimestampMs := maxTimestampMs
  pending := []
  pendingBase := writePos

variable [Checksums]

/-- Writes the header of a new segment. -/
def create (header : SegmentHeader) : DiskM SegmentWriter := do
  Disk.writeAllAt header.segmentId header.encode 0
  return started header

/-- Writes the buffer out. -/
def flushPending : WriterM Unit := do
  let w ← Prog.gets Prod.snd
  if w.pending = [] then return ()
  else do
    onDisk (Disk.writeAllAt w.header.segmentId w.pending w.pendingBase)
    Prog.modify fun s => (s.1, { s.2 with pendingBase := s.2.writePos, pending := [] })

/-- Buffers one frame, writing the buffer out if it passed the threshold. If that write fails the
frame is dropped again. -/
def appendFrame (frame : Bytes) (seq timestampMs : Nat) : WriterM Nat := do
  let w ← Prog.gets Prod.snd
  if w.recordCount = u32Max then Prog.fail .segmentFull
  else
    match checkedAdd w.header.baseOffset w.recordCount with
    | none => Prog.fail .segmentFull
    | some offset => do
      Prog.modify fun s => (s.1, { s.2 with pending := s.2.pending ++ frame })
      match checkedAdd w.writePos frame.length with
      | none => Prog.fail .segmentFull
      | some stop => do
        Prog.modify fun s => (s.1, { s.2 with writePos := stop })
        let flushed ←
          if pendingSpillBytes ≤ w.pending.length + frame.length then flushPending.attempt
          else pure (.ok ())
        match flushed with
        | .error e => do
          Prog.modify fun s =>
            (s.1, { s.2 with pending := s.2.pending.take w.pending.length, writePos := w.writePos })
          Prog.fail e
        | .ok () => do
          Prog.modify fun s =>
            (s.1, { s.2 with
              recordCount := s.2.recordCount + 1
              lastSeq := seq
              maxTimestampMs := max s.2.maxTimestampMs timestampMs })
          return offset

/-- Encodes and buffers one record. A record the codec refuses is reported as a full segment. -/
def appendEncoded (rec : RecordView) (subject streamTag : Bytes) : WriterM Nat :=
  match Codec.encode rec subject streamTag with
  | .error _ => Prog.fail .segmentFull
  | .ok frame => appendFrame frame rec.seq rec.timestampMs

/-- Buffers an already encoded frame. -/
def appendVerbatim (frame : Bytes) (seq timestampMs : Nat) : WriterM Nat :=
  appendFrame frame seq timestampMs

/-- The end of an append to `w` whose frame is in the buffer and fits: the spill, rolled back if
it fails, and the counters. -/
def finishAppend (w : SegmentWriter) (frame : Bytes) (stop seq timestampMs offset : Nat) :
    WriterM Nat := do
  Prog.modify fun s => (s.1, { s.2 with writePos := stop })
  let flushed ←
    if pendingSpillBytes ≤ w.pending.length + frame.length then flushPending.attempt
    else pure (.ok ())
  match flushed with
  | .error e => do
    Prog.modify fun s =>
      (s.1, { s.2 with pending := s.2.pending.take w.pending.length, writePos := w.writePos })
    Prog.fail e
  | .ok () => do
    Prog.modify fun s =>
      (s.1, { s.2 with
        recordCount := s.2.recordCount + 1
        lastSeq := seq
        maxTimestampMs := max s.2.maxTimestampMs timestampMs })
    return offset

/-- Buffers a record of a compacted segment, which keeps its offset. Unlike `appendFrame`, it
takes a frame that does not fit out of the buffer again. -/
def appendAt (offset : Nat) (rec : RecordView) (subject : Bytes) : WriterM Nat := do
  let w ← Prog.gets Prod.snd
  if w.recordCount = u32Max then Prog.fail .segmentFull
  else
    match Codec.encode rec subject [] with
    | .error _ => Prog.fail .segmentFull
    | .ok frame => do
      Prog.modify fun s => (s.1, { s.2 with pending := s.2.pending ++ frame })
      match checkedAdd w.writePos frame.length with
      | none => do
        Prog.modify fun s => (s.1, { s.2 with pending := s.2.pending.take w.pending.length })
        Prog.fail .segmentFull
      | some stop => finishAppend w frame stop rec.seq rec.timestampMs offset

/-- Writes the buffer out and issues the data barrier. -/
def sync : WriterM Unit := do
  flushPending
  let w ← Prog.gets Prod.snd
  onDisk (Disk.syncData w.header.segmentId)

end SegmentWriter

end IronBus
