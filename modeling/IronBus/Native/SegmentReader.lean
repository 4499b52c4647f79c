import IronBus.Native.Codec
import IronBus.Native.SegmentFormat

/-!
# Reading a segment

A reader is a validated header and the file's bytes. The scan decodes the longest run of frames from
the front of the record region; a footer at the file end is believed only when the run ends exactly
at it with the count and last sequence it states. `scanRecovery` walks the same region through a
window, classifies why the run stopped and checks the sequence chain.
-/

namespace IronBus

/-! ## Records -/

/-- A record read back from a segment, at its log offset. -/
structure OwnedRecord where
  offset : Nat
  seq : Nat
  timestampMs : Nat
  flags : UInt8
  key : Bytes
  headers : Bytes
  payload : Bytes
  subject : Bytes
  streamTag : Bytes
  deriving DecidableEq

namespace OwnedRecord

/-- The record of a decoded frame. The stream tag is not surfaced on this path. -/
def fromView (offset : Nat) (frame : DecodedFrame) : OwnedRecord where
  offset := offset
  seq := frame.view.seq
  timestampMs := frame.view.timestampMs
  flags := frame.view.flags
  key := frame.view.key
  headers := frame.view.headers
  payload := frame.view.payload
  subject := frame.subject
  streamTag := []

/-- The frame length of a record, from its parts. -/
def encodedLen (r : OwnedRecord) : Nat :=
  let bodyLen := r.key.length + r.headers.length + r.payload.length
  Codec.recordHeaderLen + Codec.fieldLen (r.subject ≠ []) r.subject.length
    + Codec.fieldLen (r.streamTag ≠ []) r.streamTag.length + bodyLen
    + Codec.xxh3FieldLen (Codec.xxh3PayloadThreshold ≤ bodyLen) + Codec.recordTrailerLen

end OwnedRecord

/-! ## Walking frames -/

variable [Checksums]

/-- A byte string that decodes to `frame` at the front of any input. -/
structure Stored where
  bytes : Bytes
  frame : DecodedFrame
  total_eq : frame.total = bytes.length
  decode_append : ∀ rest, Codec.decodeInner (bytes ++ rest) = .ok frame

/-- The frames at the front of `body`, at most `fuel` of them. -/
def framesAux : Nat → Bytes → List DecodedFrame
  | 0, _ => []
  | fuel + 1, body =>
    match Codec.decodeInner body with
    | .error _ => []
    | .ok frame => frame :: framesAux fuel (body.drop frame.total)

/-- The longest run of frames at the front of `body`: a frame is never empty, so as many steps
as there are bytes suffice. -/
def frames (body : Bytes) : List DecodedFrame := framesAux body.length body

/-- The bytes a run of frames takes. -/
def framesLen (fs : List DecodedFrame) : Nat := (fs.map DecodedFrame.total).sum

/-- The byte position of each frame of a run that starts at `start`, with the frame. -/
def positioned : Nat → List DecodedFrame → List (Nat × DecodedFrame)
  | _, [] => []
  | start, f :: fs => (start, f) :: positioned (start + f.total) fs

/-- A header with these flags is followed by a field that starts with its own length. -/
def hasPostHeaderPrefixField (flags : UInt8) : Bool :=
  RecordFlags.contains flags RecordFlags.hasSubject
    || RecordFlags.contains flags RecordFlags.hasStreamTag

/-- The flags byte of the frame at the front of `bytes`. -/
def flagsAt (bytes : Bytes) : UInt8 := UInt8.ofNat (bytes.natAt 3 1)

/-- What a walk over the record region reports to the footer check. -/
structure WalkSummary where
  count : Nat
  lastSeq : Nat
  cursor : Nat
  clean : Bool

/-- The summary of the walk that decodes frames while it can. -/
def walkSummary (baseSeq : Nat) (body : Bytes) (fs : List DecodedFrame) : WalkSummary where
  count := fs.length
  lastSeq := (fs.getLast?.map fun f => f.view.seq).getD baseSeq
  cursor := framesLen fs
  clean := framesLen fs == body.length

/-! ## The reader -/

/-- A segment file with a validated header. -/
structure SegmentReader where
  header : SegmentHeader
  data : Bytes

namespace SegmentReader

def openFile (file : Bytes) : Except StorageError SegmentReader :=
  if file.length < segmentHeaderLen then .error (.segment .truncated)
  else
    match SegmentHeader.decode (file.readAt 0 segmentHeaderLen) with
    | .error e => .error (.segment e)
    | .ok header => .ok ⟨header, file⟩

/-- The bytes from the header's end up to `stop`. -/
def region (r : SegmentReader) (stop : Nat) : Bytes :=
  r.data.readAt segmentHeaderLen (stop - segmentHeaderLen)

/-- The footer candidate: whatever decodes as one in the last bytes of the file. -/
def footerCandidate (r : SegmentReader) : Option SegmentFooter :=
  if segmentHeaderLen + segmentFooterLen ≤ r.data.length then
    (SegmentFooter.decode
      (r.data.readAt (r.data.length - segmentFooterLen) segmentFooterLen)).toOption
  else none

/-- A walk that takes the whole file, without a footer. -/
def walkWhole {α : Type} (r : SegmentReader) (walk : Bytes → Except StorageError α)
    (summary : Bytes → α → WalkSummary) :
    Except StorageError (α × Option SegmentFooter × Nat) :=
  match walk (r.region r.data.length) with
  | .error e => .error e
  | .ok w => .ok (w, none, segmentHeaderLen + (summary (r.region r.data.length) w).cursor)

/-- The rule every walk shares. A footer is believed only when the walk of the region before it
is clean, ends at it, and agrees with its count and last sequence; then its segment id must be
the header's. Otherwise the walk takes the whole file. The result is the walk, the footer, and
the end of the valid data. -/
def walkWithFooter {α : Type} (r : SegmentReader) (walk : Bytes → Except StorageError α)
    (summary : Bytes → α → WalkSummary) :
    Except StorageError (α × Option SegmentFooter × Nat) :=
  match r.footerCandidate with
  | none => r.walkWhole walk summary
  | some footer =>
    let bodyEnd := r.data.length - segmentFooterLen
    match walk (r.region bodyEnd) with
    | .error e => .error e
    | .ok w =>
      let s := summary (r.region bodyEnd) w
      if s.clean ∧ segmentHeaderLen + s.cursor = bodyEnd ∧ footer.recordCount = s.count
          ∧ footer.lastSeq = s.lastSeq then
        if footer.segmentId ≠ r.header.segmentId then
          .error (.footerSegmentMismatch r.header.segmentId footer.segmentId)
        else .ok (w, some footer, bodyEnd)
      else r.walkWhole walk summary

/-- The frames of the record region, the trusted footer and the end of the valid data. -/
def walkFrames (r : SegmentReader) :
    Except StorageError (List DecodedFrame × Option SegmentFooter × Nat) :=
  r.walkWithFooter (fun body => .ok (frames body)) (walkSummary r.header.baseSeq)

/-- The records of frames at consecutive offsets. -/
def numbered : Nat → List DecodedFrame → List OwnedRecord
  | _, [] => []
  | offset, f :: fs => .fromView offset f :: numbered (offset + 1) fs

/-- Every record of the segment. -/
def scan (r : SegmentReader) :
    Except StorageError (List OwnedRecord × Option SegmentFooter × Nat) :=
  match r.walkFrames with
  | .error e => .error e
  | .ok (fs, footer, validEnd) => .ok (numbered r.header.baseOffset fs, footer, validEnd)

/-- Whether admitting a frame of `consumed` bytes would exceed an optional byte cap; the first
record is always admitted. -/
def overCap (maxBytes : Option Nat) (first : Bool) (byteTotal consumed : Nat) : Bool :=
  match maxBytes with
  | none => false
  | some cap => !first && cap < byteTotal + consumed

/-! ## Compacted segments -/

/-- A record of a compacted segment keeps the offset its sequence determines, in wrapping `u64`
arithmetic. -/
def compactedOffset (baseOff baseSeq seq : Nat) : Nat :=
  (baseOff + (seq + 2 ^ 64 - baseSeq) % 2 ^ 64) % 2 ^ 64

/-- The first frame whose sequence is below the base, at or past the covered end, or not above
its predecessor's. -/
def sequenceFault (baseSeq endSeq : Nat) : Nat → Option Nat → List DecodedFrame →
    Option StorageError
  | _, _, [] => none
  | index, prev, f :: fs =>
    let seq := f.view.seq
    if seq < baseSeq ∨ endSeq ≤ seq ∨ prev.any (fun p => seq ≤ p) then
      some (.recoveredSequenceMismatch index (prev.elim baseSeq (· + 1)) seq)
    else sequenceFault baseSeq endSeq (index + 1) (some seq) fs

/-- The metadata block and the footer of a compacted segment, and the end of its records; none
without a valid trailer, as a swap that never committed leaves it. -/
def compactedTrailer (r : SegmentReader) : Option (CompactionMeta × SegmentFooter × Nat) :=
  if ¬ r.header.isCompacted then none
  else if r.data.length < segmentHeaderLen + segmentFooterLen + compactionMetaLen then none
  else
    let blockStart := r.data.length - compactionMetaLen
    let footerStart := blockStart - segmentFooterLen
    match CompactionMeta.decode (r.data.readAt blockStart compactionMetaLen) with
    | .error _ => none
    | .ok block =>
      match SegmentFooter.decode (r.data.readAt footerStart segmentFooterLen) with
      | .error _ => none
      | .ok footer => some (block, footer, footerStart)

/-- The frames of a compacted segment that passes every check, with its footer, its metadata block
and the end of the records. -/
def compactedFrames (r : SegmentReader) :
    Except StorageError (Option (List DecodedFrame × SegmentFooter × CompactionMeta × Nat)) :=
  match r.compactedTrailer with
  | none => .ok none
  | some (block, footer, footerStart) =>
    let body := r.region footerStart
    let fs := frames body
    let corrupt := .error (.corruptCompacted r.header.segmentId block.coveredBaseOffset
      block.coveredEndOffset segmentHeaderLen footerStart footer.recordCount)
    -- the sequence check runs frame by frame, so it precedes a decode failure further on
    match sequenceFault r.header.baseSeq block.coveredEndSeq 0 none fs with
    | some e => .error e
    | none =>
      if framesLen fs ≠ body.length then corrupt
      else if footer.segmentId ≠ r.header.segmentId then
        .error (.footerSegmentMismatch r.header.segmentId footer.segmentId)
      else if footer.recordCount ≠ fs.length then corrupt
      else .ok (some (fs, footer, block, footerStart))

/-- A record of a compacted segment. -/
def survivor (baseOff baseSeq : Nat) (f : DecodedFrame) : OwnedRecord :=
  .fromView (compactedOffset baseOff baseSeq f.view.seq) f

structure CompactedScan where
  header : SegmentHeader
  records : List OwnedRecord
  footer : SegmentFooter
  block : CompactionMeta
  validEnd : Nat
  maxTimestampMs : Nat

def scanCompacted (r : SegmentReader) : Except StorageError (Option CompactedScan) :=
  match r.compactedFrames with
  | .error e => .error e
  | .ok none => .ok none
  | .ok (some (fs, footer, block, validEnd)) =>
    .ok (some ⟨r.header, fs.map (survivor r.header.baseOffset r.header.baseSeq), footer, block,
      validEnd, (fs.map (·.view.timestampMs)).foldl max 0⟩)

/-- The walk that builds the index: the offset and the position of every frame, none if one does
not decode. The fuel bounds the number of frames. -/
def positionsWalk (header : SegmentHeader) (endSeq : Nat) :
    Nat → Bytes → Nat → Nat → Option Nat → Except StorageError (Option (List (Nat × Nat)))
  | 0, _, _, _, _ => .ok (some [])
  | fuel + 1, body, index, position, prev =>
    if body = [] then .ok (some [])
    else
      match Codec.decodeInner body with
      | .error _ => .ok none
      | .ok f =>
        let seq := f.view.seq
        if seq < header.baseSeq ∨ endSeq ≤ seq ∨ prev.any (fun p => seq ≤ p) then
          .error (.recoveredSequenceMismatch index (prev.elim header.baseSeq (· + 1)) seq)
        else
          match positionsWalk header endSeq fuel (body.drop f.total) (index + 1)
            (position + f.total) (some seq) with
          | .ok (some ps) =>
            .ok (some ((compactedOffset header.baseOffset header.baseSeq seq, position) :: ps))
          | stopped => stopped

/-- The (offset, byte position) of every record, and the end of the records. Where the scan reports
a corrupt segment, there is no index. -/
def compactedBytePositions (r : SegmentReader) :
    Except StorageError (Option (List (Nat × Nat) × Nat)) :=
  match r.compactedTrailer with
  | none => .ok none
  | some (block, footer, footerStart) =>
    let body := r.region footerStart
    match positionsWalk r.header block.coveredEndSeq body.length body 0 segmentHeaderLen none with
    | .error e => .error e
    | .ok none => .ok none
    | .ok (some positions) =>
      if footer.segmentId ≠ r.header.segmentId then
        .error (.footerSegmentMismatch r.header.segmentId footer.segmentId)
      else if footer.recordCount ≠ positions.length then .ok none
      else .ok (some (positions, footerStart))

/-- At most `max` records from an indexed position on. -/
def scanCompactedFrom (r : SegmentReader) (startByte baseOff baseSeq readEnd max : Nat) :
    List OwnedRecord :=
  ((frames (r.data.readAt startByte (readEnd - startByte))).take max).map
    (survivor baseOff baseSeq)

/-! ## The recovery scan -/

/-- A recovery walk of the record region: how far it got and why it stopped. -/
structure BodyWalk where
  count : Nat
  maxTimestampMs : Nat
  lastSeq : Nat
  cursor : Nat
  tailReason : Option ReasonCode

/-- The walk before the first record. -/
def BodyWalk.start (header : SegmentHeader) : BodyWalk := ⟨0, 0, header.baseSeq, 0, none⟩

/-- The sequence, timestamp and length of the frame that is exactly `bytes`; an encrypted
segment's frames are checked without the key. -/
def recoveryDecode (encrypted : Bool) (bytes : Bytes) : Except DecodeError (Nat × Nat × Nat) :=
  if encrypted then Codec.decodeEncrypted bytes
  else
    match Codec.decodeInner bytes with
    | .error e => .error e
    | .ok f => .ok (f.view.seq, f.view.timestampMs, f.total)

/-- The bytes of a region that the recovery walk has read: those from `start` on. -/
structure Window where
  start : Nat
  bytes : Bytes

/-- The bytes of the window from `pos` on. -/
def Window.rel (win : Window) (pos : Nat) : Bytes := win.bytes.drop (pos - win.start)

/-- The bytes a refill reads, if there are as many. -/
def recoveryWindowBytes : Nat := 256 * 1024

/-- A window with at least `need` bytes from `pos` on: refilled there if it holds fewer. -/
def fillWindow (body : Bytes) (win : Window) (pos need : Nat) : Window :=
  let held := if win.start ≤ pos then win.bytes.length - (pos - win.start) else 0
  if need ≤ held then win
  else ⟨pos, body.readAt pos (max need (min recoveryWindowBytes (body.length - pos)))⟩

/-- A window that shows how long the frame at `pos` is. -/
def fillHeader (body : Bytes) (win : Window) (pos : Nat) : Window :=
  let win := fillWindow body win pos Codec.recordHeaderLen
  -- the field behind the header may straddle the window's edge
  if hasPostHeaderPrefixField (flagsAt (win.rel pos))
      ∧ Codec.recordHeaderLen + 2 ≤ body.length - pos then
    fillWindow body win pos (Codec.recordHeaderLen + 2)
  else win

/-- One step of the recovery walk over `body` per call, at most `fuel` of them. -/
def bodyWalkAux (header : SegmentHeader) (body : Bytes) :
    Nat → Window → BodyWalk → Except StorageError BodyWalk
  | 0, _, w => .ok w
  | fuel + 1, win, w =>
    let remaining := body.length - w.cursor
    if remaining = 0 then .ok w
    else if remaining < Codec.recordHeaderLen then .ok { w with tailReason := some .tornTail }
    else
      let win := fillHeader body win w.cursor
      match Codec.decodedLen (win.rel w.cursor) with
      | .error _ => .ok { w with tailReason := some .corruptRecordHeader }
      | .ok total =>
        -- the header asks for more bytes than the file has
        if remaining < total then .ok { w with tailReason := some .tornTail }
        else
          let win := fillWindow body win w.cursor total
          match recoveryDecode header.isEncrypted ((win.rel w.cursor).take total) with
          | .error _ => .ok { w with tailReason := some .corruptRecordBody }
          | .ok (seq, timestampMs, consumed) =>
            match checkedAdd header.baseSeq w.count with
            | none => .error .segmentFull
            | some expected =>
              if seq ≠ expected then .error (.recoveredSequenceMismatch w.count expected seq)
              else bodyWalkAux header body fuel win {
                count := w.count + 1
                maxTimestampMs := max w.maxTimestampMs timestampMs
                lastSeq := seq
                cursor := w.cursor + consumed
                tailReason := none }

/-- The walk of the record region that recovery makes. -/
def scanBodyStreaming (r : SegmentReader) (body : Bytes) : Except StorageError BodyWalk :=
  bodyWalkAux r.header body body.length ⟨0, []⟩ (.start r.header)

/-- What recovery learns about a segment. -/
structure RecoveryScan where
  header : SegmentHeader
  footer : Option SegmentFooter
  recordCount : Nat
  maxTimestampMs : Nat
  lastSeq : Nat
  tailReason : Option ReasonCode
  validEnd : Nat
  deriving DecidableEq

def scanRecovery (r : SegmentReader) : Except StorageError RecoveryScan :=
  match r.walkWithFooter r.scanBodyStreaming
    (fun _ w => ⟨w.count, w.lastSeq, w.cursor, w.tailReason.isNone⟩) with
  | .error e => .error e
  | .ok (w, footer, validEnd) => .ok {
      header := r.header
      footer := footer
      recordCount := w.count
      maxTimestampMs := w.maxTimestampMs
      lastSeq := w.lastSeq
      tailReason := if footer.isSome then none else w.tailReason
      validEnd := validEnd }

end SegmentReader

end IronBus
