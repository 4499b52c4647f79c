import IronBus.ForStd.Assoc
import IronBus.ForStd.Bytes
import IronBus.Native.HeadLog

/-!
# Many streams in one log

The shared log holds the records of every named stream, each with its stream's name as a tag. A
stream's positions are the ranks of its records, kept in an index that opening the log rebuilds by a
scan. Retention writes the ranks it is about to forget to a checkpoint, forgets them, and only then
unlinks segments.
-/

namespace IronBus

/-! ## Stream names -/

def maxStreamNameLen : Nat := 128

def isAsciiGraphic (b : UInt8) : Bool := 0x21 ≤ b && b ≤ 0x7E

def isValidStreamName (name : Bytes) : Bool :=
  1 ≤ name.length && name.length ≤ maxStreamNameLen && name.all isAsciiGraphic

/-- A stream: the default one, whose name is empty, or a named one. -/
structure StreamId where
  name : Bytes
  valid : name = [] ∨ isValidStreamName name = true
  deriving DecidableEq

namespace StreamId

def defaultStream : StreamId := ⟨[], .inl rfl⟩

def named (name : Bytes) : Option StreamId :=
  if h : isValidStreamName name = true then some ⟨name, .inr h⟩ else none

def isDefault (id : StreamId) : Bool := id.name = []

end StreamId

/-- The stream a record's tag names. -/
def tagToStreamId (tag : Bytes) : Option StreamId :=
  if tag.validUtf8 then StreamId.named tag else none

/-! ## The reap snapshot -/

def reapSnapshotVersion : UInt8 := 1

def sharedWalReapPayload : Nat := 60 * 1024

/-- One stream's entry: the name with its length, and the base. -/
def encodeReapBase (e : Bytes × Nat) : Bytes :=
  Bytes.ofNatLE 2 (min e.1.length (2 ^ 16 - 1)) ++ e.1 ++ Bytes.ofNatLE 8 e.2

/-- The snapshot of a reap: where the log now starts, and each stream's base. -/
def encodeReapSnapshot (earliest : Nat) (bases : List (Bytes × Nat)) : Bytes :=
  [reapSnapshotVersion] ++ Bytes.ofNatLE 8 earliest
    ++ Bytes.ofNatLE 4 (min bases.length (2 ^ 32 - 1)) ++ bases.flatMap encodeReapBase

def takeBytes (bytes : Bytes) (mid : Nat) : Option (Bytes × Bytes) :=
  if bytes.length < mid then none else some (bytes.take mid, bytes.drop mid)

/-- Reads one stream's entry. -/
def decodeReapBase (bytes : Bytes) : Option ((Bytes × Nat) × Bytes) := do
  let (len, rest) ← takeBytes bytes 2
  let (name, rest) ← takeBytes rest len.toNatLE
  let (base, rest) ← takeBytes rest 8
  if name.validUtf8 then some ((name, base.toNatLE), rest) else none

/-- Reads `count` entries; a name that comes twice means a corrupt snapshot. -/
def decodeReapBases : Nat → Bytes → Assoc Bytes Nat → Option (Assoc Bytes Nat × Bytes)
  | 0, bytes, bases => some (bases, bytes)
  | count + 1, bytes, bases => do
    let ((name, base), rest) ← decodeReapBase bytes
    if (bases.lookup name).isSome then none
    else decodeReapBases count rest (bases.insert name base)

def decodeReapSnapshot (bytes : Bytes) : Option (Nat × Assoc Bytes Nat) := do
  let (version, rest) ← takeBytes bytes 1
  if version = [reapSnapshotVersion] then
    let (earliest, rest) ← takeBytes rest 8
    let (count, rest) ← takeBytes rest 4
    let (bases, rest) ← decodeReapBases count.toNatLE rest ∅
    if rest = [] then some (earliest.toNatLE, bases) else none
  else none

/-- The checkpoint file: what the last successful write put there, and what later writes that
failed may have. -/
structure ReapCheckpoint where
  stored : Option Bytes
  issued : List Bytes

namespace ReapCheckpoint

/-- What a crash may leave. -/
def contents (c : ReapCheckpoint) : List (Option Bytes) := c.stored :: c.issued.map some

/-- The file once `found` was read back. It was not written again, so what the last successful write
put there may still come back. -/
def reopened (c : ReapCheckpoint) (found : Option Bytes) : ReapCheckpoint :=
  { stored := c.stored, issued := if found = c.stored then [] else found.toList }

end ReapCheckpoint

/-- What the storage does with a checkpoint write. -/
inductive CheckpointIo where
  | ok
  /-- The file cannot be made or opened. -/
  | unopened
  /-- The write or its barrier fails; the payload may be there all the same. -/
  | failed

/-! ## The log -/

/-- A record in the shared log. -/
structure Tagged (ρ : Type) where
  tag : Bytes
  body : ρ

/-- A record as a stream's reader gets it. -/
structure StreamedRecord (ρ : Type) where
  offset : Nat
  streamTag : Bytes
  body : ρ
  deriving DecidableEq

/-- A stream's entry in the index: its first position, and where its records lie. -/
structure StreamSlot where
  base : Nat
  offsets : List Nat

namespace StreamSlot

def default : StreamSlot := ⟨0, []⟩

def nextPosition (s : StreamSlot) : Nat := s.base + s.offsets.length

/-- How many of the records lie below an offset; the offsets ascend. -/
def survivingBelow (s : StreamSlot) (bound : Nat) : Nat := (s.offsets.takeWhile (· < bound)).length

/-- Gives up the records below an offset. -/
def trim (s : StreamSlot) (bound : Nat) : StreamSlot :=
  ⟨s.base + s.survivingBelow bound, s.offsets.drop (s.survivingBelow bound)⟩

end StreamSlot

structure SharedWal (ρ : Type) where
  log : HeadLog (Tagged ρ)
  index : Assoc StreamId StreamSlot
  logicalEarliest : Nat
  checkpoint : ReapCheckpoint

inductive WalError where
  | defaultStream
  | notDeclared (id : StreamId)
  | belowEarliest (pos base : Nat)
  | unreadable (offset : Nat)
  | demuxViolation (offset : Nat)
  | log (e : HeadLog.ReadError)
  /-- The log did not take the record or the barrier. -/
  | notWritten
  /-- The checkpoint does not decode. -/
  | undecodableCheckpoint
  | invalidStreamInCheckpoint (name : Bytes)
  /-- The log starts behind where the checkpoint says. -/
  | startsLate (physical logical : Nat)
  | noReadableRun (offset flushed : Nat)
  deriving DecidableEq

/-- What the storage and the bounds do in one reap. -/
structure ReapIo where
  /-- A bound is set at all. -/
  bounded : Bool
  /-- The log is over a bound. -/
  tripped : Bool
  checkpoint : CheckpointIo
  /-- How many segments the bounds give up before an unlink fails or they are met. -/
  wanted : Nat
  /-- An unlink fails. -/
  unlinkFails : Bool

namespace SharedWal

variable {ρ : Type}

def fresh : SharedWal ρ := ⟨.fresh, ∅, 0, ⟨none, []⟩⟩

def declare (w : SharedWal ρ) (id : StreamId) : Except WalError Bool × SharedWal ρ :=
  if id.isDefault then (.error .defaultStream, w)
  else if (w.index.lookup id).isSome then (.ok false, w)
  else (.ok true, { w with index := w.index.insert id .default })

/-- Appends a record to a stream; the position it got. -/
def appendTo (w : SharedWal ρ) (io : WriteIo) (id : StreamId) (r : ρ) :
    Except WalError Nat × SharedWal ρ :=
  if id.isDefault then (.error .defaultStream, w)
  else
    match w.index.lookup id with
    | none => (.error (.notDeclared id), w)
    | some slot =>
      match w.log.append io ⟨id.name, r⟩ with
      | (none, log) => (.error .notWritten, { w with log := log })
      | (some offset, log) =>
        (.ok slot.nextPosition,
          { w with
            log := log
            index := w.index.insert id { slot with offsets := slot.offsets ++ [offset] } })

/-- Reads the record at an offset and checks that it is the stream's. -/
def readOneDemuxed (w : SharedWal ρ) (id : StreamId) (offset : Nat) :
    Except WalError (StreamedRecord ρ) :=
  match w.log.readRangeRaw offset 1 with
  | .error e => .error (.log e)
  | .ok [] => .error (.unreadable offset)
  | .ok (r :: _) =>
    if r.tag = id.name then .ok ⟨offset, r.tag, r.body⟩ else .error (.demuxViolation offset)

def readAt (w : SharedWal ρ) (id : StreamId) (pos : Nat) :
    Except WalError (Option (StreamedRecord ρ)) :=
  match w.index.lookup id with
  | none => .error (.notDeclared id)
  | some slot =>
    if pos < slot.base then .error (.belowEarliest pos slot.base)
    else
      match slot.offsets[pos - slot.base]? with
      | none => .ok none
      | some offset =>
        if w.log.flushedOffset ≤ offset then .ok none
        else (w.readOneDemuxed id offset).map fun r => some { r with offset := pos }

def streamDurableLen (w : SharedWal ρ) (id : StreamId) : Nat :=
  match w.index.lookup id with
  | none => 0
  | some slot => slot.base + slot.survivingBelow w.log.flushedOffset

def streamEarliest (w : SharedWal ρ) (id : StreamId) : Nat :=
  ((w.index.lookup id).map StreamSlot.base).getD 0

def sync (w : SharedWal ρ) (io : SyncIo) : Except WalError Nat × SharedWal ρ :=
  match w.log.sync io with
  | (false, log) => (.error .notWritten, { w with log := log })
  | (true, log) => (.ok log.syncedOffset, { w with log := log })

/-! ## Retention -/

/-- Each stream's base once the log starts at `stop`, in the order of the names. -/
def reapBases (w : SharedWal ρ) (stop : Nat) : List (Bytes × Nat) :=
  ((w.index.entries.map fun e => (e.1.name, e.2.base + e.2.survivingBelow stop)).filter
    fun e => 0 < e.2).mergeSort fun a b => decide (a.1 ≤ b.1)

/-- Writes the snapshot of a reap up to `stop`; whether there was room for it. -/
def writeReapCheckpoint (w : SharedWal ρ) (io : CheckpointIo) (stop : Nat) :
    Except WalError Bool × SharedWal ρ :=
  let payload := encodeReapSnapshot stop (w.reapBases stop)
  if sharedWalReapPayload < payload.length then (.ok false, w)
  else
    match io with
    | .unopened => (.error .notWritten, w)
    | .failed =>
      (.error .notWritten,
        { w with checkpoint := { w.checkpoint with issued := w.checkpoint.issued ++ [payload] } })
    | .ok => (.ok true, { w with checkpoint := ⟨some payload, []⟩ })

/-- Moves the logical start of the log to `stop`. -/
def trim (w : SharedWal ρ) (stop : Nat) : SharedWal ρ :=
  { w with index := w.index.retain fun s => some (s.trim stop), logicalEarliest := stop }

/-- Unlinks segments below the logical start; whether it succeeded. -/
def unlink (w : SharedWal ρ) (io : ReapIo) : Bool × SharedWal ρ :=
  (!io.unlinkFails, { w with log := w.log.reap io.wanted w.logicalEarliest })

/-- One retention pass over the records below `protectBelow`; whether it succeeded. -/
def reap (w : SharedWal ρ) (io : ReapIo) (protectBelow : Nat) : Bool × SharedWal ρ :=
  if !io.bounded then (true, w)
  else
    match w.log.sealedPrefixEndAtOrBelow protectBelow with
    | none => w.unlink io
    | some stop =>
      if w.logicalEarliest < stop && io.tripped then
        match w.writeReapCheckpoint io.checkpoint stop with
        | (.error _, w) => (false, w)
        | (.ok false, w) => w.unlink io
        | (.ok true, w) => (w.trim stop).unlink io
      else w.unlink io

/-! ## Opening -/

def recoveryScanChunk : Nat := 1024

/-- Adds one scanned record to the index, or counts its tag as undecodable. -/
def indexRecord (acc : Assoc StreamId StreamSlot × Nat) (e : Nat × Tagged ρ) :
    Assoc StreamId StreamSlot × Nat :=
  match tagToStreamId e.2.tag with
  | none => (acc.1, acc.2 + 1)
  | some id =>
    let slot := (acc.1.lookup id).getD .default
    (acc.1.insert id { slot with offsets := slot.offsets ++ [e.1] }, acc.2)

/-- Scans the log from `cursor` on, one run at a time. Each run holds a record, so as many rounds as
there are records suffice. -/
def scanIndex (log : HeadLog (Tagged ρ)) :
    Nat → Nat → Assoc StreamId StreamSlot × Nat → Except WalError (Assoc StreamId StreamSlot × Nat)
  | 0, _, acc => .ok acc
  | rounds + 1, cursor, acc =>
    if log.flushedOffset ≤ cursor then .ok acc
    else
      match log.readRangeRaw cursor recoveryScanChunk with
      | .error e => .error (.log e)
      | .ok [] => .error (.noReadableRun cursor log.flushedOffset)
      | .ok (r :: run) =>
        scanIndex log rounds (cursor + (run.length + 1))
          ((((r :: run).zipIdx cursor).map Prod.swap).foldl indexRecord acc)

/-- The slots of the streams the checkpoint names. -/
def seedIndex : List (Bytes × Nat) → Except WalError (Assoc StreamId StreamSlot)
  | [] => .ok ∅
  | (name, base) :: rest =>
    match StreamId.named name with
    | none => .error (.invalidStreamInCheckpoint name)
    | some id => (seedIndex rest).map fun index => index.insert id ⟨base, []⟩

def rebuildIndex (log : HeadLog (Tagged ρ)) (earliest : Nat) (bases : Assoc Bytes Nat) :
    Except WalError (Assoc StreamId StreamSlot × Nat) :=
  match seedIndex (bases.entries.map fun e => (e.1, e.2)) with
  | .error e => .error e
  | .ok index => scanIndex log log.flushedOffset earliest (index, 0)

/-- What the checkpoint says: the logical start and the bases. -/
def readCheckpoint : Option Bytes → Except WalError (Nat × Assoc Bytes Nat)
  | none => .ok (0, ∅)
  | some payload =>
    match decodeReapSnapshot payload with
    | none => .error .undecodableCheckpoint
    | some snapshot => .ok snapshot

/-- Opens the shared log over a log and a checkpoint file as they are found; the log, and how many
records had a tag that names no stream. -/
def openOver (log : HeadLog (Tagged ρ)) (checkpoint : ReapCheckpoint) (found : Option Bytes) :
    Except WalError (SharedWal ρ × Nat) := do
  let (earliest, bases) ← readCheckpoint found
  if earliest < log.earliestOffset then .error (.startsLate log.earliestOffset earliest)
  else
    let (index, undecodable) ← rebuildIndex log earliest bases
    return (⟨log, index, earliest, checkpoint⟩, undecodable)

/-- Opens the shared log after a crash that left `found` in the checkpoint file. -/
def reopen (w : SharedWal ρ) (io : HeadLog.CrashIo) (found : Option Bytes) :
    Except WalError (SharedWal ρ × Nat) :=
  openOver (w.log.reopen io) (w.checkpoint.reopened found) found

end SharedWal

end IronBus
