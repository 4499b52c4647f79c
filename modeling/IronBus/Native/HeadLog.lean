import IronBus.ForStd.RecordLog
import IronBus.Native.Error

/-!
# A log seen through its heads

The log at the level of whole records: what was appended, how far barriers have covered it, and the
heads the log itself keeps, `flushedOffset` (readers see the records below it) and `syncedOffset`.
The commit paths move the two heads in different orders. What the storage does with a call is an
input of the call.
-/

namespace IronBus

/-- How starting the successor of a sealed segment ends. -/
inductive StartIo where
  | started
  /-- The file could not be made: the roll stays pending and the next call tries again. -/
  | deferred
  /-- A barrier on the new file failed: the writer is frozen. -/
  | broken

/-- How writing one record fails. -/
inductive WriteFault where
  /-- The record is refused before anything is written. -/
  | refused
  /-- Handing the buffer to the file failed: the record is dropped again, but its bytes may have
  reached the file. -/
  | spilled

/-- What the storage does in one append. -/
structure WriteIo where
  /-- A cap is reached. -/
  shed : Bool
  /-- How retrying a pending roll ends. -/
  retry : StartIo
  /-- The active segment is full. -/
  full : Bool
  sealFails : Bool
  start : StartIo
  write : Option WriteFault

def WriteIo.ok : WriteIo := ⟨false, .started, false, false, .started, none⟩

/-- What the storage does in one barrier. -/
structure SyncIo where
  retry : StartIo
  /-- Writing the buffer out fails. -/
  flushFails : Bool
  barrierFails : Bool

def SyncIo.ok : SyncIo := ⟨.started, false, false⟩

structure HeadLog (α : Type) where
  /-- Everything appended, and how much of it a successful barrier has covered. -/
  log : RecordLog α
  /-- The records that writes which failed may have left in the file, with their offsets. -/
  strays : List (Nat × α)
  /-- The base offsets of the segments, oldest first. -/
  segments : List Nat
  pendingRoll : Bool
  flushedOffset : Nat
  syncedOffset : Nat

namespace HeadLog

variable {α : Type}

def fresh : HeadLog α := ⟨.empty, [], [0], false, 0, 0⟩

def nextOffset (l : HeadLog α) : Nat := l.log.records.length

def isWritable (l : HeadLog α) : Bool := !l.log.frozen

def hasUnsyncedRecords (l : HeadLog α) : Bool := l.isWritable && l.syncedOffset != l.nextOffset

def earliestOffset (l : HeadLog α) : Nat := l.segments.head?.getD 0

/-- The writer is given up: nothing is appended until the log is opened again. -/
def freeze (l : HeadLog α) : HeadLog α :=
  { l with log := { l.log with frozen := true }, pendingRoll := false }

/-- Starts the successor of a sealed segment; whether it succeeded. -/
def createOrDeferSegment (l : HeadLog α) (io : StartIo) : Bool × HeadLog α :=
  match io with
  | .started => (true, { l with segments := l.segments ++ [l.nextOffset], pendingRoll := false })
  | .deferred => (false, { l with pendingRoll := true })
  | .broken => (false, l.freeze)

/-- Retries a pending roll, and checks that there is a writer. -/
def ensureWritable (l : HeadLog α) (io : StartIo) : Bool × HeadLog α :=
  if l.log.frozen then (false, l)
  else if l.pendingRoll then l.createOrDeferSegment io
  else (true, l)

/-- Everything appended is durable and visible. -/
def settle (l : HeadLog α) : HeadLog α :=
  { l with log := l.log.settle, flushedOffset := l.nextOffset, syncedOffset := l.nextOffset }

/-- Seals the active segment, whose barrier covers every record, and starts its successor. -/
def roll (l : HeadLog α) (sealFails : Bool) (start : StartIo) : Bool × HeadLog α :=
  if sealFails then (false, l.freeze) else l.settle.createOrDeferSegment start

/-- The active segment holds a record. -/
def activeHolds (l : HeadLog α) : Bool := l.segments.getLast?.any (· < l.nextOffset)

/-- A full active segment is rolled. -/
def rollIfFull (l : HeadLog α) (io : WriteIo) : Bool × HeadLog α :=
  if io.full && l.activeHolds then l.roll io.sealFails io.start else (true, l)

/-- Hands one record to the active segment; the offset it got. -/
def writeSource (l : HeadLog α) (fault : Option WriteFault) (a : α) : Option Nat × HeadLog α :=
  match fault with
  | some .refused => (none, l)
  | some .spilled => (none, { l with strays := l.strays ++ [(l.nextOffset, a)] })
  | none => (some l.nextOffset, { l with log := l.log.push a })

/-- Appends one record; the offset it got. -/
def append (l : HeadLog α) (io : WriteIo) (a : α) : Option Nat × HeadLog α :=
  if io.shed then (none, l)
  else
    match l.ensureWritable io.retry with
    | (false, l) => (none, l)
    | (true, l) =>
      match l.rollIfFull io with
      | (false, l) => (none, l)
      | (true, l) =>
        match checkedAdd l.nextOffset 1 with
        | none => (none, l)
        | some _ => l.writeSource io.write a

/-! ## The commit paths -/

/-- Writes the buffer out and issues the barrier, then moves both heads. -/
def sync (l : HeadLog α) (io : SyncIo) : Bool × HeadLog α :=
  match l.ensureWritable io.retry with
  | (false, l) => (false, l)
  | (true, l) => if io.flushFails || io.barrierFails then (false, l.freeze) else (true, l.settle)

/-- Writes the buffer out and moves the visible head. -/
def flushNoSync (l : HeadLog α) (io : SyncIo) : Bool × HeadLog α :=
  match l.ensureWritable io.retry with
  | (false, l) => (false, l)
  | (true, l) =>
    if io.flushFails then (false, l.freeze) else (true, { l with flushedOffset := l.nextOffset })

/-- The barrier alone. It moves no head. -/
def syncDataOnly (l : HeadLog α) (io : SyncIo) : Bool × HeadLog α :=
  match l.ensureWritable io.retry with
  | (false, l) => (false, l)
  | (true, l) =>
    if io.barrierFails then (false, l.freeze) else (true, { l with log := l.log.settle })

/-- Moves both heads after a barrier that was issued from outside. -/
def advanceSyncedOffsetAfterExternalSync (l : HeadLog α) : HeadLog α :=
  { l with flushedOffset := l.nextOffset, syncedOffset := l.nextOffset }

/-- Writes the buffer out and stages a barrier, which covers the records up to the ticket's target;
`none` inside if there is nothing to cover. -/
def prepareAsyncSync (l : HeadLog α) (io : SyncIo) : Option (Option Nat) × HeadLog α :=
  match l.ensureWritable io.retry with
  | (false, l) => (none, l)
  | (true, l) =>
    if !l.hasUnsyncedRecords then (some none, l)
    else if io.flushFails then (none, l.freeze)
    else (some (some l.nextOffset), l)

/-- The staged barrier returned: it covered the records below its target. -/
def barrierDone (l : HeadLog α) (target : Nat) : HeadLog α :=
  { l with
    log :=
      { l.log with
        durable := max l.log.durable (min target l.nextOffset)
        durable_le := max_le l.log.durable_le (min_le_right _ _) } }

/-- The staged barrier's success is taken up. -/
def completeAsyncSync (l : HeadLog α) (target : Nat) : HeadLog α :=
  if !l.isWritable || target ≤ l.syncedOffset then l
  else { l with flushedOffset := max l.flushedOffset target, syncedOffset := target }

def freezeAfterExternalSyncFailure (l : HeadLog α) : HeadLog α := l.freeze

/-! ## One commit tick over several logs -/

/-- Where a log stands in a tick. -/
inductive TickPhase where
  | clean
  | froze
  | barrier
  | synced
  deriving DecidableEq

section Tick

variable {κ : Type}

/-- The logs with unsynced records are written out. -/
def tickFlush (io : κ → SyncIo) (e : κ × HeadLog α) : κ × TickPhase × HeadLog α :=
  if e.2.hasUnsyncedRecords then
    match e.2.flushNoSync (io e.1) with
    | (true, l) => (e.1, .barrier, l)
    | (false, l) => (e.1, .froze, l)
  else (e.1, .clean, e.2)

/-- The barriers run, in parallel in the source: they touch different logs. -/
def tickBarrier (io : κ → SyncIo) (e : κ × TickPhase × HeadLog α) : κ × TickPhase × HeadLog α :=
  if e.2.1 = .barrier then
    match e.2.2.syncDataOnly (io e.1) with
    | (true, l) => (e.1, .synced, l)
    | (false, l) => (e.1, .froze, l)
  else e

/-- The heads of the logs whose barrier succeeded move. -/
def tickAdvance (e : κ × TickPhase × HeadLog α) : κ × TickPhase × HeadLog α :=
  if e.2.1 = .synced then (e.1, .synced, e.2.2.advanceSyncedOffsetAfterExternalSync) else e

/-- What a tick did: the logs it synced with their heads, the logs it froze, and how many barriers
it counted. -/
structure CommitOutcome (κ : Type) where
  synced : List (κ × Nat)
  froze : List κ
  fdatasyncsIssued : Nat
  deriving DecidableEq

/-- One commit tick: all write-outs, then all barriers, then the heads. -/
def commitTick (io : κ → SyncIo) (logs : List (κ × HeadLog α)) :
    CommitOutcome κ × List (κ × HeadLog α) :=
  let done := ((logs.map (tickFlush io)).map (tickBarrier io)).map tickAdvance
  ({ synced := (done.filter (·.2.1 = .synced)).map fun e => (e.1, e.2.2.syncedOffset)
     froze := (done.filter (·.2.1 = .froze)).map Prod.fst
     fdatasyncsIssued := (done.filter (·.2.1 ≠ .clean)).length },
    done.map fun e => (e.1, e.2.2))

end Tick

/-! ## Reads, retention and opening -/

/-- How a read of the log fails. -/
inductive ReadError where
  | offsetOutOfRange (requested oldest : Nat)
  deriving DecidableEq

/-- Where the segment that holds an offset ends: at the next segment's base, or not yet. -/
def segmentEnd (l : HeadLog α) (offset : Nat) : Nat :=
  (l.segments.find? (offset < ·)).getD l.nextOffset

/-- Visible records from `start` on, out of one segment. -/
def readRangeRaw (l : HeadLog α) (start maxRecords : Nat) : Except ReadError (List α) :=
  if maxRecords = 0 ∨ l.flushedOffset ≤ start then .ok []
  else if start < l.earliestOffset then .error (.offsetOutOfRange start l.earliestOffset)
  else
    let stop := min (min (start + maxRecords) l.flushedOffset) (l.segmentEnd start)
    .ok ((l.log.records.take stop).drop start)

/-- The highest segment base at or below a floor, the first segment's apart. -/
def sealedPrefixEndAtOrBelow (l : HeadLog α) (floor : Nat) : Option Nat :=
  (l.segments.tail.takeWhile (· ≤ floor)).getLast?

/-- Unlinks segments from the front, `wanted` at most: those that the bounds give up, as long as
they end at or below the floor. -/
def reap (l : HeadLog α) (wanted floor : Nat) : HeadLog α :=
  { l with segments := l.segments.drop (min wanted (l.segments.tail.takeWhile (· ≤ floor)).length) }

/-- What a crash left. -/
structure CrashIo where
  /-- How far records that no barrier covered are left. -/
  survivors : Nat
  /-- The stray that is found behind them. -/
  stray : Option Nat
  /-- How many segments are gone from the front; the newest never is. -/
  gone : Nat
  /-- The newest segment is found sealed, so a new one is started. -/
  sealedLast : Bool
  /-- Part of a record lies behind them: it is cut off, and a barrier follows. -/
  torn : Bool

/-- The records that opening the log finds. -/
def recovered (l : HeadLog α) (io : CrashIo) : RecordLog α :=
  let kept := l.log.crash io.survivors
  let found :=
    match io.stray.bind (l.strays[·]?) with
    | some (offset, a) => if offset = kept.records.length then kept.push a else kept
    | none => kept
  if io.torn then found.settle else found

/-- Opens the log after a crash. Everything found counts as flushed and synced. -/
def reopen (l : HeadLog α) (io : CrashIo) : HeadLog α :=
  let log := l.recovered io
  let found := (l.segments.drop (min io.gone (l.segments.length - 1))).filter
    (· ≤ log.records.length)
  { log := log
    strays := []
    segments := if io.sealedLast then found ++ [log.records.length] else found
    pendingRoll := false
    flushedOffset := log.records.length
    syncedOffset := log.records.length }

end HeadLog

end IronBus
