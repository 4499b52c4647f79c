import IronBus.Native.Codec
import IronBus.Native.Isr

/-!
# Replication of a partition's log

A leader serves runs of its flushed frames; a follower validates each frame, appends it verbatim
and syncs. The log below this layer is seen as the frames at its offsets, the frontier it takes for
flushed and what the storage under it has synced; the two differ after a restart, since a log that
is opened takes what it finds for synced. How many records one read returns depends on how the log
is cut into segments and on byte budgets; a read takes that number, its `room`, as an argument.

A follower learns epoch boundaries only from callers outside the serving loop, so its epoch cache
is empty there and the reconciliation by epochs drops nothing.
-/

namespace IronBus

open Codec

/-- A replica's log: the frame at each offset, how many it takes for flushed, and how many the
storage has synced. -/
structure ReplicaLog where
  records : List Bytes
  flushed : Nat
  durable : Nat
  durable_le : durable ≤ flushed
  flushed_le : flushed ≤ records.length

/-- What the storage under one call does: the append that fails, counting from the call's first,
and whether its sync fails. -/
structure StorageFaults where
  appendFailsAt : Option Nat
  syncFails : Bool
  deriving DecidableEq

def StorageFaults.none : StorageFaults := ⟨Option.none, false⟩

/-- A contiguous run of frames as it lies on disk. -/
structure RawByteRun where
  bytes : Bytes
  firstOffset : Nat
  recordCount : Nat

namespace ReplicaLog

/-- A log of which everything is synced. -/
def settled (records : List Bytes) : ReplicaLog where
  records := records
  flushed := records.length
  durable := records.length
  durable_le := Nat.le_refl _
  flushed_le := Nat.le_refl _

def empty : ReplicaLog := settled []

/-- The first offset the log does not hold; its sequence number is the same. -/
def nextOffset (l : ReplicaLog) : Nat := l.records.length

def appendFrameVerbatim (l : ReplicaLog) (frame : Bytes) : ReplicaLog where
  records := l.records ++ [frame]
  flushed := l.flushed
  durable := l.durable
  durable_le := l.durable_le
  flushed_le := l.flushed_le.trans (by simp)

def sync (l : ReplicaLog) : ReplicaLog := settled l.records

/-- Drops everything from an offset on; the cut syncs what is left. -/
def truncateTo (l : ReplicaLog) (target : Nat) : Except StorageError ReplicaLog :=
  if l.nextOffset < target then .error (.truncateOutOfRange target 0 l.nextOffset)
  else if target = l.nextOffset then .ok l
  else .ok (settled (l.records.take target))

theorem durable_le_take (l : ReplicaLog) (n : Nat) :
    l.durable ≤ (l.records.take (max l.durable n)).length := by
  rw [List.length_take]
  exact le_min (le_max_left ..) (l.durable_le.trans l.flushed_le)

/-- What a reopening after a crash finds: what was synced, and of the rest what survived. The log
takes all of it for flushed; it is synced only when a torn end is cut off. -/
def crash (l : ReplicaLog) (survivors : Nat) (torn : Bool) : ReplicaLog :=
  if torn then settled (l.records.take (max l.durable survivors))
  else
    { records := l.records.take (max l.durable survivors)
      flushed := (l.records.take (max l.durable survivors)).length
      durable := l.durable
      durable_le := l.durable_le_take survivors
      flushed_le := Nat.le_refl _ }

/-- Reads the flushed frames from an offset on, as far as the request and the room go. -/
def readRangeRaw (l : ReplicaLog) (start maxRecords room : Nat) : RawByteRun :=
  let frames := (l.records.drop start).take (min maxRecords (min room (l.flushed - start)))
  ⟨frames.flatten, start, frames.length⟩

end ReplicaLog

/-! ## Serving a fetch -/

structure FetchRecordsBody where
  fromOffset : Nat
  maxRecords : Nat
  maxBytes : Nat

structure FetchResponseBody where
  highWatermark : Nat
  firstOffset : Nat
  recordCount : Nat
  frameBytes : Bytes

def u32Max : Nat := 2 ^ 32 - 1

/-- The leader's answer: its flushed frontier and a run from the requested offset. -/
def serveFetch (plane : ReplicaLog) (req : FetchRecordsBody) (room : Nat) : FetchResponseBody :=
  let run := plane.readRangeRaw req.fromOffset req.maxRecords room
  ⟨plane.flushed, run.firstOffset, min run.recordCount u32Max, run.bytes⟩

/-! ## Applying a response -/

inductive ReplicationError where
  | nonContiguous (expected got : Nat)
  | corruptFrame (atOffset : Nat) (reason : DecodeError)
  | recordCountMismatch (claimed actual : Nat)
  | seqMismatch (atOffset embedded expected : Nat)
  | storage
  | resyncLeaderBehind (leaderHw committedHw : Nat)
  deriving DecidableEq

structure ApplyOutcome where
  appended : Nat
  nextOffset : Nat
  highWatermark : Nat
  deriving DecidableEq

structure Follower where
  log : ReplicaLog
  /-- The highest leader frontier this follower has been told. -/
  leaderHighWatermark : Nat

namespace Follower

def new (log : ReplicaLog) : Follower := ⟨log, log.nextOffset⟩

def nextFetchOffset (f : Follower) : Nat := f.log.nextOffset

def fetchRequest (f : Follower) (maxRecords maxBytes : Nat) : FetchRecordsBody :=
  ⟨f.log.nextOffset, maxRecords, maxBytes⟩

/-- What is both held here and flushed on the leader. -/
def highWatermark (f : Follower) : Nat := min f.log.nextOffset f.leaderHighWatermark

def outcome (f : Follower) (appended : Nat) : ApplyOutcome :=
  ⟨appended, f.log.nextOffset, f.highWatermark⟩

/-- A sync that may fail, in which case what was synced stays as it was. -/
def trySync (log : ReplicaLog) (io : StorageFaults) : ReplicaLog × Except ReplicationError Unit :=
  if io.syncFails then (log, .error .storage) else (log.sync, .ok ())

/-- Syncs what was appended before a rejected frame, then reports the rejection. -/
def rejectFrame (log : ReplicaLog) (io : StorageFaults) (e : ReplicationError) :
    ReplicaLog × Except ReplicationError Nat :=
  match trySync log io with
  | (log, .error e') => (log, .error e')
  | (log, .ok ()) => (log, .error e)

variable [Checksums]

/-- Walks the bytes of a response, appending one validated frame after the other; the fuel bounds
the number of frames. -/
def applyFrames (io : StorageFaults) :
    Nat → ReplicaLog → Nat → Bytes → ReplicaLog × Except ReplicationError Nat
  | 0, log, appended, _ => (log, .ok appended)
  | fuel + 1, log, appended, bytes =>
    if bytes = [] then (log, .ok appended)
    else
      match decodeInner bytes with
      | .error reason => rejectFrame log io (.corruptFrame log.nextOffset reason)
      | .ok frame =>
        if frame.view.seq ≠ log.nextOffset then
          rejectFrame log io (.seqMismatch log.nextOffset frame.view.seq log.nextOffset)
        else if io.appendFailsAt = some appended then (log, .error .storage)
        else
          applyFrames io fuel (log.appendFrameVerbatim (bytes.take frame.total)) (appended + 1)
            (bytes.drop frame.total)

/-- Applies a leader's response: every frame is validated before it is appended, and the batch is
synced at the end. -/
def applyFetchResponse (f : Follower) (resp : FetchResponseBody) (io : StorageFaults) :
    Follower × Except ReplicationError ApplyOutcome :=
  let f := { f with leaderHighWatermark := max f.leaderHighWatermark resp.highWatermark }
  if resp.recordCount = 0 ∧ resp.frameBytes = [] then (f, .ok (f.outcome 0))
  else if resp.firstOffset ≠ f.log.nextOffset then
    (f, .error (.nonContiguous f.log.nextOffset resp.firstOffset))
  else
    match applyFrames io resp.frameBytes.length f.log 0 resp.frameBytes with
    | (log, .error e) => ({ f with log := log }, .error e)
    | (log, .ok appended) =>
      match trySync log io with
      | (log, .error e) => ({ f with log := log }, .error e)
      | (log, .ok ()) =>
        let f := { f with log := log }
        if min appended u32Max ≠ resp.recordCount then
          (f, .error (.recordCountMismatch resp.recordCount (min appended u32Max)))
        else (f, .ok (f.outcome appended))

end Follower

/-- A follower's report: its next offset, as synced. -/
def reportFromFollower (f : Follower) (nodeId : Nat) : AckReplicatedBody :=
  ⟨nodeId, f.nextFetchOffset⟩

end IronBus
