import IronBus.Native.HeadLog
import IronBus.Native.Replication

/-!
# A follower's ingest and its heads

`applyFetchResponse` over a log with its visible and its synced head: every append and every barrier
may fail, and the walk over a response leaves through several exits, not all of which sync.
-/

namespace IronBus

open Codec

/-- What the storage does in one call: with each append, counted from the first one of the call, and
with its barrier. -/
structure IngestIo where
  append : Nat → WriteIo
  sync : SyncIo

structure IngestFollower where
  log : HeadLog Bytes
  leaderHighWatermark : Nat

namespace IngestFollower

def new (log : HeadLog Bytes) : IngestFollower := ⟨log, log.nextOffset⟩

def nextFetchOffset (f : IngestFollower) : Nat := f.log.nextOffset

def highWatermark (f : IngestFollower) : Nat := min f.log.nextOffset f.leaderHighWatermark

def outcome (f : IngestFollower) (appended : Nat) : ApplyOutcome :=
  ⟨appended, f.log.nextOffset, f.highWatermark⟩

/-- Syncs what was appended before a rejected frame, then reports the rejection. -/
def rejectFrame (log : HeadLog Bytes) (io : SyncIo) (e : ReplicationError) :
    HeadLog Bytes × Except ReplicationError Nat :=
  match log.sync io with
  | (false, log) => (log, .error .storage)
  | (true, log) => (log, .error e)

variable [Checksums]

/-- Walks the bytes of a response, appending one validated frame after the other; the fuel bounds
the number of frames. -/
def applyFrames (io : IngestIo) :
    Nat → HeadLog Bytes → Nat → Bytes → HeadLog Bytes × Except ReplicationError Nat
  | 0, log, appended, _ => (log, .ok appended)
  | fuel + 1, log, appended, bytes =>
    if bytes = [] then (log, .ok appended)
    else
      match decodeInner bytes with
      | .error reason => rejectFrame log io.sync (.corruptFrame log.nextOffset reason)
      | .ok frame =>
        if frame.view.seq ≠ log.nextOffset then
          rejectFrame log io.sync (.seqMismatch log.nextOffset frame.view.seq log.nextOffset)
        else
          -- a failed append leaves at once: what the call appended before it is not synced
          match log.append (io.append appended) (bytes.take frame.total) with
          | (none, log) => (log, .error .storage)
          | (some _, log) => applyFrames io fuel log (appended + 1) (bytes.drop frame.total)

/-- Applies a leader's response. -/
def applyFetchResponse (f : IngestFollower) (resp : FetchResponseBody) (io : IngestIo) :
    IngestFollower × Except ReplicationError ApplyOutcome :=
  let f := { f with leaderHighWatermark := max f.leaderHighWatermark resp.highWatermark }
  if resp.recordCount = 0 ∧ resp.frameBytes = [] then (f, .ok (f.outcome 0))
  else if resp.firstOffset ≠ f.log.nextOffset then
    (f, .error (.nonContiguous f.log.nextOffset resp.firstOffset))
  else
    match applyFrames io resp.frameBytes.length f.log 0 resp.frameBytes with
    | (log, .error e) => ({ f with log := log }, .error e)
    | (log, .ok appended) =>
      match log.sync io.sync with
      | (false, log) => ({ f with log := log }, .error .storage)
      | (true, log) =>
        let f := { f with log := log }
        if min appended u32Max ≠ resp.recordCount then
          (f, .error (.recordCountMismatch resp.recordCount (min appended u32Max)))
        else (f, .ok (f.outcome appended))

/-- The follower's report to the leader: that it has synced everything below its next offset. -/
def followerReport (f : IngestFollower) (nodeId : Nat) : AckReplicatedBody :=
  ⟨nodeId, f.nextFetchOffset⟩

end IngestFollower

end IronBus
