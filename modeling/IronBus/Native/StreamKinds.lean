import IronBus.Native.SharedWal

/-!
# Producing to and polling every kind of stream

The engine's commit and poll paths at the sync level: the default stream (committed inline or by a
staged barrier), named streams (each produce ends with a tick over all of them), partitioned streams
and priority lanes (a tick over the partitions), and the shared log. Every poll is bounded by the
visible head of the log it reads; which offset below it a group asks for is an input.
-/

namespace IronBus

/-- The barrier of the pipelined commit loop. -/
inductive Flusher where
  | idle
  | inFlight (target : Nat)
  | returned (target : Nat) (ok : Bool)

/-- The logs of the engine. The lanes of a priority stream are the partitions of a partitioned
one. -/
structure StreamEngine (ρ : Type) where
  log : HeadLog ρ
  flusher : Flusher
  streams : List (StreamId × HeadLog ρ)
  partitioned : List (StreamId × List (HeadLog ρ))
  sharedWal : Option (SharedWal ρ)

/-- Where a delivered record was read. -/
inductive PollSource where
  | default
  | named (id : StreamId)
  | partition (id : StreamId) (index : Nat)
  | shared (id : StreamId)

/-- A record handed to a consumer. -/
structure Delivered (ρ : Type) where
  source : PollSource
  offset : Nat
  record : ρ

/-- Replaces the log of a key. -/
def setLog {κ β : Type} [DecidableEq κ] (logs : List (κ × β)) (k : κ) (l : β) : List (κ × β) :=
  logs.map fun e => (e.1, if e.1 = k then l else e.2)

/-- The visible record at an offset. -/
def HeadLog.visibleAt {ρ : Type} (l : HeadLog ρ) (offset : Nat) : Option ρ :=
  if l.earliestOffset ≤ offset ∧ offset < l.flushedOffset then l.log.records[offset]? else none

namespace StreamEngine

variable {ρ : Type}

def fresh (shared : Bool) : StreamEngine ρ :=
  ⟨.fresh, .idle, [], [], if shared then some .fresh else none⟩

/-! ## The default stream -/

def appendNoSync (e : StreamEngine ρ) (io : WriteIo) (r : ρ) : Option Nat × StreamEngine ρ :=
  let (offset, log) := e.log.append io r
  (offset, { e with log := log })

/-- The inline commit. -/
def commitInline (e : StreamEngine ρ) (io : SyncIo) : Bool × StreamEngine ρ :=
  let (ok, log) := e.log.sync io
  (ok, { e with log := log })

/-- Stages a barrier if none is under way. -/
def maybeIssue (e : StreamEngine ρ) (io : SyncIo) : StreamEngine ρ :=
  match e.flusher with
  | .idle =>
    match e.log.prepareAsyncSync io with
    | (some (some target), log) => { e with log := log, flusher := .inFlight target }
    | (_, log) => { e with log := log }
  | _ => e

/-- The barrier under way returns. -/
def barrierReturns (e : StreamEngine ρ) (ok : Bool) : StreamEngine ρ :=
  match e.flusher with
  | .inFlight target =>
    { e with
      log := if ok then e.log.barrierDone target else e.log
      flusher := .returned target ok }
  | _ => e

/-- The engine takes up a barrier that returned. -/
def onCompletion (e : StreamEngine ρ) : StreamEngine ρ :=
  match e.flusher with
  | .returned target true =>
    { e with log := e.log.completeAsyncSync target, flusher := .idle }
  | .returned _ false =>
    { e with log := e.log.freezeAfterExternalSyncFailure, flusher := .idle }
  | _ => e

/-! ## Named streams -/

/-- Opens a named stream at its first use. -/
def ensureNamedStreamOpen (e : StreamEngine ρ) (id : StreamId) : StreamEngine ρ :=
  if (e.streams.lookup id).isSome then e else { e with streams := e.streams ++ [(id, .fresh)] }

/-- Appends to a named stream and runs the commit tick over all of them; the offset, unless the tick
froze the stream. -/
def produceInStream (e : StreamEngine ρ) (io : WriteIo) (tick : StreamId → SyncIo) (id : StreamId)
    (r : ρ) : Option Nat × StreamEngine ρ :=
  let e := e.ensureNamedStreamOpen id
  match e.streams.lookup id with
  | none => (none, e)
  | some log =>
    match log.append io r with
    | (none, log) => (none, { e with streams := setLog e.streams id log })
    | (some offset, log) =>
      let (outcome, streams) := HeadLog.commitTick tick (setLog e.streams id log)
      (if id ∈ outcome.froze then none else some offset, { e with streams := streams })

/-- Closes a named stream once it is synced; whether it is closed. Its next use opens it again and
finds all of it. -/
def evictNamedStream (e : StreamEngine ρ) (io : SyncIo) (id : StreamId) : Bool × StreamEngine ρ :=
  match e.streams.lookup id with
  | none => (true, e)
  | some log =>
    match log.sync io with
    | (false, log) => (false, { e with streams := setLog e.streams id log })
    | (true, log) =>
      let found := log.reopen ⟨log.nextOffset, none, 0, false, false⟩
      (true, { e with streams := setLog e.streams id found })

/-! ## Partitioned streams and priority lanes -/

/-- The commit tick of a partitioned stream. -/
def partitionTick (tick : Nat → SyncIo) (partitions : List (HeadLog ρ)) :
    HeadLog.CommitOutcome Nat × List (HeadLog ρ) :=
  let (outcome, logs) := HeadLog.commitTick tick (partitions.zipIdx.map Prod.swap)
  (outcome, logs.map Prod.snd)

/-- Makes a stream partitioned. -/
def declarePartitioned (e : StreamEngine ρ) (id : StreamId) (count : Nat) : StreamEngine ρ :=
  if (e.partitioned.lookup id).isSome then e
  else { e with partitioned := e.partitioned ++ [(id, List.replicate count .fresh)] }

/-- Appends to one partition and runs the commit tick over all of them. -/
def producePartition (e : StreamEngine ρ) (io : WriteIo) (tick : Nat → SyncIo) (id : StreamId)
    (index : Nat) (r : ρ) : Option Nat × StreamEngine ρ :=
  match e.partitioned.lookup id with
  | none => (none, e)
  | some partitions =>
    match partitions[index]? with
    | none => (none, e)
    | some log =>
      match log.append io r with
      | (none, log) =>
        (none, { e with partitioned := setLog e.partitioned id (partitions.set index log) })
      | (some offset, log) =>
        let (outcome, partitions) := partitionTick tick (partitions.set index log)
        (if index ∈ outcome.froze then none else some offset,
          { e with partitioned := setLog e.partitioned id partitions })

/-- The partition is the one the record is routed to. -/
def producePartitioned (e : StreamEngine ρ) (io : WriteIo) (tick : Nat → SyncIo) (id : StreamId)
    (routed : Nat) (r : ρ) : Option Nat × StreamEngine ρ :=
  e.producePartition io tick id routed r

/-- The partition is the lane of the priority; a priority above the top lane goes to the top. -/
def producePriority (e : StreamEngine ρ) (io : WriteIo) (tick : Nat → SyncIo) (id : StreamId)
    (priority : Nat) (r : ρ) : Option Nat × StreamEngine ρ :=
  let count := ((e.partitioned.lookup id).map List.length).getD 0
  e.producePartition io tick id (min priority (count - 1)) r

/-! ## The shared log -/

/-- Appends to a stream of the shared log and syncs the log. -/
def produceInSharedStream (e : StreamEngine ρ) (io : WriteIo) (sync : SyncIo) (id : StreamId)
    (r : ρ) : Option Nat × StreamEngine ρ :=
  match e.sharedWal with
  | none => (none, e)
  | some wal =>
    match (wal.declare id).2.appendTo io id r with
    | (.error _, wal) => (none, { e with sharedWal := some wal })
    | (.ok pos, wal) =>
      match wal.sync sync with
      | (.error _, wal) => (none, { e with sharedWal := some wal })
      | (.ok _, wal) => (some pos, { e with sharedWal := some wal })

/-! ## Polls -/

/-- Delivers the default stream's record at an offset. -/
def poll (e : StreamEngine ρ) (offset : Nat) : Option (Delivered ρ) :=
  (e.log.visibleAt offset).map fun r => ⟨.default, offset, r⟩

/-- The visible head a poll of a named stream is bounded by. -/
def resolveNamedPoll (e : StreamEngine ρ) (id : StreamId) : Option Nat :=
  match e.sharedWal with
  | some wal => some (wal.streamDurableLen id)
  | none => (e.streams.lookup id).map HeadLog.flushedOffset

/-- Delivers a named stream's record at an offset below the head. -/
def pollNamed (e : StreamEngine ρ) (id : StreamId) (offset : Nat) : Option (Delivered ρ) := do
  let flushed ← e.resolveNamedPoll id
  if flushed ≤ offset then none
  else
    match e.sharedWal with
    | some wal =>
      match wal.readAt id offset with
      | .ok (some r) => some ⟨.shared id, offset, r.body⟩
      | _ => none
    | none =>
      let log ← e.streams.lookup id
      (log.visibleAt offset).map fun r => ⟨.named id, offset, r⟩

/-- Delivers a partition's record at an offset. -/
def pollPartition (e : StreamEngine ρ) (id : StreamId) (index offset : Nat) :
    Option (Delivered ρ) := do
  let partitions ← e.partitioned.lookup id
  let log ← partitions[index]?
  (log.visibleAt offset).map fun r => ⟨.partition id index, offset, r⟩

/-- Polls lanes from the highest down, until one has something. -/
def pollLanes (e : StreamEngine ρ) (id : StreamId) (pick : Nat → Option Nat) :
    Nat → Option (Delivered ρ)
  | 0 => none
  | lane + 1 =>
    match (pick lane).bind (e.pollPartition id lane) with
    | some d => some d
    | none => e.pollLanes id pick lane

/-- Delivers from the highest lane that has something; `pick` is the offset a group asks a lane
for. -/
def pollPriority (e : StreamEngine ρ) (id : StreamId) (pick : Nat → Option Nat) :
    Option (Delivered ρ) :=
  e.pollLanes id pick (((e.partitioned.lookup id).map List.length).getD 0)

/-! ## Restart -/

/-- What a crash left of each log. -/
structure CrashIo where
  default : HeadLog.CrashIo
  named : StreamId → HeadLog.CrashIo
  partition : StreamId → Nat → HeadLog.CrashIo
  shared : HeadLog.CrashIo
  found : Option Bytes

/-- Opens every log again; `none` if the shared log refuses to open. -/
def reopen (e : StreamEngine ρ) (io : CrashIo) : Option (StreamEngine ρ) :=
  let logs : Option (SharedWal ρ) → StreamEngine ρ := fun wal =>
    { log := e.log.reopen io.default
      flusher := .idle
      streams := e.streams.map fun s => (s.1, s.2.reopen (io.named s.1))
      partitioned := e.partitioned.map fun s =>
        (s.1, s.2.mapIdx fun i l => l.reopen (io.partition s.1 i))
      sharedWal := wal }
  match e.sharedWal with
  | none => some (logs none)
  | some wal =>
    match wal.reopen io.shared io.found with
    | .error _ => none
    | .ok (wal, _) => some (logs (some wal))

end StreamEngine

end IronBus
