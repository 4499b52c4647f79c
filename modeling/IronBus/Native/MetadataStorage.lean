import IronBus.ForStd.Bytes
import IronBus.ForStd.RecordLog

/-!
# The storage of the metadata Raft group

The Raft log of the metadata group is a mirror in memory of an append-only record log: every entry
and every pair of hard state and membership is a record, and an entry drops the entries of the
mirror at and above its index. A snapshot is written to a checkpoint of its own. Opening the storage
installs the snapshot of the checkpoint and then applies every record of the log in order.

The records are seen as what their bytes parse to. The checkpoint is the last snapshot that was
written.
-/

namespace IronBus

/-! ## Raft data -/

inductive EntryType where
  | normal
  | confChange
  | confChangeV2
  deriving DecidableEq

structure RaftEntry where
  index : Nat
  term : Nat
  entryType : EntryType
  data : Bytes
  deriving DecidableEq

@[ext]
structure HardState where
  term : Nat
  vote : Nat
  commit : Nat
  deriving DecidableEq

structure ConfState where
  voters : List Nat
  votersOutgoing : List Nat
  learners : List Nat
  learnersNext : List Nat
  autoLeave : Bool
  deriving DecidableEq

def HardState.default : HardState := ⟨0, 0, 0⟩

def ConfState.default : ConfState := ⟨[], [], [], [], false⟩

structure RaftSnapshot where
  index : Nat
  term : Nat
  confState : ConfState
  data : Bytes
  deriving DecidableEq

/-! ## The mirror -/

/-- A record of the metadata log, by its kind and what its payload parses to. -/
inductive MetaRecord where
  | entry (e : RaftEntry)
  | state (hs : HardState) (cs : ConfState)
  /-- The payload does not parse. -/
  | garbled
  | unknown (kind : UInt8)
  /-- There is no header byte that says what the record is. -/
  | headerless
  deriving DecidableEq

inductive MetadataStorageError where
  | storage
  | offsetOutOfRange
  | codec
  | unknownRecordKind (kind : UInt8)
  | malformedRecordHeader
  deriving DecidableEq

/-- The mirror of the log. -/
@[ext]
structure MetadataCore where
  hardState : HardState
  confState : ConfState
  entries : List RaftEntry
  snapshotIndex : Nat
  snapshotTerm : Nat
  snapshotData : Bytes
  deriving DecidableEq

namespace MetadataCore

def empty : MetadataCore := ⟨.default, .default, [], 0, 0, []⟩

def firstIndex (c : MetadataCore) : Nat :=
  match c.entries.head? with
  | some e => e.index
  | none => c.snapshotIndex + 1

def lastIndex (c : MetadataCore) : Nat :=
  match c.entries.getLast? with
  | some e => e.index
  | none => c.snapshotIndex

/-- Takes an entry in place of the entries at and above its index. -/
def mirrorEntry (c : MetadataCore) (entry : RaftEntry) : MetadataCore :=
  if entry.index < c.firstIndex then c
  else { c with entries := c.entries.take (entry.index - c.firstIndex) ++ [entry] }

/-- Installs a snapshot, unless it is older than the log; whether it did. -/
def applySnapshot (c : MetadataCore) (s : RaftSnapshot) : Bool × MetadataCore :=
  if s.index < c.firstIndex then (false, c)
  else
    (true,
      { hardState := { c.hardState with term := max c.hardState.term s.term, commit := s.index }
        confState := s.confState
        entries := []
        snapshotIndex := s.index
        snapshotTerm := s.term
        snapshotData := s.data })

/-- Drops the entries below an index; none if there is no entry right below it. -/
def compact (c : MetadataCore) (compactIndex : Nat) : Option MetadataCore :=
  let first := c.firstIndex
  if compactIndex ≤ first then some c
  else
    let pos := compactIndex - 1 - first
    (c.entries[pos]?).map fun e =>
      { c with
        snapshotTerm := e.term
        snapshotIndex := compactIndex - 1
        entries := c.entries.drop (pos + 1) }

/-- The term of the entry at an index, or of the snapshot. -/
def termAt (c : MetadataCore) (idx : Nat) : Option Nat :=
  if idx = c.snapshotIndex then some c.snapshotTerm
  else if idx < c.firstIndex then none
  else (c.entries[idx - c.firstIndex]?).map (·.term)

/-- Applies a record of the log when the storage is opened. Neither the term nor the commit index
goes back. -/
def replayRecord (c : MetadataCore) : MetaRecord → Except MetadataStorageError MetadataCore
  | .entry e => .ok (c.mirrorEntry e)
  | .state hs cs =>
    .ok { c with
      hardState :=
        ⟨max hs.term c.hardState.term, hs.vote, max hs.commit c.hardState.commit⟩
      confState := cs }
  | .garbled => .error .codec
  | .unknown kind => .error (.unknownRecordKind kind)
  | .headerless => .error .malformedRecordHeader

def replayInto (c : MetadataCore) : List MetaRecord → Except MetadataStorageError MetadataCore
  | [] => .ok c
  | r :: rs =>
    match c.replayRecord r with
    | .ok c => c.replayInto rs
    | .error e => .error e

/-- The membership a new group starts with. -/
def seedVoters (c : MetadataCore) (voters : List Nat) : MetadataCore :=
  if c.confState.voters = [] ∧ c.confState.learners = [] then
    { c with confState := { c.confState with voters := voters } }
  else c

end MetadataCore

/-! ## The storage -/

/-- What becomes of a write to the checkpoint of snapshots. One that fails may leave the snapshot
where the next opening finds it. -/
inductive CheckpointWrite where
  | ok
  | fails (stored : Bool)

structure MetadataLogStorage where
  log : RecordLog MetaRecord
  /-- How many records were given up at the front of the log. -/
  earliest : Nat
  /-- How many of the records that are left can be read. -/
  flushed : Nat
  core : MetadataCore
  checkpoint : Option RaftSnapshot

namespace MetadataLogStorage

/-- Opens the storage on a log and a checkpoint. -/
def reopen (log : RecordLog MetaRecord) (earliest : Nat) (checkpoint : Option RaftSnapshot)
    (confStateVoters : List Nat) : Except MetadataStorageError MetadataLogStorage :=
  let core :=
    match checkpoint with
    | some s => (MetadataCore.empty.applySnapshot s).2
    | none => MetadataCore.empty
  match core.replayInto log.records with
  | .error e => .error e
  | .ok core => .ok ⟨log, earliest, log.records.length, core.seedVoters confStateVoters, checkpoint⟩

def appendEntryRecord (s : MetadataLogStorage) (io : AppendIo) (entry : RaftEntry) :
    Bool × MetadataLogStorage :=
  match s.log.append io (.entry entry) with
  | (false, log) => (false, { s with log := log })
  | (true, log) => (true, { s with log := log, core := s.core.mirrorEntry entry })

/-- Appends entries one after the other, up to the first failure. -/
def append (s : MetadataLogStorage) : List AppendIo → List RaftEntry → Bool × MetadataLogStorage
  | _, [] => (true, s)
  | ios, e :: es =>
    match s.appendEntryRecord (ios.head?.getD .ok) e with
    | (false, s) => (false, s)
    | (true, s) => s.append ios.tail es

def setHardState (s : MetadataLogStorage) (io : AppendIo) (hs : HardState) :
    Bool × MetadataLogStorage :=
  match s.log.append io (.state hs s.core.confState) with
  | (false, log) => (false, { s with log := log })
  | (true, log) => (true, { s with log := log, core := { s.core with hardState := hs } })

def setConfState (s : MetadataLogStorage) (io : AppendIo) (cs : ConfState) :
    Bool × MetadataLogStorage :=
  match s.log.append io (.state s.core.hardState cs) with
  | (false, log) => (false, { s with log := log })
  | (true, log) => (true, { s with log := log, core := { s.core with confState := cs } })

def sync (s : MetadataLogStorage) (fails : Bool) : Bool × MetadataLogStorage :=
  match s.log.sync fails with
  | (false, log) => (false, { s with log := log })
  | (true, log) => (true, { s with log := log, flushed := log.records.length })

/-- Whether a record is kept when the log is cut below a snapshot. -/
def retained (snapshotIndex : Nat) : MetaRecord → Bool
  | .entry e => snapshotIndex < e.index
  | .headerless => false
  | _ => true

/-- How many records at the front of the log a snapshot makes superfluous, as far as the log can be
read. -/
def protectFloor (s : MetadataLogStorage) (snapshotIndex : Nat) : Nat :=
  ((s.log.records.take s.flushed).findIdx? (retained snapshotIndex)).getD s.log.records.length

/-- How many records a reap with a floor removes, by the sizes of the sealed segments: the oldest
ones, up to the first that does not end at or below the floor. -/
def reapable (floor : Nat) : List Nat → Nat
  | [] => 0
  | n :: sizes => if n ≤ floor then n + reapable (floor - n) sizes else 0

/-- Gives up whole segments below a snapshot. The scan reads from offset zero, which fails once
anything was given up. -/
def reclaimLogPrefix (s : MetadataLogStorage) (segments : Nat) (snapshotIndex : Nat) :
    Except MetadataStorageError Unit × MetadataLogStorage :=
  if s.earliest ≠ 0 then (.error .offsetOutOfRange, s)
  else
    let n := min segments (s.protectFloor snapshotIndex)
    (.ok (), { s with
      log := s.log.reap n
      earliest := s.earliest + n
      flushed := s.flushed - n })

/-- Writes a snapshot to the checkpoint; whether it did. -/
def writeCheckpoint (s : MetadataLogStorage) (write : CheckpointWrite) (snapshot : RaftSnapshot) :
    Bool × MetadataLogStorage :=
  match write with
  | .ok => (true, { s with checkpoint := some snapshot })
  | .fails stored => (false, if stored then { s with checkpoint := some snapshot } else s)

/-- Writes a snapshot of the applied state and drops the entries it covers. The result is none if
there is no entry at its index. -/
def createSnapshotAndCompact (s : MetadataLogStorage) (write : CheckpointWrite) (segments : Nat)
    (index term : Nat) (data : Bytes) :
    Option (Except MetadataStorageError Unit × MetadataLogStorage) :=
  if index ≤ s.core.snapshotIndex then some (.ok (), s)
  else
    match s.writeCheckpoint write ⟨index, term, s.core.confState, data⟩ with
    | (false, s) => some (.error .storage, s)
    | (true, s) =>
      (s.core.compact (index + 1)).map fun core =>
        ({ s with core := { core with snapshotData := data } }).reclaimLogPrefix segments index

/-- Writes and installs a snapshot of the leader; whether it was installed. -/
def installReceivedSnapshot (s : MetadataLogStorage) (write : CheckpointWrite) (segments : Nat)
    (snapshot : RaftSnapshot) : Except MetadataStorageError Bool × MetadataLogStorage :=
  if snapshot.index < s.core.firstIndex then (.ok false, s)
  else
    match s.writeCheckpoint write snapshot with
    | (false, s) => (.error .storage, s)
    | (true, s) =>
      let s := { s with core := (s.core.applySnapshot snapshot).2 }
      match s.reclaimLogPrefix segments snapshot.index with
      | (.error e, s) => (.error e, s)
      | (.ok (), s) => (.ok true, s)

/-- Serves the last snapshot to a peer if it covers the requested index. -/
def snapshot (s : MetadataLogStorage) (requestIndex : Nat) : Option RaftSnapshot :=
  if requestIndex ≤ s.core.snapshotIndex ∧ 0 < s.core.snapshotIndex then
    some ⟨s.core.snapshotIndex, s.core.snapshotTerm, s.core.confState, s.core.snapshotData⟩
  else none

end MetadataLogStorage

end IronBus
