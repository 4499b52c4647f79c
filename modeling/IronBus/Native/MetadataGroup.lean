import IronBus.Native.Metadata
import IronBus.Native.MetadataStorage

/-!
# A node of the metadata Raft group

A node drives the Raft core in cycles: it applies the entries that are committed to its state
machine, writes what is new, syncs, and moves on. A membership change goes through the Raft core,
which answers with the new membership; it is written and synced before the state machine takes it. A
node that fails in the middle of a cycle stops for good.

A restart begins with the state machine of the last snapshot and the last membership that was
written. The Raft core then delivers the committed entries above the snapshot. What it makes of a
membership change is a parameter, and what the bytes of an entry or a snapshot decode to takes the
place of the bytes.
-/

namespace IronBus

/-! ## Membership changes -/

inductive ConfChangeType where
  | addNode
  | removeNode
  | addLearnerNode
  deriving DecidableEq

inductive ConfChangeTransition where
  | auto
  | implicit
  | explicit
  deriving DecidableEq

structure ConfChangeSingle where
  nodeId : Nat
  changeType : ConfChangeType
  deriving DecidableEq

structure ConfChangeV2 where
  transition : ConfChangeTransition
  changes : List ConfChangeSingle
  deriving DecidableEq

/-- A change of the first version as one of the second. -/
def ConfChangeSingle.intoV2 (c : ConfChangeSingle) : ConfChangeV2 := ⟨.auto, [c]⟩

namespace ConfChangeV2

/-- Whether a change uses a joint configuration, and whether that is left without being asked. -/
def enterJoint (cc : ConfChangeV2) : Option Bool :=
  if cc.transition ≠ .auto ∨ 1 < cc.changes.length then
    match cc.transition with
    | .auto | .implicit => some true
    | .explicit => some false
  else none

/-- Whether a change leaves a joint configuration. -/
def leaveJoint (cc : ConfChangeV2) : Bool := cc.transition = .auto && cc.changes.isEmpty

end ConfChangeV2

/-- The membership that the Raft core makes of a change, or none if it rejects it. -/
abbrev RaftCore := ConfState → ConfChangeV2 → Option ConfState

/-- Replaces the members by those of a membership. A node that is both counts as a voter. -/
def MetadataStateMachine.setMembership (s : MetadataStateMachine) (index : Nat) (cs : ConfState) :
    MetadataStateMachine :=
  let members := (cs.learners ++ cs.learnersNext).foldl (fun m n => m.insert n .learner) .empty
  let members := (cs.voters ++ cs.votersOutgoing).foldl (fun m n => m.insert n .voter) members
  { s with members := members, appliedIndex := index }

/-! ## Committed entries -/

/-- What a committed entry decodes to. -/
inductive EntryPayload where
  /-- The empty entry of a new leader. -/
  | noop
  | command (cmd : MetadataCommand)
  | undecodable
  | confChangeV1 (c : ConfChangeSingle)
  | confChangeV2 (cc : ConfChangeV2)
  | garbledConfChange

/-- The membership change of an entry. -/
def EntryPayload.change : EntryPayload → Option ConfChangeV2
  | .confChangeV1 c => some c.intoV2
  | .confChangeV2 cc => some cc
  | _ => none

structure CommittedEntry where
  index : Nat
  payload : EntryPayload

/-! ## What survives -/

/-- A membership that was written. -/
structure WrittenConf where
  confState : ConfState
  /-- The index of the last change in it, which nothing reads. -/
  upTo : Nat

/-- The last snapshot, the last membership that was synced, and those written since. -/
structure MetadataDisk where
  snapshotIndex : Nat
  snapshotState : MetadataStateMachine
  synced : WrittenConf
  unsynced : List WrittenConf

namespace MetadataDisk

def setConfState (d : MetadataDisk) (fails : Bool) (conf : WrittenConf) : Bool × MetadataDisk :=
  if fails then (false, d) else (true, { d with unsynced := d.unsynced ++ [conf] })

/-- The membership that opening the storage finds. -/
def found (d : MetadataDisk) : WrittenConf := d.unsynced.getLast?.getD d.synced

def sync (d : MetadataDisk) (fails : Bool) : Bool × MetadataDisk :=
  if fails then (false, d) else (true, { d with synced := d.found, unsynced := [] })

/-- What a crash leaves that lets some of the unsynced writes through. -/
def crash (d : MetadataDisk) (survivors : Nat) : MetadataDisk :=
  { d with unsynced := d.unsynced.take survivors }

end MetadataDisk

/-! ## The node -/

/-- What the storage does while an entry is applied. -/
structure EntryIo where
  writeFails : Bool
  syncFails : Bool

def EntryIo.ok : EntryIo := ⟨false, false⟩

/-- What the storage does in a cycle. -/
structure ReadyIo where
  committed : List EntryIo
  persistFails : Bool
  commitFails : Bool
  light : List EntryIo

def ReadyIo.ok : ReadyIo := ⟨[], false, false, []⟩

structure MetadataRaftGroup where
  disk : MetadataDisk
  state : MetadataStateMachine
  /-- The membership of the Raft core. -/
  config : ConfState
  /-- The index of the last change in it, which nothing reads. -/
  upTo : Nat
  /-- The last entry the node has applied. -/
  applied : Nat
  healthFailed : Bool

namespace MetadataRaftGroup

/-- Opens a node on what survives. -/
def openInner (d : MetadataDisk) : MetadataRaftGroup :=
  ⟨d, d.snapshotState, d.found.confState, d.found.upTo, d.snapshotIndex, false⟩

/-- A new node, with the voters it is told. -/
def fresh (seed : ConfState) : MetadataRaftGroup := openInner ⟨0, .new, ⟨seed, 0⟩, []⟩

def applyConfChangeEntry (raft : RaftCore) (g : MetadataRaftGroup) (io : EntryIo) (index : Nat)
    (cc : ConfChangeV2) : Bool × MetadataRaftGroup :=
  match raft g.config cc with
  | none => (false, g)
  | some cs =>
    let g := { g with config := cs, upTo := max g.upTo index }
    match g.disk.setConfState io.writeFails ⟨cs, g.upTo⟩ with
    | (false, d) => (false, { g with disk := d })
    | (true, d) =>
      match d.sync io.syncFails with
      | (false, d) => (false, { g with disk := d })
      | (true, d) =>
        (true, { g with disk := d, state := g.state.setMembership index cs, applied := index })

def applyEntry (raft : RaftCore) (g : MetadataRaftGroup) (io : EntryIo) (e : CommittedEntry) :
    Bool × MetadataRaftGroup :=
  match e.payload with
  | .noop => (true, { g with applied := e.index })
  | .command cmd => (true, { g with state := g.state.apply e.index cmd, applied := e.index })
  | .undecodable => (false, g)
  | .confChangeV1 c => g.applyConfChangeEntry raft io e.index c.intoV2
  | .confChangeV2 cc => g.applyConfChangeEntry raft io e.index cc
  | .garbledConfChange => (false, g)

/-- Applies committed entries in order, up to the first failure. -/
def applyCommitted (raft : RaftCore) (g : MetadataRaftGroup) :
    List EntryIo → List CommittedEntry → Bool × MetadataRaftGroup
  | _, [] => (true, g)
  | ios, e :: es =>
    match g.applyEntry raft (ios.head?.getD .ok) e with
    | (false, g) => (false, g)
    | (true, g) => g.applyCommitted raft ios.tail es

/-- One cycle: the entries that were committed, the writes with their syncs, and the entries those
have committed. -/
def driveReadyInner (raft : RaftCore) (g : MetadataRaftGroup) (io : ReadyIo)
    (committed light : List CommittedEntry) : Bool × MetadataRaftGroup :=
  match g.applyCommitted raft io.committed committed with
  | (false, g) => (false, g)
  | (true, g) =>
    if io.persistFails then (false, g)
    else if io.commitFails then (false, g)
    else g.applyCommitted raft io.light light

/-- A cycle that fails stops the node. -/
def driveReady (raft : RaftCore) (g : MetadataRaftGroup) (io : ReadyIo)
    (committed light : List CommittedEntry) : MetadataRaftGroup :=
  if g.healthFailed then g
  else
    match g.driveReadyInner raft io committed light with
    | (true, g) => g
    | (false, g) => { g with healthFailed := true }

/-- Writes a snapshot of what is applied; whether it did. -/
def createSnapshot (g : MetadataRaftGroup) (writeFails : Bool) : Bool × MetadataRaftGroup :=
  let applied := g.state.appliedIndex
  if applied ≤ g.disk.snapshotIndex then (false, g)
  else if writeFails then (false, g)
  else
    (true, { g with
      disk := { g.disk with snapshotIndex := applied, snapshotState := g.state } })

end MetadataRaftGroup

end IronBus
