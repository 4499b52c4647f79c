import IronBus.ForStd.Assoc
import IronBus.ForStd.NatMap
import IronBus.Native.Error

/-!
# The cluster's control plane

The metadata state machine folds the committed commands of the metadata log: membership, the
placement of each partition with its leader and epoch, configuration, and the checkpointed
committed high-watermarks. The driver of the metadata leader proposes commands from the state its
node has applied: checkpoints for the partitions it leads, and its own promotion for a partition
whose leader has departed.
-/

namespace IronBus

inductive NodeRole where
  | voter
  | learner
  deriving DecidableEq

/-- The replicas of a partition, the one that leads it, and under which epoch. -/
structure Placement where
  replicas : List Nat
  leader : Nat
  epoch : Nat
  deriving DecidableEq

def Placement.leaderOnly (leader epoch : Nat) : Placement := ⟨[leader], leader, epoch⟩

inductive MetadataCommand where
  | addNode (node : Nat) (role : NodeRole)
  | removeNode (node : Nat)
  | assignPartition (partition leader epoch : Nat)
  | placePartition (partition : Nat) (replicas : List Nat) (leader epoch : Nat)
  | setConfig (key value : String)
  | checkpointCommittedHw (partition offset : Nat)
  deriving DecidableEq

structure MetadataStateMachine where
  members : NatMap NodeRole
  placements : NatMap Placement
  committedHw : NatMap Nat
  config : Assoc String String
  appliedIndex : Nat

namespace MetadataStateMachine

def new : MetadataStateMachine := ⟨.empty, .empty, .empty, ∅, 0⟩

/-- Applies the committed command of a log index. -/
def apply (s : MetadataStateMachine) (index : Nat) (cmd : MetadataCommand) : MetadataStateMachine :=
  let s :=
    match cmd with
    | .addNode node role => { s with members := s.members.insert node role }
    | .removeNode node => { s with members := s.members.erase node }
    | .assignPartition partition leader epoch =>
      { s with placements := s.placements.insert partition (.leaderOnly leader epoch) }
    | .placePartition partition replicas leader epoch =>
      { s with placements := s.placements.insert partition ⟨replicas, leader, epoch⟩ }
    | .setConfig key value => { s with config := s.config.insert key value }
    | .checkpointCommittedHw partition offset =>
      -- the bar is only ever raised
      { s with
        committedHw :=
          s.committedHw.insert partition (max ((s.committedHw.get partition).getD 0) offset) }
  { s with appliedIndex := index }

end MetadataStateMachine

/-! ## The failover check -/

/-- A failover, as the check of its safety sees it. -/
structure Failover where
  deadLeader : Nat
  successor : Nat
  successorInIsr : Bool
  successorDurablePrefix : Nat
  committedHw : Nat
  deadLeaderEpoch : Nat
  successorEpoch : Nat

inductive FailoverViolation where
  | failoverPromotedNonIsr (successor : Nat)
  | failoverLostCommitted (successor offset : Nat)
  | failoverEpochNotFenced (deadEpoch successorEpoch : Nat)
  deriving DecidableEq

def checkFailoverPreservesCommitted (f : Failover) : Except FailoverViolation Unit :=
  if !f.successorInIsr then .error (.failoverPromotedNonIsr f.successor)
  else if f.successorDurablePrefix < f.committedHw then
    .error (.failoverLostCommitted f.successor f.successorDurablePrefix)
  else if f.successorEpoch ≤ f.deadLeaderEpoch then
    .error (.failoverEpochNotFenced f.deadLeaderEpoch f.successorEpoch)
  else .ok ()

/-! ## The driver -/

/-- What the data plane of a node tells its driver, per partition. -/
structure FailoverInputs where
  committedHw : Nat → Nat
  ownFrontier : Nat → Nat

/-- The driver of a metadata leader: its node, the members it has seen depart, and the partitions
whose promotion it has in flight. -/
structure MetadataDriver where
  nodeId : Nat
  departedMembers : List Nat
  failoverProposed : List Nat

namespace MetadataDriver

/-- The checkpoint of a partition this node leads, if it raises the bar. -/
def checkpointProposal (d : MetadataDriver) (inputs : FailoverInputs) (s : MetadataStateMachine)
    (partition : Nat) (placement : Placement) : Option MetadataCommand :=
  if placement.leader ≠ d.nodeId then none
  else if inputs.committedHw partition ≤ (s.committedHw.get partition).getD 0 then none
  else some (.checkpointCommittedHw partition (inputs.committedHw partition))

/-- The promotion of this node over a departed leader, if it can show that it holds everything
committed. -/
def failoverProposal (d : MetadataDriver) (inputs : FailoverInputs) (s : MetadataStateMachine)
    (partition : Nat) (placement : Placement) : Option MetadataCommand :=
  if placement.leader ∉ d.departedMembers ∨ partition ∈ d.failoverProposed then none
  else
    match s.committedHw.get partition with
    | none => none
    | some safeBar =>
      let ownFrontier := inputs.ownFrontier partition
      if ownFrontier < safeBar then none
      else
        let newEpoch := saturatingAdd placement.epoch 1
        match checkFailoverPreservesCommitted ⟨placement.leader, d.nodeId, true, ownFrontier,
          safeBar, placement.epoch, newEpoch⟩ with
        | .error _ => none
        | .ok () =>
          let survivors := placement.replicas.filter (· ≠ placement.leader)
          let survivors :=
            if d.nodeId ∈ survivors then survivors else survivors ++ [d.nodeId]
          some (.placePartition partition survivors d.nodeId newEpoch)

/-- Every command one cycle of the driver proposes from its node's applied state. -/
def proposals (d : MetadataDriver) (inputs : FailoverInputs) (s : MetadataStateMachine) :
    List MetadataCommand :=
  let forEach (f : Nat → Placement → Option MetadataCommand) :=
    s.placements.keys.filterMap fun p => (s.placements.get p).bind (f p)
  forEach (d.checkpointProposal inputs s) ++ forEach (d.failoverProposal inputs s)

end MetadataDriver

end IronBus
