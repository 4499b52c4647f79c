import IronBus.Native.Replication

/-!
# The data plane of a node

A node leads or follows each partition it holds. The controller routes to the role; the seam
threads the wire reply of a produce through the quorum-ack gate of a led partition; the client
gate delivers what a follower's report releases to the connection that owns it.
-/

namespace IronBus

/-- When the ack of a produce is given in a cluster. -/
inductive ClusterAckLevel where
  | c0
  | c1
  | c2Pagecache
  | c2Fsync
  deriving DecidableEq

def ClusterAckLevel.ackImpliesQuorumFsync : ClusterAckLevel → Bool
  | .c2Fsync => true
  | _ => false

inductive NeededRole where
  | leader
  | follower
  deriving DecidableEq

inductive DataPlaneError where
  | unknownPartition (partition : Nat)
  | wrongRole (partition : Nat) (needed : NeededRole)
  | failoverIncomplete (partition durableFrontier committedHw : Nat)
  deriving DecidableEq

/-- What a node is to a partition; a leader's log is seen through its read plane. -/
inductive PartitionRole where
  | leader (plane : ReplicaLog) (isr : IsrTracker) (gate : QuorumAckGate Nat)
  | follower (follower : Follower)

structure DataPlaneController where
  nodeId : Nat
  roles : NatMap PartitionRole

/-- How many acks may wait on one partition. -/
def maxParkedAcksPerPartition : Nat := 8192

namespace DataPlaneController

def new (nodeId : Nat) : DataPlaneController := ⟨nodeId, .empty⟩

/-- A leader's tracker starts from what its own log has flushed. -/
def startLeader (c : DataPlaneController) (partition : Nat) (plane : ReplicaLog)
    (replicaIds : List Nat) (isrConfig : IsrConfig) : DataPlaneController :=
  let isr := (IsrTracker.new c.nodeId replicaIds isrConfig).observeLeaderFsync plane.flushed
  { c with
    roles := c.roles.insert partition (.leader plane isr (.withCap maxParkedAcksPerPartition)) }

def isLeader (c : DataPlaneController) (partition : Nat) : Bool :=
  match c.roles.get partition with
  | some (.leader ..) => true
  | _ => false

/-- The leader's role for a partition, or why there is none. -/
def leaderRole (c : DataPlaneController) (partition : Nat) :
    Except DataPlaneError (ReplicaLog × IsrTracker × QuorumAckGate Nat) :=
  match c.roles.get partition with
  | some (.leader plane isr gate) => .ok (plane, isr, gate)
  | some (.follower _) => .error (.wrongRole partition .leader)
  | none => .error (.unknownPartition partition)

/-- The follower's role for a partition, or why there is none. -/
def followerRole (c : DataPlaneController) (partition : Nat) : Except DataPlaneError Follower :=
  match c.roles.get partition with
  | some (.follower f) => .ok f
  | some (.leader ..) => .error (.wrongRole partition .follower)
  | none => .error (.unknownPartition partition)

/-- Makes this follower the leader over the log it holds, unless that log ends before what is
committed. -/
def promoteFollowerToLeader (c : DataPlaneController) (partition : Nat) (replicaIds : List Nat)
    (isrConfig : IsrConfig) (committedHwBar : Nat) : Except DataPlaneError DataPlaneController :=
  match c.followerRole partition with
  | .error e => .error e
  | .ok f =>
    if f.log.nextOffset < committedHwBar then
      .error (.failoverIncomplete partition f.log.nextOffset committedHwBar)
    else .ok (c.startLeader partition f.log replicaIds isrConfig)

def observeLeaderFsync (c : DataPlaneController) (partition flushedOffset : Nat) :
    DataPlaneController :=
  match c.roles.get partition with
  | some (.leader plane isr gate) =>
    { c with
      roles := c.roles.insert partition
        (.leader plane (isr.observeLeaderFsync flushedOffset) gate) }
  | _ => c

/-- Parks an ack; the answer says whether there was room. -/
def parkProduceAck (c : DataPlaneController) (partition offset token : Nat) :
    Except DataPlaneError (Bool × DataPlaneController) :=
  match c.leaderRole partition with
  | .error e => .error e
  | .ok (plane, isr, gate) =>
    match gate.park offset token with
    | none => .ok (false, c)
    | some gate => .ok (true, { c with roles := c.roles.insert partition (.leader plane isr gate) })

/-- Removes tokens from the gate of every led partition. -/
def purgeParkedTokens (c : DataPlaneController) (tokens : List Nat) : DataPlaneController :=
  { c with
    roles := c.roles.map fun
      | .leader plane isr gate => .leader plane isr (gate.purgeWhere (· ∈ tokens))
      | .follower f => .follower f }

/-- Records a follower's report and releases what it commits. -/
def applyFollowerReport (c : DataPlaneController) (partition : Nat) (report : AckReplicatedBody) :
    Except DataPlaneError (List Nat × DataPlaneController) :=
  match c.leaderRole partition with
  | .error e => .error e
  | .ok (plane, isr, gate) =>
    let isr := isr.observeFollowerReport report
    let (tokens, gate) := gate.releaseUpTo isr.quorumCommit
    .ok (tokens, { c with roles := c.roles.insert partition (.leader plane isr gate) })

/-- Releases what the current frontiers commit. -/
def releaseQuorumAcked (c : DataPlaneController) (partition : Nat) :
    Except DataPlaneError (List Nat × DataPlaneController) :=
  match c.leaderRole partition with
  | .error e => .error e
  | .ok (plane, isr, gate) =>
    let (tokens, gate) := gate.releaseUpTo isr.quorumCommit
    .ok (tokens, { c with roles := c.roles.insert partition (.leader plane isr gate) })

def quorumCommit (c : DataPlaneController) (partition : Nat) : Option Nat :=
  match c.roles.get partition with
  | some (.leader _ isr _) => isr.quorumCommit
  | _ => none

def followerHighWatermark (c : DataPlaneController) (partition : Nat) : Option Nat :=
  match c.roles.get partition with
  | some (.follower f) => some f.highWatermark
  | _ => none

/-- What a node takes for its committed frontier: a follower's high-watermark or a leader's quorum
commit. A node that the placement names leader checkpoints it. -/
def ownFrontier (c : DataPlaneController) (partition : Nat) : Nat :=
  ((c.followerHighWatermark partition).or (c.quorumCommit partition)).getD 0

end DataPlaneController

/-! ## The seam -/

/-- What becomes of a produce's wire reply. -/
inductive AckDisposition where
  | writeNow (reply : Bytes)
  | writeNowBatch (replies : List Bytes)
  | parked
  | rejected
  deriving DecidableEq

/-- The parked replies by token, each with the connection that owns it. -/
structure ProduceAckSeam where
  controller : DataPlaneController
  nextToken : Nat
  parked : NatMap (Nat × Bytes)

namespace ProduceAckSeam

def new (controller : DataPlaneController) : ProduceAckSeam := ⟨controller, 0, .empty⟩

/-- Takes the replies of released tokens out of the table, in the order of the tokens. -/
def takeReplies : List Nat → NatMap (Nat × Bytes) → List (Nat × Bytes) × NatMap (Nat × Bytes)
  | [], parked => ([], parked)
  | token :: tokens, parked =>
    match parked.get token with
    | none => takeReplies tokens parked
    | some reply =>
      let (replies, parked) := takeReplies tokens (parked.erase token)
      (reply :: replies, parked)

def ownedBytesForTokens (s : ProduceAckSeam) (tokens : List Nat) :
    List (Nat × Bytes) × ProduceAckSeam :=
  let (replies, parked) := takeReplies tokens s.parked
  (replies, { s with parked := parked })

def takeReleasedOwned (s : ProduceAckSeam) (partition : Nat) :
    Except DataPlaneError (List (Nat × Bytes) × ProduceAckSeam) :=
  match s.controller.releaseQuorumAcked partition with
  | .error e => .error e
  | .ok (tokens, c) => .ok ({ s with controller := c }.ownedBytesForTokens tokens)

/-- Decides the reply of a locally synced produce: written now, parked, or released at once with
whatever else the gate releases. -/
def onLocalFsyncedAckOwned (s : ProduceAckSeam) (owner : Nat) (ackLevel : ClusterAckLevel)
    (partition offset : Nat) (reply : Bytes) :
    Except DataPlaneError (AckDisposition × ProduceAckSeam) :=
  if !ackLevel.ackImpliesQuorumFsync || !s.controller.isLeader partition then
    .ok (.writeNow reply, s)
  else
    let token := s.nextToken
    match s.controller.parkProduceAck partition offset token with
    | .error e => .error e
    | .ok (false, _) => .ok (.rejected, s)
    | .ok (true, c) =>
      let s := { s with
        controller := c
        nextToken := (s.nextToken + 1) % 2 ^ 64
        parked := s.parked.insert token (owner, reply) }
      match s.takeReleasedOwned partition with
      | .error e => .error e
      | .ok ([], s) => .ok (.parked, s)
      -- the owners are dropped here: the batch goes to the caller's connection
      | .ok (released, s) => .ok (.writeNowBatch (released.map Prod.snd), s)

def onFollowerReportOwned (s : ProduceAckSeam) (partition : Nat) (report : AckReplicatedBody) :
    Except DataPlaneError (List (Nat × Bytes) × ProduceAckSeam) :=
  match s.controller.applyFollowerReport partition report with
  | .error e => .error e
  | .ok (tokens, c) => .ok ({ s with controller := c }.ownedBytesForTokens tokens)

/-- Forgets everything a gone connection had parked. -/
def purgeOwner (s : ProduceAckSeam) (owner : Nat) : ProduceAckSeam :=
  let dead := s.parked.keys.filter fun t => (s.parked.get t).any (·.1 = owner)
  if dead = [] then s
  else
    { s with
      parked := dead.foldl NatMap.erase s.parked
      controller := s.controller.purgeParkedTokens dead }

end ProduceAckSeam

/-! ## The client gate -/

/-- The seam of a node together with the replies released for each connection. -/
structure ClientAckGate where
  seam : ProduceAckSeam
  configuredLevel : ClusterAckLevel
  outbox : NatMap (List Bytes)

namespace ClientAckGate

def new (controller : DataPlaneController) (configuredLevel : ClusterAckLevel) : ClientAckGate :=
  ⟨.new controller, configuredLevel, .empty⟩

def onLocalFsyncedAck (g : ClientAckGate) (member partition offset : Nat) (reply : Bytes) :
    AckDisposition × ClientAckGate :=
  if !g.configuredLevel.ackImpliesQuorumFsync then (.writeNow reply, g)
  else if !g.seam.controller.isLeader partition then (.writeNow reply, g)
  else
    let seam := { g.seam with
      controller := g.seam.controller.observeLeaderFsync partition (saturatingAdd offset 1) }
    match seam.onLocalFsyncedAckOwned member g.configuredLevel partition offset reply with
    | .error _ => (.writeNow reply, { g with seam := seam })
    | .ok (disposition, seam) => (disposition, { g with seam := seam })

/-- Puts a released reply behind those already waiting for its connection. -/
def deposit (outbox : NatMap (List Bytes)) (owned : Nat × Bytes) : NatMap (List Bytes) :=
  outbox.insert owned.1 ((outbox.get owned.1).getD [] ++ [owned.2])

def onFollowerReport (g : ClientAckGate) (partition : Nat) (report : AckReplicatedBody) :
    ClientAckGate :=
  match g.seam.onFollowerReportOwned partition report with
  | .error _ => g
  | .ok (released, seam) => { g with seam := seam, outbox := released.foldl deposit g.outbox }

def drainReleased (g : ClientAckGate) (member : Nat) : List Bytes × ClientAckGate :=
  ((g.outbox.get member).getD [], { g with outbox := g.outbox.erase member })

def dropConnection (g : ClientAckGate) (member : Nat) : ClientAckGate :=
  { g with seam := g.seam.purgeOwner member, outbox := g.outbox.erase member }

end ClientAckGate

end IronBus
