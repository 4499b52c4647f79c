import IronBus.ForStd.KthLargest
import IronBus.ForStd.NatMap

/-!
# The in-sync replica set and the quorum-ack gate

The leader of a partition tracks how far each replica has synced. The offset below which
`min_isr` replicas have synced is the quorum commit; the acks of a produce at the quorum level
wait in the gate until it passes them.
-/

namespace IronBus

/-- A follower's report that everything below an offset is synced. -/
structure AckReplicatedBody where
  followerId : Nat
  fsyncedOffset : Nat
  deriving DecidableEq

/-- How many replicas a commit takes, the leader among them, and how far a follower may lag before
it no longer counts; a lag of zero never evicts. -/
structure IsrConfig where
  minIsr : Nat
  maxLagRecords : Nat
  /-- The code indexes the sorted frontiers at `min_isr - 1`. -/
  minIsr_pos : 0 < minIsr

inductive IsrMembership where
  | inSync
  | evictedForLag
  deriving DecidableEq

structure IsrTracker where
  config : IsrConfig
  leaderId : Nat
  leaderFsynced : Nat
  followers : NatMap Nat

namespace IsrTracker

def new (leaderId : Nat) (replicaIds : List Nat) (config : IsrConfig) : IsrTracker where
  config := config
  leaderId := leaderId
  leaderFsynced := 0
  followers := replicaIds.foldl (fun m id => if id ≠ leaderId then m.insert id 0 else m) .empty

def observeLeaderFsync (t : IsrTracker) (flushedOffset : Nat) : IsrTracker :=
  { t with leaderFsynced := max t.leaderFsynced flushedOffset }

/-- A report never lowers a frontier, and one from outside the replica set changes nothing. -/
def observeFollowerReport (t : IsrTracker) (report : AckReplicatedBody) : IsrTracker :=
  { t with followers := t.followers.modify report.followerId (max · report.fsyncedOffset) }

def classify (t : IsrTracker) (followerFsynced : Nat) : IsrMembership :=
  if t.config.maxLagRecords = 0 then .inSync
  else if t.leaderFsynced - followerFsynced > t.config.maxLagRecords then .evictedForLag
  else .inSync

def inSyncFollowers (t : IsrTracker) : List Nat :=
  t.followers.values.filter fun f => t.classify f = .inSync

/-- The leader is always a member. -/
def isrSize (t : IsrTracker) : Nat := 1 + t.inSyncFollowers.length

def meetsMinIsr (t : IsrTracker) : Bool := t.isrSize ≥ t.config.minIsr

/-- The offset below which `min_isr` members have synced, if there are that many members. -/
def quorumCommit (t : IsrTracker) : Option Nat :=
  if !t.meetsMinIsr then none
  else
    let frontiers := t.leaderFsynced :: t.inSyncFollowers
    if frontiers.length < t.config.minIsr then none else frontiers.kthLargest t.config.minIsr

end IsrTracker

/-! ## The gate -/

structure PendingAck (τ : Type) where
  offset : Nat
  token : τ

/-- The acks that wait for a quorum, in the order they were parked. -/
structure QuorumAckGate (τ : Type) where
  pending : List (PendingAck τ)
  releasedThrough : Nat
  /-- How many acks may wait; zero is no limit. -/
  cap : Nat

namespace QuorumAckGate

variable {τ : Type}

def withCap (cap : Nat) : QuorumAckGate τ := ⟨[], 0, cap⟩

/-- Parks an ack, or refuses when the backlog is full. -/
def park (g : QuorumAckGate τ) (offset : Nat) (token : τ) : Option (QuorumAckGate τ) :=
  if g.cap ≠ 0 ∧ g.pending.length ≥ g.cap then none
  else some { g with pending := g.pending ++ [⟨offset, token⟩] }

def purgeWhere (g : QuorumAckGate τ) (isDead : τ → Bool) : QuorumAckGate τ :=
  { g with pending := g.pending.filter fun p => !isDead p.token }

/-- Releases from the front, up to the first ack at or past the commit. Without a quorum nothing
is released. -/
def releaseUpTo (g : QuorumAckGate τ) (quorumCommit : Option Nat) :
    List τ × QuorumAckGate τ :=
  match quorumCommit with
  | none => ([], g)
  | some commit =>
    let commit := max commit g.releasedThrough
    ((g.pending.takeWhile fun p => p.offset < commit).map PendingAck.token,
      { g with
        pending := g.pending.dropWhile fun p => p.offset < commit
        releasedThrough := commit })

end QuorumAckGate

end IronBus
