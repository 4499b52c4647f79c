import IronBus.Native.EpochCache

/-!
# Reconciling a follower with the leader it adopts

At the start of a fetch session a follower probes the leader. A tail that lies above the leader's
frontier, or that differs from the leader's frames, is dropped down to the committed floor the
cluster has checkpointed. Without a floor, or when a probe fails, the log is left as it is and the
session goes on.
-/

namespace IronBus

open Codec

/-- The leader has nothing at the follower's offset, which lies above its frontier. -/
def emptyRunAboveLeaderFrontier (followerNextOffset : Nat) (resp : FetchResponseBody) : Bool :=
  resp.recordCount = 0 ∧ resp.frameBytes = [] ∧ followerNextOffset > resp.highWatermark

def suspectUncommittedTail (followerNextOffset committedFloor : Nat) (resp : FetchResponseBody) :
    Bool :=
  emptyRunAboveLeaderFrontier followerNextOffset resp ∧ followerNextOffset > committedFloor

/-- The action on the first frame that differs. -/
inductive ContentReconcile where
  | clean
  | healToCommittedFloor
  | criticalBelowCommittedFloor (offset : Nat)
  deriving DecidableEq

def classifyContentDivergence (firstDivergentOffset : Option Nat) (committedFloor : Nat) :
    ContentReconcile :=
  match firstDivergentOffset with
  | none => .clean
  | some offset =>
    if offset < committedFloor then .criticalBelowCommittedFloor offset else .healToCommittedFloor

/-- Acts on the first offset that differs: only a difference at or above the floor is healed. -/
def EpochAwareFollower.reconcileContent (f : EpochAwareFollower) (firstDivergentOffset : Option Nat)
    (committedFloor leaderEndHw : Nat) (leaderEndOffset : Nat → LeaderEpochEndOffset) :
    Except ReplicationError EpochAwareFollower :=
  match classifyContentDivergence firstDivergentOffset committedFloor with
  | .healToCommittedFloor =>
    (f.healDivergentFollower committedFloor leaderEndHw leaderEndOffset).map Prod.snd
  | _ => .ok f

namespace Follower

/-- Drops everything above the committed frontier. -/
def truncateToCommitted (f : Follower) (committedHw : Nat) : Except ReplicationError Follower :=
  match f.log.truncateTo committedHw with
  | .error _ => .error .storage
  | .ok log => .ok ⟨log, committedHw⟩

/-- Heals a divergent follower, unless the leader does not even hold what is committed. -/
def healDivergentFollower (f : Follower) (committedHw leaderEndHw : Nat) :
    Except ReplicationError Follower :=
  if leaderEndHw < committedHw then .error (.resyncLeaderBehind leaderEndHw committedHw)
  else if f.nextFetchOffset > committedHw then f.truncateToCommitted committedHw
  else .ok f

/-- The follower after an attempted heal: a failure leaves it untouched. -/
def healOnLink (f : Follower) (committedHw leaderHw : Nat) : Follower :=
  match f.healDivergentFollower committedHw leaderHw with
  | .error _ => f
  | .ok f => f

variable [Checksums]

/-- The first offset at which two runs of frames differ. A frame that does not decode ends the
comparison. -/
def firstContentDivergence : Nat → Nat → Bytes → Bytes → Option Nat
  | 0, _, _, _ => none
  | fuel + 1, offset, leaderBytes, followerBytes =>
    if leaderBytes = [] ∨ followerBytes = [] then none
    else
      match decodeInner leaderBytes, decodeInner followerBytes with
      | .ok l, .ok f =>
        if leaderBytes.take l.total ≠ followerBytes.take f.total then some offset
        else
          firstContentDivergence fuel (offset + 1) (leaderBytes.drop l.total)
            (followerBytes.drop f.total)
      | _, _ => none

/-- How many records a probe asks for. -/
def fullCatchupRecords : Nat := 1024

/-- Compares what follower and leader hold above the floor; the leader's run comes from a second
probe, and `room` is what the follower's own read returns. -/
def reconcileContentMismatchOnAdopt (f : Follower) (committedFloor : Nat)
    (initialResp : FetchResponseBody) (backward : Option FetchResponseBody) (room : Nat) :
    Follower :=
  if f.nextFetchOffset ≤ committedFloor then f
  else
    match backward with
    | none => f
    | some leaderResp =>
      if leaderResp.recordCount = 0 ∨ leaderResp.firstOffset ≠ committedFloor then f
      else
        let own := f.log.readRangeRaw committedFloor fullCatchupRecords room
        match classifyContentDivergence (firstContentDivergence leaderResp.frameBytes.length
          committedFloor leaderResp.frameBytes own.bytes) committedFloor with
        | .healToCommittedFloor =>
          f.healOnLink committedFloor (max leaderResp.highWatermark initialResp.highWatermark)
        | _ => f

/-- The reconciliation at the start of a session, from what the two probes returned and the floor
the node knows. -/
def reconcileOnAdopt (f : Follower) (committedFloor : Option Nat)
    (probe backward : Option FetchResponseBody) (room : Nat) : Follower :=
  match probe, committedFloor with
  | some resp, some floor =>
    if suspectUncommittedTail f.nextFetchOffset floor resp then
      f.healOnLink floor resp.highWatermark
    else f.reconcileContentMismatchOnAdopt floor resp backward room
  | _, _ => f

end Follower

end IronBus
