import IronBus.ForStd.BinarySearch
import IronBus.Native.Replication

/-!
# The leader-epoch cache

Which leadership epoch each range of a log was appended under, as a list of boundaries. A follower
that adopts a leader walks its boundaries from the newest down, asks the leader where each epoch
ends there, and truncates at the first epoch the two share.
-/

namespace IronBus

/-- The records from `startOffset` up to the next boundary were appended under `epoch`. -/
structure EpochEntry where
  epoch : Nat
  startOffset : Nat

/-- A leader's answer: where the epoch that was asked for ends. -/
structure LeaderEpochEndOffset where
  requestedEpoch : Nat
  /-- The epoch the end describes; another one if the leader does not hold the one asked for. -/
  answeredEpoch : Nat
  endOffset : Nat
  deriving DecidableEq

structure DivergencePoint where
  truncateTo : Nat
  divergedAtEpoch : Nat
  deriving DecidableEq

def DivergencePoint.needsTruncation (d : DivergencePoint) (followerLogEnd : Nat) : Bool :=
  followerLogEnd > d.truncateTo

inductive EpochCacheError where
  | epochWentBackward (attempted current : Nat)
  | offsetWentBackward (attempted previous : Nat)
  deriving DecidableEq

/-- The epoch below every leadership. -/
def genesisEpoch : Nat := 0

/-- A boundary that comes before another one. -/
def EpochEntry.Before (a b : EpochEntry) : Prop := a.epoch < b.epoch ∧ a.startOffset < b.startOffset

structure EpochCache where
  entries : List EpochEntry
  ascending : entries.Pairwise EpochEntry.Before

namespace EpochCache

def new : EpochCache := ⟨[], .nil⟩

/-- The newest epoch. -/
def currentEpoch (c : EpochCache) : Nat :=
  (c.entries.getLast?.map EpochEntry.epoch).getD genesisEpoch

/-- A boundary past the newest one keeps the order. -/
theorem ascending_snoc {entries : List EpochEntry} (h : entries.Pairwise EpochEntry.Before)
    {last b : EpochEntry} (hlast : entries.getLast? = some last) (hb : last.Before b) :
    (entries ++ [b]).Pairwise EpochEntry.Before := by
  obtain ⟨front, rfl⟩ := List.getLast?_eq_some_iff.mp hlast
  refine List.pairwise_append.mpr ⟨h, List.pairwise_singleton _ _, fun a ha b' hb' => ?_⟩
  rw [List.mem_singleton.mp hb']
  rcases List.mem_append.mp ha with ha | ha
  · have hle := (List.pairwise_append.mp h).2.2 a ha last List.mem_cons_self
    exact ⟨hle.1.trans hb.1, hle.2.trans hb.2⟩
  · rw [List.mem_singleton.mp ha]
    exact hb

/-- Records that what is appended from `startOffset` on belongs to `epoch`. -/
def assign (c : EpochCache) (epoch startOffset : Nat) : Except EpochCacheError EpochCache :=
  match hlast : c.entries.getLast? with
  | none => .ok ⟨[⟨epoch, startOffset⟩], List.pairwise_singleton _ _⟩
  | some last =>
    if hback : epoch < last.epoch then .error (.epochWentBackward epoch last.epoch)
    -- the same leadership: its range extends
    else if heq : epoch = last.epoch then .ok c
    else if hstart : startOffset ≤ last.startOffset then
      .error (.offsetWentBackward startOffset last.startOffset)
    else
      .ok ⟨c.entries ++ [⟨epoch, startOffset⟩], ascending_snoc c.ascending hlast
        ⟨by show last.epoch < epoch; omega, Nat.lt_of_not_le hstart⟩⟩

/-- The epoch of the boundary whose range contains an offset. -/
def epochForOffset (c : EpochCache) (offset : Nat) : Option Nat :=
  match c.entries.partitionPoint fun b => decide (b.startOffset ≤ offset) with
  | 0 => none
  | idx + 1 => c.entries[idx]?.map EpochEntry.epoch

/-- Where an epoch ends in a log of length `logEnd`. -/
def endOffsetForEpoch (c : EpochCache) (epoch logEnd : Nat) : LeaderEpochEndOffset :=
  let nextIdx := c.entries.partitionPoint fun b => decide (b.epoch ≤ epoch)
  match c.entries[nextIdx]? with
  | some next =>
    let held := nextIdx > 0 ∧ (c.entries[nextIdx - 1]?.map EpochEntry.epoch) = some epoch
    -- an epoch the log does not hold is bounded by the start of the next one it holds
    ⟨epoch, if held then epoch else next.epoch, next.startOffset⟩
  | none => ⟨epoch, c.currentEpoch, logEnd⟩

/-- The walk of `divergencePoint` over the boundaries, newest first; `followerEnd` is where the
range of the first one ends. -/
def sharedPoint (leaderEndOffset : Nat → LeaderEpochEndOffset) :
    List EpochEntry → Nat → Option DivergencePoint
  | [], _ => none
  | b :: older, followerEnd =>
    let leader := leaderEndOffset b.epoch
    if leader.answeredEpoch = b.epoch then some ⟨min followerEnd leader.endOffset, b.epoch⟩
    else sharedPoint leaderEndOffset older b.startOffset

/-- Where a follower has to truncate. -/
def divergencePoint (c : EpochCache) (logEnd : Nat)
    (leaderEndOffset : Nat → LeaderEpochEndOffset) : DivergencePoint :=
  match c.entries with
  -- a follower that knows no epoch fetches forward
  | [] => ⟨logEnd, genesisEpoch⟩
  | first :: _ =>
    match sharedPoint leaderEndOffset c.entries.reverse logEnd with
    | some point => point
    | none => ⟨first.startOffset, genesisEpoch⟩

/-- Forgets the boundaries from an offset on. -/
def truncateTo (c : EpochCache) (offset : Nat) : EpochCache :=
  ⟨c.entries.filter fun b => decide (b.startOffset < offset), c.ascending.filter _⟩

end EpochCache

/-! ## A follower with an epoch cache -/

structure TruncateOutcome where
  truncatedTo : Nat
  nextOffsetBefore : Nat
  recordsDropped : Nat
  deriving DecidableEq

structure DivergenceTruncation where
  divergencePoint : DivergencePoint
  truncation : TruncateOutcome
  deriving DecidableEq

/-- Nothing was dropped. -/
def DivergenceTruncation.isNoOp (d : DivergenceTruncation) : Bool :=
  d.truncation.recordsDropped == 0

structure EpochAwareFollower where
  follower : Follower
  epochs : EpochCache

namespace EpochAwareFollower

def assignEpoch (f : EpochAwareFollower) (epoch startOffset : Nat) :
    Except EpochCacheError EpochAwareFollower :=
  (f.epochs.assign epoch startOffset).map fun epochs => { f with epochs := epochs }

/-- Truncates the part of the log that diverges from the leader's, but nothing that is committed. -/
def reconcileWithLeader (f : EpochAwareFollower) (committedHw : Nat)
    (leaderEndOffset : Nat → LeaderEpochEndOffset) :
    Except ReplicationError (DivergenceTruncation × EpochAwareFollower) :=
  let logEnd := f.follower.log.nextOffset
  let raw := f.epochs.divergencePoint logEnd leaderEndOffset
  let clampedTo := max raw.truncateTo committedHw
  let point : DivergencePoint := ⟨clampedTo, raw.divergedAtEpoch⟩
  if !point.needsTruncation logEnd then .ok (⟨point, ⟨logEnd, logEnd, 0⟩⟩, f)
  else
    match f.follower.log.truncateTo clampedTo with
    | .error _ => .error .storage
    | .ok log =>
      .ok (⟨point, ⟨clampedTo, logEnd, logEnd - clampedTo⟩⟩,
        ⟨⟨log, clampedTo⟩, f.epochs.truncateTo clampedTo⟩)

/-- Drops everything above the committed frontier, for a follower that cannot tell what of it the
leader shares. -/
def truncateToCommitted (f : EpochAwareFollower) (committedHw : Nat) :
    Except ReplicationError (DivergenceTruncation × EpochAwareFollower) :=
  let logEnd := f.follower.log.nextOffset
  match f.follower.log.truncateTo committedHw with
  | .error _ => .error .storage
  | .ok log =>
    .ok (⟨⟨committedHw, genesisEpoch⟩, ⟨committedHw, logEnd, logEnd - committedHw⟩⟩,
      ⟨⟨log, committedHw⟩, f.epochs.truncateTo committedHw⟩)

/-- Heals a divergent follower: to the point its epochs give, and if they give none to the committed
frontier; nothing is touched if the leader does not even hold that. -/
def healDivergentFollower (f : EpochAwareFollower) (committedHw leaderEndHw : Nat)
    (leaderEndOffset : Nat → LeaderEpochEndOffset) :
    Except ReplicationError (DivergenceTruncation × EpochAwareFollower) :=
  if leaderEndHw < committedHw then .error (.resyncLeaderBehind leaderEndHw committedHw)
  else
    match f.reconcileWithLeader committedHw leaderEndOffset with
    | .error e => .error e
    | .ok (healed, f) =>
      if !healed.isNoOp then .ok (healed, f)
      else if f.follower.nextFetchOffset > committedHw then f.truncateToCommitted committedHw
      else .ok (healed, f)

end EpochAwareFollower

end IronBus
