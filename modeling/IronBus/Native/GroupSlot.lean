import IronBus.Native.WorkGroup

/-!
# The lifecycle of a group

A group is created by the first call that names it, checkpointed, evicted when it is idle or its
stream is closed, and created again. `GroupSlot` is all the broker keeps about one group of one
stream: the group while it is live, its two checkpoint files, the position that stands in for it in
the retention floor, and its ephemeral subscription. Every entry point that names a group touches
only its slot; whether the broker already has as many groups as it may is passed in as `full`.
-/

namespace IronBus

/-! ## Checkpoints -/

/-- How many ranges ahead of the watermark a cursor checkpoint holds. -/
def maxCheckpointRuns : Nat := (64 - 13) / 16

/-- How many attempt counts an attempts checkpoint holds. -/
def maxCheckpointAttempts : Nat := (32 * 1024 - 9) / 12

/-- What a cursor checkpoint keeps of a cursor. -/
def snapshotPayload (c : AckCursor) : AckCursor :=
  match AckCursor.resumeWithAhead c.committed (c.ahead.take maxCheckpointRuns) with
  | .ok c' => c'
  | .error _ => AckCursor.resume c.committed

/-- The cursor a checkpoint gives back, clamped to the durable head. -/
def resumeCursorFromSnapshot (recovered : Option AckCursor) (flushed : Nat) : AckCursor :=
  let committed := min ((recovered.map (·.committed)).getD 0) flushed
  let ahead := ((recovered.map (·.ahead)).getD []).filter fun r =>
    committed < r.1 && decide (r.2 ≤ flushed)
  match AckCursor.resumeWithAhead committed ahead with
  | .ok c => c
  | .error _ => AckCursor.resume committed

/-- What an attempts checkpoint keeps of the counts. -/
def attemptsSnapshotPayload (pairs : List (Nat × Nat)) : List (Nat × Nat) :=
  pairs.take maxCheckpointAttempts

/-- The counts a checkpoint gives back: those of offsets that may still be delivered. -/
def resumeAttemptsFromSnapshot (recovered : Option (List (Nat × Nat))) (committed flushed : Nat) :
    List (Nat × Nat) :=
  (recovered.getD []).filter fun p => decide (committed ≤ p.1) && decide (p.1 < flushed)

/-- A group that resumes at a cursor with the attempt counts of its checkpoint. -/
def resumeWorkGroup (cursor : AckCursor) (attempts : Option (List (Nat × Nat)))
    (lease : LeaseConfig) (openedAt flushed : Nat) : WorkGroup :=
  let g := WorkGroup.resume cursor lease openedAt
  let counts := resumeAttemptsFromSnapshot attempts cursor.committed flushed
  { g with leases := g.leases.resumeAttempts counts }

/-! ## The slot -/

structure EphemeralSub where
  members : List MemberId
  parkedCommitted : Option Nat

structure GroupSlot where
  live : Option WorkGroup
  cursorFile : Option AckCursor
  attemptsFile : Option (List (Nat × Nat))
  lastCheckpointed : Option Nat
  ephemeral : Option EphemeralSub

/-- Whether an idle group keeps its position in the retention floor. -/
inductive GhostPolicy where
  | keep
  | release
  deriving DecidableEq

namespace GroupSlot

def empty : GroupSlot := ⟨none, none, none, none, none⟩

/-- Writes the cursor checkpoint; an ephemeral group leaves no file. -/
def writeGroupCheckpoint (slot : GroupSlot) : GroupSlot :=
  match slot.live with
  | none => slot
  | some g =>
    if g.ephemeral then slot
    else { slot with
      cursorFile := some (snapshotPayload g.cursor)
      lastCheckpointed := some g.cursor.committed }

/-- Writes the attempts checkpoint; an ephemeral group leaves no file. -/
def writeGroupAttempts (slot : GroupSlot) : GroupSlot :=
  match slot.live with
  | none => slot
  | some g =>
    if g.ephemeral then slot
    else { slot with
      attemptsFile := some (attemptsSnapshotPayload g.leases.allAttemptCounts)
      live := some { g with leases := { g.leases with redeliveriesSinceFlush := 0 } } }

/-- Writes what moved since the last checkpoint. -/
def checkpointGroup (slot : GroupSlot) : GroupSlot :=
  match slot.live with
  | none => slot
  | some g =>
    if g.ephemeral then slot
    else
      let last := slot.lastCheckpointed.getD 0
      let slot := if last < g.cursor.committed ∨ g.cursor.ahead ≠ [] then slot.writeGroupCheckpoint
        else slot
      if last < g.cursor.committed ∨ 0 < g.leases.inFlight then slot.writeGroupAttempts else slot

/-! ### Creating -/

/-- The group as its files give it back. -/
def recovered (cfg : EngineConfig) (env : PollEnv) (slot : GroupSlot) : WorkGroup :=
  resumeWorkGroup
    (match slot.cursorFile with
      | some c => resumeCursorFromSnapshot (some c) env.flushed
      | none => AckCursor.new)
    slot.attemptsFile cfg.lease env.now env.flushed

/-- Creates a group of the default stream that is not live, from its files or as the ephemeral
subscription says. -/
def ensureGroup (cfg : EngineConfig) (env : PollEnv) (slot : GroupSlot) : GroupSlot :=
  match slot.live with
  | some _ => slot
  | none =>
    match slot.ephemeral with
    | some _ =>
      { slot with live := some { WorkGroup.new cfg.lease env.now with ephemeral := true } }
    | none =>
      let g := slot.recovered cfg env
      { slot with live := some g, lastCheckpointed := some g.cursor.committed }

/-- A group of the default stream may go: it is not the default group, has no router, pause or
ephemeral subscription, has consumed everything, holds no lease and was idle for the window. -/
def isEvictable (name : Name) (g : WorkGroup) (flushed now window : Nat) : Bool :=
  name ≠ [] && g.router.isNone && g.paused.isNone && !g.ephemeral
    && g.cursor.committed == flushed && g.cursor.ahead == [] && g.leases.inFlight == 0
    && decide (window ≤ now - g.lastActivity)

def evictGroup (ghost : GhostPolicy) (slot : GroupSlot) : GroupSlot :=
  match slot.live with
  | none => slot
  | some _ =>
    let slot := slot.writeGroupCheckpoint
    { slot with
      live := none
      lastCheckpointed := if ghost = .release then none else slot.lastCheckpointed }

/-- The slot of a group whose named stream is closed: both files are written, and an ephemeral
group parks its position. -/
def evictNamedStream (slot : GroupSlot) : GroupSlot :=
  match slot.live with
  | none => { slot with lastCheckpointed := none }
  | some g =>
    let slot := slot.writeGroupCheckpoint.writeGroupAttempts
    { slot with
      live := none
      lastCheckpointed := none
      ephemeral :=
        if g.ephemeral then
          slot.ephemeral.map fun sub => { sub with parkedCommitted := some g.cursor.committed }
        else slot.ephemeral }

/-- The slot of a group whose named stream is opened again: a group with a file is live. -/
def reopenNamedStream (cfg : EngineConfig) (env : PollEnv) (slot : GroupSlot) : GroupSlot :=
  if slot.cursorFile.isNone && slot.attemptsFile.isNone then slot
  else
    let g := slot.recovered cfg env
    { slot with live := some g, lastCheckpointed := some g.cursor.committed }

/-! ### Restarting -/

/-- A restart: what is left is the files. -/
def restart (cfg : EngineConfig) (env : PollEnv) (slot : GroupSlot) : GroupSlot :=
  reopenNamedStream cfg env { slot with live := none, lastCheckpointed := none, ephemeral := none }

end GroupSlot

end IronBus
