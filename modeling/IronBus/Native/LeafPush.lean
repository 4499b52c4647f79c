import IronBus.ForStd.RecordLog
import IronBus.Native.Content
import IronBus.Native.Replication

/-!
# Forwarding a leaf's records to its hub

A leaf pushes runs of its own frames to a hub, from the offset the hub acknowledged last. The hub
decodes every frame of a push before it appends any, skips those it takes for already appended,
appends the rest and syncs. The log of the hub stream is seen as the contents of its records and
how many of them are durable; what its storage does is an input of a push.
-/

namespace IronBus

open Codec

/-! ## The hub -/

/-- A push: the leaf's offset of its first frame, the claimed number of frames, and their bytes. -/
structure LeafPushRequest where
  fromLeafOffset : UInt64
  recordCount : UInt32
  frameBytes : Bytes

structure PushOutcome where
  appended : Nat
  acceptedThroughLeafOffset : Nat
  deriving DecidableEq

inductive LeafError where
  | corruptFrame (atLeafOffset : Nat) (reason : DecodeError)
  | recordCountMismatch (claimed actual : Nat)
  | storage
  deriving DecidableEq

/-- What the storage of the hub does with one push. -/
structure PushIo where
  appends : List AppendIo
  syncFails : Bool

def PushIo.ok : PushIo := ⟨[], false⟩

/-- The offset behind the last frame a push claims. -/
def LeafPushRequest.claimedEnd (req : LeafPushRequest) : Nat :=
  saturatingAdd req.fromLeafOffset.toNat req.recordCount.toNat

section Hub

variable [Checksums]

/-- Applies a push to the log of the hub stream. -/
def applyPush (req : LeafPushRequest) (io : PushIo) (log : RecordLog Content) :
    Except LeafError PushOutcome × RecordLog Content :=
  let start := req.fromLeafOffset.toNat
  if req.recordCount = 0 ∧ req.frameBytes = [] then (.ok ⟨0, start⟩, log)
  else
    let hubHead := log.nextOffset
    -- a span at or below the head is acknowledged without being appended
    if req.claimedEnd ≤ hubHead then (.ok ⟨0, req.claimedEnd⟩, log)
    else
      let already := hubHead - start
      let (run, corrupt) := decodeRun req.frameBytes
      if corrupt = none ∧ min run.length u32Max ≠ req.recordCount.toNat then
        (.error (.recordCountMismatch req.recordCount.toNat (min run.length u32Max)), log)
      else
        let fresh := run.drop (min already run.length)
        match log.appendAll io.appends (fresh.map (·.view.appended)) with
        | (false, log) => (.error .storage, log)
        | (true, log) =>
          match log.sync io.syncFails with
          | (false, log) => (.error .storage, log)
          | (true, log) =>
            match corrupt with
            | some reason => (.error (.corruptFrame (saturatingAdd start run.length) reason), log)
            | none => (.ok ⟨fresh.length, req.claimedEnd⟩, log)

end Hub

/-! ## The leaf -/

end IronBus
