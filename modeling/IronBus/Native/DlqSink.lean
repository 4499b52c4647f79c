import IronBus.Native.GroupSlot

/-!
# Dead-letter sinks

A dead-letter target is a log of its own. Before a copy of a record is appended to it, the sink
looks up the group and the source offset among those it has already taken, so that a record that is
dead-lettered again after a crash or an error is not written twice. What a sink has already taken is
rebuilt from its log when it is opened, trimmed below the cursor of a group as that moves on, and
forgotten when the group is evicted.

A sink is given by the records of its log and how many of them a barrier has covered; what the
storage below it does wrong is an input of an append, and what a crash keeps is one of an opening.
-/

namespace IronBus

/-- A dead-lettered record, as it is read back from a target. -/
structure DlqEntry where
  group : Name
  sourceOffset : Nat
  attempt : Nat
  reason : DeadLetterReason
  timestampMs : Nat
  key : Bytes
  headers : Bytes
  payload : Bytes
  originalFlags : UInt8

structure DlqSink where
  /-- The records of the log, oldest first. -/
  log : List DlqEntry
  /-- How many of them a barrier has covered. -/
  flushed : Nat
  /-- A durability barrier failed: the log takes no more records until it is opened again. -/
  frozen : Bool
  /-- The source offsets of each group that are known to be in the log. -/
  deadLettered : List (Name × Nat)

/-- What the storage under a sink does wrong. -/
inductive SinkFault where
  /-- The append is refused. -/
  | refuse (e : StorageError)
  /-- The record is written, and making it durable fails. -/
  | sync

namespace DlqSink

def empty : DlqSink := ⟨[], 0, false, []⟩

/-- The records that are durable. -/
def durable (s : DlqSink) : List DlqEntry := s.log.take s.flushed

def alreadyDeadLettered (s : DlqSink) (group : Name) (sourceOffset : Nat) : Bool :=
  (group, sourceOffset) ∈ s.deadLettered

/-- Drops the offsets of a group below its watermark. -/
def pruneBelow (s : DlqSink) (group : Name) (committed : Nat) : DlqSink :=
  { s with deadLettered := s.deadLettered.filter fun p => p.1 ≠ group || decide (committed ≤ p.2) }

def forgetGroup (s : DlqSink) (group : Name) : DlqSink :=
  { s with deadLettered := s.deadLettered.filter fun p => p.1 ≠ group }

/-- Appends a record and makes it durable (`append_encoded`). -/
def append (s : DlqSink) (fault : Option SinkFault) (entry : DlqEntry) :
    Except StorageError Unit × DlqSink :=
  if s.frozen then (.error .writerFrozen, s)
  else
    match fault with
    | some (.refuse e) => (.error e, s)
    | some .sync => (.error .writerFrozen, { s with log := s.log ++ [entry], frozen := true })
    | none => (.ok (), { s with
        log := s.log ++ [entry]
        flushed := s.log.length + 1
        deadLettered := (entry.group, entry.sourceOffset) :: s.deadLettered })

/-- What an opening finds: how many records of the log are there, and whether a torn one follows. -/
structure Found where
  kept : Nat
  torn : Bool

/-- Opens the sink again (`open_at`). Every record that is found counts as taken, but recovery syncs
the log only when it cuts a torn tail. -/
def openAt (s : DlqSink) (found : Found) : DlqSink :=
  let log := s.log.take (max s.flushed found.kept)
  ⟨log, if found.torn then log.length else s.flushed, false,
    log.map fun e => (e.group, e.sourceOffset)⟩

end DlqSink

/-- The copy of a record for the dead-letter targets. Without an exchange the reason is not stored,
and read back as the delivery limit. -/
def deadLetterEntry (cfg : EngineConfig) (group : Name) (attempt : Nat) (record : OwnedRecord)
    (reason : DeadLetterReason) : DlqEntry where
  group := group
  sourceOffset := record.offset
  attempt := attempt
  reason := if cfg.deadLetterExchange then reason else .maxDeliverExceeded
  timestampMs := record.timestampMs
  key := record.key
  headers := record.headers
  payload := record.payload
  originalFlags := record.flags

/-- Appends a copy to every target that does not have it, in their order, up to the first error. -/
def fanOutDeadLetter (group : Name) (offset : Nat) (entry : DlqEntry) :
    List DlqSink → List (Option SinkFault) → Except EngineError Unit × List DlqSink
  | [], _ => (.ok (), [])
  | s :: sinks, faults =>
    if s.alreadyDeadLettered group offset then
      let rest := fanOutDeadLetter group offset entry sinks faults.tail
      (rest.1, s :: rest.2)
    else
      match s.append faults.head?.join entry with
      | (.error e, s) => (.error (.storage e), s :: sinks)
      | (.ok (), s) =>
        let rest := fanOutDeadLetter group offset entry sinks faults.tail
        (rest.1, s :: rest.2)

namespace WorkGroup

/-- Moves a record to the dead-letter targets, and passes it once it stands in all of them
(`dead_letter_in`, `expire_dead_letter_in`, `named_dead_letter_in`). -/
def deadLetterIn (home : Home) (cfg : EngineConfig) (group : Name)
    (faults : List (Option SinkFault)) (offset attempt : Nat) (record : OwnedRecord)
    (reason : DeadLetterReason) (g : WorkGroup) (sinks : List DlqSink) :
    Except EngineError Unit × WorkGroup × List DlqSink :=
  match fanOutDeadLetter group offset (deadLetterEntry cfg group attempt record reason) sinks
      faults with
  | (.error e, sinks) => (.error e, g, sinks)
  | (.ok (), sinks) =>
    let g := g.deadLetterPast home offset
    (.ok (), g, sinks.map (·.pruneBelow group g.cursor.committed))

/-- The copies a termination writes before it settles the record. -/
def termFanOut (cfg : EngineConfig) (env : PollEnv) (group : Name)
    (faults : List (Option SinkFault)) (token : LeaseToken) (g : WorkGroup)
    (sinks : List DlqSink) : Except EngineError Unit × List DlqSink :=
  if cfg.deadLetterExchange then
    match g.leases.deliveries token, env.read token.offset with
    | some attempt, .ok (some record) =>
      if record.offset = token.offset then
        fanOutDeadLetter group token.offset (deadLetterEntry cfg group attempt record .rejected)
          sinks faults
      else (.ok (), sinks)
    | _, _ => (.ok (), sinks)
  else (.ok (), sinks)

/-- A termination with the targets it writes to (`term_in`). -/
def termInTargets (cfg : EngineConfig) (env : PollEnv) (group : Name)
    (faults : List (Option SinkFault)) (token : LeaseToken) (g : WorkGroup)
    (sinks : List DlqSink) : Except EngineError AckOutcome × WorkGroup × List DlqSink :=
  let written := g.termFanOut cfg env group faults token sinks
  let settled := g.termIn cfg env written.1 token
  (settled.1, settled.2,
    if settled.1 = .ok .acked then written.2.map (·.pruneBelow group settled.2.cursor.committed)
    else written.2)

end WorkGroup

end IronBus
