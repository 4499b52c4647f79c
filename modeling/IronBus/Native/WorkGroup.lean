import IronBus.ForStd.Scan
import IronBus.Native.Cursor
import IronBus.Native.Delivery
import IronBus.Native.KeyShared
import IronBus.Native.Lease
import IronBus.Native.Subject

/-!
# Work groups and their delivery loops

A work group consumes one stream: it has its own cursor, lease table and modes. A poll walks the
window of offsets above the group's committed offset and stops at the first one it can deliver,
park, or report as a gap. The three loops of the engine are here: the plain one of the default
stream (`pollTimed`), the key-shared one (`pollMember`), and that of a named stream
(`pollNamed`), which is plain or key-shared as the group is. A loop stops where the engine has to
touch the dead-letter sinks; `Stream` carries on from there.
-/

namespace IronBus

/-- A group or stream name: its UTF-8 bytes. The default group and stream have the empty name. -/
abbrev Name := Bytes

inductive EngineError where
  | storage (e : StorageError)
  | generationExhausted
  | missingRecord (offset : Nat)
  | tooManyGroups (max : Nat)
  | invalidGroupName
  | cumulativeAckOnWorkGroup
  | broadcastGroupBusy (group : Name)
  | broadcastGroupNotNamed (group : Name)
  | ephemeralGroupConflict (group : Name)
  | cumulativeAckOutOfRange (upTo earliestRetained durableHead : Nat)
  | unknownStream (name : Name)
  | invalidSubject (e : SubjectError)
  deriving DecidableEq

/-- A record handed to a consumer, with the token that settles it. -/
structure Delivery where
  offset : Nat
  token : LeaseToken
  deliveries : Nat
  record : OwnedRecord
  deriving DecidableEq

/-- The result of a poll. -/
inductive Poll where
  | message (d : Delivery)
  | parked (offset : Nat) (record : OwnedRecord)
  | truncated (earliestRetained skipped : Nat)
  /-- The offsets `[start, stop)` were compacted away. -/
  | compacted (start stop : Nat)
  /-- The offsets `[start, stop)` do not match the group's filter. -/
  | filtered (start stop : Nat)
  | idle
  deriving DecidableEq

/-- The settings of the engine that consumption reads. -/
structure EngineConfig where
  lease : LeaseConfig
  delivery : DeliveryConfig
  maxInFlight : Nat
  maxAckedAheadRuns : Nat
  maxGroups : Nat
  groupIdleEvictNanos : Nat
  defaultMessageTtl : Nat
  /-- Whether a dead-letter exchange is configured. -/
  deadLetterExchange : Bool
  deadLetterExpired : Bool
  /-- How many dead-letter targets there are. -/
  deadLetterTargets : Nat

def EngineConfig.deadLettersExpired (cfg : EngineConfig) : Bool :=
  cfg.deadLetterExpired && cfg.deadLetterExchange

/-- The default stream, or a named one. -/
inductive Home where
  | default
  | named
  deriving DecidableEq

/-- What a poll sees of its stream's log and of the clocks. -/
structure PollEnv where
  earliest : Nat
  flushed : Nat
  /-- The first record at or above an offset. -/
  read : Nat → Except StorageError (Option OwnedRecord)
  now : Nat
  nowUnixMillis : Nat

/-! ## The group -/

structure GroupPause where
  pausedAt : Nat
  resumeAt : Nat

structure WorkGroup where
  cursor : AckCursor
  leases : LeaseTable
  router : Option KeyRouter
  broadcast : Bool
  subscribers : List MemberId
  lastActivity : Nat
  touched : Bool
  streaming : Bool
  filter : Option Bytes
  pendingMatch : Option Delivery
  paused : Option GroupPause
  ephemeral : Bool

namespace WorkGroup

def resume (cursor : AckCursor) (config : LeaseConfig) (now : Nat) : WorkGroup where
  cursor := cursor
  leases := LeaseTable.new config
  router := none
  broadcast := false
  subscribers := []
  lastActivity := now
  touched := true
  streaming := false
  filter := none
  pendingMatch := none
  paused := none
  ephemeral := false

def new (config : LeaseConfig) (now : Nat) : WorkGroup := resume AckCursor.new config now

/-- Marks the group as used. -/
def touch (g : WorkGroup) (now : Nat) : WorkGroup := { g with lastActivity := now, touched := true }

/-- Whether the group is paused. A pause that has passed is settled here: the leases get back the
time it lasted. -/
def pauseActive (g : WorkGroup) (now : Nat) : Bool × WorkGroup :=
  match g.paused with
  | none => (false, g)
  | some p =>
    if now < p.resumeAt then (true, g)
    else (false, { g with
      leases := g.leases.shiftDeadlines (p.resumeAt - p.pausedAt)
      paused := none })

/-- Pauses the group, extends its pause, or resumes it; the instant it resumes. -/
def applyPause (g : WorkGroup) (now pauseMs : Nat) : Nat × WorkGroup :=
  let g := (g.pauseActive now).2
  if pauseMs = 0 then
    match g.paused with
    | some p => (now, { g with
        leases := g.leases.shiftDeadlines (now - p.pausedAt)
        paused := none })
    | none => (now, g)
  else
    let resumeAt := saturatingAdd now (saturatingMul pauseMs 1000000)
    match g.paused with
    | some p => (resumeAt, { g with paused := some { p with resumeAt := resumeAt } })
    | none => (resumeAt, { g with paused := some ⟨now, resumeAt⟩ })

/-- Frees the key of an offset, if the group routes by key. -/
def clearKey (g : WorkGroup) (offset : Nat) : WorkGroup :=
  { g with router := g.router.map (·.clearOffset offset) }

/-- Frees the keys in flight below a watermark, if the group routes by key. -/
def retainKeys (g : WorkGroup) (watermark : Nat) : WorkGroup :=
  { g with router := g.router.map (·.retainAbove watermark) }

def keyOrdering (g : WorkGroup) : KeyOrdering := if g.router.isSome then .keyShared else .none

end WorkGroup

namespace AckCursor

/-- Acknowledges the offsets `[start, stop)` one after the other. -/
def ackRange (c : AckCursor) (start stop : Nat) : AckCursor :=
  (List.range' start (stop - start)).foldl (fun c o => (c.ack o).2) c

end AckCursor

namespace LeaseTable

def isClaimable (t : LeaseTable) (offset now : Nat) : Bool :=
  !(t.leases.get offset).any fun lease => decide (now < lease.deadline)

/-- The attempts of a lease that has expired. -/
def pendingRedeliveryAttempt (t : LeaseTable) (offset now : Nat) : Option Nat :=
  (t.leases.get offset).bind fun lease =>
    if lease.deadline ≤ now then some lease.deliveries else none

/-- The attempts of the lease a token owns. -/
def deliveries (t : LeaseTable) (token : LeaseToken) : Option Nat :=
  (t.owned token).map (·.deliveries)

def inFlight (t : LeaseTable) : Nat := t.leases.keys.length

/-- The attempt count of every offset that has one: its lease's, or the one carried over. -/
def allAttemptCounts (t : LeaseTable) : List (Nat × Nat) :=
  (List.range (max t.leases.bound t.carried.bound)).filterMap fun offset =>
    match t.leases.get offset, t.carried.get offset with
    | some lease, some n => some (offset, max n lease.deliveries)
    | some lease, none => some (offset, lease.deliveries)
    | none, some n => some (offset, n)
    | none, none => none

end LeaseTable

/-! ## Deciding about a record -/

/-- The effective time to live of a record has passed. -/
def recordIsExpired (defaultTtl nowUnixMillis : Nat) (r : OwnedRecord) : Bool :=
  Ttl.isExpired (Ttl.lowerOf (Ttl.decodeTtlHeaders r.headers) defaultTtl) r.timestampMs
    nowUnixMillis

/-- The due time of a record has not come. -/
def recordIsUndue (nowUnixMillis : Nat) (r : OwnedRecord) : Bool :=
  Delay.isUndue r.headers nowUnixMillis

/-- The stored subject of a record matches a pattern; a record without one never does. -/
def recordMatchesSubjectFilter (pattern : Bytes) (r : OwnedRecord) : Bool :=
  if r.subject = [] then false
  else if r.subject.validUtf8 = false then false
  else
    match Subject.parseLiteral r.subject with
    | .ok _ => Subject.matchesPattern pattern r.subject
    | .error _ => false

/-- The pattern a poll filters by: none if the group has none, or one that does not parse. -/
def WorkGroup.pattern (g : WorkGroup) : Option Bytes :=
  g.filter.filter fun p => (Subject.parsePattern p).isOk

/-- A record does not match the filter in force. -/
def filteredOut (pattern : Option Bytes) (r : OwnedRecord) : Bool :=
  pattern.any fun p => !recordMatchesSubjectFilter p r

/-- Holds back a redelivery while the retry budget is spent: whether it did, the budget and the
leases. -/
def retryThrottleDefer (cfg : EngineConfig) (budget : RetryBudget) (leases : LeaseTable)
    (offset now : Nat) : Bool × RetryBudget × LeaseTable :=
  match leases.pendingRedeliveryAttempt offset now with
  | none => (false, budget, leases)
  | some priorAttempt =>
    match budget.shouldThrottle now with
    | (false, budget) => (false, budget, leases)
    | (true, budget) =>
      let nextAttempt := saturatingAddU32 priorAttempt 1
      let defer := max (cfg.delivery.nackBackoff nextAttempt) (max cfg.lease.visibilityNanos 1)
      (true, budget, (leases.deferRedelivery offset now defer).2)

/-! ## The loops -/

/-- Why a record goes to the dead-letter targets. -/
inductive DeadLetterReason where
  | maxDeliverExceeded
  | rejected
  | ttlExpired
  deriving DecidableEq

/-- Why a scan stopped before the end of its window. -/
inductive ScanStop where
  /-- The poll returns. -/
  | poll (p : Poll)
  | failed (e : EngineError)
  /-- The loop ends with a record to dead-letter. -/
  | park (offset deliveries : Nat) (record : OwnedRecord) (reason : DeadLetterReason)
  /-- The loop ends at a record that is not due. -/
  | hold

/-- What a loop carries from one offset to the next. -/
structure Scan where
  group : WorkGroup
  budget : RetryBudget
  /-- Where the run of records that do not match the filter began. -/
  filteredFrom : Option Nat

/-- What a poll comes to before the dead-letter targets are written. -/
inductive PollEnd where
  | ok (p : Poll)
  | error (e : EngineError)
  | deadLetter (offset deliveries : Nat) (record : OwnedRecord) (reason : DeadLetterReason)
  deriving DecidableEq

namespace Scan

/-- The offset is passed for good. -/
def skip (s : Scan) (offset : Nat) : Scan :=
  { s with group := { s.group with cursor := (s.group.cursor.ack offset).2 } }

def withLeases (s : Scan) (leases : LeaseTable) : Scan :=
  { s with group := { s.group with leases := leases } }

def clearKey (s : Scan) (offset : Nat) : Scan := { s with group := s.group.clearKey offset }

/-- Drops the lease a claim granted. -/
def release (s : Scan) (token : LeaseToken) : Scan :=
  s.withLeases (s.group.leases.ack token).2

/-- Passes over the offsets that compaction left without a record. -/
def passHole (s : Scan) (offset next : Nat) : Scan :=
  { s with group := { s.group with cursor := s.group.cursor.ackRange offset next } }

/-- Counts the offset into the run that does not match the filter. -/
def noteFiltered (s : Scan) (offset : Nat) : Scan :=
  { s with filteredFrom := some (s.filteredFrom.getD offset) }

/-- The first record behind a filtered run: the run is reported, and the record waits for the
next poll, unless its delivery limit is spent. -/
def endFiltered (cfg : EngineConfig) (s : Scan) (start : Nat) (d : Delivery) :
    Turn Scan ScanStop :=
  let s := { s with filteredFrom := none }
  match cfg.delivery.disposition d.deliveries with
  | .deliver =>
    .stop (.poll (.filtered start d.offset))
      { s with group := { s.group with pendingMatch := some d } }
  | .deadLetter => .stop (.poll (.filtered start d.offset)) (s.release d.token)

/-- What a loop that ended comes to: a filtered run is reported first. -/
def finish (stop : Option ScanStop) (offset : Nat) (s : Scan) : PollEnd :=
  match stop with
  | some (.poll p) => .ok p
  | some (.failed e) => .error e
  | some (.park off deliveries record reason) =>
    match s.filteredFrom with
    | some start => .ok (.filtered start offset)
    | none => .deadLetter off deliveries record reason
  | some .hold | none =>
    match s.filteredFrom with
    | some start => .ok (.filtered start offset)
    | none => .ok .idle

end Scan

namespace WorkGroup

/-- One past the last offset a poll may look at. -/
def windowEnd (cfg : EngineConfig) (env : PollEnv) (committed : Nat) : Nat :=
  min (saturatingAdd committed cfg.maxInFlight) env.flushed

/-- Scans the window with a visit and reports what the loop came to. -/
def scan (cfg : EngineConfig) (env : PollEnv) (visit : Nat → Scan → Turn Scan ScanStop)
    (budget : RetryBudget) (g : WorkGroup) : PollEnd × RetryBudget × WorkGroup :=
  let committed := g.cursor.committed
  let (stop, offset, s) :=
    scanWindow visit (windowEnd cfg env committed - committed) committed ⟨g, budget, none⟩
  (s.finish stop offset, s.budget, s.group)

/-- Restarts the group at the earliest retained record: its leases are forgotten. -/
def resetTo (cfg : EngineConfig) (g : WorkGroup) (earliest : Nat) : WorkGroup :=
  { g with cursor := AckCursor.resume earliest, leases := LeaseTable.new cfg.lease }

/-! ### The plain loop of the default stream -/

/-- A claimed offset and the record the log returned for it. -/
def visitRecord (cfg : EngineConfig) (env : PollEnv) (pattern : Option Bytes) (offset : Nat)
    (token : LeaseToken) (deliveries : Nat) (record : OwnedRecord) (s : Scan) :
    Turn Scan ScanStop :=
  if record.offset ≠ offset then
    .stop (.poll (.compacted offset record.offset))
      ((s.release token).passHole offset record.offset)
  else if recordIsExpired cfg.defaultMessageTtl env.nowUnixMillis record then
    if cfg.deadLettersExpired then
      .stop (.park offset deliveries record .ttlExpired) (s.release token)
    else .next (((s.release token).skip offset).clearKey offset)
  else if filteredOut pattern record then
    .next ((((s.release token).skip offset).clearKey offset).noteFiltered offset)
  else if recordIsUndue env.nowUnixMillis record then .stop .hold (s.release token)
  else
    match s.filteredFrom with
    | some start => s.endFiltered cfg start ⟨offset, token, deliveries, record⟩
    | none =>
      match cfg.delivery.disposition deliveries with
      | .deliver => .stop (.poll (.message ⟨offset, token, deliveries, record⟩)) s
      | .deadLetter =>
        .stop (.park offset deliveries record .maxDeliverExceeded) (s.release token)

def visitTimed (cfg : EngineConfig) (env : PollEnv) (pattern : Option Bytes) (offset : Nat)
    (s : Scan) : Turn Scan ScanStop :=
  if s.group.cursor.isAcked offset then .next s
  else
    match retryThrottleDefer cfg s.budget s.group.leases offset env.now with
    | (true, budget, leases) => .next { s.withLeases leases with budget := budget }
    | (false, budget, _) =>
      let s := { s with budget := budget }
      match s.group.leases.claim offset env.now with
      | (.inFlight, _) => .next s
      | (.exhausted, _) => .stop (.failed .generationExhausted) s
      | (.granted token deliveries, leases) =>
        let s := s.withLeases leases
        match env.read offset with
        | .error e => .stop (.failed (.storage e)) s
        | .ok none => .stop (.failed (.missingRecord offset)) s
        | .ok (some record) => visitRecord cfg env pattern offset token deliveries record s

/-- A poll of a group of the default stream (`poll_in_timed`). -/
def pollTimed (cfg : EngineConfig) (env : PollEnv) (budget : RetryBudget) (g : WorkGroup) :
    PollEnd × RetryBudget × WorkGroup :=
  match (g.touch env.now).pauseActive env.now with
  | (true, g) => (.ok .idle, budget, g)
  | (false, g) =>
    match g.pendingMatch with
    | some d => (.ok (.message d), budget, { g with pendingMatch := none })
    | none =>
      if g.cursor.committed < env.earliest then
        (.ok (.truncated env.earliest (env.earliest - g.cursor.committed)), budget,
          g.resetTo cfg env.earliest)
      else g.scan cfg env (visitTimed cfg env g.pattern) budget

/-! ### The key-shared loop of the default stream -/

variable [Checksums]

/-- A routed offset that is claimed: delivered, and its key marked, or given up. -/
def grantRouted (cfg : EngineConfig) (offset : Nat) (record : OwnedRecord) (token : LeaseToken)
    (deliveries : Nat) (s : Scan) : Turn Scan ScanStop :=
  match cfg.delivery.disposition deliveries with
  | .deliver =>
    .stop (.poll (.message ⟨offset, token, deliveries, record⟩)) { s with group := { s.group with
      router := s.group.router.map (·.markInFlight record.key offset) } }
  | .deadLetter =>
    .stop (.park offset deliveries record .maxDeliverExceeded)
      ((s.release token).clearKey offset)

def visitMember (cfg : EngineConfig) (env : PollEnv) (member : MemberId) (offset : Nat)
    (s : Scan) : Turn Scan ScanStop :=
  if s.group.cursor.isAcked offset then .next s
  else if s.group.leases.isClaimable offset env.now = false then .next s
  else
    match env.read offset with
    | .error e => .stop (.failed (.storage e)) s
    | .ok none => .stop (.failed (.missingRecord offset)) s
    | .ok (some record) =>
      if record.offset ≠ offset then
        .stop (.poll (.compacted offset record.offset)) (s.passHole offset record.offset)
      else if recordIsExpired cfg.defaultMessageTtl env.nowUnixMillis record then
        if cfg.deadLettersExpired then .stop (.park offset 1 record .ttlExpired) s
        else .next ((s.skip offset).clearKey offset)
      else if recordIsUndue env.nowUnixMillis record then .stop .hold s
      else
        match s.group.router with
        | none => .stop (.failed (.missingRecord offset)) s
        | some router =>
          match router.decide member record.key offset with
          | .notOwner | .keyBusy => .next s
          | .deliver =>
            match retryThrottleDefer cfg s.budget s.group.leases offset env.now with
            | (true, budget, leases) => .next { s.withLeases leases with budget := budget }
            | (false, budget, _) =>
              let s := { s with budget := budget }
              match s.group.leases.claim offset env.now with
              | (.inFlight, _) => .next s
              | (.exhausted, _) => .stop (.failed .generationExhausted) s
              | (.granted token deliveries, leases) =>
                grantRouted cfg offset record token deliveries (s.withLeases leases)

/-- A poll of a key-shared group of the default stream by one member (`poll_in_member`). -/
def pollMember (cfg : EngineConfig) (env : PollEnv) (member : MemberId) (budget : RetryBudget)
    (g : WorkGroup) : PollEnd × RetryBudget × WorkGroup :=
  match (g.touch env.now).pauseActive env.now with
  | (true, g) => (.ok .idle, budget, g)
  | (false, g) =>
    if g.cursor.committed < env.earliest then
      (.ok (.truncated env.earliest (env.earliest - g.cursor.committed)), budget,
        (g.resetTo cfg env.earliest).retainKeys env.earliest)
    else
      (g.retainKeys g.cursor.committed).scan cfg env (visitMember cfg env member) budget

/-- A poll by a member of a group of the default stream, whatever the group's mode. -/
def pollInMember (cfg : EngineConfig) (env : PollEnv) (member : MemberId) (budget : RetryBudget)
    (g : WorkGroup) : PollEnd × RetryBudget × WorkGroup :=
  match g.keyOrdering with
  | .none => g.pollTimed cfg env budget
  | .keyShared => g.pollMember cfg env member budget

/-! ### The loop of a named stream -/

def visitNamedMember (cfg : EngineConfig) (env : PollEnv) (pattern : Option Bytes)
    (member : MemberId) (offset : Nat) (s : Scan) : Turn Scan ScanStop :=
  if s.group.cursor.isAcked offset || s.group.leases.isClaimable offset env.now = false then
    .next s
  else
    match env.read offset with
    | .error e => .stop (.failed (.storage e)) s
    | .ok none => .stop (.failed (.missingRecord offset)) s
    | .ok (some record) =>
      if record.offset ≠ offset then
        .stop (.poll (.compacted offset record.offset)) (s.passHole offset record.offset)
      else if filteredOut pattern record then
        -- the lease is taken and given back, and the key stays marked
        match s.group.leases.claim offset env.now with
        | (.granted token _, leases) => .next (((s.withLeases leases).release token).skip offset)
        | _ => .next (s.skip offset)
      else if recordIsUndue env.nowUnixMillis record then .stop .hold s
      else if s.group.router.map (·.decide member record.key offset) ≠ some .deliver then .next s
      else
        match s.group.leases.claim offset env.now with
        | (.inFlight, _) => .next s
        | (.exhausted, _) => .stop (.failed .generationExhausted) s
        | (.granted token deliveries, leases) =>
          grantRouted cfg offset record token deliveries (s.withLeases leases)

def visitNamedPlain (cfg : EngineConfig) (env : PollEnv) (pattern : Option Bytes) (offset : Nat)
    (s : Scan) : Turn Scan ScanStop :=
  if s.group.cursor.isAcked offset then .next s
  else
    match s.group.leases.claim offset env.now with
    | (.inFlight, _) => .next s
    | (.exhausted, _) => .stop (.failed .generationExhausted) s
    | (.granted token deliveries, leases) =>
      let s := s.withLeases leases
      match env.read offset with
      | .error e => .stop (.failed (.storage e)) s
      | .ok none => .stop (.failed (.missingRecord offset)) s
      | .ok (some record) =>
        if record.offset ≠ offset then
          .stop (.poll (.compacted offset record.offset))
            ((s.release token).passHole offset record.offset)
        else if filteredOut pattern record then
          .next (((s.release token).skip offset).noteFiltered offset)
        else if recordIsUndue env.nowUnixMillis record then .stop .hold (s.release token)
        else
          match s.filteredFrom with
          | some start => s.endFiltered cfg start ⟨offset, token, deliveries, record⟩
          | none =>
            match cfg.delivery.disposition deliveries with
            | .deliver => .stop (.poll (.message ⟨offset, token, deliveries, record⟩)) s
            | .deadLetter =>
              .stop (.park offset deliveries record .maxDeliverExceeded) (s.release token)

/-- A poll of a group of a named stream by one member (`deliver_from_named_stream`). The time to
live and the retry budget do not apply to a named stream. -/
def pollNamed (cfg : EngineConfig) (env : PollEnv) (member : MemberId) (budget : RetryBudget)
    (g : WorkGroup) : PollEnd × RetryBudget × WorkGroup :=
  match (g.touch env.now).pauseActive env.now with
  | (true, g) => (.ok .idle, budget, g)
  | (false, g) =>
    match g.pendingMatch with
    | some d => (.ok (.message d), budget, { g with pendingMatch := none })
    | none =>
      let g := g.retainKeys g.cursor.committed
      if g.cursor.committed < env.earliest then
        (.ok (.truncated env.earliest (env.earliest - g.cursor.committed)), budget,
          g.resetTo cfg env.earliest)
      else
        g.scan cfg env
          (if g.router.isSome then visitNamedMember cfg env g.pattern member
            else visitNamedPlain cfg env g.pattern) budget

end WorkGroup

/-! ## Settling a delivery -/

inductive NackResult where
  | requeued
  | fenced
  deriving DecidableEq

inductive ProgressResult where
  | extended
  | capReached
  | fenced
  deriving DecidableEq

namespace WorkGroup

/-- Acknowledges a delivery. An acknowledgement that would start one range too many ahead of the
watermark is accepted and not recorded. -/
def ackIn (cfg : EngineConfig) (now : Nat) (token : LeaseToken) (g : WorkGroup) :
    AckOutcome × WorkGroup :=
  let g := g.touch now
  match g.leases.ack token with
  | (.fenced, _) => (.fenced, g)
  | (.acked, leases) =>
    match g.cursor.ackBounded token.offset cfg.maxAckedAheadRuns with
    | (.shed, _) => (.acked, { g with leases := leases })
    | (_, cursor) =>
      (.acked, ({ g with leases := leases, cursor := cursor }).clearKey token.offset)

/-- Terminates a delivery. With a dead-letter exchange its record, if it is still there, goes to the
targets first; `written` is what came of that. -/
def termIn (cfg : EngineConfig) (env : PollEnv) (written : Except EngineError Unit)
    (token : LeaseToken) (g : WorkGroup) : Except EngineError AckOutcome × WorkGroup :=
  let settled := g.ackIn cfg env.now token
  if cfg.deadLetterExchange = false then (.ok settled.1, settled.2)
  else if (g.leases.deliveries token).isNone then (.ok .fenced, g)
  else
    match env.read token.offset with
    | .error e => (.error (.storage e), g)
    | .ok record =>
      match record.filter (fun r => r.offset = token.offset), written with
      | some _, .error e => (.error e, g)
      | _, _ => (.ok settled.1, settled.2)

/-- Gives a delivery back, after a delay of its own or that of the backoff. -/
def nackIn (cfg : EngineConfig) (now : Nat) (token : LeaseToken) (delayMs : Nat) (g : WorkGroup) :
    Except EngineError NackResult × WorkGroup :=
  let g := g.touch now
  let explicitNanos := if delayMs = u64Max then none else some (saturatingMul delayMs 1000000)
  let attempt := (g.leases.deliveries token).getD 0
  match g.leases.nack token now (cfg.delivery.effectiveNackDelay attempt explicitNanos) with
  | (.requeued _, leases) => (.ok .requeued, { g with leases := leases })
  | (.fenced, _) => (.ok .fenced, g)
  | (.exhausted, _) => (.error .generationExhausted, g)

def progressIn (now : Nat) (token : LeaseToken) (g : WorkGroup) : ProgressResult × WorkGroup :=
  let g := g.touch now
  match g.leases.extend token now with
  | (.extended _, leases) => (.extended, { g with leases := leases })
  | (.capReached, _) => (.capReached, g)
  | (.fenced, _) => (.fenced, g)

/-- Commits every offset below `upTo`, for a broadcast group. -/
def cumulativeAckIn (env : PollEnv) (upTo : Nat) (g : WorkGroup) :
    Except EngineError Unit × WorkGroup :=
  if g.broadcast = false then (.error .cumulativeAckOnWorkGroup, g)
  else if env.flushed < upTo ∨ upTo < env.earliest then
    (.error (.cumulativeAckOutOfRange upTo env.earliest env.flushed), g)
  else
    let g := g.touch env.now
    (.ok (), { g with
      cursor := (g.cursor.commitUpTo upTo).2
      leases := g.leases.releaseBelow upTo })

/-- Passes a record whose copies stand in every dead-letter target. -/
def commitDeadLetterPast (offset : Nat) (g : WorkGroup) : WorkGroup :=
  ({ g with cursor := (g.cursor.ack offset).2 }).clearKey offset

/-- The same in a named stream, where the key was freed before. -/
def commitNamedDeadLetterPast (offset : Nat) (g : WorkGroup) : WorkGroup :=
  { g with cursor := (g.cursor.ack offset).2 }

/-! ## Either kind of stream -/

/-- A poll of a group of a stream, by a member or by none (`poll_in_stream`,
`poll_in_stream_member`). -/
def pollInStream [Checksums] (home : Home) (cfg : EngineConfig) (env : PollEnv)
    (member : Option MemberId) (budget : RetryBudget) (g : WorkGroup) :
    PollEnd × RetryBudget × WorkGroup :=
  match home, member with
  | .default, none => g.pollTimed cfg env budget
  | .default, some m => g.pollInMember cfg env m budget
  | .named, m => g.pollNamed cfg env (m.getD 0) budget

/-- Passes a dead-lettered record in a group of a stream. -/
def deadLetterPast (home : Home) (offset : Nat) (g : WorkGroup) : WorkGroup :=
  match home with
  | .default => g.commitDeadLetterPast offset
  | .named => g.commitNamedDeadLetterPast offset

/-! ## Modes -/

def setKeyOrdering (ordering : KeyOrdering) (g : WorkGroup) : WorkGroup :=
  match ordering with
  | .keyShared => { g with router := some (g.router.getD KeyRouter.new), broadcast := false }
  | .none => { g with router := none }

def joinMember (member : MemberId) (g : WorkGroup) : WorkGroup :=
  { g with router := g.router.map fun r => (r.join member).2 }

def leaveMember (member : MemberId) (g : WorkGroup) : WorkGroup :=
  { g with router := g.router.map fun r => (r.leave member).2 }

end WorkGroup

end IronBus
