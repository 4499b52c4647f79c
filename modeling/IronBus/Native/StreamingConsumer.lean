import IronBus.ForStd.Prog
import IronBus.Native.DeliverFrames

/-!
# The streaming consumer

The client's handle on a streaming group: it fetches windows, moves its own cursor, commits the
cursor every few windows and asks for the next window ahead. Its calls are programs that can be
interrupted at every exchange with the broker. What the broker's log looks like when it handles a
request, and whether the exchange fails, is given by the link's schedule.
-/

namespace IronBus

variable [Checksums]

structure StreamConsumerConfig where
  maxRecords : Nat
  maxBytes : Nat
  commitEveryBatches : Nat
  startOffset : Nat
  readAhead : Bool

structure StreamingConsumer where
  config : StreamConsumerConfig
  /-- Where the next window begins. -/
  nextOffset : Nat
  committed : Nat
  batchesSinceCommit : Nat
  /-- The frame limit of a window that was asked for ahead and not read yet. -/
  prefetch : Option Nat
  /-- A window that was read ahead and not returned yet. -/
  stashed : Option Fetch

namespace StreamingConsumer

def new (config : StreamConsumerConfig) : StreamingConsumer :=
  ⟨config, config.startOffset, config.startOffset, 0, none, none⟩

def windowRecords (c : StreamingConsumer) : Nat := max c.config.maxRecords 1

def commitCadence (c : StreamingConsumer) : Nat := max c.config.commitEveryBatches 1

end StreamingConsumer

/-- The broker when it handles one request, and how the exchange ends. -/
structure Exchange where
  log : RangeLog
  paused : Bool
  session : StreamSession
  sendFails : Bool
  recvFails : Bool

/-- A consumer, the broker and the connection between them. -/
structure Link where
  consumer : StreamingConsumer
  server : StreamServer
  negotiatedCredit : Option Nat
  maxAggregate : Nat
  /-- The request whose reply has not been read. -/
  request : Option StreamFetchBody
  schedule : List Exchange

namespace Link

/-- The next exchange; without one the connection is gone. -/
def next (l : Link) : Option (Exchange × Link) :=
  match l.schedule with
  | [] => none
  | x :: rest =>
    some (x, { l with
      server := { l.server with log := x.log, paused := x.paused }
      schedule := rest })

def mapConsumer (f : StreamingConsumer → StreamingConsumer) (l : Link) : Link :=
  { l with consumer := f l.consumer }

end Link

abbrev LinkM := Prog Link ClientError

variable [Compression]

/-- Writes a fetch request; the frame limit its reply must keep. -/
def sendStreamFetch (startOffset maxRecords maxBytes : Nat) : LinkM Nat :=
  Prog.effect fun l =>
    match l.next with
    | none => (.error .io, l)
    | some (x, l) =>
      let maxRecords := (l.negotiatedCredit.map (min maxRecords)).getD maxRecords
      if x.sendFails then (.error .io, l)
      else (.ok maxRecords, { l with request := some ⟨startOffset, maxRecords, maxBytes⟩ })

/-- Reads the reply of the request that was written. -/
def readStreamFetchResponse (limit : Nat) : LinkM Fetch :=
  Prog.effect fun l =>
    match l.next with
    | none => (.error .io, l)
    | some (x, l) =>
      match l.request with
      | none => (.error .io, l)
      | some req =>
        let reply := l.server.handleStreamFetch x.session req
        if x.recvFails then (.error .io, { l with request := none })
        else (readFetchResponse limit l.maxAggregate reply, { l with request := none })

def streamFetch (startOffset maxRecords maxBytes : Nat) : LinkM Fetch := do
  let limit ← sendStreamFetch startOffset maxRecords maxBytes
  readStreamFetchResponse limit

/-- Commits on the broker and reads the reply. With a fetch reply unread, that is what is read. -/
def streamCommit (upTo : Nat) : LinkM Unit :=
  Prog.effect fun l =>
    match l.next with
    | none => (.error .io, l)
    | some (x, l) =>
      if x.sendFails then (.error .io, l)
      else
        let (reply, server) : Except ClientError Unit × StreamServer :=
          match l.server.streamCommitIn upTo with
          | .error e => (.error (.server (.coded e)), l.server)
          | .ok server => (.ok (), server)
        let l := { l with server := server }
        if x.recvFails then (.error .io, l)
        else if l.request.isSome then (.error .unexpected, l)
        else (reply, l)

namespace StreamingConsumer

/-- Reads a window that was asked for ahead, so that the next reply is the next request's. -/
def drainPrefetch : LinkM Unit := do
  let c ← Prog.gets Link.consumer
  match c.prefetch with
  | some limit =>
    Prog.modify (Link.mapConsumer fun c => { c with prefetch := none })
    let fetch ← readStreamFetchResponse limit
    Prog.modify (Link.mapConsumer fun c => { c with stashed := some fetch })
  | none => pure ()

def commitNow : LinkM Unit := do
  drainPrefetch
  let c ← Prog.gets Link.consumer
  if c.nextOffset ≤ c.committed then pure ()
  else
    streamCommit c.nextOffset
    Prog.modify (Link.mapConsumer fun c =>
      { c with committed := c.nextOffset, batchesSinceCommit := 0 })

/-- The window of this call: the stashed one, the one asked for ahead, or a fresh one. -/
def takeWindow : LinkM Fetch := do
  let c ← Prog.gets Link.consumer
  match c.stashed with
  | some stashed =>
    Prog.modify (Link.mapConsumer fun c => { c with stashed := none })
    pure stashed
  | none =>
    match c.prefetch with
    | some limit =>
      Prog.modify (Link.mapConsumer fun c => { c with prefetch := none })
      readStreamFetchResponse limit
    | none => streamFetch c.nextOffset c.windowRecords c.config.maxBytes

/-- Commits the cursor when the cadence is reached, or when the stream has drained. -/
def commitIfDue (delivered : Nat) : LinkM Unit := do
  if 0 < delivered then
    Prog.modify (Link.mapConsumer fun c =>
      { c with batchesSinceCommit := c.batchesSinceCommit + 1 })
    let c ← Prog.gets Link.consumer
    if c.commitCadence ≤ c.batchesSinceCommit then commitNow else pure ()
  else commitNow

/-- Asks for the window after the one in hand. -/
def readAhead (delivered : Nat) : LinkM Unit := do
  let c ← Prog.gets Link.consumer
  if c.config.readAhead ∧ 0 < delivered then
    let limit ← sendStreamFetch c.nextOffset c.windowRecords c.config.maxBytes
    Prog.modify (Link.mapConsumer fun c => { c with prefetch := some limit })
  else pure ()

def nextBatch : LinkM Fetch := do
  let fetch ← takeWindow
  let delivered := fetch.messages.length
  Prog.modify (Link.mapConsumer fun c =>
    { c with nextOffset := saturatingAdd c.nextOffset delivered })
  commitIfDue delivered
  readAhead delivered
  pure fetch

def finish : LinkM Nat := do
  commitNow
  Prog.gets fun l => l.consumer.committed

end StreamingConsumer

end IronBus
