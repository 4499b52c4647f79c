import IronBus.Native.RangeRead

/-!
# Delivery replies

The frames of a delivery reply: how the broker builds the reply of a streaming fetch from a range
read, and how the client reads a reply back into messages. A run of stored frames travels in one
batch frame, from which the client takes the offsets by position; every other record is a frame of
its own.
-/

namespace IronBus

/-- The decompression of a record's payload. -/
class Compression where
  decompressPayload : UInt8 → Bytes → Option Bytes

structure DeliverBody where
  offset : Nat
  generation : Nat
  flags : UInt8
  timestampMs : Nat
  key : Bytes
  headers : Bytes
  payload : Bytes

structure DeliverBatchHeader where
  firstOffset : Nat
  generation : Nat
  recordCount : Nat

/-- Why the broker refuses a streaming request. -/
inductive StreamError where
  | cumulativeAckOnWorkGroup
  | cumulativeAckOutOfRange (upTo earliestRetained durableHead : Nat)
  | storage (e : StorageError)
  deriving DecidableEq

/-- What an error frame says: the code of an engine error, or a text. -/
inductive ReplyError where
  | coded (e : StreamError)
  | text (message : String)
  deriving DecidableEq

/-- The frames a delivery reply may hold. -/
inductive DeliveryFrame where
  | deliver (d : DeliverBody)
  | deliverBatch (header : DeliverBatchHeader) (recordBytes : Bytes)
  | deadLetter (offset reason : Nat)
  | truncated (earliestRetained skipped : Nat)
  | gapMarker (first last bytesSkipped reason : Nat)
  | flowEnd (delivered : Nat)
  | err (error : ReplyError)
  | other (tag : Nat)

def maxFrameLen : Nat := 16 * 1024 * 1024 + 64 * 1024

def deliverBatchHeaderLen : Nat := 1 + 2 + (8 + 8 + 4)

/-- The length of a `Deliver` frame: the type byte and the body. -/
def DeliverBody.frameLen (d : DeliverBody) : Nat :=
  1 + (8 + 8 + 1 + 8 + (2 + d.key.length) + (2 + d.headers.length) + d.payload.length)

/-! ## The broker's side -/

section Server

variable [Compression]

/-- The flags and payload a record is delivered with: a consumer that cannot decompress gets the
payload decompressed, and nothing if that fails. -/
def deliverEncodingFor (capable : Bool) (flags : UInt8) (payload : Bytes) :
    Option (UInt8 × Bytes) :=
  if capable || !RecordFlags.contains flags RecordFlags.compressed then some (flags, payload)
  else (Compression.decompressPayload flags payload).map fun plain =>
    (flags &&& ~~~RecordFlags.compressed, plain)

/-- The `Deliver` body of a record; a key or header block too long for its length field has none. -/
def deliverBodyOf (capable : Bool) (generation : Nat) (r : OwnedRecord) : Option DeliverBody :=
  match deliverEncodingFor capable r.flags r.payload with
  | none => none
  | some (flags, payload) =>
    if r.key.length ≤ 65535 ∧ r.headers.length ≤ 65535 then
      some ⟨r.offset, generation, flags, r.timestampMs, r.key, r.headers, payload⟩
    else none

/-- Appends a reply frame; a frame over the cap is left out without an error. -/
def replyDeliver (d : DeliverBody) : List DeliveryFrame :=
  if d.frameLen ≤ maxFrameLen then [.deliver d] else []

/-- One frame for each record, up to the first that cannot be encoded, and their count. -/
def emitTailRecords (capable : Bool) : List OwnedRecord → List DeliveryFrame × Nat
  | [] => ([], 0)
  | r :: rs =>
    match deliverBodyOf capable 0 r with
    | none => ([], 0)
    | some d =>
      let (frames, delivered) := emitTailRecords capable rs
      (replyDeliver d ++ frames, delivered + 1)

/-- Whether a run fits one batch frame. -/
def batchFits (bytes : Bytes) : Bool := 1 + (deliverBatchHeaderLen + bytes.length) ≤ maxFrameLen

/-- A raw run as one batch frame, then the tail. A run over the frame cap is left out; only the
path that splices the bytes leaves it out of the count too. -/
def emitStreamRawBatch (spliced capable : Bool) (raw : RangeLog.RawRun) (tail : List OwnedRecord) :
    List DeliveryFrame × Nat :=
  let batch :=
    if raw.recordCount = 0 then ([], 0)
    else if batchFits raw.bytes then
      ([.deliverBatch ⟨raw.firstOffset, 0, raw.recordCount⟩ raw.bytes], raw.recordCount)
    else ([], if spliced then 0 else raw.recordCount)
  let (frames, delivered) := emitTailRecords capable tail
  (batch.1 ++ frames, batch.2 + delivered)

variable [Checksums]

/-- A streaming group on the broker. A streaming group acks nothing out of order, so its cursor is
one offset. -/
structure StreamServer where
  log : RangeLog
  streaming : Bool
  paused : Bool
  committed : Nat

/-- What a connection negotiated. -/
structure StreamSession where
  window : Nat
  ceilingBytes : Nat
  deliverBatchEnabled : Bool
  compressedDeliveryEnabled : Bool
  spliceEnabled : Bool

structure StreamFetchBody where
  startOffset : Nat
  maxRecords : Nat
  maxBytes : Nat

/-- The smaller of two budgets, where 0 is none. -/
def minBudget (a b : Nat) : Nat := if a = 0 then b else if b = 0 then a else min a b

namespace StreamServer

/-- Serves a streaming fetch record by record. -/
def streamFetchIn (s : StreamServer) (start maxRecords : Nat) (maxBytes : Option Nat) :
    Except StreamError (List OwnedRecord) :=
  if !s.streaming then .error .cumulativeAckOnWorkGroup
  else if s.paused then .ok []
  else (s.log.readRange start maxRecords maxBytes).mapError .storage

/-- Serves a streaming fetch as a raw run and a decoded tail. -/
def streamFetchRawIn (s : StreamServer) (start maxRecords : Nat) (maxBytes : Option Nat) :
    Except StreamError (RangeLog.RawRun × List OwnedRecord) :=
  if !s.streaming then .error .cumulativeAckOnWorkGroup
  else if s.paused then .ok (.empty start, [])
  else
    match s.log.readRangeRaw start maxRecords maxBytes with
    | .error e => .error (.storage e)
    | .ok (raw, none) => .ok (raw, [])
    | .ok (raw, some tailFrom) =>
      if raw.recordCount < maxRecords then
        match s.log.readRange tailFrom (maxRecords - raw.recordCount) maxBytes with
        | .error e => .error (.storage e)
        | .ok tail => .ok (raw, tail)
      else .ok (raw, [])

/-- Commits a streaming cursor up to an offset of the retained, durable window. -/
def streamCommitIn (s : StreamServer) (upTo : Nat) : Except StreamError StreamServer :=
  if !s.streaming then .error .cumulativeAckOnWorkGroup
  else if s.log.flushedOffset < upTo ∨ upTo < s.log.oldest then
    .error (.cumulativeAckOutOfRange upTo s.log.oldest s.log.flushedOffset)
  else .ok { s with committed := max s.committed upTo }

/-- The reply of a streaming fetch: its frames and the frame that ends it. -/
def handleStreamFetch (s : StreamServer) (session : StreamSession) (req : StreamFetchBody) :
    List DeliveryFrame :=
  let want := min req.maxRecords session.window
  let budget := minBudget session.ceilingBytes req.maxBytes
  let maxBytes := if budget = 0 then none else some budget
  if session.deliverBatchEnabled then
    match s.streamFetchRawIn req.startOffset want maxBytes with
    | .error e => [.err (.coded e)]
    | .ok (raw, tail) =>
      let (frames, delivered) :=
        emitStreamRawBatch session.spliceEnabled session.compressedDeliveryEnabled raw tail
      frames ++ [.flowEnd delivered]
  else
    match s.streamFetchIn req.startOffset want maxBytes with
    | .error e => [.err (.coded e)]
    | .ok records =>
      let (frames, delivered) := emitTailRecords session.compressedDeliveryEnabled records
      frames ++ [.flowEnd delivered]

end StreamServer

end Server

/-! ## The client's side -/

structure Message where
  offset : Nat
  generation : Nat
  flags : UInt8
  timestampMs : Nat
  key : Bytes
  headers : Bytes
  payload : Bytes

/-- What a fetch returns. -/
structure Fetch where
  messages : List Message
  deadLetters : List (Nat × Nat)
  truncations : List (Nat × Nat)
  gaps : List (Nat × Nat × Nat × Nat)

inductive ClientError where
  | io
  | server (error : ReplyError)
  | badResponse (message : String)
  | decompress (offset generation : Nat)
  | unexpected
  deriving DecidableEq

/-- What a reply has given so far. -/
structure Ingest where
  fetch : Fetch
  poison : Option ClientError
  /-- Frames and batched records seen, against the credit. -/
  frames : Nat
  decompressedBytes : Nat

def Ingest.new : Ingest := ⟨⟨[], [], [], []⟩, none, 0, 0⟩

section Client

variable [Compression]

/-- Takes one delivery in. After a failure the rest of the reply is read and dropped. -/
def ingestDelivery (maxAggregate : Nat) (d : DeliverBody) (i : Ingest) : Ingest :=
  if i.poison.isSome then i
  else
    let decoded :=
      if RecordFlags.contains d.flags RecordFlags.compressed then
        (Compression.decompressPayload d.flags d.payload).map fun p =>
          (d.flags &&& ~~~RecordFlags.compressed, p)
      else some (d.flags, d.payload)
    match decoded with
    | none => { i with poison := some (.decompress d.offset d.generation) }
    | some (flags, payload) =>
      let total := i.decompressedBytes + payload.length
      if maxAggregate < total then
        { i with
          decompressedBytes := total
          poison := some
            (.badResponse "fetch response exceeded the aggregate decompressed-bytes cap") }
      else
        let m : Message :=
          ⟨d.offset, d.generation, flags, d.timestampMs, d.key, d.headers, payload⟩
        { i with
          decompressedBytes := total
          fetch := { i.fetch with messages := i.fetch.messages ++ [m] } }

variable [Checksums]

/-- Takes the records of a batch frame in, numbered from `offset`, and counts them. -/
def ingestBatch (maxAggregate generation : Nat) :
    Nat → Bytes → Nat → Nat → Ingest → Except ClientError (Nat × Ingest)
  | 0, bytes, _, decoded, i =>
    if bytes = [] then .ok (decoded, i)
    else .error (.badResponse "malformed record in DeliverBatch body")
  | fuel + 1, bytes, offset, decoded, i =>
    if bytes = [] then .ok (decoded, i)
    else
      match Codec.decodeInner bytes with
      | .error _ => .error (.badResponse "malformed record in DeliverBatch body")
      | .ok f =>
        let d : DeliverBody := ⟨offset, generation, f.view.flags, f.view.timestampMs, f.view.key,
          f.view.headers, f.view.payload⟩
        ingestBatch maxAggregate generation fuel (bytes.drop f.total) (saturatingAdd offset 1)
          (decoded + 1) (ingestDelivery maxAggregate d i)

/-- Takes one frame in; the frames that end the reply are not among them. -/
def ingestFrame (limit maxAggregate : Nat) (frame : DeliveryFrame) (i : Ingest) :
    Except ClientError Ingest :=
  if limit ≤ i.frames then
    .error (.badResponse "server streamed more frames than the requested credit")
  else
    let i := { i with frames := i.frames + 1 }
    match frame with
    | .deliver d => .ok (ingestDelivery maxAggregate d i)
    | .deliverBatch header bytes =>
      let frames := i.frames + header.recordCount - 1
      if limit < frames then
        .error (.badResponse "server streamed more records than the requested credit")
      else
        match ingestBatch maxAggregate header.generation bytes.length bytes header.firstOffset 0
            { i with frames := frames } with
        | .error e => .error e
        | .ok (decoded, i) =>
          if decoded = header.recordCount then .ok i
          else .error (.badResponse "DeliverBatch record_count or body length mismatch")
    | .deadLetter offset reason =>
      .ok { i with
        fetch := { i.fetch with deadLetters := i.fetch.deadLetters ++ [(offset, reason)] } }
    | .truncated earliest skipped =>
      .ok { i with
        fetch := { i.fetch with truncations := i.fetch.truncations ++ [(earliest, skipped)] } }
    | .gapMarker first last bytes reason =>
      .ok { i with
        fetch := { i.fetch with gaps := i.fetch.gaps ++ [(first, last, bytes, reason)] } }
    | _ => .error .unexpected

/-- Reads a reply to its end. A failure to decompress is reported only there. -/
def readFetchFrames (limit maxAggregate : Nat) :
    List DeliveryFrame → Ingest → Except ClientError Fetch
  | [], _ => .error .io
  | .flowEnd _ :: _, i =>
    match i.poison with
    | some e => .error e
    | none => .ok i.fetch
  | .err error :: _, _ => .error (.server error)
  | frame :: rest, i =>
    match ingestFrame limit maxAggregate frame i with
    | .error e => .error e
    | .ok i => readFetchFrames limit maxAggregate rest i

def readFetchResponse (limit maxAggregate : Nat) (reply : List DeliveryFrame) :
    Except ClientError Fetch :=
  readFetchFrames limit maxAggregate reply .new

end Client

end IronBus
