import IronBus.ForStd.TouchHeap
import IronBus.Native.Checksum

/-!
# Idempotent producers

Per producer, the last accepted (epoch, sequence, offset). A retry of an accepted sequence is a
duplicate, the next sequence is fresh, a gap is refused, and a stale epoch is fenced. The table
is saved as a checksummed snapshot and restored from it when the broker restarts.
-/

namespace IronBus

structure SeqConfig where
  maxProducers : Nat

inductive SeqDecision where
  | fresh
  | duplicate (offset : Nat)
  | outOfOrder (expected : Nat)
  | fenced (currentEpoch : Nat)
  deriving DecidableEq

/-- One producer's high-water. -/
structure ProducerSeq where
  epoch : Nat
  /-- The last accepted sequence; none while nothing was accepted at this epoch. -/
  lastSeq : Option Nat
  lastOffset : Nat
  lastTouch : Nat
  deriving DecidableEq

/-- An entry of the snapshot. -/
structure SeqHighWater where
  producerId : Bytes
  epoch : Nat
  lastSeq : Nat
  lastOffset : Nat
  deriving DecidableEq

namespace ProducerSeq

def new (epoch offset now : Nat) : ProducerSeq := ⟨epoch, none, offset, now⟩

/-- A newer epoch clears the sequence. -/
def enterEpoch (e : ProducerSeq) (epoch : Nat) : ProducerSeq :=
  if e.epoch < epoch then { e with epoch := epoch, lastSeq := none } else e

/-- What a sequence of the current epoch is. -/
def decide (e : ProducerSeq) (seq : Nat) : SeqDecision :=
  match e.lastSeq with
  | none => .fresh
  | some last =>
    if seq ≤ last then .duplicate e.lastOffset
    else if seq = last + 1 then .fresh
    else .outOfOrder (last + 1)

/-- Moves the high-water forward, never back. -/
def advance (e : ProducerSeq) (seq offset : Nat) : ProducerSeq :=
  if e.lastSeq.all (· < seq) then { e with lastSeq := some seq, lastOffset := offset } else e

end ProducerSeq

structure ProducerSeqRegistry where
  config : SeqConfig
  producers : Assoc Bytes ProducerSeq
  /-- The heap of touches (instant, producer), least first. -/
  lru : List (Nat × Bytes)

namespace ProducerSeqRegistry

def new (config : SeqConfig) : ProducerSeqRegistry where
  config := ⟨max config.maxProducers 1⟩
  producers := ∅
  lru := []

/-- Makes room for one more producer. -/
def makeRoomFor (r : ProducerSeqRegistry) (producerId : Bytes) : ProducerSeqRegistry :=
  if (r.producers.lookup producerId).isSome then r
  else if r.producers.size < r.config.maxProducers then r
  else
    let evicted := TouchHeap.evict ProducerSeq.lastTouch r.config.maxProducers r.lru r.producers
    { r with producers := evicted.1, lru := evicted.2 }

/-- Stores a producer's entry and records the touch on the heap. -/
def put (r : ProducerSeqRegistry) (producerId : Bytes) (e : ProducerSeq) (now : Nat) :
    ProducerSeqRegistry :=
  let producers := r.producers.insert producerId { e with lastTouch := now }
  { r with
    producers := producers
    lru := TouchHeap.push ProducerSeq.lastTouch producers r.lru producerId now }

/-- Decides what to do with a sequenced publish, without recording it. -/
def check (r : ProducerSeqRegistry) (producerId : Bytes) (epoch seq now : Nat) :
    SeqDecision × ProducerSeqRegistry :=
  let r := r.makeRoomFor producerId
  let entry := (r.producers.lookup producerId).getD (.new epoch 0 now)
  if epoch < entry.epoch then (.fenced entry.epoch, r.put producerId entry now)
  else
    let entry := entry.enterEpoch epoch
    (entry.decide seq, r.put producerId entry now)

/-- Records that a sequence was appended at an offset. -/
def record (r : ProducerSeqRegistry) (producerId : Bytes) (epoch seq offset now : Nat) :
    ProducerSeqRegistry :=
  let r := r.makeRoomFor producerId
  let entry := (r.producers.lookup producerId).getD (.new epoch offset now)
  if epoch < entry.epoch then r.put producerId entry now
  else r.put producerId ((entry.enterEpoch epoch).advance seq offset) now

/-- Restores one producer's high-water from a snapshot. -/
def restore (r : ProducerSeqRegistry) (now : Nat) (h : SeqHighWater) : ProducerSeqRegistry :=
  (r.makeRoomFor h.producerId).put h.producerId ⟨h.epoch, some h.lastSeq, h.lastOffset, now⟩ now

/-- The high-waters with an accepted sequence, by producer. -/
def snapshotPairs (r : ProducerSeqRegistry) : List SeqHighWater :=
  (r.producers.entries.filterMap fun e =>
    e.2.lastSeq.map fun s => ⟨e.1, e.2.epoch, s, e.2.lastOffset⟩).insertionSort
      fun a b => a.producerId ≤ b.producerId

end ProducerSeqRegistry

/-! ## The snapshot -/

inductive SeqSnapshotError where
  | truncated
  | badLength (len : Nat)
  | unsupportedVersion (version : UInt8)
  | countMismatch (declared actual : Nat)
  | badCrc
  | notSorted
  deriving DecidableEq

namespace SeqSnapshot

variable [Checksums]

def version : UInt8 := 1

/-- A version, a count and a checksum. -/
def minLen : Nat := 1 + 4 + 4

/-- A length-prefixed producer id (cut at what the prefix can say) and three numbers. -/
def encodeEntry (h : SeqHighWater) : Bytes :=
  let plen := min h.producerId.length 0xFFFF
  Bytes.ofNatLE 2 plen ++ h.producerId.take plen ++ Bytes.ofNatLE 8 h.epoch
    ++ Bytes.ofNatLE 8 h.lastSeq ++ Bytes.ofNatLE 8 h.lastOffset

/-- Everything the checksum covers. -/
def encodeBody (entries : List SeqHighWater) : Bytes :=
  [version] ++ Bytes.ofNatLE 4 (min entries.length 0xFFFFFFFF) ++ entries.flatMap encodeEntry

def encode (entries : List SeqHighWater) : Bytes :=
  encodeBody entries ++ Bytes.ofNatLE 4 (Checksums.crc32c (encodeBody entries)).toNat

/-- The entries from here to the checksum; `len` is the length of the whole snapshot and `prev`
the producer id before. Every entry takes at least one byte, so the body's length is enough
fuel. -/
def decodeEntries (len : Nat) :
    Nat → Bytes → Option Bytes → Except SeqSnapshotError (List SeqHighWater)
  | 0, _, _ => .ok []
  | fuel + 1, body, prev =>
    if body.length = 0 then .ok []
    else if body.length < 2 then .error (.badLength len)
    else
      let plen := body.natAt 0 2
      if body.length < 2 + plen + 24 then .error (.badLength len)
      else
        let pid := body.readAt 2 plen
        if prev.any fun p => pid ≤ p then .error .notSorted
        else do
          let rest ← decodeEntries len fuel (body.drop (2 + plen + 24)) (some pid)
          return ⟨pid, body.natAt (2 + plen) 8, body.natAt (2 + plen + 8) 8,
            body.natAt (2 + plen + 16) 8⟩ :: rest

def decode (input : Bytes) : Except SeqSnapshotError (List SeqHighWater) :=
  let crcAt := input.length - 4
  if input.length < minLen then .error .truncated
  else if input.head? ≠ some version then .error (.unsupportedVersion (input.headD 0))
  else if (Checksums.crc32c (input.take crcAt)).toNat ≠ input.natAt crcAt 4 then .error .badCrc
  else do
    let declared := input.natAt 1 4
    let body := (input.take crcAt).drop 5
    let entries ← decodeEntries input.length body.length body none
    if declared ≠ entries.length then .error (.countMismatch declared entries.length)
    else return entries

/-- The registry a broker starts with: what the snapshot holds, or nothing if it is damaged. -/
def load (config : SeqConfig) (snapshot : Bytes) (now : Nat) : ProducerSeqRegistry :=
  match decode snapshot with
  | .ok entries => entries.foldl (ProducerSeqRegistry.restore · now ·) (.new config)
  | .error _ => .new config

end SeqSnapshot

end IronBus
