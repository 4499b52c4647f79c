import IronBus.ForStd.Bytes
import IronBus.ForStd.TouchHeap
import IronBus.Native.Error

/-!
# The deduplication window

Per producer, a queue of recently recorded message ids and an index from id to offset, bounded by
a count and by a time window. A producer's newer epoch resets its window and fences the older
ones. The number of tracked producers is bounded too: the least recently touched one is dropped,
found through a heap of touches whose stale entries are skipped.
-/

namespace IronBus

structure DedupConfig where
  maxIds : Nat
  /-- Zero turns the time bound off. -/
  windowNanos : Nat
  maxProducers : Nat

inductive DedupDecision where
  | fresh (outOfWindow : Bool)
  | duplicate (offset : Nat)
  | fenced (currentEpoch : Nat)
  deriving DecidableEq

structure ProducerWindow where
  epoch : Nat
  /-- (id, instant), oldest first. -/
  order : List (Bytes × Nat)
  /-- id to (offset, instant). -/
  index : Assoc Bytes (Nat × Nat)
  lastTouch : Nat

namespace ProducerWindow

def new (epoch now : Nat) : ProducerWindow := ⟨epoch, [], ∅, now⟩

def isEmpty (w : ProducerWindow) : Bool := w.index.entries.isEmpty

/-- Removes an id from the index if it still stands for the given instant. -/
def dropFromIndex (index : Assoc Bytes (Nat × Nat)) (msgId : Bytes) (inserted : Nat) :
    Assoc Bytes (Nat × Nat) :=
  if (index.lookup msgId).any fun e => e.2 == inserted then index.erase msgId else index

/-- Pops the expired entries at the front of the queue. -/
def popExpired (windowNanos now : Nat) :
    List (Bytes × Nat) → Assoc Bytes (Nat × Nat) → List (Bytes × Nat) × Assoc Bytes (Nat × Nat)
  | [], index => ([], index)
  | (msgId, inserted) :: rest, index =>
    if now - inserted < windowNanos then ((msgId, inserted) :: rest, index)
    else popExpired windowNanos now rest (dropFromIndex index msgId inserted)

/-- Drops the entries older than the time bound; whether there were any. -/
def evictExpired (w : ProducerWindow) (windowNanos now : Nat) : Bool × ProducerWindow :=
  if windowNanos = 0 then (false, w)
  else
    let popped := popExpired windowNanos now w.order w.index
    (popped.1.length < w.order.length, { w with order := popped.1, index := popped.2 })

/-- Pops `n` entries from the front of the queue. -/
def popFront : Nat → List (Bytes × Nat) → Assoc Bytes (Nat × Nat) →
    List (Bytes × Nat) × Assoc Bytes (Nat × Nat)
  | 0, order, index => (order, index)
  | _ + 1, [], index => ([], index)
  | n + 1, (msgId, inserted) :: rest, index =>
    popFront n rest (dropFromIndex index msgId inserted)

/-- Drops the oldest entries until the count bound holds. -/
def evictOverflow (w : ProducerWindow) (maxIds : Nat) : ProducerWindow :=
  let popped := popFront (w.order.length - maxIds) w.order w.index
  { w with order := popped.1, index := popped.2 }

end ProducerWindow

structure DedupRegistry where
  config : DedupConfig
  producers : Assoc Bytes ProducerWindow
  /-- The heap of touches (instant, producer), least first. -/
  lru : List (Nat × Bytes)

namespace DedupRegistry

def new (config : DedupConfig) : DedupRegistry where
  config := ⟨max config.maxIds 1, config.windowNanos, max config.maxProducers 1⟩
  producers := ∅
  lru := []

/-- Drops the producers whose window has aged empty. -/
def reapEmptyWindows (r : DedupRegistry) (now : Nat) : DedupRegistry :=
  if r.config.windowNanos = 0 then r
  else { r with
    producers := r.producers.retain fun w =>
      let w := (w.evictExpired r.config.windowNanos now).2
      if w.isEmpty then none else some w }

/-- Makes room for one more producer. -/
def makeRoomFor (r : DedupRegistry) (producerId : Bytes) (now : Nat) : DedupRegistry :=
  if (r.producers.lookup producerId).isSome then r
  else if r.producers.size < r.config.maxProducers then r
  else
    let r := r.reapEmptyWindows now
    let evicted := TouchHeap.evict ProducerWindow.lastTouch r.config.maxProducers r.lru r.producers
    { r with producers := evicted.1, lru := evicted.2 }

/-- Records a touch on the heap. -/
def touchLru (r : DedupRegistry) (producerId : Bytes) (now : Nat) : DedupRegistry :=
  { r with lru := TouchHeap.push ProducerWindow.lastTouch r.producers r.lru producerId now }

/-- The window of a producer, touched now; a new one starts at `epoch`. -/
def touched (r : DedupRegistry) (producerId : Bytes) (epoch now : Nat) : ProducerWindow :=
  { (r.producers.lookup producerId).getD (.new epoch now) with lastTouch := now }

/-- Makes sure a producer is tracked, and touches it. -/
def touch (r : DedupRegistry) (producerId : Bytes) (epoch now : Nat) : DedupRegistry :=
  let r := r.makeRoomFor producerId now
  touchLru { r with
    producers := r.producers.insert producerId (r.touched producerId epoch now) } producerId now

/-- Puts a producer's window back. -/
def setWindow (r : DedupRegistry) (producerId : Bytes) (w : ProducerWindow) : DedupRegistry :=
  { r with producers := r.producers.insert producerId w }

/-- A newer epoch starts an empty window. -/
def enterEpoch (w : ProducerWindow) (epoch : Nat) : ProducerWindow :=
  if w.epoch < epoch then { w with epoch := epoch, order := [], index := ∅ } else w

/-- Decides what to do with a publish, without recording it. -/
def check (r : DedupRegistry) (producerId : Bytes) (epoch : Nat) (msgId : Bytes) (now : Nat) :
    DedupDecision × DedupRegistry :=
  let r := r.touch producerId epoch now
  let window := (r.producers.lookup producerId).getD (.new epoch now)
  if epoch < window.epoch then (.fenced window.epoch, r)
  else
    let expired := (enterEpoch window epoch).evictExpired r.config.windowNanos now
    let window := expired.2.evictOverflow r.config.maxIds
    let r := r.setWindow producerId window
    match window.index.lookup msgId with
    | some (offset, _) => (.duplicate offset, r)
    | none => (.fresh expired.1, r)

/-- Records that a message was appended at an offset. -/
def record (r : DedupRegistry) (producerId msgId : Bytes) (offset now : Nat) : DedupRegistry :=
  let r := r.touch producerId 0 now
  let window := (r.producers.lookup producerId).getD (.new 0 now)
  let window := { window with
    index := window.index.insert msgId (offset, now)
    order := window.order ++ [(msgId, now)] }
  r.setWindow producerId
    ((window.evictExpired r.config.windowNanos now).2.evictOverflow r.config.maxIds)

end DedupRegistry

end IronBus
