import IronBus.ForStd.BinarySearch
import IronBus.Native.Checksum
import IronBus.Native.Error

/-!
# The acknowledgement cursor

A work group shares one committed offset while its members acknowledge out of order. The cursor
keeps the watermark below which every offset is acknowledged, and the offsets acknowledged ahead
of it as sorted, disjoint, non-adjacent ranges.
-/

namespace IronBus

structure AckCursor where
  committed : Nat
  /-- The ranges `[start, stop)` acknowledged ahead of the watermark. -/
  ahead : List (Nat × Nat)
  deriving DecidableEq

/-- The outcome of a bounded acknowledgement. -/
inductive BoundedAck where
  | recorded
  | duplicate
  | shed
  deriving DecidableEq

/-- Why a snapshot of the ahead set is refused. -/
inductive AckCursorError where
  | emptyRange (start stop : Nat)
  | notSortedDisjointAndAboveCommitted (start prevEnd : Nat)
  deriving DecidableEq

namespace AckCursor

/-! ## Starting -/

def new : AckCursor := ⟨0, []⟩

def resume (committed : Nat) : AckCursor := ⟨committed, []⟩

/-- The first range that is empty, or not strictly above the end of the one before it. -/
def checkAhead : Nat → List (Nat × Nat) → Except AckCursorError Unit
  | _, [] => .ok ()
  | prevEnd, (start, stop) :: rest =>
    if stop ≤ start then .error (.emptyRange start stop)
    else if start ≤ prevEnd then .error (.notSortedDisjointAndAboveCommitted start prevEnd)
    else checkAhead stop rest

def resumeWithAhead (committed : Nat) (ahead : List (Nat × Nat)) :
    Except AckCursorError AckCursor :=
  match checkAhead committed ahead with
  | .error e => .error e
  | .ok () => .ok ⟨committed, ahead⟩

/-! ## Queries -/

/-- Where a range lies relative to an offset. -/
def compareRange (offset : Nat) (r : Nat × Nat) : Ordering :=
  if r.2 ≤ offset then .lt else if offset < r.1 then .gt else .eq

def containsAhead (c : AckCursor) (offset : Nat) : Bool :=
  (c.ahead.binarySearchBy (compareRange offset)).isOk

def isAcked (c : AckCursor) (offset : Nat) : Bool :=
  decide (offset < c.committed) || c.containsAhead offset

/-! ## Acknowledging -/

/-- The index of the first range that starts above the offset. -/
def slot (c : AckCursor) (offset : Nat) : Nat := c.ahead.partitionPoint fun r => r.1 ≤ offset

/-- The range before the slot ends at the offset. -/
def mergesLeft (c : AckCursor) (offset : Nat) : Bool :=
  0 < c.slot offset && (c.ahead[c.slot offset - 1]?).any fun r => r.2 == offset

/-- The range at the slot starts right behind the offset. -/
def mergesRight (c : AckCursor) (offset next : Nat) : Bool :=
  (c.ahead[c.slot offset]?).any fun r => r.1 == next

/-- Adds `[offset, next)` to the ahead set, merging it with its neighbours. -/
def insert (c : AckCursor) (offset next : Nat) : AckCursor :=
  let i := c.slot offset
  match c.mergesLeft offset, c.mergesRight offset next with
  | true, true =>
    let stop := (c.ahead[i]?).elim next Prod.snd
    { c with ahead := (c.ahead.modify (i - 1) fun r => (r.1, stop)).eraseIdx i }
  | true, false => { c with ahead := c.ahead.modify (i - 1) fun r => (r.1, next) }
  | false, true => { c with ahead := c.ahead.modify i fun r => (offset, r.2) }
  | false, false => { c with ahead := c.ahead.insertIdx i (offset, next) }

/-- Moves the watermark over the lowest range if that range starts at it. -/
def advance (c : AckCursor) : AckCursor :=
  match c.ahead with
  | [] => c
  | (start, stop) :: rest => if start = c.committed then ⟨stop, rest⟩ else c

/-- Records an acknowledgement, unless it would start a new range past the cap. The last offset
of the range is exhausted and never recorded. -/
def ackBounded (c : AckCursor) (offset maxRuns : Nat) : BoundedAck × AckCursor :=
  if c.isAcked offset then (.duplicate, c)
  else
    match checkedAdd offset 1 with
    | none => (.duplicate, c)
    | some next =>
      if maxRuns ≤ c.ahead.length ∧ offset ≠ c.committed
          ∧ c.mergesLeft offset = false ∧ c.mergesRight offset next = false then
        (.shed, c)
      else (.recorded, (c.insert offset next).advance)

/-- The largest value of a `usize`. -/
def usizeMax : Nat := u64Max

/-- Records an acknowledgement without a cap; whether it was new. -/
def ack (c : AckCursor) (offset : Nat) : Bool × AckCursor :=
  ((c.ackBounded offset usizeMax).1 == .recorded, (c.ackBounded offset usizeMax).2)

/-- Drops the ranges below `upTo` and clips the one it falls into. -/
def clip (upTo : Nat) (ahead : List (Nat × Nat)) : List (Nat × Nat) :=
  ahead.filterMap fun r => if r.2 ≤ upTo then none else some (max r.1 upTo, r.2)

/-- Moves the watermark over every leading range that starts at it. -/
def advanceAll : Nat → List (Nat × Nat) → AckCursor
  | committed, [] => ⟨committed, []⟩
  | committed, (start, stop) :: rest =>
    if start = committed then advanceAll stop rest else ⟨committed, (start, stop) :: rest⟩

/-- Commits every offset below `upTo`; whether the watermark moved. -/
def commitUpTo (c : AckCursor) (upTo : Nat) : Bool × AckCursor :=
  if upTo ≤ c.committed then (false, c) else (true, advanceAll upTo (clip upTo c.ahead))

/-! ## The snapshot -/

/-- Why a snapshot is refused. -/
inductive SnapshotError where
  | truncated
  | badLength (len : Nat)
  | unsupportedVersion (version : UInt8)
  | badCrc
  | ranges (e : AckCursorError)
  deriving DecidableEq

def snapshotVersion : UInt8 := 1

/-- A version, the watermark and a checksum. -/
def snapshotMinLen : Nat := 1 + 8 + 4

def encodeRange (r : Nat × Nat) : Bytes := Bytes.ofNatLE 8 r.1 ++ Bytes.ofNatLE 8 r.2

/-- Everything the checksum covers. -/
def encodeBody (c : AckCursor) : Bytes :=
  [snapshotVersion] ++ Bytes.ofNatLE 8 c.committed ++ c.ahead.flatMap encodeRange

def encodeSnapshot [Checksums] (c : AckCursor) : Bytes :=
  c.encodeBody ++ Bytes.ofNatLE 4 (Checksums.crc32c c.encodeBody).toNat

/-- The first `n` ranges of the bytes. -/
def decodeRanges : Nat → Bytes → List (Nat × Nat)
  | 0, _ => []
  | n + 1, input => (input.natAt 0 8, input.natAt 8 8) :: decodeRanges n (input.drop 16)

def decodeSnapshot [Checksums] (input : Bytes) : Except SnapshotError AckCursor :=
  let runsLen := input.length - snapshotMinLen
  let crcAt := input.length - 4
  if input.length < snapshotMinLen then .error .truncated
  else if runsLen % 16 ≠ 0 then .error (.badLength input.length)
  else if input.head? ≠ some snapshotVersion then .error (.unsupportedVersion (input.headD 0))
  else if (Checksums.crc32c (input.take crcAt)).toNat ≠ input.natAt crcAt 4 then .error .badCrc
  else
    match resumeWithAhead (input.natAt 1 8) (decodeRanges (runsLen / 16) (input.drop 9)) with
    | .error e => .error (.ranges e)
    | .ok c => .ok c

end AckCursor

end IronBus
