import IronBus.ForStd.Reader
import IronBus.Native.MetadataGroup

/-!
# The bytes of the control plane

A committed entry of the metadata log carries one encoded command. A snapshot is the whole state,
every map in the order of its keys; a decoder reads either with a cursor over untrusted bytes.
-/

namespace IronBus

/-- Why the bytes of a command or of a snapshot are refused. -/
inductive MetadataDecodeError where
  | truncated
  | unknownTag (tag : UInt8)
  | unknownRole (role : UInt8)
  | badLength
  | badUtf8
  | trailingBytes
  | leaderNotAReplica
  | emptyReplicaSet
  | unknownSnapshotVersion (version : UInt8)
  deriving DecidableEq

def NodeRole.tag : NodeRole → UInt8
  | .voter => 0
  | .learner => 1

def NodeRole.fromTag : UInt8 → Option NodeRole
  | 0 => some .voter
  | 1 => some .learner
  | _ => none

/-! ## Writing -/

/-- A count saturates at the largest `u32`. -/
def pushU32Len (n : Nat) : Bytes := Bytes.ofNatLE 4 (min n (2 ^ 32 - 1))

def asBytes (s : String) : Bytes := s.toByteArray.data.toList

def pushStr (s : String) : Bytes := pushU32Len (asBytes s).length ++ asBytes s

/-- A count, and the values one after the other. -/
def pushCounted {α : Type} (push : α → Bytes) (l : List α) : Bytes :=
  pushU32Len l.length ++ l.flatMap push

/-- A placed partition, as a command and a snapshot write it. -/
def pushPlacement (e : Nat × Placement) : Bytes :=
  Bytes.ofNatLE 8 e.1 ++ pushCounted (Bytes.ofNatLE 8) e.2.replicas
    ++ Bytes.ofNatLE 8 e.2.leader ++ Bytes.ofNatLE 8 e.2.epoch

def MetadataCommand.encode : MetadataCommand → Bytes
  | .addNode node role => 1 :: (Bytes.ofNatLE 8 node ++ [role.tag])
  | .removeNode node => 2 :: Bytes.ofNatLE 8 node
  | .assignPartition partition leader epoch =>
    3 :: (Bytes.ofNatLE 8 partition ++ Bytes.ofNatLE 8 leader ++ Bytes.ofNatLE 8 epoch)
  | .placePartition partition replicas leader epoch =>
    5 :: pushPlacement (partition, ⟨replicas, leader, epoch⟩)
  | .setConfig key value => 4 :: (pushStr key ++ pushStr value)
  | .checkpointCommittedHw partition offset =>
    6 :: (Bytes.ofNatLE 8 partition ++ Bytes.ofNatLE 8 offset)

/-! ## Reading -/

namespace MetadataCursor

open Reader

def u8 : Reader MetadataDecodeError UInt8 := do return (← take .truncated 1).headD 0

def u32 : Reader MetadataDecodeError Nat := natLE .truncated 4

def u64 : Reader MetadataDecodeError Nat := natLE .truncated 8

def string : Reader MetadataDecodeError String := do
  let len ← u32
  if (← remaining) < len then fail .badLength
  else
    let bytes ← take .truncated len
    ofOption .badUtf8 (String.fromUTF8? ⟨bytes.toArray⟩)

/-- A role; `reported` is the byte an unknown one is reported as. -/
def role (reported : UInt8) : Reader MetadataDecodeError NodeRole := do
  ofOption (.unknownRole reported) (NodeRole.fromTag (← u8))

/-- A count, and that many values of at least `least` bytes each. -/
def counted {α : Type} (least : Nat) (r : Reader MetadataDecodeError α) :
    Reader MetadataDecodeError (List α) := do
  let count ← u32
  if (← remaining) < count * least then fail .badLength else many r count

/-- A placed partition, as a command and a snapshot hold it. -/
def placement : Reader MetadataDecodeError (Nat × Placement) := do
  let partition ← u64
  let replicas ← counted 8 u64
  let leader ← u64
  let epoch ← u64
  if replicas = [] then fail .emptyReplicaSet
  else if leader ∉ replicas then fail .leaderNotAReplica
  else pure (partition, ⟨replicas, leader, epoch⟩)

def pair {α β : Type} (r : Reader MetadataDecodeError α) (r' : Reader MetadataDecodeError β) :
    Reader MetadataDecodeError (α × β) := do
  let a ← r
  return (a, ← r')

end MetadataCursor

open MetadataCursor in
/-- An unknown role is reported as the last byte of the buffer. -/
def MetadataCommand.read (buf : Bytes) : Reader MetadataDecodeError MetadataCommand := do
  match ← u8 with
  | 1 => return .addNode (← u64) (← role (buf.getLastD 0))
  | 2 => return .removeNode (← u64)
  | 3 => return .assignPartition (← u64) (← u64) (← u64)
  | 5 =>
    let (partition, p) ← placement
    return .placePartition partition p.replicas p.leader p.epoch
  | 4 => return .setConfig (← string) (← string)
  | 6 => return .checkpointCommittedHw (← u64) (← u64)
  | tag => Reader.fail (.unknownTag tag)

def MetadataCommand.decode (buf : Bytes) : Except MetadataDecodeError MetadataCommand :=
  (MetadataCommand.read buf).whole .trailingBytes buf

/-! ## The state machine -/

namespace MetadataStateMachine

/-- Decodes and applies the bytes of a committed entry. -/
def applyEncoded (s : MetadataStateMachine) (index : Nat) (data : Bytes) :
    Except MetadataDecodeError MetadataStateMachine := do
  let cmd ← MetadataCommand.decode data
  return s.apply index cmd

/-- The entries of a map at the given keys. -/
def entriesAt {κ α : Type} (keys : List κ) (get : κ → Option α) : List (κ × α) :=
  keys.filterMap fun k => (get k).map (k, ·)

/-- The configuration in the order of its keys. -/
def configEntries (s : MetadataStateMachine) : List (String × String) :=
  entriesAt (s.config.keys.mergeSort (· ≤ ·)) s.config.lookup

def snapshotVersion : UInt8 := 1

def pushMember (e : Nat × NodeRole) : Bytes := Bytes.ofNatLE 8 e.1 ++ [e.2.tag]

def pushHw (e : Nat × Nat) : Bytes := Bytes.ofNatLE 8 e.1 ++ Bytes.ofNatLE 8 e.2

def pushConfig (e : String × String) : Bytes := pushStr e.1 ++ pushStr e.2

/-- What a snapshot lists. -/
structure Parts where
  appliedIndex : Nat
  members : List (Nat × NodeRole)
  placements : List (Nat × Placement)
  committedHw : List (Nat × Nat)
  config : List (String × String)

def Parts.encode (p : Parts) : Bytes :=
  snapshotVersion :: (Bytes.ofNatLE 8 p.appliedIndex ++ pushCounted pushMember p.members
    ++ pushCounted pushPlacement p.placements ++ pushCounted pushHw p.committedHw
    ++ pushCounted pushConfig p.config)

def parts (s : MetadataStateMachine) : Parts where
  appliedIndex := s.appliedIndex
  members := entriesAt s.members.keys s.members.get
  placements := entriesAt s.placements.keys s.placements.get
  committedHw := entriesAt s.committedHw.keys s.committedHw.get
  config := s.configEntries

def snapshot (s : MetadataStateMachine) : Bytes := s.parts.encode

open MetadataCursor in
def Parts.read : Reader MetadataDecodeError Parts := do
  let version ← u8
  if version ≠ snapshotVersion then Reader.fail (.unknownSnapshotVersion version)
  else
    let appliedIndex ← u64
    let members ← counted 9 (pair u64 (role 0))
    let placements ← counted 0 placement
    let committedHw ← counted 16 (pair u64 u64)
    let config ← counted 0 (pair string string)
    return ⟨appliedIndex, members, placements, committedHw, config⟩

/-- Inserts the listed entries one after the other. -/
def Parts.build (p : Parts) : MetadataStateMachine where
  members := p.members.foldl (fun m e => m.insert e.1 e.2) .empty
  placements := p.placements.foldl (fun m e => m.insert e.1 e.2) .empty
  committedHw := p.committedHw.foldl (fun m e => m.insert e.1 e.2) .empty
  config := p.config.foldl (fun m e => m.insert e.1 e.2) ∅
  appliedIndex := p.appliedIndex

def restoreFromSnapshot (buf : Bytes) : Except MetadataDecodeError MetadataStateMachine := do
  return (← Parts.read.whole .trailingBytes buf).build

end MetadataStateMachine

end IronBus
