import IronBus.Native.Checkpoint
import IronBus.Native.SharedWal
import IronBus.Native.Sublist

/-!
# Subject bindings

The registry of which pattern routes to which stream, the trie compiled from it, and the checkpoint
file that holds the registry. A bind stages its entry, writes a snapshot of the whole registry, and
then either installs the new trie or takes the entry back.
-/

namespace IronBus

/-- A string: bytes that are valid UTF-8. -/
structure Text where
  bytes : Bytes
  utf8 : bytes.validUtf8 = true
  deriving DecidableEq

def Text.fromUtf8 (bytes : Bytes) : Option Text :=
  if h : bytes.validUtf8 = true then some ⟨bytes, h⟩ else none

/-- A pattern and the stream it routes to. -/
abbrev Binding := Text × StreamId

def bindingsPayload : Nat := 60 * 1024

def bindingsSnapshotVersion : UInt8 := 1

/-! ## The snapshot -/

/-- A length that does not fit is stored as the largest one. -/
def encodeLenPrefixed (field : Bytes) : Bytes :=
  Bytes.ofNatLE 4 (min field.length (2 ^ 32 - 1)) ++ field

def encodeBinding (b : Binding) : Bytes :=
  encodeLenPrefixed b.1.bytes ++ encodeLenPrefixed b.2.name

def takeLenPrefixed (bytes : Bytes) : Option (Bytes × Bytes) := do
  let (len, rest) ← takeBytes bytes 4
  takeBytes rest len.toNatLE

/-- The stream of a stored name; the empty one is the default stream's. -/
def StreamId.ofName (name : Bytes) : Option StreamId :=
  if name = [] then some defaultStream else named name

/-- Reads one entry. -/
def decodeBinding (bytes : Bytes) : Option (Binding × Bytes) := do
  let (patternBytes, rest) ← takeLenPrefixed bytes
  let (streamBytes, rest) ← takeLenPrefixed rest
  let pattern ← Text.fromUtf8 patternBytes
  let stream ← Text.fromUtf8 streamBytes
  let id ← StreamId.ofName stream.bytes
  return ((pattern, id), rest)

def decodeBindings : Nat → Bytes → Option (List Binding × Bytes)
  | 0, bytes => some ([], bytes)
  | count + 1, bytes => do
    let (b, rest) ← decodeBinding bytes
    let (bs, rest) ← decodeBindings count rest
    return (b :: bs, rest)

def decodeBindingsSnapshot (bytes : Bytes) : Option (List Binding) := do
  let (version, rest) ← takeBytes bytes 1
  if version = [bindingsSnapshotVersion] then
    let (count, rest) ← takeBytes rest 4
    let (entries, rest) ← decodeBindings count.toNatLE rest
    if rest = [] then some entries else none
  else none

/-! ## The table -/

/-- The trie that resolves see, and the generation the next one gets. -/
structure SublistSnapshot where
  current : Sublist StreamId
  nextGeneration : Nat

/-- The trie of no pattern. -/
def emptySublist : Sublist StreamId := ⟨[⟨[], none, (0, 0), (0, 0)⟩], [], 0⟩

def SublistSnapshot.empty : SublistSnapshot := ⟨emptySublist, 1⟩

def SublistSnapshot.store (s : SublistSnapshot) (next : Sublist StreamId) : SublistSnapshot :=
  ⟨{ next with generation := s.nextGeneration }, s.nextGeneration + 1⟩

structure BindingTable where
  entries : List Binding
  snapshot : SublistSnapshot

namespace BindingTable

def new : BindingTable := ⟨[], .empty⟩

/-- The whole registry as the payload of a checkpoint. -/
def snapshotPayload (t : BindingTable) : Bytes :=
  [bindingsSnapshotVersion] ++ Bytes.ofNatLE 4 (min t.entries.length (2 ^ 32 - 1))
    ++ t.entries.flatMap encodeBinding

/-- Takes a staged entry back. -/
def unstage (t : BindingTable) : BindingTable := { t with entries := t.entries.dropLast }

/-- Installs the trie of a staged entry. -/
def commit (t : BindingTable) (trie : Sublist StreamId) : BindingTable :=
  { t with snapshot := t.snapshot.store trie }

variable [Checksums]

def build (t : BindingTable) : Except SublistError (Sublist StreamId) :=
  Sublist.build (t.entries.map fun b => (b.1.bytes, b.2)) 0

/-- The table of a recovered registry. -/
def fromEntries (entries : List Binding) : Except SublistError BindingTable :=
  match (⟨entries, .empty⟩ : BindingTable).build with
  | .error e => .error e
  | .ok trie => .ok ⟨entries, SublistSnapshot.empty.store trie⟩

/-- Registers an entry without making it visible; `none` if it is registered already. -/
def stage (t : BindingTable) (pattern : Text) (stream : StreamId) :
    Except SublistError (Option (Sublist StreamId)) × BindingTable :=
  match Subject.parsePattern pattern.bytes with
  | .error e => (.error (.invalidPattern e), t)
  | .ok _ =>
    if (pattern, stream) ∈ t.entries then (.ok none, t)
    else
      let staged := { t with entries := t.entries ++ [(pattern, stream)] }
      match staged.build with
      | .ok trie => (.ok (some trie), staged)
      | .error e => (.error e, staged.unstage)

end BindingTable

/-! ## Resolving -/

/-- How opening the checkpoint file at the first bind ends. -/
inductive EnsureIo where
  | ok
  /-- The file could not be made or opened. -/
  | failed
  /-- The file was made, but its directory entry could not be synced. -/
  | unsynced

/-- What the storage does in one bind. -/
structure BindIo where
  /-- Declaring the named stream fails. -/
  declareFails : Bool
  ensure : EnsureIo
  write : Checkpoint.WriteIo

inductive BindError where
  | invalidSubject (e : SubjectError)
  | invalidStreamName
  | bindRejected (e : SublistError)
  | bindingTableFull (maxBytes : Nat)
  | storage
  deriving DecidableEq

/-- The bindings of a running engine, its handle on the checkpoint file and the file. -/
structure BindingsEngine where
  bindings : BindingTable
  checkpoint : Option Checkpoint.Handle
  file : Option Bytes

namespace BindingsEngine

/-- The stream a bind names; binding to a named stream declares it. -/
def bindTarget (io : BindIo) (stream : Text) : Except BindError StreamId :=
  if stream.bytes = [] then .ok .defaultStream
  else
    match StreamId.named stream.bytes with
    | none => .error .invalidStreamName
    | some id => if io.declareFails then .error .storage else .ok id

variable [Checksums]

/-- Opens the checkpoint file, making it at the first bind. -/
def ensureBindingsCheckpoint (e : BindingsEngine) (io : EnsureIo) :
    Except BindError Checkpoint.Handle × BindingsEngine :=
  match e.checkpoint with
  | some h => (.ok h, e)
  | none =>
    match io with
    | .failed => (.error .storage, e)
    | .unsynced => (.error .storage, { e with file := some (e.file.getD []) })
    | .ok =>
      let file := e.file.getD []
      match Checkpoint.open bindingsPayload file with
      | .error _ => (.error .storage, { e with file := some file })
      | .ok (h, _) => (.ok h, { e with checkpoint := some h, file := some file })

/-- Writes the snapshot of the staged table. -/
def persist (e : BindingsEngine) (io : BindIo) (payload : Bytes) :
    Except BindError Unit × BindingsEngine :=
  match e.ensureBindingsCheckpoint io.ensure with
  | (.error err, e) => (.error err, e)
  | (.ok h, e) =>
    match Checkpoint.write bindingsPayload h (e.file.getD []) payload io.write with
    | (.error _, h, file) => (.error .storage, { e with checkpoint := some h, file := some file })
    | (.ok (), h, file) => (.ok (), { e with checkpoint := some h, file := some file })

/-- Binds a pattern to a stream; the generation of the trie that routes it. -/
def bindSubject (e : BindingsEngine) (io : BindIo) (stream pattern : Text) :
    Except BindError Nat × BindingsEngine :=
  match Subject.parsePattern pattern.bytes with
  | .error err => (.error (.invalidSubject err), e)
  | .ok _ =>
    match bindTarget io stream with
    | .error err => (.error err, e)
    | .ok id =>
      match e.bindings.stage pattern id with
      | (.error err, table) => (.error (.bindRejected err), { e with bindings := table })
      | (.ok none, table) =>
        (.ok e.bindings.snapshot.current.generation, { e with bindings := table })
      | (.ok (some trie), table) =>
        let payload := table.snapshotPayload
        if payload.length > bindingsPayload then
          (.error (.bindingTableFull bindingsPayload), { e with bindings := table.unstage })
        else
          match { e with bindings := table }.persist io payload with
          | (.error err, e) => (.error err, { e with bindings := table.unstage })
          | (.ok (), e) =>
            let committed := table.commit trie
            (.ok committed.snapshot.current.generation, { e with bindings := committed })

/-- Opens the engine over the checkpoint file; a snapshot it cannot rebuild refuses the opening. -/
def «open» (file : Option Bytes) : Except StorageError BindingsEngine :=
  match file with
  | none => .ok ⟨.new, none, none⟩
  | some bytes =>
    match Checkpoint.open bindingsPayload bytes with
    | .error err => .error err
    | .ok (h, .valid payload) =>
      match decodeBindingsSnapshot payload with
      | none => .error (.io .other)
      | some entries =>
        match BindingTable.fromEntries entries with
        | .error _ => .error (.io .other)
        | .ok table => .ok ⟨table, some h, file⟩
    | .ok (h, _) => .ok ⟨.new, some h, file⟩

end BindingsEngine

end IronBus
