import IronBus.ForStd.Assoc
import IronBus.ForStd.RecordLog
import IronBus.Native.Content

/-!
# Mirroring the streams of other clusters

A mirror pulls the frames of one origin into a local log, a source those of several. Every frame is
decoded before it is appended; the batch is synced, and then the origin's cursor is written to a
checkpoint. A pull starts at the cursor, so after a crash between the two it returns records that
the log already has. With one origin the length of the log tells which; with several, a marker
record at the end of every batch and of every segment holds how far each origin has come.

The local log is seen as the contents of its records and how many of them are durable. Each record
also carries the origin it was pulled from, which no function here reads.
-/

namespace IronBus

/-- The identity of an origin: its address and stream, as UTF-8 bytes. -/
abbrev OriginKey := Bytes

/-! ## Cursors -/

/-- How far each origin has come. -/
abbrev CursorMap := Assoc OriginKey Nat

/-- The position of an origin; one that was never pulled is at zero. -/
def CursorMap.at (m : CursorMap) (key : OriginKey) : Nat := (m.lookup key).getD 0

/-- The largest payload of a cursor checkpoint. -/
def geoCursorPayload : Nat := 4096

/-- A length-prefixed key (cut at what the prefix can say) and an offset. -/
def encodeCursorEntry (e : OriginKey × Nat) : Bytes :=
  let kl := min e.1.length 0xFFFF
  Bytes.ofNatLE 2 kl ++ e.1.take kl ++ Bytes.ofNatLE 8 e.2

/-- The entries in the order of their keys. -/
def CursorMap.pairs (m : CursorMap) : List (OriginKey × Nat) :=
  (m.entries.map fun e => (e.1, e.2)).insertionSort fun a b => a.1 ≤ b.1

def encodeCursorPayload (m : CursorMap) : Bytes :=
  Bytes.ofNatLE 4 (min m.size 0xFFFFFFFF) ++ m.pairs.flatMap encodeCursorEntry

/-- Reads a number of entries from the front of a payload; what is left of it. -/
def decodeCursorEntries : Nat → Bytes → CursorMap → Option (CursorMap × Bytes)
  | 0, rest, m => some (m, rest)
  | n + 1, bytes, m =>
    if bytes.length < 2 then none
    else
      let kl := bytes.natAt 0 2
      if bytes.length < 2 + kl + 8 then none
      else
        let key := bytes.readAt 2 kl
        if key.validUtf8 = false then none
        else
          decodeCursorEntries n (bytes.drop (2 + kl + 8)) (m.insert key (bytes.natAt (2 + kl) 8))

def decodeCursorPayload (bytes : Bytes) : Option CursorMap :=
  if bytes.length < 4 then none
  else
    match decodeCursorEntries (bytes.natAt 0 4) (bytes.drop 4) ∅ with
    | some (m, []) => some m
    | _ => none

/-- The cursors in memory, and the payloads a restart can find: that of the last write that
succeeded, or one that was issued since. -/
structure OriginCursorStore where
  cursors : CursorMap
  written : Option Bytes
  issued : List Bytes

namespace OriginCursorStore

def new : OriginCursorStore := ⟨∅, none, []⟩

/-- Moves a cursor forward and writes all of them; whether that succeeded. -/
def commit (s : OriginCursorStore) (writeFails : Bool) (key : OriginKey) (applied : Nat) :
    Bool × OriginCursorStore :=
  if applied ≤ s.cursors.at key then (true, s)
  else
    let cursors := s.cursors.insert key applied
    let payload := encodeCursorPayload cursors
    if geoCursorPayload < payload.length then
      (false, { s with cursors := s.cursors.insert key (s.cursors.at key) })
    else if writeFails then
      (false, { s with cursors := cursors, issued := payload :: s.issued })
    else (true, ⟨cursors, some payload, []⟩)

/-- Opens the store on a payload: it is refused if the payload does not decode. -/
def reopen (payload : Option Bytes) : Option OriginCursorStore :=
  match payload with
  | none => some ⟨∅, none, []⟩
  | some bytes => (decodeCursorPayload bytes).map fun m => ⟨m, some bytes, []⟩

end OriginCursorStore

/-! ## The applier -/

inductive GeoError where
  | nonContiguous (expected got : Nat)
  | corruptFrame (atOriginOffset : Nat) (reason : DecodeError)
  | recordCountMismatch (claimed actual : Nat)
  | storage
  | cursor
  deriving DecidableEq

structure MirrorPullResponse where
  originHighWatermark : Nat
  firstOffset : Nat
  recordCount : Nat
  frameBytes : Bytes

structure GeoApplyOutcome where
  applied : Nat
  cursor : Nat
  originHighWatermark : Nat
  deriving DecidableEq

/-- A record of the local log. -/
structure GeoRecord where
  content : Content
  /-- The origin it was pulled from; a marker has none. -/
  origin : Option OriginKey

structure MirrorApplier where
  log : RecordLog GeoRecord
  cursors : OriginCursorStore
  singleOrigin : Bool
  originHwm : Option CursorMap

/-- What the storage does with one record of a pull. -/
structure GeoRecordIo where
  /-- The current segment is full. -/
  atCap : Bool
  marker : AppendIo
  sealing : AppendIo
  append : AppendIo

def GeoRecordIo.ok : GeoRecordIo := ⟨false, .ok, .ok, .ok⟩

/-- What the storage does with one pull, and the clock. -/
structure GeoIo where
  tailReadFails : Bool
  records : List GeoRecordIo
  marker : AppendIo
  syncFails : Bool
  cursorFails : Bool
  nowUnixMillis : Nat

def GeoIo.ok : GeoIo := ⟨false, [], .ok, false, false, 0⟩

/-- `\0ironbus.geo.hwm` -/
def geoHwmMarkerKey : Bytes :=
  [0, 105, 114, 111, 110, 98, 117, 115, 46, 103, 101, 111, 46, 104, 119, 109]

/-- `\0IBGEOHWM\0` -/
def geoHwmMarkerMagic : Bytes := [0, 73, 66, 71, 69, 79, 72, 87, 77, 0]

def isHwmMarker (c : Content) : Bool :=
  c.key == geoHwmMarkerKey && geoHwmMarkerMagic.isPrefixOf c.payload

/-- The marker that holds how far each origin has come. -/
def hwmMarker (m : CursorMap) (now : Nat) : GeoRecord where
  content := RecordView.appended
    ⟨0, now, 0, geoHwmMarkerKey, [], geoHwmMarkerMagic ++ encodeCursorPayload m⟩
  origin := none

namespace MirrorApplier

def new (log : RecordLog GeoRecord) (cursors : OriginCursorStore) (singleOrigin : Bool) :
    MirrorApplier := ⟨log, cursors, singleOrigin, none⟩

/-- What the marker at the end of the log says; nothing if there is none. -/
def readDurableHwm (log : RecordLog GeoRecord) : CursorMap :=
  match log.records.getLast? with
  | none => ∅
  | some r =>
    if isHwmMarker r.content then
      (decodeCursorPayload (r.content.payload.drop geoHwmMarkerMagic.length)).getD ∅
    else ∅

/-- Reads the marker at the end of the log, once; whether that succeeded. -/
def ensureOriginHwm (a : MirrorApplier) (tailReadFails : Bool) : Bool × MirrorApplier :=
  if a.singleOrigin || a.originHwm.isSome then (true, a)
  else if tailReadFails && a.log.nextOffset != 0 then (false, a)
  else (true, { a with originHwm := some (readDurableHwm a.log) })

/-- Appends without starting a new segment. -/
def appendWithoutRoll (a : MirrorApplier) (io : AppendIo) (r : GeoRecord) : Bool × MirrorApplier :=
  let res := a.log.append { io with rolls := false } r
  (res.1, { a with log := res.2 })

/-- Moves an origin's position forward and appends a marker with all of them. -/
def writeHwmMarker (a : MirrorApplier) (io : AppendIo) (now : Nat) (key : OriginKey) (hwm : Nat) :
    Bool × MirrorApplier :=
  let m := a.originHwm.getD ∅
  let m := m.insert key (max (CursorMap.at m key) hwm)
  ({ a with originHwm := some m }).appendWithoutRoll io (hwmMarker m now)

/-- Appends a record of an origin. With several origins a full segment is closed with a marker
first. -/
def appendOriginRecord (a : MirrorApplier) (io : GeoRecordIo) (now : Nat) (key : OriginKey)
    (record : Content) (hwmBefore : Nat) : Bool × MirrorApplier :=
  let r : GeoRecord := ⟨record, some key⟩
  if a.singleOrigin then
    let res := a.log.append io.append r
    (res.1, { a with log := res.2 })
  else if a.log.frozen then (false, a)
  else if io.atCap then
    match a.writeHwmMarker io.marker now key hwmBefore with
    | (false, a) => (false, a)
    | (true, a) =>
      match a.log.sealActive io.sealing with
      | (false, log) => (false, { a with log := log })
      | (true, log) => ({ a with log := log }).appendWithoutRoll io.append r
  else a.appendWithoutRoll io.append r

/-- Syncs a batch; with several origins a marker goes first if the batch appended anything. -/
def syncWithHwmMarker (a : MirrorApplier) (io : GeoIo) (key : OriginKey) (hwm : Nat)
    (appended : Bool) : Bool × MirrorApplier :=
  match (if appended && !a.singleOrigin then a.writeHwmMarker io.marker io.nowUnixMillis key hwm
      else (true, a)) with
  | (false, a) => (false, a)
  | (true, a) =>
    let res := a.log.sync io.syncFails
    (res.1, { a with log := res.2 })

def commitCursor (a : MirrorApplier) (io : GeoIo) (key : OriginKey) (applied : Nat) :
    Bool × MirrorApplier :=
  let res := a.cursors.commit io.cursorFails key applied
  (res.1, { a with cursors := res.2 })

/-- The offset below which the local log has everything of an origin. -/
def durableAnchor (a : MirrorApplier) (key : OriginKey) (cursor : Nat) : Nat :=
  if a.singleOrigin then max a.log.nextOffset cursor
  else max cursor (CursorMap.at (a.originHwm.getD ∅) key)

/-- Walks the frames of a pull from an origin offset on, skipping those the log has; whether every
append succeeded, and how many frames were appended. -/
def applyRun (now : Nat) (key : OriginKey) (anchor : Nat) :
    List GeoRecordIo → Nat → Nat → List DecodedFrame → MirrorApplier → Bool × Nat × MirrorApplier
  | _, _, applied, [], a => (true, applied, a)
  | ios, offset, applied, f :: fs, a =>
    if offset < anchor then applyRun now key anchor ios (offset + 1) applied fs a
    else
      match a.appendOriginRecord (ios.head?.getD .ok) now key f.view.appended offset with
      | (false, a) => (false, applied, a)
      | (true, a) => applyRun now key anchor ios.tail (offset + 1) (applied + 1) fs a

/-- The end of a pull whose frames were all walked: sync, then the cursor, then the answer. -/
def finishPull (a : MirrorApplier) (io : GeoIo) (key : OriginKey) (cursor seen applied : Nat)
    (corrupt : Option DecodeError) (resp : MirrorPullResponse) :
    Except GeoError GeoApplyOutcome × MirrorApplier :=
  match a.syncWithHwmMarker io key (cursor + seen) (decide (0 < applied)) with
  | (false, a) => (.error .storage, a)
  | (true, a) =>
    match corrupt with
    | some reason =>
      if 0 < seen then
        match a.commitCursor io key (cursor + seen) with
        | (false, a) => (.error .cursor, a)
        | (true, a) => (.error (.corruptFrame (cursor + seen) reason), a)
      else (.error (.corruptFrame (cursor + seen) reason), a)
    | none =>
      match a.commitCursor io key (cursor + seen) with
      | (false, a) => (.error .cursor, a)
      | (true, a) =>
        if min seen 0xFFFFFFFF ≠ resp.recordCount then
          (.error (.recordCountMismatch resp.recordCount (min seen 0xFFFFFFFF)), a)
        else (.ok ⟨applied, cursor + seen, resp.originHighWatermark⟩, a)

variable [Checksums]

/-- Applies what an origin answered to a pull. -/
def applyPullResponse (a : MirrorApplier) (io : GeoIo) (key : OriginKey)
    (resp : MirrorPullResponse) : Except GeoError GeoApplyOutcome × MirrorApplier :=
  let cursor := CursorMap.at a.cursors.cursors key
  if resp.recordCount = 0 ∧ resp.frameBytes = [] then
    (.ok ⟨0, cursor, resp.originHighWatermark⟩, a)
  else if resp.firstOffset ≠ cursor then (.error (.nonContiguous cursor resp.firstOffset), a)
  else
    match a.ensureOriginHwm io.tailReadFails with
    | (false, a) => (.error .storage, a)
    | (true, a) =>
      let (run, corrupt) := decodeRun resp.frameBytes
      let anchor := a.durableAnchor key cursor
      match applyRun io.nowUnixMillis key anchor io.records cursor 0 run a with
      | (false, _, a) => (.error .storage, a)
      | (true, applied, a) => a.finishPull io key cursor run.length applied corrupt resp

end MirrorApplier

end IronBus
