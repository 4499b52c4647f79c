import IronBus.Native.Checksum
import IronBus.Native.Error

/-!
# The record frame codec

A frame is a fixed 36-byte header, an optional stream-tag or subject field, the body (key, then
headers, then payload), an optional xxh3-64 of a large body, and an 8-byte trailer (body CRC and
total length), all little-endian. `encode` lays a record out, `decodeInner` reads one frame from
the front of its input, and `decodedLen` sizes a frame from its header alone.
-/

namespace IronBus

/-! ## Flags -/

namespace RecordFlags

def compressed : UInt8 := 0b00000001
def hasKey : UInt8 := 0b00000010
def hasXxh3 : UInt8 := 0b00000100
def hasSubject : UInt8 := 0b00001000
def hasStreamTag : UInt8 := 0b00010000
def encrypted : UInt8 := 0b00100000

/-- Whether every bit of `other` is set in `flags`. -/
def contains (flags other : UInt8) : Bool := flags &&& other == other

/-- The flags with the bits of `bit` set or cleared: how the encoder derives a bit. -/
def derive (flags bit : UInt8) (on : Bool) : UInt8 :=
  if on then flags ||| bit else flags &&& ~~~bit

end RecordFlags

/-! ## Records -/

/-- A record as the codec sees it: the input of `encode` and the output of `decode`. -/
structure RecordView where
  seq : Nat
  timestampMs : Nat
  flags : UInt8
  key : Bytes
  headers : Bytes
  payload : Bytes
  deriving DecidableEq

/-- A decoded frame: the record, the stored subject and stream tag, and the frame's length. -/
structure DecodedFrame where
  view : RecordView
  subject : Bytes
  streamTag : Bytes
  total : Nat
  deriving DecidableEq

namespace Codec

open RecordFlags

def recordMagic : Nat := 0x4942
def formatVersion : Nat := 1
def recordHeaderLen : Nat := 36
def recordTrailerLen : Nat := 8
def recordXxh3Len : Nat := 8
def aeadTagLen : Nat := 16
def xxh3PayloadThreshold : Nat := 64 * 1024
def maxRecordBytesCeiling : Nat := 1024 * 1024 * 1024

/-- The on-disk length of the optional length-prefixed field that stores `len` bytes. -/
def fieldLen (present : Bool) (len : Nat) : Nat := if present then 2 + len + 4 else 0

/-- The length of the optional xxh3-64 field. -/
def xxh3FieldLen (present : Bool) : Nat := if present then recordXxh3Len else 0

variable [Checksums]

/-! ## Encoding -/

/-- The optional stream-tag or subject field: length, bytes, and a CRC over both. -/
def encodeField (s : Bytes) : Bytes :=
  if s = [] then []
  else
    let covered := Bytes.ofNatLE 2 s.length ++ s
    covered ++ Bytes.ofNatLE 4 (Checksums.crc32c covered).toNat

/-- The 36-byte header. -/
def encodeHeader (flags : UInt8) (seq timestampMs keyLen hdrLen payloadLen : Nat) : Bytes :=
  let covered := Bytes.ofNatLE 2 recordMagic ++ [UInt8.ofNat formatVersion] ++ [flags]
    ++ Bytes.ofNatLE 8 seq ++ Bytes.ofNatLE 8 timestampMs ++ Bytes.ofNatLE 4 keyLen
    ++ Bytes.ofNatLE 4 hdrLen ++ Bytes.ofNatLE 4 payloadLen
  covered ++ Bytes.ofNatLE 4 (Checksums.crc32c covered).toNat

/-- The flags as stored: the presence bits are derived from the record, never taken from the
caller. -/
def storedFlags (rec : RecordView) (subject streamTag : Bytes) : UInt8 :=
  let bodyLen := rec.key.length + rec.headers.length + rec.payload.length
  let flags := derive rec.flags hasKey (rec.key ≠ [])
  let flags := derive flags hasXxh3 (xxh3PayloadThreshold ≤ bodyLen)
  let flags := derive flags hasSubject (subject ≠ [])
  derive flags hasStreamTag (streamTag ≠ [])

/-- The length of the frame of a record. -/
def encodedLen (rec : RecordView) (subject streamTag : Bytes) : Nat :=
  let bodyLen := rec.key.length + rec.headers.length + rec.payload.length
  recordHeaderLen + fieldLen (streamTag ≠ []) streamTag.length
    + fieldLen (subject ≠ []) subject.length + bodyLen
    + xxh3FieldLen (xxh3PayloadThreshold ≤ bodyLen) + recordTrailerLen

/-- The bytes of a record's frame. -/
def frameBytes (rec : RecordView) (subject streamTag : Bytes) : Bytes :=
  let body := rec.key ++ rec.headers ++ rec.payload
  encodeHeader (storedFlags rec subject streamTag) rec.seq rec.timestampMs rec.key.length
      rec.headers.length rec.payload.length
    ++ encodeField streamTag ++ encodeField subject ++ body
    ++ (if xxh3PayloadThreshold ≤ body.length then
          Bytes.ofNatLE 8 (Checksums.xxh3 body).toNat else [])
    ++ Bytes.ofNatLE 4 (Checksums.crc32c body).toNat
    ++ Bytes.ofNatLE 4 (encodedLen rec subject streamTag)

/-- Encodes a record, refusing one whose lengths or whose frame exceed the format's limits. -/
def encode (rec : RecordView) (subject streamTag : Bytes) : Except EncodeError Bytes :=
  if 2 ^ 32 ≤ rec.key.length then .error .tooLarge
  else if 2 ^ 32 ≤ rec.headers.length then .error .tooLarge
  else if 2 ^ 32 ≤ rec.payload.length then .error .tooLarge
  else if 2 ^ 16 ≤ streamTag.length then .error .tooLarge
  else if 2 ^ 16 ≤ subject.length then .error .tooLarge
  else if maxRecordBytesCeiling < encodedLen rec subject streamTag then .error .tooLarge
  else .ok (frameBytes rec subject streamTag)

/-! ## Decoding -/

/-- The fields of a frame header. -/
structure Header where
  flags : UInt8
  seq : Nat
  timestampMs : Nat
  keyLen : Nat
  hdrLen : Nat
  payloadLen : Nat

/-- The checks every decoder makes first: length, magic, version, header CRC. -/
def parseHeader (input : Bytes) : Except DecodeError Header :=
  if input.length < recordHeaderLen then .error .truncated
  else if input.natAt 0 2 ≠ recordMagic then .error .badMagic
  else if input.natAt 2 1 ≠ formatVersion then .error (.unsupportedVersion (input.natAt 2 1))
  else if (Checksums.crc32c (input.readAt 0 32)).toNat ≠ input.natAt 32 4 then
    .error .badHeaderCrc
  else .ok {
    flags := UInt8.ofNat (input.natAt 3 1)
    seq := input.natAt 4 8
    timestampMs := input.natAt 12 8
    keyLen := input.natAt 20 4
    hdrLen := input.natAt 24 4
    payloadLen := input.natAt 28 4 }

/-- The total length of the frame at the front of `header`, from its header and the length
prefix after it alone. -/
def decodedLen (header : Bytes) : Except DecodeError Nat :=
  match parseHeader header with
  | .error e => .error e
  | .ok h =>
    let tagged := contains h.flags hasStreamTag
    let subjected := contains h.flags hasSubject
    let sealedBody := contains h.flags encrypted
    if sealedBody ∧ (subjected ∨ tagged) then .error .badLength
    else if tagged ∧ subjected then .error .badLength
    else if tagged ∧ header.length < recordHeaderLen + 2 then .error .truncated
    else if subjected ∧ header.length < recordHeaderLen + 2 then .error .truncated
    else
      let total := h.keyLen + h.hdrLen + h.payloadLen + recordHeaderLen
        + fieldLen tagged (header.natAt recordHeaderLen 2)
        + fieldLen subjected (header.natAt recordHeaderLen 2)
        + xxh3FieldLen (contains h.flags hasXxh3)
        + (if sealedBody then aeadTagLen else 0) + recordTrailerLen
      if maxRecordBytesCeiling < total then .error .tooLarge else .ok total

/-- The CRC of an optional field that stores `len` bytes at `off` matches. -/
def fieldCrcOk (input : Bytes) (off len : Nat) : Bool :=
  (Checksums.crc32c (input.readAt off (2 + len))).toNat == input.natAt (off + 2 + len) 4

/-- The total length of a frame whose optional fields store `tagLen` and `subjectLen` bytes. -/
def totalLen (h : Header) (tagged subjected : Bool) (tagLen subjectLen : Nat) : Nat :=
  h.keyLen + h.hdrLen + h.payloadLen + recordHeaderLen + fieldLen tagged tagLen
    + fieldLen subjected subjectLen
    + xxh3FieldLen (contains h.flags hasXxh3) + recordTrailerLen

/-- The checks on the frame past its header, in order, each with the error it raises. -/
def bodyChecks (input : Bytes) (h : Header) (tagged subjected : Bool) (tagLen subjectLen : Nat) :
    List (Bool × DecodeError) :=
  let total := totalLen h tagged subjected tagLen subjectLen
  let xxh3d := contains h.flags hasXxh3
  let bodyLen := h.keyLen + h.hdrLen + h.payloadLen
  let subjectOff := recordHeaderLen + fieldLen tagged tagLen
  let bodyStart := subjectOff + fieldLen subjected subjectLen
  let body := input.readAt bodyStart bodyLen
  [(maxRecordBytesCeiling < total, .tooLarge),
    (input.length < total, .truncated),
    (contains h.flags hasKey != decide (h.keyLen ≠ 0), .badLength),
    (xxh3d != decide (xxh3PayloadThreshold ≤ bodyLen), .badLength),
    (tagged && !fieldCrcOk input recordHeaderLen tagLen, .badStreamTagCrc),
    (subjected && !fieldCrcOk input subjectOff subjectLen, .badSubjectCrc),
    (input.natAt (total - 4) 4 != total, .badLength),
    -- the CRC gates: only a body that passes it is checked against xxh3-64
    ((Checksums.crc32c body).toNat != input.natAt (total - 8) 4, .badBodyCrc),
    (xxh3d && (Checksums.xxh3 body).toNat != input.natAt (bodyStart + bodyLen) 8, .badXxh3)]

omit [Checksums] in
/-- The record of a frame that passed its checks. -/
def bodyFrame (input : Bytes) (h : Header) (tagged subjected : Bool) (tagLen subjectLen : Nat) :
    DecodedFrame :=
  let subjectOff := recordHeaderLen + fieldLen tagged tagLen
  let body := input.readAt (subjectOff + fieldLen subjected subjectLen)
    (h.keyLen + h.hdrLen + h.payloadLen)
  { view := {
      seq := h.seq
      timestampMs := h.timestampMs
      flags := h.flags
      key := body.readAt 0 h.keyLen
      headers := body.readAt h.keyLen h.hdrLen
      payload := body.drop (h.keyLen + h.hdrLen) }
    subject := if subjected then input.readAt (subjectOff + 2) subjectLen else []
    streamTag := if tagged then input.readAt (recordHeaderLen + 2) tagLen else []
    total := totalLen h tagged subjected tagLen subjectLen }

/-- Checks and reads a frame whose header parsed and whose optional fields store `tagLen` and
`subjectLen` bytes. -/
def decodeBody (input : Bytes) (h : Header) (tagged subjected : Bool) (tagLen subjectLen : Nat) :
    Except DecodeError DecodedFrame :=
  match (bodyChecks input h tagged subjected tagLen subjectLen).find? Prod.fst with
  | some (_, e) => .error e
  | none => .ok (bodyFrame input h tagged subjected tagLen subjectLen)

/-- Decodes one plaintext frame from the front of `input`. -/
def decodeInner (input : Bytes) : Except DecodeError DecodedFrame :=
  match parseHeader input with
  | .error e => .error e
  | .ok h =>
    let tagged := contains h.flags hasStreamTag
    let subjected := contains h.flags hasSubject
    if contains h.flags encrypted then .error .encrypted
    -- the two fields share one slot, so a frame that sets both bits is malformed
    else if tagged ∧ subjected then .error .badLength
    else if tagged ∧ input.length < recordHeaderLen + 2 then .error .truncated
    else
      let tagLen := if tagged then input.natAt recordHeaderLen 2 else 0
      if tagged ∧ tagLen = 0 then .error .badLength
      else
        let subjectOff := recordHeaderLen + fieldLen tagged tagLen
        if subjected ∧ input.length < subjectOff + 2 then .error .truncated
        else
          let subjectLen := if subjected then input.natAt subjectOff 2 else 0
          if subjected ∧ subjectLen = 0 then .error .badLength
          else decodeBody input h tagged subjected tagLen subjectLen

/-- What the encrypted decoder yields without the key: sequence, timestamp and length. -/
def decodeEncrypted (input : Bytes) : Except DecodeError (Nat × Nat × Nat) :=
  match parseHeader input with
  | .error e => .error e
  | .ok h =>
    if ¬ contains h.flags encrypted
        ∨ contains h.flags hasSubject
        ∨ contains h.flags hasStreamTag then .error .badLength
    else
      let bodyLen := h.keyLen + h.hdrLen + h.payloadLen + aeadTagLen
      let xxh3d := decide (xxh3PayloadThreshold ≤ bodyLen)
      if contains h.flags hasXxh3 ≠ xxh3d then .error .badLength
      else
        let total := recordHeaderLen + bodyLen + xxh3FieldLen xxh3d + recordTrailerLen
        if maxRecordBytesCeiling < total then .error .tooLarge
        else if input.length < total then .error .truncated
        else if contains h.flags hasKey ≠ decide (h.keyLen ≠ 0) then
          .error .badLength
        else
          let body := input.readAt recordHeaderLen bodyLen
          if input.natAt (total - 4) 4 ≠ total then .error .badLength
          else if (Checksums.crc32c body).toNat ≠ input.natAt (total - 8) 4 then
            .error .badBodyCrc
          else if xxh3d ∧ (Checksums.xxh3 body).toNat
              ≠ input.natAt (recordHeaderLen + bodyLen) 8 then .error .badXxh3
          else .ok (h.seq, h.timestampMs, total)

end Codec

end IronBus
