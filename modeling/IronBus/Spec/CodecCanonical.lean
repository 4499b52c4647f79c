import IronBus.Spec.CodecCorrect

/-!
# The record codec is canonical

Every field of an accepted frame is determined by the record, the subject and the stream tag.

Key results:
- `frameBytes_of_decodeInner`: what the plain decoder accepts is the encoding of what it returns
- `decodeEncrypted_of_decodeInner`: the encrypted decoder accepts none of it
- `frame_roundtrip`: the round trip, with both
-/

namespace IronBus

open Bytes RecordFlags

namespace RecordFlags

/-- The four presence bits. -/
def presence : UInt8 := hasKey ||| hasXxh3 ||| hasSubject ||| hasStreamTag

/-- Deriving the presence bits leaves the others alone. -/
theorem deriveAll_and_not_presence (f : UInt8) (key xxh3 subject tag : Bool) :
    deriveAll f key xxh3 subject tag &&& ~~~presence = f &&& ~~~presence := by
  simp (disch := decide) only [deriveAll, derive_and]

/-- Deriving the bits that are already there changes nothing. -/
theorem deriveAll_contains (f : UInt8) :
    deriveAll f (contains f hasKey) (contains f hasXxh3) (contains f hasSubject)
      (contains f hasStreamTag) = f := by
  -- a byte is one of 256 numerals
  obtain ⟨⟨n⟩⟩ := f
  revert n
  decide +kernel

end RecordFlags

namespace Codec

variable [Checksums]

/-! ## The parts of an accepted frame -/

variable {input : Bytes} {f : DecodedFrame}

/-- A header that parses is the header the encoder writes for its fields. -/
theorem encodeHeader_of_parseHeader {h : Header} (hp : parseHeader input = .ok h) :
    encodeHeader h.flags h.seq h.timestampMs h.keyLen h.hdrLen h.payloadLen
      = input.readAt 0 recordHeaderLen := by
  obtain ⟨hlen, hmagic, hversion, hcrc, rfl⟩ := parseHeader_eq_ok_iff.mp hp
  simp only [recordHeaderLen] at hlen
  have hone : ∀ off, off + 1 ≤ input.length →
      [UInt8.ofNat (input.natAt off 1)] = input.readAt off 1 := fun off ho => by
    simpa [ofNatLE] using ofNatLE_natAt (w := 1) ho
  -- the 32 covered bytes are the fields one after the other
  have hcovered : ofNatLE 2 recordMagic ++ [UInt8.ofNat formatVersion]
      ++ [UInt8.ofNat (input.natAt 3 1)] ++ ofNatLE 8 (input.natAt 4 8)
      ++ ofNatLE 8 (input.natAt 12 8) ++ ofNatLE 4 (input.natAt 20 4)
      ++ ofNatLE 4 (input.natAt 24 4) ++ ofNatLE 4 (input.natAt 28 4)
      = input.readAt 0 32 := by
    rw [← hmagic, ← hversion, hone 2 (by omega), hone 3 (by omega)]
    simp (disch := omega) only [ofNatLE_natAt, readAt_append_readAt]
  simp only [encodeHeader, hcovered, hcrc]
  rw [ofNatLE_natAt (by omega), readAt_append_readAt _ rfl]
  rfl

/-- An optional field whose CRC matches is the field the encoder writes for its bytes. -/
theorem encodeField_of_fieldCrcOk {off len : Nat} (hpos : len ≠ 0)
    (hlen : off + fieldLen true len ≤ input.length) (hstored : input.natAt off 2 = len)
    (hcrc : fieldCrcOk input off len = true) :
    encodeField (input.readAt (off + 2) len) = input.readAt off (fieldLen true len) := by
  simp only [fieldLen, if_true] at hlen ⊢
  have hbytes : (input.readAt (off + 2) len).length = len :=
    length_readAt_of_le (by omega)
  have hne : input.readAt (off + 2) len ≠ [] := fun h => by
    rw [h] at hbytes
    exact hpos hbytes.symm
  have hcovered : ofNatLE 2 len ++ input.readAt (off + 2) len =
      input.readAt off (2 + len) := by
    rw [← readAt_append_readAt input rfl, ← ofNatLE_natAt (w := 2) (by omega), hstored]
  simp only [fieldCrcOk, beq_iff_eq] at hcrc
  simp only [encodeField, hne, if_false, hbytes, hcovered, hcrc]
  rw [Nat.add_assoc off 2 len, ofNatLE_natAt (by omega), readAt_append_readAt _ rfl]

/-- An optional field that passed its checks is the field the encoder writes, and absent exactly
when the encoder leaves it out. -/
theorem encodeField_of_present {off len : Nat} (present : Bool)
    (hpos : present = true → input.natAt off 2 = len ∧ len ≠ 0)
    (hlen : off + fieldLen present len ≤ input.length)
    (hcrc : (present && !fieldCrcOk input off len) = false) :
    encodeField (if present then input.readAt (off + 2) len else [])
        = input.readAt off (fieldLen present len)
      ∧ (decide ((if present then input.readAt (off + 2) len else []) ≠ []) = present)
      ∧ fieldLen present (if present then input.readAt (off + 2) len else []).length
        = fieldLen present len
      ∧ (if present then input.readAt (off + 2) len else []).length ≤ len := by
  cases present with
  | false => simp [encodeField, fieldLen, readAt]
  | true =>
    obtain ⟨hstored, hne⟩ := hpos rfl
    have hbytes : (input.readAt (off + 2) len).length = len := by
      simp only [fieldLen, if_true] at hlen
      exact length_readAt_of_le (by omega)
    refine ⟨encodeField_of_fieldCrcOk hne hlen hstored (by simpa using hcrc), ?_, ?_, ?_⟩
    · simp only [if_true, decide_eq_true_eq]
      intro h
      rw [h] at hbytes
      exact hne hbytes.symm
    · simp only [if_true, hbytes]
    · simp only [if_true, hbytes, Nat.le_refl]

omit [Checksums] in
/-- The key, headers and payload of a body are the body. -/
theorem body_parts {body : Bytes} {k h p : Nat} (hlen : body.length = k + h + p) :
    body.readAt 0 k ++ body.readAt k h ++ body.drop (k + h) = body
      ∧ (body.readAt 0 k).length = k ∧ (body.readAt k h).length = h
      ∧ (body.drop (k + h)).length = p := by
  refine ⟨?_, length_readAt_of_le (by omega), length_readAt_of_le (by omega), ?_⟩
  · rw [readAt_append_readAt body (Nat.zero_add k).symm, readAt, List.drop_zero,
      List.take_append_drop]
  · rw [List.length_drop]
    omega

/-! ## The whole frame -/

section

variable (hf : decodeInner input = .ok f)

include hf

/-- An accepted frame is what the encoder writes for the record it decodes to. -/
theorem frameBytes_of_decodeInner :
    frameBytes f.view f.subject f.streamTag = input.take f.total
      ∧ encodedLen f.view f.subject f.streamTag = f.total
      ∧ storedFlags f.view f.subject f.streamTag = f.view.flags
      ∧ f.subject.length < 2 ^ 16 ∧ f.streamTag.length < 2 ^ 16 := by
  obtain ⟨h, hparse, henc, hexcl, hfield, hbody⟩ := (decodeInner_eq_ok_iff).mp hf
  obtain ⟨htotal, -, hlen⟩ := decodeBody_total hbody
  obtain ⟨hchecks, hframe⟩ := decodeBody_eq_ok_iff.mp hbody
  simp only [bodyChecks, ← htotal, List.forall_mem_cons] at hchecks
  obtain ⟨-, -, hkey, hxxh3, htagCrc, hsubCrc, hstoredLen, hcrc, hxxCrc, -⟩ := hchecks
  have hflags := deriveAll_contains h.flags
  have hheader := encodeHeader_of_parseHeader hparse
  clear hbody hf hparse
  simp only [totalLen] at htotal
  -- the flags matter only by what they say is there
  generalize contains h.flags hasStreamTag = tagged at *
  generalize contains h.flags hasSubject = subjected at *
  generalize contains h.flags hasXxh3 = xxh3d at *
  generalize contains h.flags hasKey = keyed at *
  -- at most one optional field is there, so both stand right after the header
  have htagAt : tagged = true → input.natAt recordHeaderLen 2 = prefixLen input tagged
      ∧ prefixLen input tagged ≠ 0 := by
    rintro rfl
    exact ⟨rfl, (hfield rfl).2⟩
  have hsubAt : subjected = true →
      input.natAt (recordHeaderLen + fieldLen tagged (prefixLen input tagged)) 2
        = prefixLen input subjected ∧ prefixLen input subjected ≠ 0 := by
    rintro rfl
    cases tagged with
    | true => simp at hexcl
    | false => exact ⟨rfl, (hfield rfl).2⟩
  have hprefixLt : ∀ present, prefixLen input present < 2 ^ 16 := fun present => by
    cases present with
    | false => simp [prefixLen]
    | true => exact natAt_lt input recordHeaderLen 2
  have htagLt := hprefixLt tagged
  have hsubLt := hprefixLt subjected
  generalize prefixLen input tagged = tagLen at *
  generalize prefixLen input subjected = subjectLen at *
  -- the optional fields are what the encoder writes
  obtain ⟨htagField, htagPresent, htagFieldLen, htagLe⟩ := encodeField_of_present tagged htagAt
    (by omega) htagCrc
  obtain ⟨hsubField, hsubPresent, hsubFieldLen, hsubLe⟩ := encodeField_of_present subjected hsubAt
    (by omega) hsubCrc
  have hbodyLen : (input.readAt
      (recordHeaderLen + fieldLen tagged tagLen + fieldLen subjected subjectLen)
      (h.keyLen + h.hdrLen + h.payloadLen)).length = h.keyLen + h.hdrLen + h.payloadLen :=
    length_readAt_of_le (by omega)
  obtain ⟨hjoin, hk, hh, hp⟩ := body_parts hbodyLen
  -- the record that is returned, part by part
  obtain ⟨⟨seq, timestampMs, flags, key, headers, payload⟩, subject, streamTag, total⟩ := f
  simp only [bodyFrame, DecodedFrame.mk.injEq, RecordView.mk.injEq] at hframe
  obtain ⟨⟨rfl, rfl, rfl, rfl, rfl, rfl⟩, hsubEq, htagEq, -⟩ := hframe
  rw [← htagEq] at htagField htagPresent htagFieldLen htagLe
  rw [← hsubEq] at hsubField hsubPresent hsubFieldLen hsubLe
  simp only at *
  generalize hbody : input.readAt
    (recordHeaderLen + fieldLen tagged tagLen + fieldLen subjected subjectLen)
    (h.keyLen + h.hdrLen + h.payloadLen) = body at *
  simp only [bne_eq_false_iff_eq] at hkey hxxh3 hstoredLen hcrc
  -- the presence bits are derived again from the parts
  have hkeyed : decide (body.readAt 0 h.keyLen ≠ []) = keyed := by
    rw [hkey, decide_eq_decide, ← List.length_pos_iff, hk]
    omega
  have hencoded : encodedLen ⟨h.seq, h.timestampMs, h.flags, body.readAt 0 h.keyLen,
      body.readAt h.keyLen h.hdrLen, body.drop (h.keyLen + h.hdrLen)⟩ subject streamTag
      = total := by
    simp only [encodedLen, hk, hh, hp, htagPresent, hsubPresent, htagFieldLen, hsubFieldLen,
      ← hxxh3, htotal]
    omega
  have hstored : storedFlags ⟨h.seq, h.timestampMs, h.flags, body.readAt 0 h.keyLen,
      body.readAt h.keyLen h.hdrLen, body.drop (h.keyLen + h.hdrLen)⟩ subject streamTag
      = h.flags := by
    refine Eq.trans ?_ hflags
    simp only [storedFlags, hkeyed, hk, hh, hp, htagPresent, hsubPresent, ← hxxh3,
      deriveAll]
  refine ⟨?_, hencoded, hstored, Nat.lt_of_le_of_lt hsubLe hsubLt,
    Nat.lt_of_le_of_lt htagLe htagLt⟩
  -- the xxh3 field, where the body is long enough for one
  have hxx : (if xxh3PayloadThreshold ≤ body.length then
      ofNatLE 8 (Checksums.xxh3 body).toNat else [])
      = input.readAt (recordHeaderLen + fieldLen tagged tagLen + fieldLen subjected subjectLen
        + (h.keyLen + h.hdrLen + h.payloadLen)) (xxh3FieldLen xxh3d) := by
    rw [hbodyLen]
    cases hx : xxh3d with
    | false =>
      rw [hx, eq_comm, decide_eq_false_iff_not] at hxxh3
      simp [hxxh3, xxh3FieldLen, readAt]
    | true =>
      rw [hx, eq_comm, decide_eq_true_eq] at hxxh3
      rw [hx] at hxxCrc htotal
      simp only [Bool.true_and, bne_eq_false_iff_eq] at hxxCrc
      simp only [xxh3FieldLen, if_true, recordXxh3Len] at htotal ⊢
      rw [if_pos hxxh3, hxxCrc, ofNatLE_natAt (by omega)]
  simp only [frameBytes, hencoded, hstored, hk, hh, hp, hjoin, hheader, htagField, hsubField, hxx,
    hcrc]
  simp only [recordTrailerLen] at htotal
  have htrailer : ofNatLE 4 total = input.readAt (total - 4) 4 := by
    rw [← ofNatLE_natAt (by omega), hstoredLen]
  -- the pieces of the frame, one after the other
  rw [htrailer, ofNatLE_natAt (by omega), ← hbody]
  simp (disch := omega) only [readAt_append_readAt input]
  rw [readAt, List.drop_zero]
  congr 1
  omega

/-- Reencoding an accepted frame gives its bytes back. -/
theorem encode_of_decodeInner :
    encode f.view f.subject f.streamTag = .ok (input.take f.total) := by
  obtain ⟨hbytes, hlen, -, hsub, htag⟩ := frameBytes_of_decodeInner hf
  have hmax := total_le_ceiling hf
  have hbody := body_le_of_decodeInner hf
  simp only [maxRecordBytesCeiling] at hmax
  rw [encode, hlen, maxRecordBytesCeiling]
  simp (disch := omega) only [if_neg, hbytes]

/-- A record that decodes is within the limits of its fields, and is not encrypted. -/
theorem view_of_decodeInner :
    contains f.view.flags encrypted = false
      ∧ f.view.seq < 2 ^ 64 ∧ f.view.timestampMs < 2 ^ 64
      ∧ (f.subject = [] ∨ f.streamTag = []) := by
  obtain ⟨h, hparse, henc, hexcl, -, hbody⟩ := (decodeInner_eq_ok_iff).mp hf
  obtain ⟨-, -, -, -, rfl⟩ := parseHeader_eq_ok_iff.mp hparse
  rw [(decodeBody_eq_ok_iff.mp hbody).2]
  refine ⟨henc, natAt_lt input 4 8, natAt_lt input 12 8, ?_⟩
  rw [Bool.and_eq_false_iff] at hexcl
  rcases hexcl with htag | hsub
  · exact .inr (by simp only [bodyFrame, htag, Bool.false_eq_true, if_false])
  · exact .inl (by simp only [bodyFrame, hsub, Bool.false_eq_true, if_false])

/-- A decode depends only on the bytes of the frame it returns, which say all of it. -/
theorem decodeInner_take_append (rest : Bytes) :
    decodeInner (input.take f.total ++ rest) = .ok f := by
  obtain ⟨hbytes, htotal, hflags, hsub, htag⟩ := frameBytes_of_decodeInner hf
  obtain ⟨hplain, hseq, hts, hone⟩ := view_of_decodeInner hf
  have hdec := decodeInner_frameBytes rest hone hplain hseq hts hsub htag
    (htotal ▸ total_le_ceiling hf)
  rwa [hbytes, hflags, htotal] at hdec

/-! ## The two decoders -/

/-- The encrypted bit says which decoder a frame is for. -/
theorem decodeEncrypted_of_decodeInner :
    decodeEncrypted input = .error .badLength := by
  obtain ⟨h, hparse, henc, -⟩ := (decodeInner_eq_ok_iff).mp hf
  simp [decodeEncrypted, hparse, henc]

end

/-! ## Round trip, canonicity and the two decoders apart -/

/-- The record a frame holds: the producer's, with the presence bits of what is there. -/
structure StoredAs (rec : RecordView) (subject streamTag : Bytes) (view : RecordView) : Prop where
  same : view = { rec with flags := view.flags }
  others : view.flags &&& ~~~presence = rec.flags &&& ~~~presence
  hasKey : contains view.flags hasKey = decide (rec.key ≠ [])
  hasXxh3 : contains view.flags hasXxh3 = decide (xxh3PayloadThreshold
    ≤ rec.key.length + rec.headers.length + rec.payload.length)
  hasSubject : contains view.flags hasSubject = decide (subject ≠ [])
  hasStreamTag : contains view.flags hasStreamTag
    = decide (streamTag ≠ [])

omit [Checksums] in
theorem storedAs_storedFlags (rec : RecordView) (subject streamTag : Bytes) :
    StoredAs rec subject streamTag { rec with flags := storedFlags rec subject streamTag } := by
  obtain ⟨hkey, hxxh3, hsub, htag, -⟩ := contains_storedFlags rec subject streamTag
  exact ⟨rfl, deriveAll_and_not_presence .., hkey, hxxh3, hsub, htag⟩

/-- A record within the limits encodes, and its frame decodes to it whatever follows; an accepted
string reencodes to itself; and no string is a plain and an encrypted frame. -/
theorem frame_roundtrip :
    (∀ (rec : RecordView) (subject streamTag rest : Bytes),
      rec.seq < 2 ^ 64 → rec.timestampMs < 2 ^ 64 →
      contains rec.flags encrypted = false →
      (subject = [] ∨ streamTag = []) → subject.length < 2 ^ 16 → streamTag.length < 2 ^ 16 →
      encodedLen rec subject streamTag ≤ maxRecordBytesCeiling →
      ∃ frame view, encode rec subject streamTag = .ok frame
        ∧ StoredAs rec subject streamTag view
        ∧ decodeInner (frame ++ rest) = .ok ⟨view, subject, streamTag, frame.length⟩)
    ∧ (∀ (input : Bytes) (f : DecodedFrame), decodeInner input = .ok f →
      encode f.view f.subject f.streamTag = .ok (input.take f.total))
    ∧ (∀ (input : Bytes) (f : DecodedFrame) (e : Nat × Nat × Nat),
      ¬ (decodeInner input = .ok f ∧ decodeEncrypted input = .ok e)) := by
  refine ⟨?_, fun input f hf => encode_of_decodeInner hf, ?_⟩
  · intro rec subject streamTag rest hseq hts hplain hone hsub htag hmax
    refine ⟨frameBytes rec subject streamTag,
      { rec with flags := storedFlags rec subject streamTag }, ?_,
      storedAs_storedFlags rec subject streamTag, ?_⟩
    · have hlens : rec.key.length < 2 ^ 32 ∧ rec.headers.length < 2 ^ 32
          ∧ rec.payload.length < 2 ^ 32 := by
        simp only [encodedLen, maxRecordBytesCeiling] at hmax
        omega
      rw [encode]
      simp (disch := omega) only [if_neg]
    · rw [length_frameBytes]
      exact decodeInner_frameBytes rest hone hplain hseq hts hsub htag hmax
  · rintro input f e ⟨hf, he⟩
    rw [decodeEncrypted_of_decodeInner hf] at he
    cases he

end Codec

section Concrete

open Codec

local instance : Checksums := ⟨castagnoli, fun _ => 0⟩

/-- A record with a key and a subject, and a byte after its frame. -/
theorem frame_roundtrip_subject :
    ∃ frame view, encode ⟨7, 9, 0, [107], [104], [1, 2, 3]⟩ [111] [] = .ok frame
      ∧ StoredAs ⟨7, 9, 0, [107], [104], [1, 2, 3]⟩ [111] [] view
      ∧ decodeInner (frame ++ [255]) = .ok ⟨view, [111], [], frame.length⟩ :=
  frame_roundtrip.1 ⟨7, 9, 0, [107], [104], [1, 2, 3]⟩ [111] [] [255] (by decide) (by decide)
    (by decide) (by decide) (by decide) (by decide) (by decide)

/-- The key bit of a record without a key does not come back. -/
theorem key_bit_without_key_dropped :
    contains hasKey encrypted = false
    ∧ (encode ⟨0, 0, hasKey, [], [], []⟩ [] []).toOption.map
        (fun frame => (decodeInner frame).toOption.map fun f => f.view)
      = some (some ⟨0, 0, 0, [], [], []⟩) := by
  decide +kernel

end Concrete

end IronBus
