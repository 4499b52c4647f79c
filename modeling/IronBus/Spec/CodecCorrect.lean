import IronBus.Native.Codec

/-!
# Record codec round trip

Key results:
- `decodeInner_frameBytes`: `decodeInner` reads back what `encode` lays out, whatever follows it
- `decodedLen_of_decodeInner`: it sizes a frame as `decodedLen` does
-/

namespace IronBus

open Bytes List

/-! ## Flags -/

namespace RecordFlags

/-- The flags with the four presence bits derived. -/
def deriveAll (f : UInt8) (key xxh3 subject tag : Bool) : UInt8 :=
  derive (derive (derive (derive f hasKey key) hasXxh3 xxh3) hasSubject subject) hasStreamTag tag

/-- Deriving a bit leaves the others alone. -/
theorem derive_and {bit m : UInt8} (h : bit &&& m = 0) (f : UInt8) (on : Bool) :
    derive f bit on &&& m = f &&& m := by
  refine UInt8.eq_of_toBitVec_eq (BitVec.eq_of_getLsbD_eq fun i _ => ?_)
  have hbit : (bit.toBitVec.getLsbD i && m.toBitVec.getLsbD i) = false := by
    rw [← BitVec.getLsbD_and, ← UInt8.toBitVec_and, h]
    simp
  cases on <;> cases hb : bit.toBitVec.getLsbD i <;> simp_all [derive]

theorem contains_derive_self {bit : UInt8} (h : bit ≠ 0) (f : UInt8) (on : Bool) :
    contains (derive f bit on) bit = on := by
  cases on with
  | true =>
    have : (f ||| bit) &&& bit = bit := by
      refine UInt8.eq_of_toBitVec_eq (BitVec.eq_of_getLsbD_eq fun i _ => ?_)
      cases hb : bit.toBitVec.getLsbD i <;> simp [hb]
    simp [contains, derive, this]
  | false => simp [contains, derive, UInt8.and_assoc, h.symm]

/-- Each derived bit says what it was derived from, and the encrypted bit is the caller's. -/
theorem contains_deriveAll (f : UInt8) (key xxh3 subject tag : Bool) :
    contains (deriveAll f key xxh3 subject tag) hasKey = key ∧
    contains (deriveAll f key xxh3 subject tag) hasXxh3 = xxh3 ∧
    contains (deriveAll f key xxh3 subject tag) hasSubject = subject ∧
    contains (deriveAll f key xxh3 subject tag) hasStreamTag = tag ∧
    contains (deriveAll f key xxh3 subject tag) encrypted = contains f encrypted := by
  have hother (f bit m : UInt8) (on : Bool) (h : bit &&& m = 0) :
      contains (derive f bit on) m = contains f m := by rw [contains, derive_and h, contains]
  simp (disch := decide) only [deriveAll, contains_derive_self, hother, and_self]

end RecordFlags

namespace Codec

variable [Checksums]

open RecordFlags

/-! ## Lengths -/

variable {input input' : Bytes} {h : Header} {tagged subjected : Bool} {tagLen subjectLen : Nat}
  {f : DecodedFrame}

@[simp] theorem length_encodeHeader (flags : UInt8) (seq ts k h p : Nat) :
    (encodeHeader flags seq ts k h p).length = recordHeaderLen := by
  simp [encodeHeader, recordHeaderLen]

@[simp] theorem length_encodeField (s : Bytes) :
    (encodeField s).length = fieldLen (s ≠ []) s.length := by
  by_cases h : s = []
  · simp [encodeField, fieldLen, h]
  · simp [encodeField, fieldLen, h]
    omega

@[simp] theorem length_frameBytes (rec : RecordView) (subject streamTag : Bytes) :
    (frameBytes rec subject streamTag).length = encodedLen rec subject streamTag := by
  simp only [frameBytes, encodedLen, length_append, length_encodeHeader, length_encodeField,
    length_ofNatLE, recordTrailerLen]
  by_cases hx : xxh3PayloadThreshold
      ≤ rec.key.length + rec.headers.length + rec.payload.length
  · simp only [hx, if_true, length_ofNatLE, decide_true, xxh3FieldLen, recordXxh3Len]
  · simp only [hx, if_false, length_nil, decide_false, xxh3FieldLen]
    simp

/-! ## The header -/

/-- The header of a frame parses exactly when its four checks pass. -/
theorem parseHeader_eq_ok_iff :
    parseHeader input = .ok h ↔
      recordHeaderLen ≤ input.length ∧ input.natAt 0 2 = recordMagic
      ∧ input.natAt 2 1 = formatVersion
      ∧ (Checksums.crc32c (input.readAt 0 32)).toNat = input.natAt 32 4
      ∧ h = ⟨UInt8.ofNat (input.natAt 3 1), input.natAt 4 8, input.natAt 12 8, input.natAt 20 4,
        input.natAt 24 4, input.natAt 28 4⟩ := by
  unfold parseHeader
  split_ifs with h1 h2 h3 h4
  · simp; omega
  · simp [h2]
  · simp [h3]
  · simp [h4]
  · simp only [Except.ok.injEq, eq_comm (b := h)]
    simp_all

/-- The header of a frame parses back, whatever follows it. -/
theorem parseHeader_encodeHeader {flags : UInt8} {seq ts k h p : Nat} (rest : Bytes)
    (hseq : seq < 2 ^ 64) (hts : ts < 2 ^ 64) (hk : k < 2 ^ 32) (hh : h < 2 ^ 32)
    (hp : p < 2 ^ 32) :
    parseHeader (encodeHeader flags seq ts k h p ++ rest) = .ok ⟨flags, seq, ts, k, h, p⟩ := by
  obtain ⟨crc, hcrc, hparts⟩ : ∃ crc, crc = (Checksums.crc32c
      ((encodeHeader flags seq ts k h p ++ rest).readAt 0 32)).toNat
      ∧ encodeHeader flags seq ts k h p ++ rest = [ofNatLE 2 recordMagic,
        ofNatLE 1 formatVersion, ofNatLE 1 flags.toNat, ofNatLE 8 seq,
        ofNatLE 8 ts, ofNatLE 4 k, ofNatLE 4 h, ofNatLE 4 p,
        ofNatLE 4 crc, rest].flatten := by
    refine ⟨_, rfl, ?_⟩
    rw [encodeHeader, append_assoc, readAt_append_left (by simp)]
    simp [ofNatLE]
  refine parseHeader_eq_ok_iff.mpr ⟨by simp, ?_, ?_, ?_, ?_⟩
  · rw [hparts, natAt_flatten 0 0 2 (by rfl) (by rfl) (by decide)]
  · rw [hparts, natAt_flatten 1 2 1 (by rfl) (by rfl) (by decide)]
  · rw [← hcrc, hparts, natAt_flatten 8 32 4 (by rfl) (by rfl) (hcrc ▸ UInt32.toNat_lt _)]
  · rw [hparts, natAt_flatten 2 3 1 (by rfl) (by rfl) flags.toNat_lt,
    natAt_flatten 3 4 8 (by rfl) (by rfl) (by omega),
    natAt_flatten 4 12 8 (by rfl) (by rfl) (by omega),
    natAt_flatten 5 20 4 (by rfl) (by rfl) (by omega),
    natAt_flatten 6 24 4 (by rfl) (by rfl) (by omega),
    natAt_flatten 7 28 4 (by rfl) (by rfl) (by omega), UInt8.ofNat_toNat]

/-! ## The optional fields -/

/-- The length prefix of a stored field. -/
theorem natAt_encodeField {s : Bytes} (hs : s ≠ []) (hlen : s.length < 2 ^ 16) (rest : Bytes) :
    (encodeField s ++ rest).natAt 0 2 = s.length := by
  simp only [encodeField, hs, if_false, append_assoc]
  exact natAt_ofNatLE (by omega)

/-- A stored field passes its CRC wherever it stands, and its bytes are read back. -/
theorem field_read {s : Bytes} (hs : s ≠ []) (pre post : List Bytes) {off : Nat}
    (hoff : off = pre.flatten.length) :
    fieldCrcOk (pre ++ encodeField s :: post).flatten off s.length = true
      ∧ readAt (pre ++ encodeField s :: post).flatten (off + 2) s.length = s := by
  have hparts : (pre ++ encodeField s :: post).flatten = [pre.flatten, ofNatLE 2 s.length, s,
      ofNatLE 4 (Checksums.crc32c (ofNatLE 2 s.length ++ s)).toNat,
      post.flatten].flatten := by
    simp [encodeField, hs]
  have hcovered : readAt (pre ++ encodeField s :: post).flatten off (2 + s.length)
      = ofNatLE 2 s.length ++ s := by
    rw [← readAt_append_readAt _ rfl, hparts,
      readAt_flatten 1 off 2 rfl (by simp [hoff]) rfl,
      readAt_flatten 2 (off + 2) _ rfl (by simp [hoff]) rfl]
  rw [fieldCrcOk, hcovered, hparts, beq_iff_eq]
  exact ⟨(natAt_flatten 3 _ _ rfl (by simp [hoff, Nat.add_assoc]) (UInt32.toNat_lt _)).symm,
    readAt_flatten 2 _ _ rfl (by simp [hoff]) rfl⟩

/-! ## The body -/

/-- A frame decodes exactly when every check passes. -/
theorem decodeBody_eq_ok_iff :
    decodeBody input h tagged subjected tagLen subjectLen = .ok f ↔
      (∀ c ∈ bodyChecks input h tagged subjected tagLen subjectLen, c.1 = false)
      ∧ f = bodyFrame input h tagged subjected tagLen subjectLen := by
  unfold decodeBody
  split
  · rename_i b e hfind
    have hmem := mem_of_find?_eq_some hfind
    have hb := find?_some hfind
    simp only [reduceCtorEq, false_iff, not_and]
    intro hall
    have := hall _ hmem
    simp_all
  · rename_i hfind
    rw [find?_eq_none] at hfind
    simp only [Bool.not_eq_true] at hfind
    simp only [Except.ok.injEq, eq_comm (a := f)]
    exact ⟨fun h => ⟨hfind, h⟩, fun h => h.2⟩

omit [Checksums] in
theorem contains_storedFlags (rec : RecordView) (subject streamTag : Bytes) :
    contains (storedFlags rec subject streamTag) hasKey = decide (rec.key ≠ []) ∧
    contains (storedFlags rec subject streamTag) hasXxh3 = decide (xxh3PayloadThreshold
      ≤ rec.key.length + rec.headers.length + rec.payload.length) ∧
    contains (storedFlags rec subject streamTag) hasSubject = decide (subject ≠ []) ∧
    contains (storedFlags rec subject streamTag) hasStreamTag = decide (streamTag ≠ []) ∧
    contains (storedFlags rec subject streamTag) encrypted = contains rec.flags encrypted :=
  contains_deriveAll ..

/-- The body checks pass on a frame and return the record. -/
theorem decodeBody_frameBytes {rec : RecordView} {subject streamTag : Bytes} (rest : Bytes)
    (hmax : encodedLen rec subject streamTag ≤ maxRecordBytesCeiling) :
    decodeBody (frameBytes rec subject streamTag ++ rest)
      ⟨storedFlags rec subject streamTag, rec.seq, rec.timestampMs, rec.key.length,
        rec.headers.length, rec.payload.length⟩
      (streamTag ≠ []) (subject ≠ []) streamTag.length subject.length
    = .ok { view := { rec with flags := storedFlags rec subject streamTag },
            subject := subject, streamTag := streamTag,
            total := encodedLen rec subject streamTag } := by
  obtain ⟨hfk, hfx, -⟩ := contains_storedFlags rec subject streamTag
  generalize hhdr : encodeHeader (storedFlags rec subject streamTag) rec.seq rec.timestampMs
    rec.key.length rec.headers.length rec.payload.length = hdr
  have hhdrlen : hdr.length = recordHeaderLen := by rw [← hhdr, length_encodeHeader]
  generalize hb : rec.key ++ rec.headers ++ rec.payload = body
  have hbl : rec.key.length + rec.headers.length + rec.payload.length = body.length := by
    rw [← hb, length_append, length_append]
  generalize hx : (if xxh3PayloadThreshold ≤ body.length then
    ofNatLE 8 (Checksums.xxh3 body).toNat else []) = xx
  have hxl : xx.length = xxh3FieldLen (xxh3PayloadThreshold ≤ body.length) := by
    by_cases hthr : xxh3PayloadThreshold ≤ body.length
    · simp [← hx, hthr, xxh3FieldLen, recordXxh3Len]
    · simp [← hx, hthr, xxh3FieldLen]
  generalize hT : encodedLen rec subject streamTag = total
  have htotal : body.length + recordHeaderLen + fieldLen (streamTag ≠ []) streamTag.length
      + fieldLen (subject ≠ []) subject.length + xxh3FieldLen (xxh3PayloadThreshold ≤ body.length)
      + recordTrailerLen = total := by
    rw [← hT, encodedLen, hbl]
    omega
  have hparts : frameBytes rec subject streamTag ++ rest = [hdr, encodeField streamTag,
      encodeField subject, body, xx, ofNatLE 4 (Checksums.crc32c body).toNat,
      ofNatLE 4 total, rest].flatten := by
    simp [frameBytes, hhdr, hb, hx, hT]
  generalize hF : frameBytes rec subject streamTag ++ rest = F at hparts
  have hFlen : total ≤ F.length := by
    simp [hparts, hhdrlen, hxl, recordTrailerLen] at htotal ⊢
    omega
  -- each part is read back past the parts before it
  have hbodyRead : F.readAt (recordHeaderLen + fieldLen (streamTag ≠ []) streamTag.length
      + fieldLen (subject ≠ []) subject.length) body.length = body := by
    rw [hparts]
    exact readAt_flatten 3 _ _ rfl (by simp [hhdrlen, Nat.add_assoc]) rfl
  have hxxRead : xxh3PayloadThreshold ≤ body.length →
      F.natAt (recordHeaderLen + fieldLen (streamTag ≠ []) streamTag.length
        + fieldLen (subject ≠ []) subject.length + body.length) 8
      = (Checksums.xxh3 body).toNat := by
    intro hthr
    rw [if_pos hthr] at hx
    rw [hparts]
    exact natAt_flatten 4 _ _ (by rw [hx]; rfl) (by simp [hhdrlen, Nat.add_assoc])
      (UInt64.toNat_lt _)
  have hcrcRead : F.natAt (total - 8) 4 = (Checksums.crc32c body).toNat := by
    rw [hparts]
    refine natAt_flatten 5 _ _ rfl ?_ (UInt32.toNat_lt _)
    simp [hhdrlen, hxl, recordTrailerLen] at htotal ⊢
    omega
  have hlenRead : F.natAt (total - 4) 4 = total := by
    rw [hparts]
    refine natAt_flatten 6 _ _ rfl ?_ ?_
    · simp [hhdrlen, hxl, recordTrailerLen] at htotal ⊢
      omega
    · rw [hT, maxRecordBytesCeiling] at hmax
      omega
  have htagCrc : streamTag ≠ [] → fieldCrcOk F recordHeaderLen streamTag.length = true
      ∧ F.readAt (recordHeaderLen + 2) streamTag.length = streamTag := by
    intro ht
    rw [hparts]
    exact field_read ht [hdr] _ (by simp [hhdrlen])
  have hsubCrc : subject ≠ [] → fieldCrcOk F (recordHeaderLen
      + fieldLen (streamTag ≠ []) streamTag.length) subject.length = true
      ∧ F.readAt (recordHeaderLen + fieldLen (streamTag ≠ []) streamTag.length + 2)
        subject.length = subject := by
    intro hs
    rw [hparts]
    exact field_read hs [hdr, encodeField streamTag] _ (by simp [hhdrlen])
  have hkey : body.readAt 0 rec.key.length = rec.key := by
    rw [← hb, append_assoc, readAt_append_left rfl]
  have hheaders : body.readAt rec.key.length rec.headers.length = rec.headers := by
    rw [← hb, readAt_append_mid rfl rfl]
  have hpayload : body.drop (rec.key.length + rec.headers.length) = rec.payload := by
    rw [← hb, ← length_append, drop_left]
  rw [hbl] at hfx
  have htot : totalLen ⟨storedFlags rec subject streamTag, rec.seq, rec.timestampMs,
      rec.key.length, rec.headers.length, rec.payload.length⟩ (streamTag ≠ []) (subject ≠ [])
      streamTag.length subject.length = total := by
    simp only [totalLen, hbl, hfx, htotal]
  rw [decodeBody_eq_ok_iff]
  constructor
  · simp only [bodyChecks, htot, hbl, hfx, hfk, hbodyRead, hlenRead, hcrcRead,
      forall_mem_cons]
    refine ⟨by simp; omega, by simp; omega, by simp, by simp,
      by simpa using fun ht => (htagCrc ht).1, by simpa using fun hs => (hsubCrc hs).1, by simp,
      by simp, by simpa using fun h => (hxxRead h).symm, by simp⟩
  · simp only [bodyFrame, htot, hbl, hbodyRead, hkey, hheaders, hpayload]
    by_cases hs : subject = [] <;> by_cases ht : streamTag = [] <;> simp_all

/-! ## The round trip -/

/-- What an encoded record decodes to, whatever follows its frame. -/
theorem decodeInner_frameBytes {rec : RecordView} {subject streamTag : Bytes} (rest : Bytes)
    (hone : subject = [] ∨ streamTag = [])
    (hplain : contains rec.flags encrypted = false)
    (hseq : rec.seq < 2 ^ 64) (hts : rec.timestampMs < 2 ^ 64)
    (hs : subject.length < 2 ^ 16) (ht : streamTag.length < 2 ^ 16)
    (hmax : encodedLen rec subject streamTag ≤ maxRecordBytesCeiling) :
    decodeInner (frameBytes rec subject streamTag ++ rest)
    = .ok { view := { rec with flags := storedFlags rec subject streamTag },
            subject := subject, streamTag := streamTag,
            total := encodedLen rec subject streamTag } := by
  obtain ⟨-, -, hfs, hft, hfe⟩ := contains_storedFlags rec subject streamTag
  have hbody := decodeBody_frameBytes rest hmax
  -- the field lengths fit their `u32`s because the whole frame is under the ceiling
  have hlens : rec.key.length < 2 ^ 32 ∧ rec.headers.length < 2 ^ 32
      ∧ rec.payload.length < 2 ^ 32 := by
    simp only [encodedLen, maxRecordBytesCeiling] at hmax
    omega
  obtain ⟨hk, hh, hp⟩ := hlens
  generalize hF : frameBytes rec subject streamTag ++ rest = F at hbody ⊢
  have hhead : parseHeader F = .ok ⟨storedFlags rec subject streamTag, rec.seq,
      rec.timestampMs, rec.key.length, rec.headers.length, rec.payload.length⟩ := by
    rw [← hF, frameBytes]
    simp only [append_assoc]
    exact parseHeader_encodeHeader _ hseq hts hk hh hp
  have hFlen : encodedLen rec subject streamTag ≤ F.length := by
    rw [← hF, length_append, length_frameBytes]
    omega
  -- the length prefix after the header belongs to whichever field is present
  have hprefix : ∀ s, s ≠ [] → s.length < 2 ^ 16 →
      encodeField streamTag ++ encodeField subject = encodeField s →
      F.natAt recordHeaderLen 2 = s.length := by
    intro s hne hlen heq
    rw [← hF, frameBytes]
    simp only [append_assoc]
    rw [natAt_append_at (by simp), ← append_assoc (encodeField streamTag), heq]
    exact natAt_encodeField hne hlen _
  have hfieldNil : encodeField [] = [] := by simp [encodeField]
  simp only [decodeInner, hhead, hfs, hft, hfe, hplain]
  simp only [encodedLen] at hFlen
  by_cases htag : streamTag = []
  · by_cases hsub : subject = []
    · simpa [htag, hsub] using hbody
    · have hlen : F.natAt recordHeaderLen 2 = subject.length :=
        hprefix subject hsub hs (by rw [htag, hfieldNil, nil_append])
      have h38 : ¬ F.length < recordHeaderLen + 2 := by
        simp only [fieldLen, hsub, ne_eq, not_false_eq_true, decide_true, if_true] at hFlen
        omega
      simpa [htag, hsub, hlen, h38, fieldLen] using hbody
  · have hsub : subject = [] := hone.resolve_right htag
    have hlen : F.natAt recordHeaderLen 2 = streamTag.length :=
      hprefix streamTag htag ht (by rw [hsub, hfieldNil, append_nil])
    have h38 : ¬ F.length < recordHeaderLen + 2 := by
      simp only [fieldLen, htag, ne_eq, not_false_eq_true, decide_true, if_true] at hFlen
      omega
    simpa [htag, hsub, hlen, h38, fieldLen] using hbody

/-! ## A frame is read from its own bytes -/

/-- The length prefix of an optional field, or zero without one. -/
def prefixLen (input : Bytes) (present : Bool) : Nat :=
  if present then input.natAt recordHeaderLen 2 else 0

/-- A frame decodes exactly when its header parses, its optional field is well formed, and its
body passes. -/
theorem decodeInner_eq_ok_iff :
    decodeInner input = .ok f ↔
      ∃ h, parseHeader input = .ok h
        ∧ contains h.flags encrypted = false
        ∧ ((contains h.flags hasStreamTag
            && contains h.flags hasSubject) = false)
        ∧ ((contains h.flags hasStreamTag
            || contains h.flags hasSubject) = true →
            recordHeaderLen + 2 ≤ input.length ∧ input.natAt recordHeaderLen 2 ≠ 0)
        ∧ decodeBody input h (contains h.flags hasStreamTag)
          (contains h.flags hasSubject)
          (prefixLen input (contains h.flags hasStreamTag))
          (prefixLen input (contains h.flags hasSubject)) = .ok f := by
  unfold decodeInner
  cases hp : parseHeader input with
  | error e => simp
  | ok h =>
    simp only [Except.ok.injEq, exists_eq_left']
    generalize contains h.flags encrypted = enc
    generalize contains h.flags hasStreamTag = tagged
    generalize contains h.flags hasSubject = subjected
    -- the flags decide which of the prefix checks apply
    cases enc <;> cases tagged <;> cases subjected <;> simp [prefixLen, fieldLen]
    all_goals
      by_cases hlen : input.length < recordHeaderLen + 2
      · simp [hlen]
      · by_cases hzero : input.natAt recordHeaderLen 2 = 0
        · simp [hlen, hzero]
        · simp [hlen, hzero, not_lt.mp hlen]

theorem parseHeader_congr {n : Nat} (hp : parseHeader input = .ok h) (hn : recordHeaderLen ≤ n)
    (hlen : n ≤ input'.length) (htake : input'.take n = input.take n) :
    parseHeader input' = .ok h := by
  simp only [recordHeaderLen] at hn
  rw [parseHeader_eq_ok_iff] at hp ⊢
  simp (disch := omega) only [natAt_congr_take htake, readAt_congr_take htake]
  exact ⟨by simp only [recordHeaderLen]; omega, hp.2⟩

/-- The total length of a decoded frame: what its header and prefixes add up to, within the
ceiling and the input. -/
theorem decodeBody_total (hf : decodeBody input h tagged subjected tagLen subjectLen = .ok f) :
    f.total = totalLen h tagged subjected tagLen subjectLen
      ∧ f.total ≤ maxRecordBytesCeiling ∧ f.total ≤ input.length := by
  obtain ⟨hchecks, hframe⟩ := decodeBody_eq_ok_iff.mp hf
  simp only [bodyChecks, forall_mem_cons] at hchecks
  have htotal : f.total = totalLen h tagged subjected tagLen subjectLen := by rw [hframe]; rfl
  rw [htotal]
  exact ⟨rfl, by simpa using hchecks.1, by simpa using hchecks.2.1⟩

section

variable (hf : decodeInner input = .ok f)

include hf

/-- A successful decode spans at least an empty record's frame and at most its input. -/
theorem total_le_of_decodeInner :
    44 ≤ f.total ∧ f.total ≤ input.length := by
  obtain ⟨h, -, -, -, -, hbody⟩ := (decodeInner_eq_ok_iff).mp hf
  obtain ⟨htotal, -, hlen⟩ := decodeBody_total hbody
  refine ⟨?_, hlen⟩
  rw [htotal, totalLen]
  simp only [recordHeaderLen, recordTrailerLen]
  omega

/-- A decoded frame is within the format's ceiling. -/
theorem total_le_ceiling :
    f.total ≤ maxRecordBytesCeiling := by
  obtain ⟨h, -, -, -, -, hbody⟩ := (decodeInner_eq_ok_iff).mp hf
  exact (decodeBody_total hbody).2.1

/-- The producer's bytes of a decoded record are a part of its frame. -/
theorem body_le_of_decodeInner :
    f.view.key.length + f.view.headers.length + f.view.payload.length ≤ f.total := by
  obtain ⟨h, -, -, -, -, hbody⟩ := (decodeInner_eq_ok_iff).mp hf
  obtain ⟨htotal, -, -⟩ := decodeBody_total hbody
  rw [htotal, (decodeBody_eq_ok_iff.mp hbody).2]
  simp only [bodyFrame, totalLen, length_readAt, length_drop]
  omega

/-- The header alone sizes a frame that decodes. -/
theorem decodedLen_of_decodeInner :
    decodedLen input = .ok f.total := by
  obtain ⟨h, hparse, henc, hexcl, hfield, hbody⟩ := (decodeInner_eq_ok_iff).mp hf
  obtain ⟨htotal, hmax, -⟩ := decodeBody_total hbody
  rw [htotal] at hmax ⊢
  clear hbody htotal
  simp only [decodedLen, hparse, henc, totalLen, prefixLen] at hmax ⊢
  generalize contains h.flags hasStreamTag = tagged at *
  generalize contains h.flags hasSubject = subjected at *
  cases tagged <;> cases subjected <;> simp [fieldLen] at hexcl hfield hmax ⊢
  · omega
  · rw [if_neg (by omega), if_neg (by omega)]
  · rw [if_neg (by omega), if_neg (by omega)]

end

end Codec

end IronBus
