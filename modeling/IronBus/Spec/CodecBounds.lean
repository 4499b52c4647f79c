import IronBus.Spec.CodecCanonical

/-!
# Decoding stays inside its buffer

The decoders once more, with every slice and every sum of lengths checked: a slice outside of its
buffer, a sum past `u64` and a difference below zero have no result.

Key results:
- `decodedLenChecked_eq`, `decodeInnerChecked_eq`: the checked decoders have the result of the plain
- `decodedLen_take`, `decodeInner_take`: what they say of a frame that is cut
-/

namespace IronBus

open Bytes List

namespace Codec

/-- A decoder that ends early with an error; `none` where the program would panic. -/
abbrev Checked (α : Type) := ExceptT DecodeError Option α

namespace Checked

/-- The `n` bytes at `off`. -/
def slice (b : Bytes) (off n : Nat) : Checked Bytes :=
  if off + n ≤ b.length then some (.ok (b.readAt off n)) else none

/-- The bytes from `off` on. -/
def rest (b : Bytes) (off : Nat) : Checked Bytes :=
  if off ≤ b.length then some (.ok (b.drop off)) else none

/-- The little-endian number in `w` bytes at `off`. -/
def nat (b : Bytes) (off w : Nat) : Checked Nat := do return (← slice b off w).toNatLE

/-- A sum of lengths in `u64`. -/
def sum (ns : List Nat) : Checked Nat := if ns.sum < 2 ^ 64 then some (.ok ns.sum) else none

/-- A sum of two lengths. -/
def plus (m n : Nat) : Checked Nat := if m + n < 2 ^ 64 then some (.ok (m + n)) else none

/-- What is left of a length. -/
def minus (n : Nat) (ns : List Nat) : Checked Nat :=
  if ns.sum ≤ n then some (.ok (n - ns.sum)) else none

section

variable {b : Bytes} {off n : Nat}

theorem slice_eq (h : off + n ≤ b.length) : slice b off n = pure (b.readAt off n) := if_pos h

theorem rest_eq (h : off ≤ b.length) : rest b off = pure (b.drop off) := if_pos h

theorem nat_eq (h : off + n ≤ b.length) : nat b off n = pure (b.natAt off n) := by
  rw [nat, slice_eq h]
  rfl

end

theorem sum_eq {ns : List Nat} (h : ns.sum < 2 ^ 64) : sum ns = pure ns.sum := if_pos h

theorem plus_eq {m n : Nat} (h : m + n < 2 ^ 64) : plus m n = pure (m + n) := if_pos h

theorem minus_eq {n m : Nat} {ns : List Nat} (h : n = m + ns.sum) : minus n ns = pure m := by
  rw [minus, if_pos (by omega), h, Nat.add_sub_cancel]
  rfl

end Checked

variable [Checksums]

open RecordFlags

open Checked

def parseHeaderChecked (input : Bytes) : Checked Header :=
  if input.length < recordHeaderLen then throw .truncated
  else do
    if (← nat input 0 2) ≠ recordMagic then throw .badMagic
    else
      let version ← nat input 2 1
      if version ≠ formatVersion then throw (.unsupportedVersion version)
      else
        let stored ← nat input 32 4
        if (Checksums.crc32c (← slice input 0 32)).toNat ≠ stored then throw .badHeaderCrc
        else
          return ⟨UInt8.ofNat (← nat input 3 1), ← nat input 4 8, ← nat input 12 8,
            ← nat input 20 4, ← nat input 24 4, ← nat input 28 4⟩

/-- The number in `w` bytes at `off`, where the frame has one. -/
def numberChecked (input : Bytes) (off w : Nat) (present : Bool) : Checked Nat :=
  if present then nat input off w else pure 0

def decodedLenChecked (header : Bytes) : Checked Nat := do
  let h ← parseHeaderChecked header
  let tagged := contains h.flags hasStreamTag
  let subjected := contains h.flags hasSubject
  let sealedBody := contains h.flags encrypted
  if sealedBody ∧ (subjected ∨ tagged) then throw .badLength
  else if tagged ∧ subjected then throw .badLength
  else if tagged ∧ header.length < recordHeaderLen + 2 then throw .truncated
  else
    let tagLen ← numberChecked header recordHeaderLen 2 tagged
    if subjected ∧ header.length < recordHeaderLen + 2 then throw .truncated
    else
      let subjectLen ← numberChecked header recordHeaderLen 2 subjected
      let total ← sum [h.keyLen, h.hdrLen, h.payloadLen, recordHeaderLen, fieldLen tagged tagLen,
        fieldLen subjected subjectLen,
        xxh3FieldLen (contains h.flags hasXxh3),
        if sealedBody then aeadTagLen else 0, recordTrailerLen]
      if maxRecordBytesCeiling < total then throw .tooLarge else return total

/-- An optional field: its own slice of the input, its bytes and its CRC are slices of that. -/
def fieldChecked (input : Bytes) (off : Nat) (present : Bool) (len : Nat) (e : DecodeError) :
    Checked Bytes :=
  if present then do
    let field ← slice input off (fieldLen present len)
    let bytes ← slice field 2 len
    let stored ← nat field (2 + len) 4
    if (Checksums.crc32c (← slice field 0 (2 + len))).toNat ≠ stored then throw e else return bytes
  else return []

/-- The frame past its header, as `decodeBody`: `total` is summed before anything else is cut. -/
def decodeBodyChecked (input : Bytes) (h : Header) (tagged subjected : Bool)
    (tagLen subjectLen : Nat) : Checked DecodedFrame := do
  let xxh3d := contains h.flags hasXxh3
  let total ← sum [h.keyLen, h.hdrLen, h.payloadLen, recordHeaderLen, fieldLen tagged tagLen,
    fieldLen subjected subjectLen, xxh3FieldLen xxh3d, recordTrailerLen]
  if maxRecordBytesCeiling < total then throw .tooLarge
  else if input.length < total then throw .truncated
  else
    let bodyLen ← minus total [recordHeaderLen, fieldLen tagged tagLen,
      fieldLen subjected subjectLen, recordTrailerLen, xxh3FieldLen xxh3d]
    if contains h.flags hasKey != decide (h.keyLen ≠ 0) then
      throw .badLength
    else if xxh3d != decide (xxh3PayloadThreshold ≤ bodyLen) then throw .badLength
    else
      let streamTag ← fieldChecked input recordHeaderLen tagged tagLen .badStreamTagCrc
      let subjectOff ← plus recordHeaderLen (fieldLen tagged tagLen)
      let subject ← fieldChecked input subjectOff subjected subjectLen .badSubjectCrc
      let bodyStart ← plus subjectOff (fieldLen subjected subjectLen)
      let body ← slice input bodyStart bodyLen
      let bodyEnd ← plus bodyStart bodyLen
      let xxh3Bytes ← slice input bodyEnd (xxh3FieldLen xxh3d)
      let trailerOff ← minus total [recordTrailerLen]
      let trailer ← slice input trailerOff recordTrailerLen
      let storedBodyCrc ← nat trailer 0 4
      let storedTotal ← nat trailer 4 4
      if storedTotal != total then throw .badLength
      else if (Checksums.crc32c body).toNat != storedBodyCrc then throw .badBodyCrc
      else
        let storedXxh3 ← numberChecked xxh3Bytes 0 8 xxh3d
        if xxh3d && (Checksums.xxh3 body).toNat != storedXxh3 then throw .badXxh3
        else
          let key ← slice body 0 h.keyLen
          let headers ← slice body h.keyLen h.hdrLen
          let payload ← rest body (h.keyLen + h.hdrLen)
          return ⟨⟨h.seq, h.timestampMs, h.flags, key, headers, payload⟩, subject, streamTag, total⟩

def decodeInnerChecked (input : Bytes) : Checked DecodedFrame := do
  let h ← parseHeaderChecked input
  let tagged := contains h.flags hasStreamTag
  let subjected := contains h.flags hasSubject
  if contains h.flags encrypted then throw .encrypted
  else if tagged ∧ subjected then throw .badLength
  else if tagged ∧ input.length < recordHeaderLen + 2 then throw .truncated
  else
    let tagLen ← numberChecked input recordHeaderLen 2 tagged
    if tagged ∧ tagLen = 0 then throw .badLength
    else
      let subjectOff ← plus recordHeaderLen (fieldLen tagged tagLen)
      if subjected ∧ input.length < subjectOff + 2 then throw .truncated
      else
        let subjectLen ← numberChecked input subjectOff 2 subjected
        if subjected ∧ subjectLen = 0 then throw .badLength
        else decodeBodyChecked input h tagged subjected tagLen subjectLen

/-! ## Every read is in bounds -/

variable {e : DecodeError} {input : Bytes} {off : Nat} {present : Bool}

omit [Checksums] in
theorem ite_eq {α : Type} {c : Prop} [Decidable c] {x : Checked α} {y : Except DecodeError α}
    (h : ¬ c → x = some y) :
    (if c then throw e else x) = some (if c then .error e else y) := by
  by_cases hc : c
  · rw [if_pos hc, if_pos hc]
    rfl
  · rw [if_neg hc, if_neg hc, h hc]

/-- The first failing check decides, else the frame. -/
def outcome (checks : List (Bool × DecodeError)) (f : DecodedFrame) :
    Except DecodeError DecodedFrame :=
  match checks.find? Prod.fst with
  | some (_, e) => .error e
  | none => .ok f

theorem parseHeaderChecked_eq (input : Bytes) :
    parseHeaderChecked input = some (parseHeader input) := by
  unfold parseHeaderChecked parseHeader
  by_cases hlen : input.length < recordHeaderLen
  · rw [if_pos hlen, if_pos hlen]
    rfl
  · rw [if_neg hlen, if_neg hlen]
    simp only [recordHeaderLen] at hlen
    simp (disch := omega) only [nat_eq, slice_eq, pure_bind]
    split_ifs <;> rfl

/-- A length field of the header fits its width. -/
theorem header_lens {h : Header} (hp : parseHeader input = .ok h) :
    recordHeaderLen ≤ input.length ∧ h.keyLen < 2 ^ 32 ∧ h.hdrLen < 2 ^ 32
      ∧ h.payloadLen < 2 ^ 32 := by
  obtain ⟨hlen, -, -, -, rfl⟩ := parseHeader_eq_ok_iff.mp hp
  exact ⟨hlen, natAt_lt _ _ 4, natAt_lt _ _ 4, natAt_lt _ _ 4⟩

omit [Checksums] in
theorem numberChecked_eq {w : Nat} (h : present = true → off + w ≤ input.length) :
    numberChecked input off w present = pure (if present then input.natAt off w else 0) := by
  cases present with
  | false => rfl
  | true => exact nat_eq (h rfl)

omit [Checksums] in
theorem fieldLen_lt {len : Nat} (present : Bool) (h : len < 2 ^ 16) :
    fieldLen present len < 2 ^ 17 := by
  cases present <;> simp [fieldLen]
  omega

omit [Checksums] in
theorem natAt_len_lt (b : Bytes) (off : Nat) (present : Bool) :
    (if present then b.natAt off 2 else 0) < 2 ^ 16 := by
  cases present with
  | false => exact Nat.two_pow_pos 16
  | true => exact natAt_lt _ _ 2

theorem decodedLenChecked_eq (header : Bytes) :
    decodedLenChecked header = some (decodedLen header) := by
  unfold decodedLenChecked decodedLen
  rw [parseHeaderChecked_eq]
  cases hp : parseHeader header with
  | error e => rfl
  | ok h =>
    obtain ⟨-, hk, hh, hpl⟩ := header_lens hp
    change (pure h : Checked Header) >>= _ = _
    simp only [pure_bind]
    generalize contains h.flags hasStreamTag = tagged
    generalize contains h.flags hasSubject = subjected
    generalize contains h.flags encrypted = sealedBody
    generalize contains h.flags hasXxh3 = xxh3d
    refine ite_eq fun _ => ite_eq fun _ => ite_eq fun htag => ?_
    rw [numberChecked_eq (fun ht => not_lt.mp fun hlt => htag ⟨ht, hlt⟩), pure_bind]
    refine ite_eq fun hsub => ?_
    rw [numberChecked_eq (fun hs => not_lt.mp fun hlt => hsub ⟨hs, hlt⟩), pure_bind]
    have hlens : ∀ p : Bool, fieldLen p (if p then header.natAt recordHeaderLen 2 else 0)
        = fieldLen p (header.natAt recordHeaderLen 2) := by
      intro p
      cases p <;> rfl
    have htagLt := fieldLen_lt tagged (natAt_len_lt header recordHeaderLen tagged)
    have hsubLt := fieldLen_lt subjected (natAt_len_lt header recordHeaderLen subjected)
    have hx : xxh3FieldLen xxh3d ≤ 8 := by cases xxh3d <;> decide
    have ha : (if sealedBody then aeadTagLen else 0) ≤ 16 := by cases sealedBody <;> decide
    rw [hlens] at htagLt hsubLt
    have hc : recordHeaderLen = 36 ∧ recordTrailerLen = 8 := ⟨rfl, rfl⟩
    rw [hlens, hlens, sum_eq (by simp only [sum_cons, sum_nil]; omega), pure_bind]
    simp only [sum_cons, sum_nil, Nat.add_zero, Nat.add_assoc]
    exact ite_eq fun _ => rfl

/-! ## The checks of the body, one by one -/

omit [Checksums] in
theorem outcome_cons {p : Prop} [Decidable p] {c : Bool} {checks : List (Bool × DecodeError)}
    {f : DecodedFrame} {x : Checked DecodedFrame} (hc : p ↔ c = true)
    (h : c = false → x = some (outcome checks f)) :
    (if p then throw e else x) = some (outcome ((c, e) :: checks) f) := by
  cases c with
  | true =>
    rw [if_pos (hc.mpr rfl)]
    rfl
  | false =>
    rw [if_neg (by simp [hc]), h rfl]
    rfl

theorem fieldChecked_bind {len : Nat} {checks : List (Bool × DecodeError)} {f : DecodedFrame}
    {k : Bytes → Checked DecodedFrame} (hlen : off + fieldLen present len ≤ input.length)
    (h : k (if present then input.readAt (off + 2) len else []) = some (outcome checks f)) :
    (fieldChecked input off present len e >>= k)
      = some (outcome ((present && !fieldCrcOk input off len, e) :: checks) f) := by
  cases present with
  | false => simpa [fieldChecked, outcome] using h
  | true =>
    simp only [fieldLen, if_true] at hlen
    have hfield : (input.readAt off (2 + len + 4)).length = 2 + len + 4 :=
      length_readAt_of_le hlen
    simp only [fieldChecked, fieldLen, if_true]
    simp (disch := omega) only [slice_eq, nat_eq, pure_bind, natAt, readAt_readAt]
    have hcrc : fieldCrcOk input off len
        = ((Checksums.crc32c (input.readAt off (2 + len))).toNat
          == (input.readAt (off + (2 + len)) 4).toNatLE) := by
      rw [fieldCrcOk, natAt, Nat.add_assoc]
    rw [hcrc, Nat.add_zero]
    by_cases hok : (Checksums.crc32c (input.readAt off (2 + len))).toNat
        = (input.readAt (off + (2 + len)) 4).toNatLE
    · rw [if_neg (not_not_intro hok), hok, pure_bind]
      simpa [outcome] using h
    · rw [if_pos hok]
      simp [outcome, hok]
      rfl

omit [Checksums] in
theorem xxh3_number {xxh3d : Bool} (h : off + xxh3FieldLen xxh3d ≤ input.length) :
    numberChecked (input.readAt off (xxh3FieldLen xxh3d)) 0 8 xxh3d
      = pure (if xxh3d then input.natAt off 8 else 0) := by
  have hlen := length_readAt_of_le h
  cases xxh3d with
  | false => rfl
  | true =>
    rw [numberChecked_eq fun _ => by rw [hlen]; rfl, natAt, readAt_readAt (by decide)]
    rfl

theorem decodeBodyChecked_eq {h : Header} {tagged subjected : Bool} {tagLen subjectLen : Nat}
    (ht : tagLen < 2 ^ 16) (hs : subjectLen < 2 ^ 16) (hk : h.keyLen < 2 ^ 32)
    (hh : h.hdrLen < 2 ^ 32) (hp : h.payloadLen < 2 ^ 32) :
    decodeBodyChecked input h tagged subjected tagLen subjectLen
      = some (decodeBody input h tagged subjected tagLen subjectLen) := by
  change _ = some (outcome (bodyChecks input h tagged subjected tagLen subjectLen)
    (bodyFrame input h tagged subjected tagLen subjectLen))
  have ht' := fieldLen_lt tagged ht
  have hs' := fieldLen_lt subjected hs
  have hc : recordHeaderLen = 36 ∧ recordTrailerLen = 8 := ⟨rfl, rfl⟩
  unfold decodeBodyChecked bodyChecks bodyFrame
  have htotal : totalLen h tagged subjected tagLen subjectLen = [h.keyLen, h.hdrLen, h.payloadLen,
      recordHeaderLen, fieldLen tagged tagLen, fieldLen subjected subjectLen,
      xxh3FieldLen (contains h.flags hasXxh3), recordTrailerLen].sum := by
    simp only [totalLen, sum_cons, sum_nil, Nat.add_zero, Nat.add_assoc]
  generalize contains h.flags hasXxh3 = xxh3d at *
  have hx : xxh3FieldLen xxh3d ≤ 8 := by cases xxh3d <;> decide
  simp only
  -- all lengths are below `2 ^ 32`, so no sum overflows
  rw [sum_eq (by simp only [sum_cons, sum_nil]; omega), ← htotal, pure_bind]
  simp only [sum_cons, sum_nil] at htotal
  refine outcome_cons (by simp) fun hmax => outcome_cons (by simp) fun hlen => ?_
  simp only [decide_eq_false_iff_not, Nat.not_lt] at hmax hlen
  have hmaxLt : maxRecordBytesCeiling < 2 ^ 63 := by decide
  generalize totalLen h tagged subjected tagLen subjectLen = total at *
  rw [minus_eq (m := h.keyLen + h.hdrLen + h.payloadLen)
    (by simp only [sum_cons, sum_nil]; omega), pure_bind]
  refine outcome_cons Iff.rfl fun _ => outcome_cons Iff.rfl fun _ => ?_
  refine fieldChecked_bind (by omega) ?_
  rw [plus_eq (by omega), pure_bind]
  refine fieldChecked_bind (by omega) ?_
  have hbody : (input.readAt (recordHeaderLen + fieldLen tagged tagLen
      + fieldLen subjected subjectLen) (h.keyLen + h.hdrLen + h.payloadLen)).length
      = h.keyLen + h.hdrLen + h.payloadLen := length_readAt_of_le (by omega)
  have htrailer : (input.readAt (total - 8) recordTrailerLen).length = 8 :=
    length_readAt_of_le (by omega)
  simp (disch := omega) only [plus_eq, slice_eq, pure_bind]
  rw [minus_eq (m := total - 8) (by simp; omega)]
  simp (disch := omega) only [slice_eq, nat_eq, pure_bind]
  have hat : ∀ i, i + 4 ≤ 8 → (input.readAt (total - 8) recordTrailerLen).natAt i 4
      = input.natAt (total - 8 + i) 4 := by
    intro i hi
    rw [natAt, readAt_readAt (by omega), ← natAt]
  rw [hat 0 (by omega), hat 4 (by omega), show total - 8 + 4 = total - 4 by omega]
  refine outcome_cons Iff.rfl fun _ => outcome_cons Iff.rfl fun _ => ?_
  rw [xxh3_number (by omega), pure_bind]
  refine outcome_cons (by cases xxh3d <;> rfl) fun _ => ?_
  rw [rest_eq (by omega), pure_bind]
  rfl

theorem decodeInnerChecked_eq (input : Bytes) :
    decodeInnerChecked input = some (decodeInner input) := by
  unfold decodeInnerChecked decodeInner
  rw [parseHeaderChecked_eq]
  cases hp : parseHeader input with
  | error e => rfl
  | ok h =>
    obtain ⟨-, hk, hh, hpl⟩ := header_lens hp
    change (pure h : Checked Header) >>= _ = _
    simp only [pure_bind]
    refine ite_eq fun _ => ite_eq fun _ => ite_eq fun htag => ?_
    rw [numberChecked_eq (fun ht => not_lt.mp fun hlt => htag ⟨ht, hlt⟩), pure_bind]
    refine ite_eq fun _ => ?_
    have htagLt := natAt_len_lt input recordHeaderLen
      (contains h.flags hasStreamTag)
    have hfieldLt := fieldLen_lt (contains h.flags hasStreamTag) htagLt
    rw [plus_eq (by simp only [recordHeaderLen] at hfieldLt ⊢; omega), pure_bind]
    refine ite_eq fun hsub => ?_
    rw [numberChecked_eq (fun hs => not_lt.mp fun hlt => hsub ⟨hs, hlt⟩), pure_bind]
    exact ite_eq fun _ => decodeBodyChecked_eq htagLt (natAt_len_lt input _ _) hk hh hpl

/-! ## Cut frames -/

section

variable {input : Bytes} {f : DecodedFrame} {k : Nat}

omit [Checksums] in
theorem natAt_take (h : recordHeaderLen + 2 ≤ k) :
    natAt (input.take k) recordHeaderLen 2 = input.natAt recordHeaderLen 2 :=
  natAt_congr_take (n := k) (by rw [take_take, Nat.min_self]) h

/-- The header, with the length of the optional field if there is one, sizes the frame. -/
theorem decodedLen_take (hf : decodeInner input = .ok f)
    (hk : recordHeaderLen + 2 ≤ k ∨ recordHeaderLen ≤ k
      ∧ (contains f.view.flags hasStreamTag
        || contains f.view.flags hasSubject) = false) :
    decodedLen (input.take k) = .ok f.total := by
  have hall := decodedLen_of_decodeInner hf
  obtain ⟨h, hparse, -, -, hfield, hbody⟩ := (decodeInner_eq_ok_iff).mp hf
  have hflags : f.view.flags = h.flags := by rw [(decodeBody_eq_ok_iff.mp hbody).2]; rfl
  rw [hflags] at hk
  by_cases hkl : input.length ≤ k
  · rwa [take_of_length_le hkl]
  have hlen : (input.take k).length = k := length_take_of_le (by omega)
  have hparse' : parseHeader (input.take k) = .ok h :=
    parseHeader_congr (n := k) hparse (hk.elim (by omega) And.left) hlen.ge (by simp)
  simp only [decodedLen, hparse, hparse', hlen] at hall ⊢
  generalize contains h.flags hasStreamTag = tagged at *
  generalize contains h.flags hasSubject = subjected at *
  by_cases hnone : (tagged || subjected) = false
  · simp only [Bool.or_eq_false_iff] at hnone
    obtain ⟨rfl, rfl⟩ := hnone
    simpa [fieldLen] using hall
  · have hlong : recordHeaderLen + 2 ≤ k := hk.resolve_right fun hshort => hnone hshort.2
    have hle := (hfield (by rwa [← Bool.not_eq_false])).1
    rw [natAt_take hlong]
    simpa [not_lt.mpr hlong, not_lt.mpr hle] using hall

/-- A frame that is cut anywhere is reported as truncated. -/
theorem decodeInner_take (hf : decodeInner input = .ok f) (hk : k < f.total) :
    decodeInner (input.take k) = .error .truncated := by
  obtain ⟨h, hparse, henc, hexcl, hfield, hbody⟩ := (decodeInner_eq_ok_iff).mp hf
  obtain ⟨htotal, hmax, htl⟩ := decodeBody_total hbody
  have hlen : (input.take k).length = k := length_take_of_le (by omega)
  by_cases hhead : k < recordHeaderLen
  · simp only [decodeInner, parseHeader, hlen, if_pos hhead]
  have hparse' : parseHeader (input.take k) = .ok h :=
    parseHeader_congr (n := k) hparse (by omega) hlen.ge (by simp)
  simp only [decodeInner, hparse', henc, hlen]
  have hcut : ∀ t s tl sl, totalLen h t s tl sl = f.total →
      decodeBody (input.take k) h t s tl sl = .error .truncated := by
    intro t s tl sl ht
    rw [decodeBody, bodyChecks]
    simp only [ht, hlen]
    rw [find?_cons_of_neg (by simpa using hmax), find?_cons_of_pos (by simpa using hk)]
  generalize contains h.flags hasStreamTag = tagged at *
  generalize contains h.flags hasSubject = subjected at *
  by_cases hpre : recordHeaderLen + 2 ≤ k
  · have hnat := @natAt_take input k hpre
    cases tagged <;> cases subjected <;> simp [prefixLen] at hexcl hfield htotal
    all_goals simp [fieldLen, hnat, hfield, not_lt.mpr hpre, hcut _ _ _ _ htotal.symm]
  · rw [Nat.not_le] at hpre
    cases tagged <;> cases subjected <;> simp [prefixLen] at hexcl htotal
    all_goals simp [fieldLen, hpre, hcut _ _ _ _ htotal.symm]

end

/-- The header of a frame that decodes gives its length, a frame that is cut is truncated, and no
input makes a decoder slice or sum out of range. -/
theorem codec_bounds (input : Bytes) :
    (∀ f, decodeInner input = .ok f →
      f.total ≤ input.length ∧ decodedLen input = .ok f.total
      ∧ (∀ k, (recordHeaderLen + 2 ≤ k ∨ recordHeaderLen ≤ k
            ∧ (contains f.view.flags hasStreamTag
              || contains f.view.flags hasSubject) = false) →
          decodedLen (input.take k) = .ok f.total)
      ∧ (∀ tail, decodeInner (input.take f.total ++ tail) = .ok f)
      ∧ ∀ k < f.total, decodeInner (input.take k) = .error .truncated)
    ∧ decodedLenChecked input = some (decodedLen input)
    ∧ decodeInnerChecked input = some (decodeInner input) := by
  refine ⟨fun f hf => ?_, decodedLenChecked_eq input, decodeInnerChecked_eq input⟩
  exact ⟨(total_le_of_decodeInner hf).2, decodedLen_of_decodeInner hf,
    fun k hk => decodedLen_take hf hk, decodeInner_take_append hf,
    fun k hk => decodeInner_take hf hk⟩

end Codec

section Concrete

open Codec

local instance boundChecksums : Checksums := ⟨castagnoli, fun _ => 0⟩

/-- A record with a key and a subject, sized from 38 bytes and cut before its last. -/
theorem codec_bounds_subject :
    decodedLen ((frameBytes ⟨7, 9, 0, [107], [], [1, 2]⟩ [111] []).take 38) = .ok 54
      ∧ decodeInner ((frameBytes ⟨7, 9, 0, [107], [], [1, 2]⟩ [111] []).take 53)
        = .error .truncated := by
  have hf : decodeInner (frameBytes ⟨7, 9, 0, [107], [], [1, 2]⟩ [111] [])
      = .ok ⟨⟨7, 9, 10, [107], [], [1, 2]⟩, [111], [], 54⟩ := by decide +kernel
  obtain ⟨-, -, hlen, -, hcut⟩ := (codec_bounds _).1 _ hf
  exact ⟨hlen 38 (.inl (by decide)), hcut 53 (by decide)⟩

end Concrete

end IronBus
