import IronBus.Native.SegmentReader
import IronBus.Spec.CodecCanonical

/-!
# Runs of frames

A `Stored` frame is a byte string that decodes to one record whatever follows it. The record
region of a segment is a run of stored frames and then bytes that do not decode; every walk of
the reader returns exactly that run.
-/

namespace IronBus

variable [Checksums]

/-! ## Fuel -/

theorem framesAux_of_error {body : Bytes} {e : DecodeError}
    (h : Codec.decodeInner body = .error e) (fuel : Nat) : framesAux fuel body = [] := by
  cases fuel with
  | zero => rfl
  | succ fuel => simp [framesAux, h]

/-- Any fuel of at least the body's length gives the same run: each frame consumes bytes. -/
theorem framesAux_eq_frames {fuel : Nat} {body : Bytes} (h : body.length ≤ fuel) :
    framesAux fuel body = frames body := by
  induction fuel using Nat.strong_induction_on generalizing body with
  | _ fuel ih =>
    cases hd : Codec.decodeInner body with
    | error e => rw [frames, framesAux_of_error hd, framesAux_of_error hd]
    | ok f =>
      obtain ⟨hmin, hmax⟩ := Codec.total_le_of_decodeInner hd
      obtain ⟨fuel, rfl⟩ : ∃ k, fuel = k + 1 := ⟨fuel - 1, by omega⟩
      obtain ⟨n, hn⟩ : ∃ k, body.length = k + 1 := ⟨body.length - 1, by omega⟩
      have hdrop : (body.drop f.total).length ≤ fuel ∧ (body.drop f.total).length ≤ n := by
        rw [List.length_drop]
        omega
      simp only [frames, hn, framesAux, hd]
      rw [ih fuel (by omega) hdrop.1]
      by_cases hlt : n < fuel + 1
      · rw [ih n hlt hdrop.2]
      · have : n = fuel := by omega
        rw [this, ih fuel (by omega) hdrop.1]

theorem frames_of_ok {body : Bytes} {f : DecodedFrame} (h : Codec.decodeInner body = .ok f) :
    frames body = f :: frames (body.drop f.total) := by
  obtain ⟨hmin, hmax⟩ := Codec.total_le_of_decodeInner h
  obtain ⟨n, hn⟩ : ∃ k, body.length = k + 1 := ⟨body.length - 1, by omega⟩
  rw [frames, hn]
  simp only [framesAux, h]
  rw [framesAux_eq_frames (by rw [List.length_drop]; omega)]

/-! ## Stored frames -/

namespace Stored

omit [Checksums] in
theorem not_encrypted_zero : RecordFlags.contains 0 RecordFlags.encrypted = false := by decide

omit [Checksums] in
theorem encodedLen_payload_le {payload : Bytes} (h : payload.length < 2 ^ 29) :
    Codec.encodedLen ⟨0, 0, 0, [], [], payload⟩ [] [] ≤ Codec.maxRecordBytesCeiling := by
  simp only [Codec.encodedLen, Codec.fieldLen, Codec.xxh3FieldLen, Codec.maxRecordBytesCeiling,
    Codec.recordHeaderLen, Codec.recordTrailerLen, Codec.recordXxh3Len]
  split_ifs <;> simp_all <;> omega

/-- The frame of a record that has only a payload. -/
def ofPayload (payload : Bytes) (h : payload.length < 2 ^ 29) : Stored where
  bytes := Codec.frameBytes ⟨0, 0, 0, [], [], payload⟩ [] []
  frame :=
    { view := { (⟨0, 0, 0, [], [], payload⟩ : RecordView) with
        flags := Codec.storedFlags ⟨0, 0, 0, [], [], payload⟩ [] [] }
      subject := []
      streamTag := []
      total := Codec.encodedLen ⟨0, 0, 0, [], [], payload⟩ [] [] }
  total_eq := (Codec.length_frameBytes ..).symm
  decode_append rest := Codec.decodeInner_frameBytes rest (.inl rfl) not_encrypted_zero
    (Nat.two_pow_pos _) (Nat.two_pow_pos _) (Nat.two_pow_pos _) (Nat.two_pow_pos _)
    (encodedLen_payload_le h)

/-- The bytes of a run. -/
def flat (ss : List Stored) : Bytes := ss.flatMap bytes

@[simp] theorem flat_nil : flat ([] : List Stored) = [] := rfl

@[simp] theorem flat_cons (s : Stored) (ss : List Stored) : flat (s :: ss) = s.bytes ++ flat ss :=
  rfl

/-- A walk over a run returns its frames and goes on behind it. -/
theorem frames_flat_append (ss : List Stored) (rest : Bytes) :
    frames (flat ss ++ rest) = ss.map frame ++ frames rest := by
  induction ss with
  | nil => simp
  | cons s ss ih =>
    rw [flat_cons, List.append_assoc, frames_of_ok (s.decode_append _), s.total_eq,
      List.drop_left, ih]
    rfl

end Stored

end IronBus
