import IronBus.Spec.CursorCorrect
import IronBus.Spec.ProducerSeqCorrect

/-!
# The snapshot codecs

The cursor and the sequence registry are saved as a version, a body and a checksum over both.

Key results:
- `decodeSnapshot_encodeSnapshot`, `encodeSnapshot_of_decode`: the codec of the cursor
- `snapshots_canonical`: each decoder accepts exactly the strings its encoder writes for a value of
  the right shape
-/

namespace IronBus

open Bytes List SeqSnapshot

variable [Checksums]

/-- A string that passes the checksum is its body followed by the checksum of the body. -/
theorem eq_take_append_crc {input : Bytes} (hlen : 4 ≤ input.length)
    (hcrc : (Checksums.crc32c (input.take (input.length - 4))).toNat
      = input.natAt (input.length - 4) 4) :
    input.take (input.length - 4)
      ++ ofNatLE 4 (Checksums.crc32c (input.take (input.length - 4))).toNat = input := by
  have hlast : input.readAt (input.length - 4) 4 = input.drop (input.length - 4) := by
    rw [readAt, take_of_length_le (by rw [length_drop]; omega)]
  rw [hcrc, ofNatLE_natAt (by omega), hlast, take_append_drop]

namespace AckCursor

omit [Checksums] in
@[simp] theorem length_encodeRanges (l : List (Nat × Nat)) :
    (l.flatMap encodeRange).length = 16 * l.length := by
  induction l with
  | nil => rfl
  | cons r l ih => simp [encodeRange, ih]; omega

omit [Checksums] in
theorem decodeRanges_encode {l : List (Nat × Nat)} (hl : ∀ r ∈ l, r.1 < 2 ^ 64 ∧ r.2 < 2 ^ 64)
    (rest : Bytes) : decodeRanges l.length (l.flatMap encodeRange ++ rest) = l := by
  induction l with
  | nil => rfl
  | cons r l ih =>
    obtain ⟨h1, h2⟩ := hl r mem_cons_self
    have hdrop : (encodeRange r ++ (l.flatMap encodeRange ++ rest)).drop 16
        = l.flatMap encodeRange ++ rest := drop_left' (by simp [encodeRange])
    rw [flatMap_cons, append_assoc, length_cons, decodeRanges, hdrop,
      ih fun r hr => hl r (mem_cons_of_mem _ hr)]
    congr 1
    rw [encodeRange, append_assoc]
    refine Prod.ext (natAt_ofNatLE (by omega)) ?_
    show natAt _ 8 8 = r.2
    rw [natAt_append_at (by simp)]
    exact natAt_ofNatLE (by omega)

omit [Checksums] in
/-- The ranges read from a string are the string, written out. -/
theorem encode_decodeRanges (n : Nat) {input : Bytes} (hlen : 16 * n ≤ input.length) :
    (decodeRanges n input).flatMap encodeRange = input.take (16 * n) := by
  induction n generalizing input with
  | zero => rfl
  | succ n ih =>
    rw [decodeRanges, flatMap_cons, ih (by rw [length_drop]; omega), encodeRange,
      ofNatLE_natAt (by omega), ofNatLE_natAt (by omega),
      readAt_append_readAt input (by omega)]
    show input.readAt 0 16 ++ input.readAt 16 (16 * n) = _
    rw [readAt_append_readAt input (by omega), readAt, drop_zero,
      show 16 + 16 * n = 16 * (n + 1) by omega]

omit [Checksums] in
theorem decodeRanges_lt (n : Nat) (input : Bytes) :
    ∀ r ∈ decodeRanges n input, r.1 < 2 ^ 64 ∧ r.2 < 2 ^ 64 := by
  induction n generalizing input with
  | zero => nofun
  | succ n ih =>
    intro r hr
    rcases mem_cons.mp hr with rfl | hr
    · exact ⟨natAt_lt input 0 8, natAt_lt input 8 8⟩
    · exact ih _ r hr

omit [Checksums] in
theorem length_encodeBody (c : AckCursor) : c.encodeBody.length = 9 + 16 * c.ahead.length := by
  rw [encodeBody, length_append, length_encodeRanges, length_append,
    length_ofNatLE]
  rfl

omit [Checksums] in
theorem resumeWithAhead_of_runs {committed : Nat} {ahead : List (Nat × Nat)}
    (h : Runs committed ahead) : resumeWithAhead committed ahead = .ok ⟨committed, ahead⟩ := by
  have hcheck : checkAhead committed ahead = .ok () := by
    induction ahead generalizing committed with
    | nil => rfl
    | cons r rest ih =>
      obtain ⟨hlo, hlt, hrest⟩ := h
      rw [checkAhead, if_neg (by omega), if_neg (by omega), ih hrest]
  rw [resumeWithAhead, hcheck]

/-- A snapshot is read back as the cursor it was made of. -/
theorem decodeSnapshot_encodeSnapshot {c : AckCursor} (h : c.Wf) :
    decodeSnapshot c.encodeSnapshot = .ok c := by
  have hbody := length_encodeBody c
  have hlen : c.encodeSnapshot.length = c.encodeBody.length + 4 := by simp [encodeSnapshot]
  have htake : c.encodeSnapshot.take c.encodeBody.length = c.encodeBody := take_left
  have hcrc : c.encodeSnapshot.natAt c.encodeBody.length 4
      = (Checksums.crc32c c.encodeBody).toNat := by
    rw [encodeSnapshot, natAt_append_at rfl, ← append_nil (ofNatLE 4 _)]
    exact natAt_ofNatLE (Checksums.crc32c c.encodeBody).toNat_lt
  have hbound : ∀ r ∈ c.ahead, r.1 < 2 ^ 64 ∧ r.2 < 2 ^ 64 := fun r hr => by
    have := h.ahead_le r hr
    have := (h.runs.lt_of_mem hr).2
    unfold u64Max at *
    omega
  have hcommitted : c.encodeSnapshot.natAt 1 8 = c.committed := by
    have hle := h.committed_le
    rw [encodeSnapshot, encodeBody, append_assoc, append_assoc,
      natAt_append_at (show 1 = [snapshotVersion].length from rfl)]
    exact natAt_ofNatLE (by unfold u64Max at hle; omega)
  have hranges : decodeRanges c.ahead.length (c.encodeSnapshot.drop 9) = c.ahead := by
    rw [encodeSnapshot, encodeBody, append_assoc, drop_left' (by simp)]
    exact decodeRanges_encode hbound _
  have hver : c.encodeSnapshot.head? = some snapshotVersion := rfl
  have hcount : (c.encodeSnapshot.length - snapshotMinLen) = 16 * c.ahead.length := by
    rw [hlen, hbody, snapshotMinLen]
    omega
  simp only [decodeSnapshot, hcount, hver]
  rw [if_neg (by rw [hlen, hbody, snapshotMinLen]; omega), if_neg (by simp), if_neg (by simp),
    hlen, Nat.add_sub_cancel, htake, hcrc, if_neg (by simp), hcommitted,
    Nat.mul_div_cancel_left _ (by decide), hranges, resumeWithAhead_of_runs h.runs]

/-- What is accepted is well formed, and is what the encoder writes. -/
theorem encodeSnapshot_of_decode {input : Bytes} {c : AckCursor}
    (h : decodeSnapshot input = .ok c) : c.Wf ∧ c.encodeSnapshot = input := by
  simp only [decodeSnapshot] at h
  split_ifs at h with hshort hmod hver hcrc
  rw [not_lt, snapshotMinLen] at hshort
  rw [not_not] at hmod hver hcrc
  generalize hruns : decodeRanges ((input.length - snapshotMinLen) / 16) (input.drop 9) = ahead at h
  have hbound := decodeRanges_lt ((input.length - snapshotMinLen) / 16) (input.drop 9)
  rw [hruns] at hbound
  cases hres : resumeWithAhead (input.natAt 1 8) ahead with
  | error e => simp [hres] at h
  | ok c' =>
    simp only [hres, Except.ok.injEq] at h
    subst h
    unfold resumeWithAhead at hres
    split at hres
    · cases hres
    rename_i hcheck
    obtain rfl := Except.ok.inj hres
    have hcommitted := natAt_lt input 1 8
    refine ⟨⟨runs_of_checkAhead hcheck, Nat.le_of_lt_succ hcommitted, fun r hr => ?_⟩, ?_⟩
    · have := (hbound r hr).2
      unfold u64Max
      omega
    have hbody : (⟨input.natAt 1 8, ahead⟩ : AckCursor).encodeBody
        = input.take (input.length - 4) := by
      have hnum : 16 * ((input.length - snapshotMinLen) / 16) = input.length - 13 :=
        Nat.mul_div_cancel' (Nat.dvd_of_mod_eq_zero hmod)
      have hfirst : [snapshotVersion] = input.readAt 0 1 := by
        cases input with
        | nil => cases hver
        | cons b bs => simpa [readAt] using (Option.some.inj hver).symm
      rw [encodeBody, ← hruns, encode_decodeRanges _ (by rw [hnum, length_drop]; omega),
        hnum, ofNatLE_natAt (by omega), hfirst,
        readAt_append_readAt input (by omega)]
      show input.readAt 0 9 ++ input.readAt 9 (input.length - 13) = _
      rw [readAt_append_readAt input (by omega), readAt, drop_zero,
        show 9 + (input.length - 13) = input.length - 4 by omega]
    rw [encodeSnapshot, hbody]
    exact eq_take_append_crc (by omega) hcrc

end AckCursor

namespace SeqSnapshot

omit [Checksums] in
/-- The entries read from a body are the body, written out; they fit their fields and are in
order. -/
theorem encode_of_decodeEntries {len fuel : Nat} {body : Bytes} {prev : Option Bytes}
    {entries : List SeqHighWater} (hfuel : body.length ≤ fuel)
    (h : decodeEntries len fuel body prev = .ok entries) :
    entries.flatMap encodeEntry = body ∧ (∀ e ∈ entries, e.Fits)
      ∧ entries.Pairwise (fun a b => a.producerId < b.producerId)
      ∧ ∀ p ∈ prev, ∀ e ∈ entries, p < e.producerId := by
  -- by induction on the fuel, which the body does not exceed
  induction fuel generalizing body prev entries with
  | zero =>
    obtain rfl := Except.ok.inj h
    rw [List.length_eq_zero_iff.mp (Nat.le_zero.mp hfuel)]
    exact ⟨rfl, nofun, .nil, fun _ _ => nofun⟩
  | succ fuel ih =>
    simp only [decodeEntries] at h
    split_ifs at h with hnil hshort hentry hsorted
    · obtain rfl := Except.ok.inj h
      rw [List.length_eq_zero_iff.mp hnil]
      exact ⟨rfl, nofun, .nil, fun _ _ => nofun⟩
    have hplen := natAt_lt body 0 2
    generalize hread : body.natAt 0 2 = plen at *
    have hpid : (body.readAt 2 plen).length = plen := length_readAt_of_le (by omega)
    cases hrest : decodeEntries len fuel (body.drop (2 + plen + 24))
        (some (body.readAt 2 plen)) with
    | error e => simp [hrest, bind, Except.bind] at h
    | ok rest =>
      simp only [hrest, bind, Except.bind, pure, Except.pure, Except.ok.injEq] at h
      subst h
      obtain ⟨hbody, hfits, hpair, hgt⟩ := ih (by rw [List.length_drop]; omega) hrest
      have hhead : SeqHighWater.Fits ⟨body.readAt 2 plen, body.natAt (2 + plen) 8,
          body.natAt (2 + plen + 8) 8, body.natAt (2 + plen + 16) 8⟩ :=
        ⟨hpid.symm ▸ hplen, natAt_lt _ _ 8, natAt_lt _ _ 8, natAt_lt _ _ 8⟩
      refine ⟨?_, ?_, ?_, ?_⟩
      · rw [List.flatMap_cons, hbody, encodeEntry_eq hhead, hpid, ← hread]
        simp (disch := omega) only [ofNatLE_natAt, readAt_append_readAt body]
        rw [hread]
        exact List.take_append_drop (2 + plen + 24) body
      · exact List.forall_mem_cons.mpr ⟨hhead, hfits⟩
      · exact List.pairwise_cons.mpr ⟨hgt _ rfl, hpair⟩
      · intro p hp
        have hlt : p < body.readAt 2 plen := by
          cases prev with
          | none => cases hp
          | some q =>
            cases hp
            simpa using hsorted
        exact List.forall_mem_cons.mpr ⟨hlt, fun e he => List.lt_trans hlt (hgt _ rfl e he)⟩

/-- What is accepted is sorted and fits, and is what the encoder writes. -/
theorem encode_of_decode {input : Bytes} {entries : List SeqHighWater}
    (h : decode input = .ok entries) :
    encode entries = input ∧ (∀ e ∈ entries, e.Fits)
      ∧ entries.Pairwise (fun a b => a.producerId < b.producerId) ∧ entries.length < 2 ^ 32 := by
  simp only [decode] at h
  split_ifs at h with hshort hver hcrc
  rw [not_lt, minLen] at hshort
  rw [not_not] at hver hcrc
  have hcount := natAt_lt input 1 4
  cases hdec : decodeEntries input.length ((input.take (input.length - 4)).drop 5).length
      ((input.take (input.length - 4)).drop 5) none with
  | error e =>
    simp only [hdec, bind, Except.bind] at h
    cases h
  | ok entries' =>
    simp only [hdec, bind, Except.bind, pure, Except.pure] at h
    split_ifs at h with hn
    obtain rfl := Except.ok.inj h
    rw [not_not] at hn
    obtain ⟨hbody, hfits, hpair, -⟩ := encode_of_decodeEntries le_rfl hdec
    refine ⟨?_, hfits, hpair, by omega⟩
    have hfirst : [version] = input.readAt 0 1 := by
      cases input with
      | nil => cases hver
      | cons b bs => simpa [readAt] using (Option.some.inj hver).symm
    have henc : encodeBody entries' = input.take (input.length - 4) := by
      have hsplit := take_append_drop 5 (input.take (input.length - 4))
      rw [take_take, min_eq_left (by omega)] at hsplit
      rw [encodeBody, hbody, min_eq_left (by omega), ← hn, ofNatLE_natAt (by omega),
        hfirst, readAt_append_readAt input (by omega)]
      exact hsplit
    rw [encode, henc]
    exact eq_take_append_crc (by omega) hcrc

end SeqSnapshot

/-- The cursor's snapshot codec reads back every cursor and accepts only what its encoder writes for
a well-formed one. That of the sequence registry reads back a list of entries exactly when the list
is sorted without repeats, its ids fit their length prefix and its length fits the count; what it
accepts is what its encoder writes for such a list. -/
theorem snapshots_canonical :
    (∀ c : AckCursor, c.Wf → AckCursor.decodeSnapshot c.encodeSnapshot = .ok c)
      ∧ (∀ (input : Bytes) (c : AckCursor), AckCursor.decodeSnapshot input = .ok c →
        Runs c.committed c.ahead ∧ c.encodeSnapshot = input)
      ∧ (∀ entries : List SeqHighWater,
        (∀ e ∈ entries, e.epoch < 2 ^ 64 ∧ e.lastSeq < 2 ^ 64 ∧ e.lastOffset < 2 ^ 64) →
        (decode (encode entries) = .ok entries
          ↔ entries.Pairwise (fun a b => a.producerId < b.producerId)
            ∧ (∀ e ∈ entries, e.producerId.length < 2 ^ 16) ∧ entries.length < 2 ^ 32))
      ∧ ∀ (input : Bytes) (entries : List SeqHighWater), decode input = .ok entries →
        encode entries = input := by
  refine ⟨fun c h => AckCursor.decodeSnapshot_encodeSnapshot h, fun input c h => ?_,
    fun entries hnum => ⟨fun h => ?_, ?_⟩, fun input entries h =>
      (encode_of_decode h).1⟩
  · obtain ⟨hwf, henc⟩ := AckCursor.encodeSnapshot_of_decode h
    exact ⟨hwf.runs, henc⟩
  · obtain ⟨-, hfits, hpair, hlen⟩ := encode_of_decode h
    exact ⟨hpair, fun e he => (hfits e he).producerId, hlen⟩
  · rintro ⟨hpair, hid, hlen⟩
    refine decode_encode (fun e he => ?_) hpair hlen
    obtain ⟨hepoch, hseq, hoff⟩ := hnum e he
    exact ⟨hid e he, hepoch, hseq, hoff⟩

end IronBus

namespace IronBus

local instance snapshotChecksums : Checksums := ⟨castagnoli, fun _ => 0⟩

/-- A cursor with a range ahead and a registry of two producers. -/
theorem snapshots_canonical_two :
    AckCursor.decodeSnapshot (AckCursor.encodeSnapshot ⟨3, [(5, 7)]⟩) = .ok ⟨3, [(5, 7)]⟩
      ∧ SeqSnapshot.decode (SeqSnapshot.encode [⟨[1], 0, 4, 9⟩, ⟨[2], 1, 0, 10⟩])
        = .ok [⟨[1], 0, 4, 9⟩, ⟨[2], 1, 0, 10⟩] := by
  have hwf : AckCursor.Wf ⟨3, [(5, 7)]⟩ := ⟨⟨by decide, by decide, trivial⟩, by decide, by decide⟩
  exact ⟨snapshots_canonical.1 _ hwf,
    (snapshots_canonical.2.2.1 _ (by decide)).mpr ⟨by decide, by decide, by decide⟩⟩

/-- Two entries out of order are encoded, and then refused. -/
theorem decode_unsorted_seq_snapshot :
    SeqSnapshot.decode (SeqSnapshot.encode [⟨[2], 0, 0, 0⟩, ⟨[1], 0, 0, 0⟩])
      = .error .notSorted := by
  decide +kernel

end IronBus
