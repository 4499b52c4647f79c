import IronBus.Native.Checkpoint

/-!
# Checkpoint recovery

The argument follows the alternation of the slots. Whatever has happened, one slot (the *anchor*,
carrying sequence `m`) is intact and recent, and the only slot a write or a crash can have damaged
is the other one, whose sequence numbers never exceed `m + 1`.

Key results:
- `Inv.open_cases`: what opening finds
- `inv_of_reach`: the anchor stands after any writes, failures, crashes and openings
- `open_recovers_recent`: opening recovers the last payload whose write succeeded, or a later one
-/

namespace IronBus.Checkpoint

open Bytes List Checkpoint

section

variable [Checksums]

/-! ## Slots -/

variable {cap seq m next : Nat} {payload slot old img f : Bytes} {written : List (Nat × Bytes)}
  {stored : Option Bytes} {h : Handle}

theorem length_encodeSlot (seq : Nat) (hp : payload.length ≤ cap) :
    (encodeSlot cap seq payload).length = slotLen cap := by
  simp only [encodeSlot, length_append, length_ofNatLE, length_replicate,
    slotLen, slotOverhead]
  omega

/-- A slot reads back as it was written. -/
theorem decodeSlot_encodeSlot (hcap : cap ≤ 65535) (hpos : 0 < seq) (hseq : seq < 2 ^ 64)
    (hp : payload.length ≤ cap) :
    decodeSlot cap (encodeSlot cap seq payload) = .valid seq payload := by
  have hlen : min payload.length 65535 = payload.length := by omega
  have hslot := length_encodeSlot seq hp
  generalize hcov : ofNatLE 8 seq ++ ofNatLE 2 payload.length ++ payload = covered
  have hcovlen : covered.length = 10 + payload.length := by
    rw [← hcov]; simp; omega
  have henc : encodeSlot cap seq payload = covered ++ replicate (cap - payload.length) 0
      ++ ofNatLE 4 (Checksums.crc32c covered).toNat := by
    rw [← hcov]; simp only [encodeSlot, hlen]
  have hseq' : (encodeSlot cap seq payload).natAt 0 8 = seq := by
    rw [natAt, henc, ← hcov]
    simp only [append_assoc]
    rw [readAt_append_left (by simp), toNatLE_ofNatLE (by omega)]
  have hlen' : (encodeSlot cap seq payload).natAt 8 2 = payload.length := by
    rw [natAt, henc, ← hcov]
    simp only [append_assoc]
    rw [← append_assoc, readAt_append_mid (by simp) (by simp),
      toNatLE_ofNatLE (by omega)]
  have hcrc : (encodeSlot cap seq payload).natAt (10 + cap) 4
      = (Checksums.crc32c covered).toNat := by
    rw [natAt, henc, ← append_nil (_ ++ ofNatLE 4 _),
      readAt_append_mid (by simp [hcovlen]; omega) (by simp)]
    exact toNatLE_ofNatLE (Checksums.crc32c covered).toNat_lt
  have hread : (encodeSlot cap seq payload).readAt 0 (10 + payload.length) = covered := by
    rw [henc, append_assoc, readAt_append_left hcovlen.symm]
  have hpay : (encodeSlot cap seq payload).readAt 10 payload.length = payload := by
    rw [henc, ← hcov, append_assoc, readAt_append_mid (by simp) rfl]
  simp only [decodeSlot, hslot, slotLen, hseq', hlen', hcrc, hread, hpay]
  rw [if_neg (by simp), if_neg (by omega), if_neg (by omega), if_neg (by simp)]

/-- A slot whose first bytes are zero was never written. -/
theorem decodeSlot_of_zero (h : slot.natAt 0 8 = 0) :
    decodeSlot cap slot = .empty := by
  simp [decodeSlot, h]

/-- A valid slot carries a positive sequence number. -/
theorem decodeSlot_seq_pos {s : Nat} {p : Bytes} (h : decodeSlot cap slot = .valid s p) :
    0 < s := by
  simp only [decodeSlot] at h
  split at h
  · exact nomatch h
  split at h
  · exact nomatch h
  · rename_i hne
    split at h
    · exact nomatch h
    · split at h
      · exact nomatch h
      · simp only [SlotDecode.valid.injEq] at h
        omega

/-- A valid slot is whole. -/
theorem length_of_decodeSlot {s : Nat} {p : Bytes} (h : decodeSlot cap slot = .valid s p) :
    slot.length = slotLen cap := by
  simp only [decodeSlot] at h
  split at h
  · cases h
  · next hlen => exact not_not.mp hlen

/-! ## Runs

A `World` is the file, the handle that has it open, and what has been issued so far. A crash
drops the handle and leaves arbitrary bytes in the slot being written, every other byte
intact; the same damage may be left behind by a write that fails while the process lives on. -/

/-- The slot of `img` that sequence number `seq` selects may hold anything that is not a
checksummed slot nobody wrote; every other byte is that of `old`. -/
structure Tears (cap : Nat) (old : Bytes) (seq : Nat) (written : List (Nat × Bytes))
    (img : Bytes) : Prop where
  grows : old.length ≤ img.length
  within : img.length ≤ max old.length (slotOffset cap seq + slotLen cap)
  outside : ∀ i < img.length, i < slotOffset cap seq ∨ slotOffset cap seq + slotLen cap ≤ i →
    img[i]? = some (old[i]?.getD 0)
  checked : ∀ s p, decodeSlot cap (img.readAt (slotOffset cap seq) (slotLen cap)) = .valid s p →
    (s, p) ∈ written ∧ s % 2 = seq % 2

/-- A checkpoint file together with the history of its writes. -/
structure World where
  /-- The file as the running process sees it. -/
  file : Bytes
  /-- The file as a crash would restore it outside the slot being written. -/
  durable : Bytes
  /-- The open handle, if any. -/
  handle : Option Handle
  /-- Every sequence number and payload whose slot write was issued. -/
  written : List (Nat × Bytes)
  /-- The payload of the last write that returned success. -/
  lastOk : Option Bytes
  /-- The payloads issued after that write. -/
  since : List Bytes

/-- A newly created, empty checkpoint file. -/
def World.fresh : World := ⟨[], [], none, [], none, []⟩

/-- The world after a write through handle `h`. -/
def World.write (cap : Nat) (w : World) (h : Handle) (payload : Bytes) (io : WriteIo) : World :=
  match Checkpoint.write cap h w.file payload io with
  | (.ok (), h', file') =>
    ⟨file', file', some h', (h.nextSeq, payload) :: w.written, some payload, []⟩
  | (.error _, h', file') =>
    -- a payload over the cap is refused before the file is touched
    if cap < payload.length then { w with handle := some h' }
    else ⟨file', w.durable, some h', (h.nextSeq, payload) :: w.written, w.lastOk,
      payload :: w.since⟩

/-- One step of a run: a write with any IO outcome, a crash, dropping the handle, opening. -/
inductive Step (cap : Nat) : World → World → Prop
  | write {w : World} {h : Handle} (payload : Bytes) (io : WriteIo) (hopen : w.handle = some h)
      (htorn : ∀ img, io = .writeFailed img →
        Tears cap w.file h.nextSeq ((h.nextSeq, payload) :: w.written) img) :
      Step cap w (w.write cap h payload io)
  | crash {w : World} {h : Handle} (img : Bytes) (hopen : w.handle = some h)
      (htorn : Tears cap w.durable h.nextSeq w.written img) :
      Step cap w { w with file := img, durable := img, handle := none }
  | close {w : World} : Step cap w { w with handle := none }
  | «open» {w : World} {h : Handle} {r : Recovered} (hclosed : w.handle = none)
      (hok : Checkpoint.open cap w.file = .ok (h, r)) :
      Step cap w { w with handle := some h, durable := w.file }

/-- The worlds a run from a fresh file reaches. -/
inductive Reach (cap : Nat) : World → Prop
  | fresh : Reach cap World.fresh
  | step {w w' : World} (h : Reach cap w) (hs : Step cap w w') : Reach cap w'

/-- What opening a world's file may report: the payload of the last successful write or of a
write issued after it, and emptiness only before the first success. -/
def World.Recent (w : World) : Recovered → Prop
  | .valid p => w.lastOk = some p ∨ p ∈ w.since
  | .empty => w.lastOk = none
  | .damaged => False

/-! ## The anchor invariant -/

/-- `f` holds the anchor `m` intact: slot `m % 2` is valid with sequence `m` and a recent
payload. With `m = 0` nothing has been established yet and the first slot is still zero. -/
def Anchored (cap : Nat) (w : World) (f : Bytes) (m : Nat) : Prop :=
  (m = 0 ∧ w.lastOk = none ∧ ∀ i < slotLen cap, f[i]?.getD 0 = 0) ∨
  (0 < m ∧ fileLen cap ≤ f.length ∧ ∃ p,
    decodeSlot cap (f.readAt (slotOffset cap m) (slotLen cap)) = .valid m p ∧
    (m, p) ∈ w.written ∧ (w.lastOk = some p ∨ p ∈ w.since))

/-- The invariant of every run, with anchor `m`. -/
structure Inv (cap : Nat) (w : World) (m : Nat) : Prop where
  file : Anchored cap w w.file m
  durable : Anchored cap w w.durable m
  /-- The other slot holds nothing but what was issued. -/
  other : ∀ s p, decodeSlot cap (w.file.readAt (slotOffset cap (m + 1)) (slotLen cap)) =
    .valid s p → (s, p) ∈ w.written ∧ s % 2 = (m + 1) % 2
  /-- No issued write is ahead of the next sequence number, and those that carry it are recent. -/
  seqs : ∀ s p, (s, p) ∈ w.written → s ≤ m + 1 ∧ (s = m + 1 → p ∈ w.since)
  handle : ∀ h, w.handle = some h → h.nextSeq = m + 1 ∧ m + 1 ≤ u64Max
  /-- Every sequence number up to the anchor was issued. -/
  count : m ≤ w.written.countP fun x => x.1 ≤ m

variable {w w' : World}

omit [Checksums] in
/-- Issuing sequence number `m + 1` raises the count of those up to it. -/
theorem countP_succ {q : Bytes} {l : List (Nat × Bytes)} (h : (m + 1, q) ∈ l) :
    (l.countP fun x => x.1 ≤ m) + 1 ≤ l.countP fun x => x.1 ≤ m + 1 := by
  induction l with
  | nil => exact nomatch h
  | cons x l ih =>
    have hmono : (l.countP fun x => x.1 ≤ m) ≤ l.countP fun x => x.1 ≤ m + 1 :=
      countP_mono_left fun x _ hx => by simp only [decide_eq_true_eq] at hx ⊢; omega
    simp only [countP_cons, decide_eq_true_eq]
    rcases mem_cons.mp h with rfl | h
    · simp only [Nat.le_refl, if_true, show ¬ m + 1 ≤ m by omega, if_false]
      omega
    · have := ih h
      split <;> split <;> omega

omit [Checksums] in
theorem slotOffset_add_slotLen_le (cap seq : Nat) :
    slotOffset cap seq + slotLen cap ≤ fileLen cap := by
  have : seq % 2 = 0 ∨ seq % 2 = 1 := by omega
  rcases this with h | h <;> simp only [slotOffset, fileLen, h] <;> omega

omit [Checksums] in
/-- The two slots do not overlap. -/
theorem slotOffset_succ_disjoint {i : Nat} (hlo : slotOffset cap m ≤ i)
    (hhi : i < slotOffset cap m + slotLen cap) :
    i < slotOffset cap (m + 1) ∨ slotOffset cap (m + 1) + slotLen cap ≤ i := by
  have : (m % 2 = 0 ∧ (m + 1) % 2 = 1) ∨ (m % 2 = 1 ∧ (m + 1) % 2 = 0) := by omega
  rcases this with ⟨h, h'⟩ | ⟨h, h'⟩ <;> simp only [slotOffset, h, h'] at * <;> omega

/-- `img` is `old` outside the slot that sequence number `seq` selects. -/
structure Confined (cap : Nat) (old : Bytes) (seq : Nat) (img : Bytes) : Prop where
  grows : old.length ≤ img.length
  outside : ∀ i < img.length, i < slotOffset cap seq ∨ slotOffset cap seq + slotLen cap ≤ i →
    img[i]? = some (old[i]?.getD 0)

theorem Tears.confined (h : Tears cap old seq written img) :
    Confined cap old seq img := ⟨h.grows, h.outside⟩

omit [Checksums] in
/-- Damage to the other slot leaves the anchor slot's bytes alone. -/
theorem Confined.readAt_anchor (h : Confined cap old (m + 1) img)
    (hlen : fileLen cap ≤ old.length) :
    img.readAt (slotOffset cap m) (slotLen cap) = old.readAt (slotOffset cap m) (slotLen cap) := by
  apply readAt_congr
  intro i hlo hhi
  have hb := slotOffset_add_slotLen_le cap m
  have hg := h.grows
  have hi : i < old.length := by omega
  rw [h.outside i (by omega) (slotOffset_succ_disjoint hlo hhi), getElem?_eq_getElem hi]
  rfl

omit [Checksums] in
/-- As long as only the second slot was written, the first one is zero. -/
theorem Confined.first_zero (h : Confined cap old 1 img)
    (hz : ∀ i < slotLen cap, old[i]?.getD 0 = 0) : ∀ i < slotLen cap, img[i]?.getD 0 = 0 := by
  intro i hi
  by_cases hlt : i < img.length
  · have hoff : i < slotOffset cap 1 := by simpa [slotOffset] using hi
    rw [h.outside i hlt (Or.inl hoff)]
    exact hz i hi
  · rw [getElem?_eq_none (by omega)]
    rfl

/-- Damage to the other slot keeps the anchor. -/
theorem Anchored.tears (h : Anchored cap w f m) (ht : Tears cap f (m + 1) written img) :
    Anchored cap w img m := by
  rcases h with ⟨rfl, hl, hz⟩ | ⟨hm, hlen, p, hp, hw, hr⟩
  · exact Or.inl ⟨rfl, hl, ht.confined.first_zero hz⟩
  · have hg := ht.grows
    exact Or.inr ⟨hm, by omega, p, by rw [ht.confined.readAt_anchor hlen]; exact hp, hw, hr⟩

/-- An anchor stays one when more is issued. -/
theorem Anchored.issue (h : Anchored cap w f m) (hw : ∀ x ∈ w.written, x ∈ w'.written)
    (hl : w'.lastOk = w.lastOk) (hs : ∀ x ∈ w.since, x ∈ w'.since) : Anchored cap w' f m := by
  rcases h with ⟨h0, hn, hz⟩ | ⟨hm, hlen, p, hp, hmem, hr⟩
  · exact Or.inl ⟨h0, hl.trans hn, hz⟩
  · refine Or.inr ⟨hm, hlen, p, hp, hw _ hmem, ?_⟩
    rw [hl]
    exact hr.imp_right (hs p)

/-- A slot that was written whole is read back. -/
theorem decodeSlot_writeAt (old : Bytes) (hcap : cap ≤ 65535) (hpos : 0 < seq)
    (hseq : seq ≤ u64Max) (hp : payload.length ≤ cap) :
    decodeSlot cap ((old.writeAt (slotOffset cap seq) (encodeSlot cap seq payload)).readAt
      (slotOffset cap seq) (slotLen cap)) = .valid seq payload := by
  have hlt : seq < 2 ^ 64 := by simp only [u64Max] at hseq; omega
  rw [← length_encodeSlot seq hp, readAt_writeAt]
  exact decodeSlot_encodeSlot hcap hpos hlt hp

/-- A completed slot write is damage of the mildest kind. -/
theorem tears_writeAt (hcap : cap ≤ 65535) (hpos : 0 < seq) (hseq : seq ≤ u64Max)
    (hp : payload.length ≤ cap) :
    Tears cap old seq ((seq, payload) :: written)
      (old.writeAt (slotOffset cap seq) (encodeSlot cap seq payload)) := by
  have hlen := length_encodeSlot seq hp
  refine ⟨by simp, by simp [hlen], ?_, ?_⟩
  · intro i hi hout
    rcases hout with hlt | hge
    · by_cases hold : i < old.length
      · rw [getElem?_writeAt_lt hlt hold, getElem?_eq_getElem hold]
        rfl
      · rw [getElem?_writeAt_gap hlt (by omega), getElem?_eq_none (by omega)]
        rfl
    · rw [getElem?_writeAt_ge (by omega)]
      have hold : i < old.length := by
        simp only [length_writeAt, hlen] at hi
        omega
      rw [getElem?_eq_getElem hold]
      rfl
  · intro s p hd
    rw [decodeSlot_writeAt old hcap hpos hseq hp] at hd
    simp only [SlotDecode.valid.injEq] at hd
    obtain ⟨rfl, rfl⟩ := hd
    exact ⟨mem_cons_self, rfl⟩

/-! ## What opening finds -/

/-- A file of full length is classified by its two slots. -/
theorem open_of_full (h : fileLen cap ≤ f.length) :
    Checkpoint.open cap f = recover (decodeSlot cap (f.readAt 0 (slotLen cap)))
      (decodeSlot cap (f.readAt (slotLen cap) (slotLen cap))) := by
  have h0 : 0 + slotLen cap ≤ fileLen cap := by simp only [fileLen]; omega
  have h1 : slotLen cap + slotLen cap ≤ fileLen cap := by simp only [fileLen]; omega
  simp only [Checkpoint.open, if_pos h]
  rw [readAt_readAt h0, readAt_readAt h1]
  simp only [Nat.zero_add, Nat.add_zero]

/-- A shorter file is empty. -/
theorem open_of_short (h : f.length < fileLen cap) :
    Checkpoint.open cap f = .ok (⟨1⟩, .empty) := by
  have hz : ∀ off, decodeSlot cap (readAt (replicate (fileLen cap) 0) off
      (slotLen cap)) = .empty := by
    intro off
    refine decodeSlot_of_zero (toNatLE_eq_zero fun b hb => ?_)
    simp only [readAt] at hb
    have hb := mem_of_mem_take hb
    have hb := mem_of_mem_drop hb
    have hb := mem_of_mem_take hb
    have hb := mem_of_mem_drop hb
    exact eq_of_mem_replicate hb
  simp only [Checkpoint.open, if_neg (show ¬ fileLen cap ≤ f.length by omega), hz]
  rfl

/-- A zero slot was never written. -/
theorem decodeSlot_of_zero_prefix (hz : ∀ i < slotLen cap, f[i]?.getD 0 = 0) :
    decodeSlot cap (f.readAt 0 (slotLen cap)) = .empty := by
  refine decodeSlot_of_zero (toNatLE_eq_zero fun b hb => ?_)
  rw [readAt_readAt (by simp only [slotLen, slotOverhead]; omega)] at hb
  obtain ⟨i, hi⟩ := mem_iff_getElem?.mp hb
  by_cases hlt : i < 8
  · rw [getElem?_readAt hlt, Nat.zero_add] at hi
    have := hz i (by simp only [slotLen, slotOverhead]; omega)
    rw [hi] at this
    exact this
  · have hlen := length_readAt f (0 + 0) 8
    rw [getElem?_eq_none (by omega)] at hi
    exact nomatch hi

omit [Checksums] in
theorem slotOffset_succ_succ (cap m : Nat) : slotOffset cap (m + 1 + 1) = slotOffset cap m := by
  simp only [slotOffset]
  congr 1
  omega

/-- A valid slot wins when the other one holds nothing as new. -/
theorem open_of_newest {p : Bytes} (hlen : fileLen cap ≤ f.length)
    (hp : decodeSlot cap (f.readAt (slotOffset cap m) (slotLen cap)) = .valid m p)
    (hother : ∀ s q, decodeSlot cap (f.readAt (slotOffset cap (m + 1)) (slotLen cap)) =
      .valid s q → s < m) :
    Checkpoint.open cap f = resume m p := by
  have hpar : (m % 2 = 0 ∧ (m + 1) % 2 = 1) ∨ (m % 2 = 1 ∧ (m + 1) % 2 = 0) := by omega
  rw [open_of_full hlen]
  cases hb : decodeSlot cap (f.readAt (slotOffset cap (m + 1)) (slotLen cap)) with
  | valid s q =>
    have hs := hother s q hb
    rcases hpar with ⟨h0, h1⟩ | ⟨h1, h0⟩ <;>
      simp only [slotOffset, h0, h1, Nat.zero_mul, Nat.one_mul] at hp hb <;>
      simp [recover, best, hp, hb, hs.le, not_le.mpr hs]
  | _ =>
    rcases hpar with ⟨h0, h1⟩ | ⟨h1, h0⟩ <;>
      simp only [slotOffset, h0, h1, Nat.zero_mul, Nat.one_mul] at hp hb <;>
      simp [recover, best, hp, hb]

/-- When both slots are valid and the other one carries the next sequence number, it wins. -/
theorem open_of_next {p q : Bytes} (hlen : fileLen cap ≤ f.length)
    (hp : decodeSlot cap (f.readAt (slotOffset cap m) (slotLen cap)) = .valid m p)
    (hq : decodeSlot cap (f.readAt (slotOffset cap (m + 1)) (slotLen cap)) = .valid (m + 1) q) :
    Checkpoint.open cap f = resume (m + 1) q := by
  refine open_of_newest hlen hq fun s p' hs => ?_
  rw [slotOffset_succ_succ, hp] at hs
  cases hs
  exact Nat.lt_succ_self m

/-- A file whose second slot is valid has both. -/
theorem fileLen_le_of_second {s : Nat} {p : Bytes}
    (h : decodeSlot cap (f.readAt (slotOffset cap 1) (slotLen cap)) = .valid s p) :
    fileLen cap ≤ f.length := by
  have hslot := length_of_decodeSlot h
  rw [length_readAt] at hslot
  simp only [slotOffset, fileLen, slotLen, slotOverhead] at hslot ⊢
  omega

/-- The anchor slot holds what was issued under the anchor. -/
theorem Anchored.slot_eq {s : Nat} {p : Bytes} (h : Anchored cap w f m)
    (hd : decodeSlot cap (f.readAt (slotOffset cap m) (slotLen cap)) = .valid s p) :
    s = m ∧ (s, p) ∈ w.written := by
  rcases h with ⟨rfl, -, hz⟩ | ⟨-, -, q, hq, hmem, -⟩
  · rw [show slotOffset cap 0 = 0 by simp [slotOffset], decodeSlot_of_zero_prefix hz] at hd
    cases hd
  · rw [hq] at hd
    cases hd
    exact ⟨rfl, hmem⟩

/-- A file whose first slot is zero and whose second is not valid is empty. -/
theorem open_of_zero (hz : ∀ i < slotLen cap, f[i]?.getD 0 = 0)
    (hother : ∀ s q, decodeSlot cap (f.readAt (slotOffset cap 1) (slotLen cap)) ≠ .valid s q) :
    Checkpoint.open cap f = .ok (⟨1⟩, .empty) := by
  by_cases hlen : fileLen cap ≤ f.length
  · rw [show slotOffset cap 1 = slotLen cap by simp [slotOffset]] at hother
    rw [open_of_full hlen, decodeSlot_of_zero_prefix hz]
    cases hb : decodeSlot cap (f.readAt (slotLen cap) (slotLen cap)) with
    | valid s q => exact absurd hb (hother s q)
    | empty => rfl
    | corrupt => rfl
  · exact open_of_short (by omega)

/-- What the file of a world yields on opening: nothing yet, or a recent payload under the
anchor or one past it. -/
theorem Inv.open_cases (h : Inv cap w m) :
    (m = 0 ∧ w.lastOk = none ∧ Checkpoint.open cap w.file = .ok (⟨1⟩, .empty)) ∨
    ∃ m' p, (m' = m ∨ m' = m + 1) ∧ 0 < m' ∧ fileLen cap ≤ w.file.length ∧
      decodeSlot cap (w.file.readAt (slotOffset cap m') (slotLen cap)) = .valid m' p ∧
      (m', p) ∈ w.written ∧ (w.lastOk = some p ∨ p ∈ w.since) ∧
      Checkpoint.open cap w.file = resume m' p := by
  by_cases hnew : ∃ q, decodeSlot cap (w.file.readAt (slotOffset cap (m + 1)) (slotLen cap))
      = .valid (m + 1) q
  · obtain ⟨q, hq⟩ := hnew
    have hw := (h.other _ q hq).1
    have hlen : fileLen cap ≤ w.file.length := by
      rcases h.file with ⟨rfl, -⟩ | ⟨-, hlen, -⟩
      · exact fileLen_le_of_second hq
      · exact hlen
    refine .inr ⟨m + 1, q, .inr rfl, Nat.succ_pos m, hlen, hq, hw, .inr ((h.seqs _ q hw).2 rfl), ?_⟩
    refine open_of_newest hlen hq fun s p hs => ?_
    rw [slotOffset_succ_succ] at hs
    exact Nat.lt_succ_of_le (h.file.slot_eq hs).1.le
  · -- nothing valid in the other slot is as new as the anchor
    have hother : ∀ s q, decodeSlot cap (w.file.readAt (slotOffset cap (m + 1)) (slotLen cap)) =
        .valid s q → s < m := by
      intro s q hs
      obtain ⟨hw, hpar⟩ := h.other s q hs
      have hle := (h.seqs s q hw).1
      have hne : s ≠ m + 1 := fun heq => hnew ⟨q, heq ▸ hs⟩
      omega
    rcases h.file with ⟨rfl, hl, hz⟩ | ⟨hm, hlen, p, hp, hmem, hr⟩
    · exact .inl ⟨rfl, hl, open_of_zero hz fun s q hs => Nat.not_lt_zero s (hother s q hs)⟩
    · exact .inr ⟨m, p, .inl rfl, hm, hlen, hp, hmem, hr, open_of_newest hlen hp hother⟩

/-! ## Files in which no write is left half done -/

/-- The slot of `next` holds nothing as new as the sequence number before it: no write under `next`
was completed. -/
def Incomplete (cap : Nat) (f : Bytes) (next : Nat) : Prop :=
  ∀ s p, decodeSlot cap (f.readAt (slotOffset cap next) (slotLen cap)) = .valid s p → s + 1 < next

/-- The file holds `stored` under the sequence number before `next`. -/
structure Settled (cap : Nat) (f : Bytes) (next : Nat) (stored : Option Bytes) : Prop where
  older : Incomplete cap f next
  fresh : stored = none → next = 1 ∧ ∀ i < slotLen cap, f[i]?.getD 0 = 0
  anchor : ∀ p, stored = some p → 1 < next ∧ fileLen cap ≤ f.length ∧
    decodeSlot cap (f.readAt (slotOffset cap (next - 1)) (slotLen cap)) = .valid (next - 1) p

theorem settled_nil (cap : Nat) : Settled cap [] 1 none where
  older s p h := by
    rw [decodeSlot_of_zero (by simp [readAt, natAt, toNatLE])] at h
    cases h
  fresh _ := ⟨rfl, fun _ _ => rfl⟩
  anchor := nofun

/-- The classification of what a settled file holds. -/
def Recovered.ofStored : Option Bytes → Recovered
  | none => .empty
  | some p => .valid p

/-- Opening a settled file finds what it holds and goes on with the next sequence number. -/
theorem Settled.open_eq (h : Settled cap f next stored) (hnext : next ≤ u64Max) :
    Checkpoint.open cap f = .ok (⟨next⟩, .ofStored stored) := by
  cases hb : stored with
  | none =>
    obtain ⟨rfl, hz⟩ := h.fresh hb
    refine open_of_zero hz fun s p hs => ?_
    have := decodeSlot_seq_pos hs
    have := h.older s p hs
    omega
  | some p =>
    obtain ⟨hlt, hlen, hp⟩ := h.anchor p hb
    obtain ⟨m, rfl⟩ : ∃ m, next = m + 1 := ⟨next - 1, by omega⟩
    rw [Nat.add_sub_cancel] at hp
    have hopen : Checkpoint.open cap f = resume m p :=
      open_of_newest hlen hp fun s q hs => Nat.lt_of_succ_lt_succ (h.older s q hs)
    rw [hopen, resume, checkedAdd, if_pos hnext]
    rfl

/-- A write that was not completed leaves the file settled. -/
theorem Settled.torn (h : Settled cap f next stored) (hconf : Confined cap f next img)
    (hinc : Incomplete cap img next) : Settled cap img next stored where
  older := hinc
  fresh hnone := by
    obtain ⟨rfl, hz⟩ := h.fresh hnone
    exact ⟨rfl, hconf.first_zero hz⟩
  anchor p hp := by
    obtain ⟨hlt, hlen, hdec⟩ := h.anchor p hp
    obtain ⟨m, rfl⟩ : ∃ m, next = m + 1 := ⟨next - 1, by omega⟩
    rw [Nat.add_sub_cancel] at hdec ⊢
    exact ⟨hlt, hlen.trans hconf.grows, by rw [hconf.readAt_anchor hlen]; exact hdec⟩

/-- A completed write moves the file on to the next sequence number. -/
theorem Settled.completed (h : Settled cap f next stored) (hconf : Confined cap f next img)
    (hdec : decodeSlot cap (img.readAt (slotOffset cap next) (slotLen cap)) = .valid next payload) :
    Settled cap img (next + 1) (some payload) := by
  have hpos := decodeSlot_seq_pos hdec
  obtain ⟨m, rfl⟩ : ∃ m, next = m + 1 := ⟨next - 1, by omega⟩
  refine ⟨fun s p hd => ?_, nofun, fun p hp => ?_⟩
  · -- the other slot is now the old anchor
    rw [slotOffset_succ_succ] at hd
    cases hs : stored with
    | none =>
      obtain ⟨hm, hz⟩ := h.fresh hs
      obtain rfl : m = 0 := by omega
      rw [show slotOffset cap 0 = 0 by simp [slotOffset],
        decodeSlot_of_zero_prefix (hconf.first_zero hz)] at hd
      cases hd
    | some q =>
      obtain ⟨-, hlen, hq⟩ := h.anchor q hs
      rw [Nat.add_sub_cancel] at hq
      rw [hconf.readAt_anchor hlen, hq] at hd
      cases hd
      omega
  · cases hp
    refine ⟨by omega, ?_, hdec⟩
    cases hs : stored with
    | none =>
      -- the slot that was read whole is the second one
      obtain ⟨hm, -⟩ := h.fresh hs
      obtain rfl : m = 0 := by omega
      exact fileLen_le_of_second hdec
    | some q => exact (h.anchor q hs).2.1.trans hconf.grows

/-! ## The invariant along a run -/

theorem inv_fresh (cap : Nat) : Inv cap World.fresh 0 where
  file := Or.inl ⟨rfl, rfl, fun _ _ => rfl⟩
  durable := Or.inl ⟨rfl, rfl, fun _ _ => rfl⟩
  other := by
    intro s p h
    simp only [World.fresh, readAt, drop_nil, take_nil] at h
    rw [decodeSlot_of_zero rfl] at h
    cases h
  seqs := fun s p h => by cases h
  handle := fun h hh => by cases hh
  count := Nat.zero_le _

/-- Damage to the slot being written, whatever the write then reports. -/
theorem Inv.failed (hi : Inv cap w m) (hopen : w.handle = some h)
    (ht : Tears cap w.file h.nextSeq ((h.nextSeq, payload) :: w.written) img) :
    Inv cap ⟨img, w.durable, some h, (h.nextSeq, payload) :: w.written, w.lastOk,
      payload :: w.since⟩ m := by
  obtain ⟨hnext, hmax⟩ := hi.handle h hopen
  rw [hnext] at ht ⊢
  refine ⟨(hi.file.tears ht).issue ?_ rfl ?_, hi.durable.issue ?_ rfl ?_, ht.checked, ?_, ?_, ?_⟩
  · exact fun x hx => mem_cons_of_mem _ hx
  · exact fun x hx => mem_cons_of_mem _ hx
  · exact fun x hx => mem_cons_of_mem _ hx
  · exact fun x hx => mem_cons_of_mem _ hx
  · intro s p hmem
    rcases mem_cons.mp hmem with heq | hmem
    · obtain ⟨rfl, rfl⟩ := Prod.mk.inj heq
      exact ⟨le_rfl, fun _ => mem_cons_self⟩
    · obtain ⟨hle, hrec⟩ := hi.seqs s p hmem
      exact ⟨hle, fun hs => mem_cons_of_mem _ (hrec hs)⟩
  · intro h' hh
    cases hh
    exact ⟨hnext, hmax⟩
  · simpa using hi.count

/-- A write that returns success moves the anchor to the slot it wrote. -/
theorem Inv.succeeded (hcap : cap ≤ 65535) (hi : Inv cap w m) (hopen : w.handle = some h)
    (hp : payload.length ≤ cap) (hmax : h.nextSeq + 1 ≤ u64Max) :
    let f := w.file.writeAt (slotOffset cap h.nextSeq) (encodeSlot cap h.nextSeq payload)
    Inv cap ⟨f, f, some ⟨h.nextSeq + 1⟩, (h.nextSeq, payload) :: w.written, some payload, []⟩
      (m + 1) := by
  intro f
  obtain ⟨hnext, -⟩ := hi.handle h hopen
  have hlen := length_encodeSlot h.nextSeq hp
  have ht : Tears cap w.file h.nextSeq ((h.nextSeq, payload) :: w.written) f :=
    tears_writeAt hcap (by omega) (by omega) hp
  have hdec : decodeSlot cap (f.readAt (slotOffset cap h.nextSeq) (slotLen cap)) =
      .valid h.nextSeq payload :=
    decodeSlot_writeAt w.file hcap (by omega) (by omega) hp
  have hfull : fileLen cap ≤ f.length := by
    rcases hi.file with ⟨rfl, -, -⟩ | ⟨-, hfull, -⟩
    · show fileLen cap ≤ (writeAt _ _ _).length
      rw [length_writeAt, hlen, hnext]
      simp only [slotOffset, fileLen]
      omega
    · have := ht.grows
      omega
  rw [hnext] at hdec ht ⊢
  have hanchor : Anchored cap ⟨f, f, some ⟨m + 1 + 1⟩, (m + 1, payload) :: w.written,
      some payload, []⟩ f (m + 1) :=
    Or.inr ⟨by omega, hfull, payload, hdec, mem_cons_self, Or.inl rfl⟩
  refine ⟨hanchor, hanchor, ?_, ?_, ?_, ?_⟩
  · -- the other slot is now the old anchor
    intro s p hd
    rw [slotOffset_succ_succ] at hd
    obtain ⟨rfl, hmem⟩ := (hi.file.tears ht).slot_eq hd
    exact ⟨mem_cons_of_mem _ hmem, by omega⟩
  · intro s p hmem
    rcases mem_cons.mp hmem with heq | hmem
    · obtain ⟨rfl, rfl⟩ := Prod.mk.inj heq
      exact ⟨by omega, fun hs => by omega⟩
    · have := (hi.seqs s p hmem).1
      exact ⟨by omega, fun hs => by omega⟩
  · intro h' hh
    cases hh
    exact ⟨rfl, by omega⟩
  · have hcount := countP_succ (mem_cons_self : (m + 1, payload) ∈ _ :: w.written)
    have hold := hi.count
    rw [countP_cons_of_neg (by simp)] at hcount
    exact Nat.le_trans (by omega) hcount

/-- The anchor does not depend on the handle. -/
theorem Anchored.congr (h : Anchored cap w f m) (hw : w'.written = w.written)
    (hl : w'.lastOk = w.lastOk) (hs : w'.since = w.since) :
    Anchored cap w' f m :=
  h.issue (fun _ hx => hw ▸ hx) hl (fun _ hx => hs ▸ hx)

/-- A write keeps the invariant whatever its IO calls return. -/
theorem Inv.write {io : WriteIo} (hcap : cap ≤ 65535) (hi : Inv cap w m)
    (hopen : w.handle = some h)
    (htorn : ∀ img, io = .writeFailed img →
      Tears cap w.file h.nextSeq ((h.nextSeq, payload) :: w.written) img) :
    ∃ m', Inv cap (w.write cap h payload io) m' := by
  obtain ⟨hnext, hmax⟩ := hi.handle h hopen
  by_cases hp : cap < payload.length
  · have hw : w.write cap h payload io = w := by
      simp only [World.write, Checkpoint.write, if_pos hp]
      rw [← hopen]
    exact ⟨m, by rw [hw]; exact hi⟩
  · have hp' : payload.length ≤ cap := by omega
    have hfull : Tears cap w.file h.nextSeq ((h.nextSeq, payload) :: w.written)
        (w.file.writeAt (slotOffset cap h.nextSeq) (encodeSlot cap h.nextSeq payload)) :=
      tears_writeAt hcap (by omega) (by omega) hp'
    cases io with
    | writeFailed img =>
      refine ⟨m, ?_⟩
      simp only [World.write, Checkpoint.write, if_neg hp]
      exact hi.failed hopen (htorn img rfl)
    | syncFailed =>
      refine ⟨m, ?_⟩
      simp only [World.write, Checkpoint.write, if_neg hp]
      exact hi.failed hopen hfull
    | ok =>
      by_cases hroom : h.nextSeq + 1 ≤ u64Max
      · refine ⟨m + 1, ?_⟩
        simp only [World.write, Checkpoint.write, if_neg hp, checkedAdd, if_pos hroom]
        exact hi.succeeded hcap hopen hp' hroom
      · refine ⟨m, ?_⟩
        simp only [World.write, Checkpoint.write, if_neg hp, checkedAdd, if_neg hroom]
        exact hi.failed hopen hfull

/-- Opening re-establishes the invariant, under the sequence number it recovered. -/
theorem Inv.reopen {r : Recovered} (hi : Inv cap w m)
    (hok : Checkpoint.open cap w.file = .ok (h, r)) :
    ∃ m', Inv cap { w with handle := some h, durable := w.file } m' := by
  rcases hi.open_cases with ⟨rfl, -, hopen⟩ | ⟨m', p, hm', hpos, hlen, hp, hmem, hr, hopen⟩
  · rw [hok] at hopen
    obtain ⟨rfl, rfl⟩ := Prod.mk.inj (Except.ok.inj hopen)
    refine ⟨0, hi.file.congr rfl rfl rfl, hi.file.congr rfl rfl rfl, hi.other, hi.seqs, ?_,
      hi.count⟩
    intro h' hh
    cases hh
    exact ⟨rfl, by decide⟩
  · rw [hok] at hopen
    by_cases hroom : m' + 1 ≤ u64Max
    · simp only [resume, checkedAdd, if_pos hroom, Except.ok.injEq, Prod.mk.injEq] at hopen
      obtain ⟨rfl, rfl⟩ := hopen
      have hanchor : Anchored cap { w with handle := some ⟨m' + 1⟩, durable := w.file } w.file m' :=
        Or.inr ⟨hpos, hlen, p, hp, hmem, hr⟩
      have hhandle : ∀ h : Handle, some (⟨m' + 1⟩ : Handle) = some h →
          h.nextSeq = m' + 1 ∧ m' + 1 ≤ u64Max := by
        intro h' hh
        cases hh
        exact ⟨rfl, hroom⟩
      rcases hm' with rfl | rfl
      · exact ⟨m', hanchor, hanchor, hi.other, hi.seqs, hhandle, hi.count⟩
      refine ⟨m + 1, hanchor, hanchor, ?_, ?_, hhandle, ?_⟩
      · -- the slot of the old anchor is now the other one
        intro s q hd
        rw [slotOffset_succ_succ] at hd
        obtain ⟨rfl, hmem'⟩ := hi.file.slot_eq hd
        exact ⟨hmem', by omega⟩
      · intro s q hmem'
        have := (hi.seqs s q hmem').1
        exact ⟨by omega, fun hs => by omega⟩
      · have := countP_succ hmem
        have := hi.count
        show m + 1 ≤ w.written.countP _
        omega
    · simp only [resume, checkedAdd, if_neg hroom] at hopen
      exact nomatch hopen

/-- Every step keeps the anchor invariant. -/
theorem Inv.step (hcap : cap ≤ 65535) (hi : Inv cap w m) (hs : Step cap w w') :
    ∃ m', Inv cap w' m' := by
  cases hs with
  | write payload io hopen htorn => exact hi.write hcap hopen htorn
  | crash img hopen htorn =>
    obtain ⟨hnext, -⟩ := hi.handle _ hopen
    rw [hnext] at htorn
    exact ⟨m, (hi.durable.tears htorn).congr rfl rfl rfl,
      (hi.durable.tears htorn).congr rfl rfl rfl,
      htorn.checked, hi.seqs, (fun h hh => nomatch hh), hi.count⟩
  | close =>
    exact ⟨m, hi.file.congr rfl rfl rfl, hi.durable.congr rfl rfl rfl, hi.other, hi.seqs,
      (fun h hh => nomatch hh), hi.count⟩
  | «open» hclosed hok => exact hi.reopen hok

/-- The anchor invariant holds in every world a run reaches. -/
theorem inv_of_reach (hcap : cap ≤ 65535) (h : Reach cap w) :
    ∃ m, Inv cap w m := by
  induction h with
  | fresh => exact ⟨0, inv_fresh cap⟩
  | step _ hs ih =>
    obtain ⟨m, hi⟩ := ih
    exact hi.step hcap hs

/-! ## Exhausting the sequence numbers -/

/-- A run of successful writes reaches every sequence number a `u64` can hold. -/
theorem exists_reach_nextSeq (hcap : cap ≤ 65535) (n : Nat) (hn : n + 1 ≤ u64Max) :
    ∃ w, Reach cap w ∧ Inv cap w n ∧ w.handle = some ⟨n + 1⟩ ∧ (0 < n → w.lastOk = some []) := by
  induction n with
  | zero =>
    have hopen : Checkpoint.open cap World.fresh.file = .ok (⟨1⟩, .empty) :=
      open_of_short (by simp [World.fresh, fileLen, slotLen, slotOverhead])
    refine ⟨_, Reach.fresh.step (.open rfl hopen), ?_, rfl, fun h => by omega⟩
    have hi := inv_fresh cap
    refine ⟨hi.file.congr rfl rfl rfl, hi.file.congr rfl rfl rfl, hi.other, hi.seqs, ?_, hi.count⟩
    intro h hh
    cases hh
    exact ⟨rfl, hn⟩
  | succ n ih =>
    obtain ⟨w, hw, hi, hh, -⟩ := ih (by omega)
    have hstep := hw.step (.write [] .ok hh fun _ h => nomatch h)
    have hempty : ([] : Bytes).length ≤ cap := Nat.zero_le cap
    simp only [World.write, write, checkedAdd, if_pos hn,
      if_neg (show ¬ cap < ([] : Bytes).length by simp)] at hstep
    have hnew := hi.succeeded hcap hh hempty hn
    exact ⟨_, hstep, hnew, rfl, fun _ => rfl⟩

/-- The write that carries the last sequence number reports an error after its slot is in
place, and from then on the file does not open. -/
theorem exists_reach_exhausted (hcap : cap ≤ 65535) :
    ∃ w, Reach cap w ∧ w.lastOk = some [] ∧
      Checkpoint.open cap w.file = .error .segmentFull := by
  obtain ⟨w, hw, hi, hh, hl⟩ := exists_reach_nextSeq hcap (u64Max - 1) (by decide)
  have hpred : u64Max - 1 + 1 = u64Max := by decide
  rw [hpred] at hh
  have hstep := hw.step (.write [] .ok hh fun _ h => nomatch h)
  have hempty : ([] : Bytes).length ≤ cap := Nat.zero_le cap
  have heq : w.write cap ⟨u64Max⟩ [] .ok =
      ⟨w.file.writeAt (slotOffset cap u64Max) (encodeSlot cap u64Max []), w.durable,
        some ⟨u64Max⟩, (u64Max, []) :: w.written, w.lastOk, [] :: w.since⟩ := by
    simp only [World.write, write, checkedAdd,
      if_neg (show ¬ u64Max + 1 ≤ u64Max by omega),
      if_neg (show ¬ cap < ([] : Bytes).length by simp)]
  rw [heq] at hstep
  refine ⟨_, hstep, hl (by decide), ?_⟩
  have ht : Tears cap w.file (u64Max - 1 + 1) ((u64Max, []) :: w.written)
      (w.file.writeAt (slotOffset cap u64Max) (encodeSlot cap u64Max [])) := by
    rw [hpred]
    exact tears_writeAt hcap (by decide) le_rfl hempty
  rcases hi.file.tears ht with ⟨h0, -⟩ | ⟨-, hlen, p, hp, -⟩
  · exact absurd h0 (by decide)
  · have hq : decodeSlot cap (readAt (w.file.writeAt (slotOffset cap u64Max)
        (encodeSlot cap u64Max [])) (slotOffset cap (u64Max - 1 + 1)) (slotLen cap)) =
        .valid (u64Max - 1 + 1) [] := by
      rw [hpred]
      exact decodeSlot_writeAt _ hcap (by decide) le_rfl hempty
    rw [open_of_next hlen hp hq, hpred]
    simp only [resume, checkedAdd, if_neg (show ¬ u64Max + 1 ≤ u64Max by omega)]

/-! ## Recovery -/

/-- As long as fewer than `2 ^ 64 - 1` writes have been issued, opening the file of any
reachable world succeeds and recovers the payload of the last write that returned success or
of one issued after it; damage is never reported. -/
theorem open_recovers_recent {cap : Nat} {w : World} (hcap : cap ≤ 65535) (h : Reach cap w)
    (hfew : w.written.length < 2 ^ 64 - 1) :
    ∃ hd r, Checkpoint.open cap w.file = .ok (hd, r) ∧ w.Recent r := by
  obtain ⟨m, hi⟩ := inv_of_reach hcap h
  rcases hi.open_cases with ⟨-, hl, hopen⟩ | ⟨m', p, hm', -, -, -, hmem, hr, hopen⟩
  · exact ⟨_, _, hopen, hl⟩
  have hcount : m' ≤ w.written.length := by
    rcases hm' with rfl | rfl
    · exact Nat.le_trans hi.count List.countP_le_length
    · have := Nat.le_trans (countP_succ hmem) List.countP_le_length
      have := hi.count
      omega
  have hroom : m' + 1 ≤ u64Max := by simp only [u64Max]; omega
  refine ⟨⟨m' + 1⟩, .valid p, ?_, hr⟩
  simp only [hopen, resume, checkedAdd, if_pos hroom]

end

section Castagnoli

/-- The checksums a concrete run is evaluated with; no payload here is long enough for the
second one to be used. -/
local instance : Checksums := ⟨castagnoli, fun _ => 0⟩

/-- A run that writes `[7]`, then fails to sync `[9]`. -/
def worldAfterFailedSync : World :=
  let w₁ : World := { World.fresh with handle := some ⟨1⟩ }
  let w₂ := w₁.write 64 ⟨1⟩ [7] .ok
  { w₂.write 64 ⟨2⟩ [9] .syncFailed with handle := none }

theorem reach_worldAfterFailedSync : Reach 64 worldAfterFailedSync := by
  have hopen : Checkpoint.open 64 World.fresh.file = .ok (⟨1⟩, .empty) := by decide +kernel
  have h₁ := Reach.fresh.step (.open rfl hopen)
  have h₂ := h₁.step (.write [7] .ok rfl fun _ h => nomatch h)
  have h₃ := h₂.step (.write [9] .syncFailed (h := ⟨2⟩) (by decide +kernel) fun _ h => nomatch h)
  exact h₃.step .close

theorem worldAfterFailedSync_open_recovers_recent :
    worldAfterFailedSync.written.length < 2 ^ 64 - 1 ∧
    ∃ hd r, Checkpoint.open 64 worldAfterFailedSync.file = .ok (hd, r) ∧
      worldAfterFailedSync.Recent r :=
  have hfew : worldAfterFailedSync.written.length < 2 ^ 64 - 1 := by decide +kernel
  ⟨hfew, open_recovers_recent (by decide) reach_worldAfterFailedSync hfew⟩

/-- After `2 ^ 64 - 1` writes the cursor checkpoint does not open again. -/
theorem open_fails_when_exhausted :
    ∃ w, Reach 64 w ∧ w.lastOk = some [] ∧
      Checkpoint.open 64 w.file = .error .segmentFull :=
  exists_reach_exhausted (by decide)

end Castagnoli

end IronBus.Checkpoint
