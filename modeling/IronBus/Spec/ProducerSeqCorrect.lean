import IronBus.ForStd.List
import IronBus.Native.ProducerSeq

/-!
# Idempotence across restarts

Key results:
- `decode_encode`, `lookup_load`: what the snapshot keeps of the table of producers
- `attempt_spec`: what one attempt leaves in the table
- `accepts_once`: a run with restarts accepts each sequence once
-/

namespace IronBus

open ProducerSeq Bytes List SeqSnapshot

/-! ## The snapshot round trip -/

/-- The numbers fit their fields and the id its length prefix. -/
structure SeqHighWater.Fits (h : SeqHighWater) : Prop where
  producerId : h.producerId.length < 2 ^ 16
  epoch : h.epoch < 2 ^ 64
  lastSeq : h.lastSeq < 2 ^ 64
  lastOffset : h.lastOffset < 2 ^ 64

namespace SeqSnapshot

theorem encodeEntry_eq {h : SeqHighWater} (hf : h.Fits) :
    encodeEntry h = ofNatLE 2 h.producerId.length ++ h.producerId
      ++ (ofNatLE 8 h.epoch
        ++ (ofNatLE 8 h.lastSeq ++ ofNatLE 8 h.lastOffset)) := by
  have hmin : min h.producerId.length 0xFFFF = h.producerId.length := by
    have := hf.producerId
    omega
  simp only [encodeEntry, hmin, take_length, append_assoc]

/-- Reading an entry back from the front of a body. -/
theorem read_entry {h : SeqHighWater} (hf : h.Fits) (rest : Bytes) :
    let body := encodeEntry h ++ rest
    let n := h.producerId.length
    body.length = 2 + n + 24 + rest.length ∧ body.natAt 0 2 = n ∧ body.readAt 2 n = h.producerId
      ∧ body.natAt (2 + n) 8 = h.epoch ∧ body.natAt (2 + n + 8) 8 = h.lastSeq
      ∧ body.natAt (2 + n + 16) 8 = h.lastOffset ∧ body.drop (2 + n + 24) = rest := by
  have hlen : (ofNatLE 2 h.producerId.length ++ h.producerId).length
      = 2 + h.producerId.length := by simp
  simp only [encodeEntry_eq hf, append_assoc]
  refine ⟨by simp; omega, natAt_ofNatLE (by have := hf.producerId; omega), ?_, ?_, ?_, ?_, ?_⟩
  · rw [← append_assoc]
    exact readAt_append_mid (by simp) rfl
  · rw [← append_assoc, natAt_append_at hlen.symm]
    exact natAt_ofNatLE (by have := hf.epoch; omega)
  · rw [← append_assoc, ← append_assoc, natAt_append_at (by simp; omega)]
    exact natAt_ofNatLE (by have := hf.lastSeq; omega)
  · rw [← append_assoc, ← append_assoc, ← append_assoc,
      natAt_append_at (by simp; omega)]
    exact natAt_ofNatLE (by have := hf.lastOffset; omega)
  · simp only [← append_assoc]
    exact drop_left' (by simp; omega)

theorem decodeEntries_encode {entries : List SeqHighWater} (hf : ∀ h ∈ entries, h.Fits)
    (hs : entries.Pairwise fun a b => a.producerId < b.producerId) (len fuel : Nat)
    (hfuel : (entries.flatMap encodeEntry).length ≤ fuel) (prev : Option Bytes)
    (hprev : ∀ p ∈ prev, ∀ h ∈ entries, p < h.producerId) :
    decodeEntries len fuel (entries.flatMap encodeEntry) prev = .ok entries := by
  induction entries generalizing fuel prev with
  | nil => cases fuel <;> simp [decodeEntries]
  | cons h entries ih =>
    obtain ⟨hlt, hs⟩ := pairwise_cons.mp hs
    obtain ⟨hlen, hplen, hpid, hepoch, hseq, hoff, hdrop⟩ :=
      read_entry (hf h mem_cons_self) (entries.flatMap encodeEntry)
    rw [flatMap_cons] at hfuel ⊢
    rw [hlen] at hfuel
    obtain ⟨fuel, rfl⟩ : ∃ f, fuel = f + 1 := ⟨fuel - 1, by omega⟩
    have hsorted : ¬ prev.any fun p => h.producerId ≤ p := by
      cases prev with
      | none => simp
      | some p =>
        have := hprev p rfl h mem_cons_self
        simpa using this
    have hrest := ih (fun h' hm => hf h' (mem_cons_of_mem _ hm)) hs fuel (by omega)
      (some h.producerId) (fun p hp h' hm => by
        cases hp
        exact hlt h' hm)
    simp only [decodeEntries, hlen, hplen, hpid, hepoch, hseq, hoff, hdrop]
    rw [if_neg (by omega), if_neg (by omega), if_neg (by omega), if_neg hsorted, hrest]
    rfl

variable [Checksums]

/-- A snapshot decodes to the high-waters it was made of. -/
theorem decode_encode {entries : List SeqHighWater} (hf : ∀ h ∈ entries, h.Fits)
    (hs : entries.Pairwise fun a b => a.producerId < b.producerId)
    (hn : entries.length < 2 ^ 32) : decode (encode entries) = .ok entries := by
  have hlen : (encode entries).length = (encodeBody entries).length + 4 := by simp [encode]
  have hbody : (encodeBody entries).length = 5 + (entries.flatMap encodeEntry).length := by
    simp [encodeBody]
    omega
  have htake : (encode entries).take (encodeBody entries).length = encodeBody entries :=
    take_left
  have hcrc : (encode entries).natAt (encodeBody entries).length 4
      = (Checksums.crc32c (encodeBody entries)).toNat := by
    rw [encode, natAt_append_at rfl, ← append_nil (ofNatLE 4 _)]
    exact natAt_ofNatLE (Checksums.crc32c (encodeBody entries)).toNat_lt
  have hcount : (encode entries).natAt 1 4 = entries.length := by
    have hmin : min entries.length 0xFFFFFFFF = entries.length := by omega
    have hone : 1 = length [version] := rfl
    rw [encode, encodeBody, hmin, append_assoc, append_assoc,
      natAt_append_at hone]
    exact natAt_ofNatLE (by omega)
  have hdrop : (encodeBody entries).drop 5 = entries.flatMap encodeEntry := by
    rw [encodeBody]
    exact drop_left' (by simp)
  have hver : (encode entries).head? = some version := rfl
  simp only [decode, hlen, Nat.add_sub_cancel, htake, hcrc, hcount, hdrop, hver, ne_eq,
    not_true_eq_false, if_false]
  rw [if_neg (by simp only [minLen]; omega),
    decodeEntries_encode hf hs _ _ le_rfl none (by simp)]
  simp [bind, Except.bind, pure, Except.pure]

end SeqSnapshot

/-! ## The table -/

namespace ProducerSeqRegistry

variable {r : ProducerSeqRegistry} {p q : Bytes} {e : ProducerSeq} {now : Nat}

/-- A producer can be entered without dropping another. -/
def HasRoom (r : ProducerSeqRegistry) (producerId : Bytes) : Prop :=
  (r.producers.lookup producerId).isSome ∨ r.producers.size < r.config.maxProducers

instance : Decidable (r.HasRoom p) := inferInstanceAs (Decidable (_ ∨ _))

theorem makeRoomFor_of_hasRoom (h : r.HasRoom p) : r.makeRoomFor p = r := by
  rw [makeRoomFor]
  split
  · rfl
  · rw [if_pos (h.resolve_left ‹_›)]

@[simp] theorem put_config : (r.put p e now).config = r.config := rfl

@[simp] theorem lookup_put_self :
    (r.put p e now).producers.lookup p = some { e with lastTouch := now } :=
  AList.lookup_insert _

theorem lookup_put_of_ne (h : q ≠ p) :
    (r.put p e now).producers.lookup q = r.producers.lookup q :=
  AList.lookup_insert_ne h

theorem hasRoom_put : (r.put p e now).HasRoom p := .inl (by simp)

/-- Entering a producer that has room keeps the table within its cap. -/
theorem size_put_le (h : r.HasRoom p) (hsize : r.producers.size ≤ r.config.maxProducers) :
    (r.put p e now).producers.size ≤ r.config.maxProducers :=
  Assoc.size_insert_le_of_room (h.imp_left (⟨·, hsize⟩)) e

/-! ### The snapshot of a table -/

theorem mem_snapshotPairs {h : SeqHighWater} :
    h ∈ r.snapshotPairs ↔ ∃ e, r.producers.lookup h.producerId = some e ∧ e.epoch = h.epoch
      ∧ e.lastSeq = some h.lastSeq ∧ e.lastOffset = h.lastOffset := by
  simp only [snapshotPairs, mem_insertionSort, mem_filterMap, Option.map_eq_some_iff]
  constructor
  · rintro ⟨⟨p, e⟩, hmem, s, hs, rfl⟩
    exact ⟨e, Assoc.mem_entries_iff.mp hmem, rfl, hs, rfl⟩
  · rintro ⟨e, hlook, hepoch, hs, hoff⟩
    refine ⟨⟨h.producerId, e⟩, Assoc.mem_entries_iff.mpr hlook, h.lastSeq, hs, ?_⟩
    rw [hepoch, hoff]

theorem length_snapshotPairs_le : r.snapshotPairs.length ≤ r.producers.size := by
  rw [snapshotPairs, length_insertionSort]
  exact length_filterMap_le _ _

/-- The ids of a snapshot are distinct and in order. -/
theorem snapshotPairs_sorted :
    r.snapshotPairs.Pairwise fun a b => a.producerId < b.producerId := by
  have hle : r.snapshotPairs.Pairwise fun a b => a.producerId ≤ b.producerId := by
    have : Std.Total fun a b : SeqHighWater => a.producerId ≤ b.producerId :=
      ⟨fun a b => Std.Total.total a.producerId b.producerId⟩
    have : IsTrans SeqHighWater fun a b => a.producerId ≤ b.producerId :=
      ⟨fun _ _ _ hab hbc => List.le_trans hab hbc⟩
    exact List.pairwise_insertionSort _ _
  have hne : r.snapshotPairs.Pairwise fun a b => a.producerId ≠ b.producerId := by
    refine (List.perm_insertionSort _ _).pairwise_iff (fun h => Ne.symm h) |>.mpr ?_
    rw [List.pairwise_filterMap]
    refine (List.nodupKeys_iff_pairwise.mp r.producers.nodupKeys).imp fun {a b} hab c hc d hd => ?_
    obtain ⟨_, -, rfl⟩ := Option.map_eq_some_iff.mp hc
    obtain ⟨_, -, rfl⟩ := Option.map_eq_some_iff.mp hd
    exact hab
  exact (hle.and hne).imp fun h => Std.lt_of_le_of_ne h.1 h.2

/-- Restoring distinct producers that all fit. -/
theorem restore_all {entries : List SeqHighWater} (now : Nat)
    (hne : entries.Pairwise fun a b => a.producerId ≠ b.producerId)
    (hnew : ∀ h ∈ entries, r.producers.lookup h.producerId = none)
    (hroom : r.producers.size + entries.length ≤ r.config.maxProducers) :
    let r' := entries.foldl (restore · now ·) r
    r'.config = r.config ∧ r'.producers.size = r.producers.size + entries.length
      ∧ (∀ h ∈ entries,
        r'.producers.lookup h.producerId = some ⟨h.epoch, some h.lastSeq, h.lastOffset, now⟩)
      ∧ ∀ p, (∀ h ∈ entries, h.producerId ≠ p) → r'.producers.lookup p = r.producers.lookup p := by
  induction entries generalizing r with
  | nil => simp
  | cons h entries ih =>
    obtain ⟨hhead, hne⟩ := pairwise_cons.mp hne
    have hnone := hnew h mem_cons_self
    rw [length_cons] at hroom
    have hmake : r.makeRoomFor h.producerId = r := makeRoomFor_of_hasRoom (.inr (by omega))
    have hsize : (r.restore now h).producers.size = r.producers.size + 1 := by
      rw [restore, hmake]
      exact Assoc.size_insert_of_lookup_none _ hnone
    have hother : ∀ p, h.producerId ≠ p →
        (r.restore now h).producers.lookup p = r.producers.lookup p := by
      intro p hp
      rw [restore, hmake, lookup_put_of_ne hp.symm]
    have hself : (r.restore now h).producers.lookup h.producerId
        = some ⟨h.epoch, some h.lastSeq, h.lastOffset, now⟩ := by
      rw [restore, hmake, lookup_put_self]
    have hconfig : (r.restore now h).config = r.config := by rw [restore, hmake, put_config]
    obtain ⟨ih1, ih2, ih3, ih4⟩ := ih (r := r.restore now h) hne
      (fun h' hm => by
        rw [hother _ (hhead h' hm)]
        exact hnew h' (mem_cons_of_mem _ hm))
      (by rw [hsize, hconfig]; omega)
    refine ⟨ih1.trans hconfig, ?_, ?_, fun p hp => ?_⟩
    · rw [foldl_cons, ih2, hsize, length_cons]
      omega
    · intro h' hm
      rcases mem_cons.mp hm with rfl | hm
      · exact (ih4 _ fun h'' hm' => (hhead h'' hm').symm).trans hself
      · exact ih3 h' hm
    · exact (ih4 p fun h' hm => hp h' (mem_cons_of_mem _ hm)).trans
        (hother p (hp h mem_cons_self))

/-- Everything a table holds fits the snapshot. -/
structure Fits (r : ProducerSeqRegistry) : Prop where
  size : r.producers.size ≤ r.config.maxProducers
  cap : r.config.maxProducers < 2 ^ 32
  entry : ∀ p e, r.producers.lookup p = some e → p.length < 2 ^ 16 ∧ e.epoch < 2 ^ 64
    ∧ e.lastOffset < 2 ^ 64 ∧ ∀ s ∈ e.lastSeq, s < 2 ^ 64

variable [Checksums]

/-- A restart keeps exactly the producers that have an accepted sequence at their epoch. -/
theorem lookup_load (hf : r.Fits) (hcap : 0 < r.config.maxProducers) (now : Nat) :
    let r' := load r.config (encode r.snapshotPairs) now
    r'.config = r.config ∧ r'.producers.size ≤ r.producers.size
      ∧ ∀ p, r'.producers.lookup p = (r.producers.lookup p).bind fun e =>
        e.lastSeq.map fun s => ⟨e.epoch, some s, e.lastOffset, now⟩ := by
  have hlen : r.snapshotPairs.length ≤ r.producers.size := length_snapshotPairs_le
  have hdec : decode (encode r.snapshotPairs) = .ok r.snapshotPairs := by
    refine decode_encode (fun h hm => ?_) snapshotPairs_sorted ?_
    · obtain ⟨e, hlook, hepoch, hseq, hoff⟩ := mem_snapshotPairs.mp hm
      obtain ⟨hp, he, ho, hs⟩ := hf.entry _ e hlook
      exact ⟨hp, hepoch ▸ he, hs _ hseq, hoff ▸ ho⟩
    · have := hf.size
      have := hf.cap
      omega
  have hnew : (new r.config).config = r.config := by
    have : max r.config.maxProducers 1 = r.config.maxProducers := by omega
    simp only [new, this]
  obtain ⟨hconfig, hsize, hin, hout⟩ := restore_all (r := new r.config) now
    (snapshotPairs_sorted.imp fun h => Std.ne_of_lt h) (fun _ _ => rfl)
    (by rw [hnew]; exact (Nat.zero_add _).trans_le (hlen.trans hf.size))
  simp only [load, hdec]
  refine ⟨hconfig.trans hnew, ?_, fun p => ?_⟩
  · rw [hsize]
    exact (Nat.zero_add _).trans_le hlen
  · by_cases hp : ∃ h ∈ r.snapshotPairs, h.producerId = p
    · obtain ⟨h, hm, rfl⟩ := hp
      obtain ⟨e, hlook, hepoch, hseq, hoff⟩ := mem_snapshotPairs.mp hm
      rw [hin h hm, hlook, Option.bind_some, hseq, Option.map_some, hepoch, hoff]
    · -- without an accepted sequence the producer is not in the snapshot
      rw [hout p fun h hm heq => hp ⟨h, hm, heq⟩]
      cases hlook : r.producers.lookup p with
      | none => rfl
      | some e =>
        cases hseq : e.lastSeq with
        | none => simp [hseq, new]
        | some s =>
          exact absurd ⟨⟨p, e.epoch, s, e.lastOffset⟩,
            mem_snapshotPairs.mpr ⟨e, hlook, rfl, hseq, rfl⟩, rfl⟩ hp

end ProducerSeqRegistry

/-! ## One attempt -/

namespace ProducerSeq

variable {e : ProducerSeq} {epoch : Nat}

theorem enterEpoch_epoch (h : e.epoch ≤ epoch) :
    (e.enterEpoch epoch).epoch = epoch := by
  unfold enterEpoch
  split
  · rfl
  · omega

theorem enterEpoch_of_eq (h : e.epoch = epoch) :
    e.enterEpoch epoch = e := if_neg (by omega)

theorem enterEpoch_of_lt (h : e.epoch < epoch) :
    e.enterEpoch epoch = { e with epoch := epoch, lastSeq := none } := if_pos h

/-- A fresh sequence follows the last accepted one. -/
theorem next_of_fresh {seq : Nat} (h : e.decide seq = .fresh) :
    ∀ s ∈ e.lastSeq, seq = s + 1 := by
  intro s hs
  rw [decide, Option.mem_def.mp hs] at h
  dsimp only at h
  split at h
  · cases h
  · split at h
    · assumption
    · cases h

theorem advance_of_next {seq : Nat} (h : ∀ s ∈ e.lastSeq, seq = s + 1) (offset : Nat) :
    e.advance seq offset = { e with lastSeq := some seq, lastOffset := offset } := by
  refine if_pos ?_
  cases hs : e.lastSeq with
  | none => rfl
  | some s => simp [h s hs]

end ProducerSeq

namespace ProducerSeqRegistry

variable {r : ProducerSeqRegistry} {p : Bytes} {epoch seq now : Nat}

/-- The entry an attempt meets. -/
def entryAt (r : ProducerSeqRegistry) (p : Bytes) (epoch now : Nat) : ProducerSeq :=
  (r.producers.lookup p).getD (.new epoch 0 now)

theorem check_of_lt (hroom : r.HasRoom p) (h : epoch < (r.entryAt p epoch now).epoch) :
    r.check p epoch seq now
      = (.fenced (r.entryAt p epoch now).epoch, r.put p (r.entryAt p epoch now) now) := by
  simp only [check, makeRoomFor_of_hasRoom hroom]
  exact if_pos h

theorem check_of_le (hroom : r.HasRoom p) (h : (r.entryAt p epoch now).epoch ≤ epoch) :
    r.check p epoch seq now = (((r.entryAt p epoch now).enterEpoch epoch).decide seq,
      r.put p ((r.entryAt p epoch now).enterEpoch epoch) now) := by
  simp only [check, makeRoomFor_of_hasRoom hroom]
  exact if_neg (not_lt.mpr h)

theorem lookup_makeRoomFor_eq_none (h : r.producers.lookup p = none) :
    (r.makeRoomFor p).producers.lookup p = none := by
  simp only [makeRoomFor, h, Option.isSome_none, Bool.false_eq_true, if_false]
  split
  · exact h
  · exact Option.eq_none_iff_forall_ne_some.mpr fun e he => by
      rw [TouchHeap.lookup_evict he] at h
      cases h

/-- Every sequence of a producer that is not tracked is fresh. -/
theorem check_of_untracked (h : r.producers.lookup p = none) :
    (r.check p epoch seq now).1 = .fresh := by
  have hnew : (ProducerSeq.new epoch 0 now).epoch = epoch := rfl
  simp only [check, lookup_makeRoomFor_eq_none h, Option.getD_none, hnew, Nat.lt_irrefl, if_false]
  rw [enterEpoch_of_eq hnew]
  rfl

/-- Recording the next sequence of the epoch a producer's entry is at. -/
theorem record_put {e : ProducerSeq} (hepoch : e.epoch = epoch)
    (hnext : ∀ s ∈ e.lastSeq, seq = s + 1) (offset : Nat) :
    (r.put p e now).record p epoch seq offset now
      = (r.put p e now).put p ⟨epoch, some seq, offset, now⟩ now := by
  subst hepoch
  simp only [record, makeRoomFor_of_hasRoom hasRoom_put, lookup_put_self, Option.getD_some,
    Nat.lt_irrefl, if_false]
  rw [enterEpoch_of_eq rfl, advance_of_next (by exact hnext)]

end ProducerSeqRegistry

/-! ## Runs -/

/-- A produce attempt: what it carried, how it was answered, whether it was recorded. -/
structure SeqAttempt where
  producerId : Bytes
  epoch : Nat
  seq : Nat
  decision : SeqDecision
  recorded : Bool
  deriving DecidableEq

/-- The table of a broker and the attempts made so far, oldest first. -/
structure SeqWorld where
  registry : ProducerSeqRegistry
  history : List SeqAttempt

namespace SeqWorld

def start (config : SeqConfig) : SeqWorld := ⟨.new config, []⟩

/-- A check, and the record of a fresh publish whose append succeeded. -/
def attempt (w : SeqWorld) (p : Bytes) (epoch seq now : Nat) (appended : Option Nat) : SeqWorld :=
  let checked := w.registry.check p epoch seq now
  match checked.1, appended with
  | .fresh, some offset =>
    ⟨checked.2.record p epoch seq offset now, w.history ++ [⟨p, epoch, seq, .fresh, true⟩]⟩
  | decision, _ => ⟨checked.2, w.history ++ [⟨p, epoch, seq, decision, false⟩]⟩

/-- The snapshot of the table, encoded. -/
def snapshot [Checksums] (w : SeqWorld) : Bytes := encode w.registry.snapshotPairs

/-- The broker stops after a last snapshot and starts again from it. -/
def restart [Checksums] (w : SeqWorld) (now : Nat) : SeqWorld :=
  { w with registry := load w.registry.config w.snapshot now }

/-- The sequences a producer had accepted and recorded at an epoch, in order. -/
def accepted (w : SeqWorld) (p : Bytes) (epoch : Nat) : List Nat :=
  w.history.filterMap fun a =>
    if a.producerId = p ∧ a.epoch = epoch ∧ a.recorded then some a.seq else none

end SeqWorld

/-- What an attempt can do: its answer, whether it is recorded, and the entry it leaves. -/
inductive SeqOutcome (e : ProducerSeq) (epoch seq now : Nat) (appended : Option Nat) :
    SeqDecision → Bool → ProducerSeq → Prop where
  | fenced (h : epoch < e.epoch) :
    SeqOutcome e epoch seq now appended (.fenced e.epoch) false { e with lastTouch := now }
  | kept (h : e.epoch ≤ epoch) (decision : SeqDecision) :
    SeqOutcome e epoch seq now appended decision false { e.enterEpoch epoch with lastTouch := now }
  | accepted (h : e.epoch ≤ epoch) (offset : Nat) (ho : appended = some offset)
    (hnext : ∀ s ∈ (e.enterEpoch epoch).lastSeq, seq = s + 1) :
    SeqOutcome e epoch seq now appended .fresh true ⟨epoch, some seq, offset, now⟩

namespace SeqWorld

open ProducerSeqRegistry

/-- An attempt adds itself to the history and changes the entry of its producer only. -/
theorem attempt_spec {w : SeqWorld} {p : Bytes} (epoch seq now : Nat) (appended : Option Nat)
    (hroom : w.registry.HasRoom p)
    (hsize : w.registry.producers.size ≤ w.registry.config.maxProducers) :
    let w' := w.attempt p epoch seq now appended
    ∃ decision recorded e',
      SeqOutcome (w.registry.entryAt p epoch now) epoch seq now appended decision recorded e'
      ∧ w'.history = w.history ++ [⟨p, epoch, seq, decision, recorded⟩]
      ∧ w'.registry.config = w.registry.config
      ∧ w'.registry.producers.size ≤ w.registry.config.maxProducers
      ∧ w'.registry.producers.lookup p = some e'
      ∧ ∀ q ≠ p, w'.registry.producers.lookup q = w.registry.producers.lookup q := by
  rcases lt_or_ge epoch (w.registry.entryAt p epoch now).epoch with hlt | hle
  · refine ⟨_, _, _, .fenced hlt, ?_⟩
    simp only [attempt, check_of_lt hroom hlt]
    exact ⟨trivial, rfl, size_put_le hroom hsize, lookup_put_self, fun q => lookup_put_of_ne⟩
  · simp only [attempt, check_of_le hroom hle]
    split
    · rename_i offset hfresh
      have hnext := next_of_fresh hfresh
      refine ⟨_, _, _, .accepted hle offset rfl hnext, rfl, ?_⟩
      rw [record_put (enterEpoch_epoch hle) hnext]
      refine ⟨rfl, size_put_le hasRoom_put (size_put_le hroom hsize), lookup_put_self, ?_⟩
      intro q hq
      rw [lookup_put_of_ne hq, lookup_put_of_ne hq]
    · exact ⟨_, _, _, .kept hle _, rfl, rfl, size_put_le hroom hsize, lookup_put_self,
        fun q => lookup_put_of_ne⟩

end SeqWorld

/-- Every producer has an accepted sequence at its epoch, unless that is the first. -/
def ProducerSeqRegistry.AllRecorded (r : ProducerSeqRegistry) : Prop :=
  ∀ p e, r.producers.lookup p = some e → e.lastSeq = none → e.epoch = 0

namespace SeqWorld

variable [Checksums] {config : SeqConfig} {w : SeqWorld} {p : Bytes}

/-- The runs in which no producer is dropped for room, and no restart meets a producer whose
newest epoch has nothing recorded. -/
inductive Reach (config : SeqConfig) : SeqWorld → Prop where
  | start : Reach config (start config)
  | attempt {w : SeqWorld} (h : Reach config w) (p : Bytes) (hp : p.length < 2 ^ 16)
      (epoch seq now : UInt64) (appended : Option UInt64) (hroom : w.registry.HasRoom p) :
      Reach config
        (w.attempt p epoch.toNat seq.toNat now.toNat (appended.map UInt64.toNat))
  | restart {w : SeqWorld} (h : Reach config w) (now : UInt64) (hrec : w.registry.AllRecorded) :
      Reach config (w.restart now.toNat)

omit [Checksums]

variable {epoch : Nat}

theorem accepted_append {w w' : SeqWorld} {a : SeqAttempt} (h : w'.history = w.history ++ [a])
    (p : Bytes) (epoch : Nat) :
    w'.accepted p epoch = w.accepted p epoch
      ++ if a.producerId = p ∧ a.epoch = epoch ∧ a.recorded then [a.seq] else [] := by
  rw [accepted, h, filterMap_append, ← accepted]
  congr 1
  split <;> simp [*]

theorem accepted_eq_nil
    (h : ∀ a ∈ w.history, a.producerId = p → a.epoch = epoch → a.recorded = false) :
    w.accepted p epoch = [] := by
  refine filterMap_eq_nil_iff.mpr fun a ha => if_neg ?_
  rintro ⟨hp, he, hr⟩
  rw [h a ha hp he] at hr
  cases hr

/-- An epoch that no attempt is past, and the last sequence accepted at it. -/
structure Reflects (w : SeqWorld) (p : Bytes) (epoch : Nat) (lastSeq : Option Nat) : Prop where
  latest : ∀ a ∈ w.history, a.producerId = p → a.epoch ≤ epoch
  last : (w.accepted p epoch).getLast? = lastSeq

/-- Nothing is accepted yet at an epoch ahead. -/
theorem Reflects.enter {e : ProducerSeq} (h : w.Reflects p e.epoch e.lastSeq)
    (hle : e.epoch ≤ epoch) : w.Reflects p epoch (e.enterEpoch epoch).lastSeq := by
  rcases Nat.eq_or_lt_of_le hle with heq | hlt
  · rw [enterEpoch_of_eq heq]
    exact heq ▸ h
  · rw [enterEpoch_of_lt hlt]
    refine ⟨fun a ha hp => (h.latest a ha hp).trans hle, ?_⟩
    rw [accepted_eq_nil fun a ha hp he => ?_]
    · rfl
    · have := h.latest a ha hp
      omega

section Snoc

variable {w' : SeqWorld} {a : SeqAttempt} {epoch : Nat} {lastSeq : Option Nat}

/-- An attempt that is not recorded and not ahead of a producer's epoch. -/
theorem Reflects.snoc (h : w.Reflects p epoch lastSeq) (hw : w'.history = w.history ++ [a])
    (ha : a.producerId = p → a.epoch ≤ epoch ∧ a.recorded = false) :
    w'.Reflects p epoch lastSeq := by
  constructor
  · intro b hb hp
    rw [hw] at hb
    rcases mem_append.mp hb with hb | hb
    · exact h.latest b hb hp
    · obtain rfl := mem_singleton.mp hb
      exact (ha hp).1
  · rw [accepted_append hw, if_neg, append_nil]
    · exact h.last
    · rintro ⟨hp, -, hr⟩
      rw [(ha hp).2] at hr
      cases hr

/-- An accepted attempt is the last of its epoch. -/
theorem Reflects.snoc_accepted (h : w.Reflects a.producerId a.epoch lastSeq)
    (hw : w'.history = w.history ++ [a]) (ha : a.recorded = true) :
    w'.Reflects a.producerId a.epoch (some a.seq) := by
  constructor
  · intro b hb hp
    rw [hw] at hb
    rcases mem_append.mp hb with hb | hb
    · exact h.latest b hb hp
    · rw [mem_singleton.mp hb]
  · rw [accepted_append hw, if_pos ⟨rfl, rfl, ha⟩, getLast?_concat]

/-- The sequences stay consecutive when the accepted one follows the last. -/
theorem isChain_snoc (h : ∀ p epoch, (w.accepted p epoch).IsChain fun s t => t = s + 1)
    (hw : w'.history = w.history ++ [a])
    (ha : a.recorded → ∀ s ∈ (w.accepted a.producerId a.epoch).getLast?, a.seq = s + 1)
    (p : Bytes) (epoch : Nat) : (w'.accepted p epoch).IsChain fun s t => t = s + 1 := by
  rw [accepted_append hw]
  split_ifs with hcond
  · obtain ⟨rfl, rfl, hr⟩ := hcond
    refine isChain_append.mpr ⟨h _ _, .singleton _, fun s hs t ht => ?_⟩
    simp only [head?_cons, Option.mem_some_iff] at ht
    exact ht ▸ ha hr s hs
  · rw [append_nil]
    exact h p epoch

end Snoc

/-- What every run keeps. -/
structure Inv (w : SeqWorld) : Prop where
  fits : w.registry.Fits
  room : 0 < w.registry.config.maxProducers
  tracked : ∀ p e, w.registry.producers.lookup p = some e → w.Reflects p e.epoch e.lastSeq
    ∧ ∃ a ∈ w.history, a.producerId = p ∧ a.epoch = e.epoch
  untracked : ∀ p, w.registry.producers.lookup p = none →
    ∀ a ∈ w.history, a.producerId = p → a.epoch = 0 ∧ a.recorded = false
  consecutive : ∀ p epoch, (w.accepted p epoch).IsChain fun s t => t = s + 1
  fenced : w.history.Pairwise fun a b =>
    a.producerId = b.producerId → b.epoch < a.epoch → b.decision ≠ .fresh

theorem Inv.start (hcap : config.maxProducers < 2 ^ 32) : Inv (start config) where
  fits := ⟨Nat.zero_le _, by
    show max config.maxProducers 1 < 2 ^ 32
    omega, fun p e h => by cases h⟩
  room := lt_of_lt_of_le Nat.one_pos (le_max_right _ _)
  tracked p e h := by cases h
  untracked p _ a ha := by cases ha
  consecutive p epoch := .nil
  fenced := .nil

/-- The entry an attempt meets says what its producer did. -/
theorem Inv.entryAt (h : Inv w) (p : Bytes) (epoch now : Nat) :
    w.Reflects p (w.registry.entryAt p epoch now).epoch
      (w.registry.entryAt p epoch now).lastSeq := by
  unfold ProducerSeqRegistry.entryAt
  cases hp : w.registry.producers.lookup p with
  | some e => exact (h.tracked p e hp).1
  | none =>
    have hnone := h.untracked p hp
    refine ⟨fun a ha hap => (hnone a ha hap).1.trans_le (Nat.zero_le _), ?_⟩
    rw [accepted_eq_nil fun a ha hap _ => (hnone a ha hap).2]
    rfl

/-- The entry an attempt leaves says what its producer did. -/
theorem Reflects.outcome {w' : SeqWorld} {e e' : ProducerSeq} {seq now : Nat}
    {appended : Option Nat} {decision : SeqDecision} {recorded : Bool}
    (h : w.Reflects p e.epoch e.lastSeq)
    (ho : SeqOutcome e epoch seq now appended decision recorded e')
    (hw : w'.history = w.history ++ [⟨p, epoch, seq, decision, recorded⟩]) :
    w'.Reflects p e'.epoch e'.lastSeq := by
  cases ho with
  | fenced hlt => exact h.snoc hw fun _ => ⟨Nat.le_of_lt hlt, rfl⟩
  | kept hle =>
    simp only [enterEpoch_epoch hle]
    exact (h.enter hle).snoc hw fun _ => ⟨le_rfl, rfl⟩
  | accepted hle offset ho hnext => exact (h.enter hle).snoc_accepted hw rfl

end SeqWorld

/-- The entry an attempt leaves fits if the one it met does. -/
theorem SeqOutcome.fits {e e' : ProducerSeq} {epoch seq now : UInt64} {appended : Option UInt64}
    {decision : SeqDecision} {recorded : Bool}
    (h : SeqOutcome e epoch.toNat seq.toNat now.toNat (appended.map UInt64.toNat) decision
      recorded e')
    (he : e.epoch < 2 ^ 64 ∧ e.lastOffset < 2 ^ 64 ∧ ∀ s ∈ e.lastSeq, s < 2 ^ 64) :
    e'.epoch < 2 ^ 64 ∧ e'.lastOffset < 2 ^ 64 ∧ ∀ s ∈ e'.lastSeq, s < 2 ^ 64 := by
  cases h with
  | fenced => exact he
  | kept hle =>
    unfold enterEpoch
    split
    · exact ⟨epoch.toNat_lt, he.2.1, by simp⟩
    · exact he
  | accepted hle offset ho =>
    obtain ⟨o, -, rfl⟩ := Option.map_eq_some_iff.mp ho
    refine ⟨epoch.toNat_lt, o.toNat_lt, fun s hs => ?_⟩
    obtain rfl := Option.mem_some_iff.mp hs
    exact seq.toNat_lt

namespace SeqWorld

variable [Checksums] {config : SeqConfig} {w : SeqWorld} {p : Bytes}

omit [Checksums] in
/-- The entry an attempt leaves is at an epoch that was seen. -/
theorem Inv.seen_outcome (h : Inv w) {w' : SeqWorld} {e' : ProducerSeq} {epoch seq now : Nat}
    {appended : Option Nat} {decision : SeqDecision} {recorded : Bool}
    (ho : SeqOutcome (w.registry.entryAt p epoch now) epoch seq now appended decision recorded e')
    (hw : w'.history = w.history ++ [⟨p, epoch, seq, decision, recorded⟩]) :
    ∃ a ∈ w'.history, a.producerId = p ∧ a.epoch = e'.epoch := by
  rw [hw]
  have hnew : ∀ d r, (⟨p, epoch, seq, d, r⟩ : SeqAttempt) ∈ w.history ++ [⟨p, epoch, seq, d, r⟩] :=
    fun _ _ => mem_append_right _ (mem_singleton.mpr rfl)
  cases ho with
  | kept hle => exact ⟨_, hnew _ _, rfl, (enterEpoch_epoch hle).symm⟩
  | accepted => exact ⟨_, hnew _ _, rfl, rfl⟩
  | fenced hlt =>
    -- only a tracked producer can fence
    cases hp : w.registry.producers.lookup p with
    | none => simp [ProducerSeqRegistry.entryAt, hp, new] at hlt
    | some e =>
      obtain ⟨a, ha, hap, hae⟩ := (h.tracked p e hp).2
      refine ⟨a, mem_append_left _ ha, hap, ?_⟩
      simp [ProducerSeqRegistry.entryAt, hp, hae]

omit [Checksums] in
theorem Inv.attempt (h : Inv w) (hp : p.length < 2 ^ 16) (epoch seq now : UInt64)
    (appended : Option UInt64) (hroom : w.registry.HasRoom p) :
    Inv (w.attempt p epoch.toNat seq.toNat now.toNat (appended.map UInt64.toNat)) := by
  obtain ⟨decision, recorded, e', ho, hw, hconfig, hsize, hself, hother⟩ :=
    attempt_spec epoch.toNat seq.toNat now.toNat (appended.map UInt64.toNat) hroom h.fits.size
  have hmet := h.entryAt p epoch.toNat now.toNat
  refine ⟨⟨hconfig ▸ hsize, hconfig ▸ h.fits.cap, fun q e hq => ?_⟩, hconfig ▸ h.room,
    fun q e hq => ?_, fun q hq a ha haq => ?_, isChain_snoc h.consecutive hw fun hr s hs => ?_, ?_⟩
  · by_cases hqp : q = p
    · subst hqp
      obtain rfl := Option.some.inj (hself.symm.trans hq)
      refine ⟨hp, ho.fits ?_⟩
      unfold ProducerSeqRegistry.entryAt
      cases hlook : w.registry.producers.lookup q with
      | none => exact ⟨epoch.toNat_lt, by simp [new], by simp [new]⟩
      | some e => exact (h.fits.entry q e hlook).2
    · exact h.fits.entry q e ((hother q hqp).symm.trans hq)
  · by_cases hqp : q = p
    · subst hqp
      obtain rfl := Option.some.inj (hself.symm.trans hq)
      exact ⟨hmet.outcome ho hw, h.seen_outcome ho hw⟩
    · obtain ⟨href, a, ha, hseen⟩ := h.tracked q e ((hother q hqp).symm.trans hq)
      refine ⟨href.snoc hw fun heq => absurd heq.symm hqp, a, ?_, hseen⟩
      rw [hw]
      exact mem_append_left _ ha
  · have hqp : q ≠ p := fun heq => by
      rw [heq, hself] at hq
      cases hq
    rw [hw] at ha
    rcases mem_append.mp ha with ha | ha
    · exact h.untracked q ((hother q hqp).symm.trans hq) a ha haq
    · rw [mem_singleton.mp ha] at haq
      exact absurd haq.symm hqp
  · cases ho with
    | fenced => cases hr
    | kept => cases hr
    | accepted hle offset ho hnext =>
      rw [(hmet.enter hle).last] at hs
      exact hnext s hs
  · -- an attempt under an older epoch than one before it is fenced
    rw [hw]
    refine pairwise_append.mpr ⟨h.fenced, pairwise_singleton _ _, fun a ha b hb => ?_⟩
    rw [mem_singleton.mp hb]
    intro hap hlt
    have hle := hmet.latest a ha hap
    cases ho with
    | fenced => simp
    | kept hle' => exact absurd hlt (not_lt.mpr (hle.trans hle'))
    | accepted hle' => exact absurd hlt (not_lt.mpr (hle.trans hle'))

/-- A restart whose producers all have a sequence recorded at their epoch loses nothing. -/
theorem Inv.restart (h : Inv w) (hrec : w.registry.AllRecorded) (now : Nat) :
    Inv (w.restart now) := by
  obtain ⟨hconfig, hsize, hlook⟩ := ProducerSeqRegistry.lookup_load h.fits h.room now
  have hkept : ∀ p e', (w.restart now).registry.producers.lookup p = some e' →
      ∃ e s, w.registry.producers.lookup p = some e ∧ e.lastSeq = some s
        ∧ e' = ⟨e.epoch, some s, e.lastOffset, now⟩ := by
    intro p e' hp
    obtain ⟨e, he, hp⟩ := Option.bind_eq_some_iff.mp ((hlook p).symm.trans hp)
    obtain ⟨s, hs, rfl⟩ := Option.map_eq_some_iff.mp hp
    exact ⟨e, s, he, hs, rfl⟩
  refine ⟨⟨(hsize.trans h.fits.size).trans_eq (congrArg _ hconfig.symm), hconfig ▸ h.fits.cap,
    fun p e' hp => ?_⟩, hconfig ▸ h.room, fun p e' hp => ?_, fun p hp a ha hap => ?_,
    h.consecutive, h.fenced⟩
  · obtain ⟨e, s, he, hs, rfl⟩ := hkept p e' hp
    have := h.fits.entry p e he
    exact hs ▸ this
  · obtain ⟨e, s, he, hs, rfl⟩ := hkept p e' hp
    obtain ⟨href, hseen⟩ := h.tracked p e he
    exact ⟨⟨href.latest, href.last.trans hs⟩, hseen⟩
  · cases hp₀ : w.registry.producers.lookup p with
    | none => exact h.untracked p hp₀ a ha hap
    | some e =>
      have hnone : e.lastSeq = none := by
        have := (hlook p).symm.trans hp
        simpa [hp₀] using this
      have href := (h.tracked p e hp₀).1
      have hzero := hrec p e hp₀ hnone
      have ha0 : a.epoch = 0 := by
        have := href.latest a ha hap
        omega
      refine ⟨ha0, ?_⟩
      have hnil := getLast?_eq_none_iff.mp (href.last.trans hnone)
      by_contra hr
      have hmem : a.seq ∈ w.accepted p e.epoch :=
        mem_filterMap.mpr ⟨a, ha, if_pos ⟨hap, ha0.trans hzero.symm, by simpa using hr⟩⟩
      rw [hnil] at hmem
      cases hmem

theorem Reach.inv (hcap : config.maxProducers < 2 ^ 32) (h : Reach config w) : Inv w := by
  induction h with
  | start => exact .start hcap
  | attempt _ p hp epoch seq now appended hroom ih =>
    exact ih.attempt hp epoch seq now appended hroom
  | restart _ now hrec ih => exact ih.restart hrec now.toNat

omit [Checksums] in
/-- Consecutive sequences are distinct. -/
theorem Inv.nodup (h : Inv w) (p : Bytes) (epoch : Nat) : (w.accepted p epoch).Nodup := by
  have hlt : (w.accepted p epoch).IsChain (· < ·) :=
    (h.consecutive p epoch).imp fun s t (heq : t = s + 1) => by omega
  exact (isChain_iff_pairwise.mp hlt).imp fun h => Nat.ne_of_lt h

/-- An epoch that was passed is fenced after a restart exactly when the restart loses no epoch. -/
theorem Inv.restart_fences (h : Inv w) (now : Nat) :
    w.registry.AllRecorded ↔ ∀ p epoch seq now',
      (∃ a ∈ w.history, a.producerId = p ∧ epoch < a.epoch) →
        ((w.restart now).registry.check p epoch seq now').1 ≠ .fresh := by
  constructor
  · rintro hrec p epoch seq now' ⟨a, ha, hap, hlt⟩
    have h' := h.restart hrec now
    cases hp : (w.restart now).registry.producers.lookup p with
    | none =>
      have := (h'.untracked p hp a ha hap).1
      omega
    | some e =>
      have hle := (h'.tracked p e hp).1.latest a ha hap
      have hmet : (w.restart now).registry.entryAt p epoch now' = e := by
        simp [ProducerSeqRegistry.entryAt, hp]
      rw [ProducerSeqRegistry.check_of_lt (.inl (by rw [hp]; rfl)) (by rw [hmet]; omega)]
      simp
  · intro hfence p e hp hnone
    by_contra hpos
    obtain ⟨-, a, ha, hap, hae⟩ := h.tracked p e hp
    refine hfence p 0 0 0 ⟨a, ha, hap, by omega⟩ (ProducerSeqRegistry.check_of_untracked ?_)
    exact ((ProducerSeqRegistry.lookup_load h.fits h.room now).2.2 p).trans (by simp [hp, hnone])

/-- In every run that meets no restart while a producer's newest epoch has nothing recorded, a
(producer, epoch, sequence) is accepted at most once, what an epoch accepts is consecutive, and an
epoch below one already seen is never fresh. A further restart keeps the last of these exactly
when it meets no such producer either. -/
theorem accepts_once (config : SeqConfig) (hcap : config.maxProducers < 2 ^ 32) (w : SeqWorld)
    (h : Reach config w) :
    (∀ p epoch, (w.accepted p epoch).Nodup
      ∧ (w.accepted p epoch).IsChain fun s t => t = s + 1)
      ∧ (w.history.Pairwise fun a b =>
        a.producerId = b.producerId → b.epoch < a.epoch → b.decision ≠ .fresh)
      ∧ ∀ now, w.registry.AllRecorded ↔ ∀ p epoch seq now',
        (∃ a ∈ w.history, a.producerId = p ∧ epoch < a.epoch) →
          ((w.restart now).registry.check p epoch seq now').1 ≠ .fresh := by
  have hinv := h.inv hcap
  exact ⟨fun p epoch => ⟨hinv.nodup p epoch, hinv.consecutive p epoch⟩, hinv.fenced,
    hinv.restart_fences⟩

end SeqWorld

namespace SeqWorld

/-- The checksums the runs below are evaluated with; snapshots use the first only. -/
local instance : Checksums := ⟨castagnoli, fun _ => 0⟩

/-- A producer publishes at epoch 1, then at epoch 2. -/
def twoEpochs : SeqWorld :=
  ((start ⟨4⟩).attempt [1] 1 0 0 (some 7)).attempt [1] 2 0 1 (some 8)

theorem reach_twoEpochs : Reach ⟨4⟩ twoEpochs :=
  .attempt (.attempt .start [1] (by decide) 1 0 0 (some 7) (by decide)) [1] (by decide) 2 0 1
    (some 8) (by decide)

theorem allRecorded_twoEpochs : twoEpochs.registry.AllRecorded := by
  have hentries : twoEpochs.registry.producers.entries = [⟨[1], ⟨2, some 0, 8, 1⟩⟩] := by decide
  intro p e he hnone
  have hmem := Assoc.mem_entries_iff.mpr he
  rw [hentries] at hmem
  cases mem_singleton.mp hmem
  cases hnone

/-- The older epoch is still fenced after a restart. -/
theorem accepts_once_twoEpochs :
    ((twoEpochs.restart 5).registry.check [1] 1 0 9).1 ≠ .fresh :=
  ((accepts_once ⟨4⟩ (by decide) twoEpochs reach_twoEpochs).2.2 5).mp allRecorded_twoEpochs
    [1] 1 0 9 ⟨⟨[1], 2, 0, .fresh, true⟩, by decide, rfl, by decide⟩

/-- A producer publishes at epoch 1, an append at epoch 2 fails, the broker restarts, and the
old session retries. -/
def failedAppend : SeqWorld :=
  ((((start ⟨4⟩).attempt [1] 1 0 0 (some 7)).attempt [1] 2 0 1 none).restart 2).attempt
    [1] 1 0 3 (some 8)

/-- The retry is appended a second time, behind the newer epoch. -/
theorem failedAppend_accepts_twice :
    failedAppend.accepted [1] 1 = [0, 0]
      ∧ failedAppend.history = [⟨[1], 1, 0, .fresh, true⟩, ⟨[1], 2, 0, .fresh, false⟩,
        ⟨[1], 1, 0, .fresh, true⟩] := by
  decide +kernel

end SeqWorld

end IronBus
