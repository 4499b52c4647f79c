import IronBus.Native.Dedup
import IronBus.Native.ProducerSeq
import IronBus.Native.Txn

/-!
# Which entry makes room

The deduplication windows, the producer sequences and the transaction tombstones are bounded maps
that drop the entry used longest ago. Each finds it by popping a heap of touches with stale
entries.

Key results:
- `tracked_runOps`, once for each map: the heap stays in proportion to the map, in every run
- `eviction_refines_scan`: each drops what a scan of its map for the least stamp would drop
-/

namespace IronBus

open TouchHeap (Tracks dropLeast)

/-! ## The deduplication windows -/

/-- A call on the deduplication registry. -/
inductive DedupOp where
  | check (producerId : Bytes) (epoch : Nat) (msgId : Bytes) (now : Nat)
  | record (producerId msgId : Bytes) (offset now : Nat)

namespace DedupOp

def producer : DedupOp → Bytes
  | check p _ _ _ => p
  | record p _ _ _ => p

def now : DedupOp → Nat
  | check _ _ _ t => t
  | record _ _ _ t => t

def apply (r : DedupRegistry) : DedupOp → DedupRegistry
  | check p epoch msgId now => (r.check p epoch msgId now).2
  | record p msgId offset now => r.record p msgId offset now

end DedupOp

namespace ProducerWindow

@[simp] theorem lastTouch_evictExpired (w : ProducerWindow) (windowNanos now : Nat) :
    (w.evictExpired windowNanos now).2.lastTouch = w.lastTouch := by
  unfold evictExpired
  split <;> rfl

@[simp] theorem lastTouch_evictOverflow (w : ProducerWindow) (maxIds : Nat) :
    (w.evictOverflow maxIds).lastTouch = w.lastTouch := rfl

end ProducerWindow

namespace DedupRegistry

def runOps (config : DedupConfig) (ops : List DedupOp) : DedupRegistry :=
  ops.foldl DedupOp.apply (.new config)

/-- The producers left when room is made for `p` by a scan: the windows that aged empty go first,
and if that is not enough the least recently touched. -/
def roomByScan (r : DedupRegistry) (p : Bytes) (now : Nat) : Assoc Bytes ProducerWindow :=
  if (r.producers.lookup p).isSome ∨ r.producers.size < r.config.maxProducers then r.producers
  else
    let live := (r.reapEmptyWindows now).producers
    dropLeast ProducerWindow.lastTouch (live.size + 1 - r.config.maxProducers) live

/-- The heap serves the map. -/
structure Tracked (r : DedupRegistry) : Prop where
  pos : 0 < r.config.maxProducers
  size_le : r.producers.size ≤ r.config.maxProducers
  tracks : Tracks ProducerWindow.lastTouch r.lru r.producers

variable {r : DedupRegistry} {p : Bytes} {epoch now : Nat}

theorem Tracked.reapEmptyWindows (h : r.Tracked) (now : Nat) :
    (r.reapEmptyWindows now).config = r.config ∧ (r.reapEmptyWindows now).Tracked := by
  unfold DedupRegistry.reapEmptyWindows
  split
  · exact ⟨rfl, h⟩
  refine ⟨rfl, h.pos, (Assoc.size_retain_le _ _).trans h.size_le, fun k w hk => ?_,
    h.tracks.sorted⟩
  rw [Assoc.lookup_retain, Option.bind_eq_some_iff] at hk
  obtain ⟨w₀, hlook, hw⟩ := hk
  simp only at hw
  split at hw
  · cases hw
  · cases hw
    rw [ProducerWindow.lastTouch_evictExpired]
    exact h.tracks.covers k w₀ hlook

theorem Tracked.makeRoomFor (h : r.Tracked) (p : Bytes) (now : Nat) :
    (r.makeRoomFor p now).config = r.config
      ∧ (r.makeRoomFor p now).producers = r.roomByScan p now
      ∧ (r.makeRoomFor p now).Tracked
      ∧ (((r.makeRoomFor p now).producers.lookup p).isSome
        ∨ (r.makeRoomFor p now).producers.size < r.config.maxProducers) := by
  unfold DedupRegistry.makeRoomFor roomByScan
  split
  · rename_i htracked
    exact ⟨rfl, by rw [if_pos (.inl htracked)], h, .inl htracked⟩
  rename_i hnew
  split
  · rename_i hroom
    exact ⟨rfl, by rw [if_pos (.inr hroom)], h, .inr hroom⟩
  rename_i hfull
  rw [if_neg (not_or.mpr ⟨hnew, hfull⟩)]
  obtain ⟨hconfig, hreaped⟩ := h.reapEmptyWindows now
  have hlt := hreaped.tracks.covers.size_evict_lt hreaped.pos
  refine ⟨hconfig, ?_, ⟨hreaped.pos, hlt.le, hreaped.tracks.evict _⟩, .inr (hconfig ▸ hlt)⟩
  rw [← hconfig]
  exact TouchHeap.evict_eq_dropLeast hreaped.tracks.covers hreaped.tracks.sorted hreaped.pos

/-- Every call begins by touching its producer. -/
theorem Tracked.touch (h : r.Tracked) (p : Bytes) (epoch now : Nat) :
    (r.touch p epoch now).Tracked
      ∧ (r.touch p epoch now).lru.length ≤ 2 * (r.touch p epoch now).producers.size
      ∧ ∀ q ≠ p, (r.touch p epoch now).producers.lookup q = (r.roomByScan p now).lookup q := by
  obtain ⟨hconfig, hscan, hroom, hfits⟩ := h.makeRoomFor p now
  rw [← hconfig] at hfits
  refine ⟨⟨hroom.pos, ?_, hroom.tracks.store rfl⟩, TouchHeap.length_push_le _ _ _ _,
    fun q hq => ?_⟩
  · exact Assoc.size_insert_le_of_room (hfits.imp_left (⟨·, hroom.size_le⟩)) _
  · show AList.lookup q (AList.insert p _ _) = _
    rw [AList.lookup_insert_ne hq, hscan]

/-- Putting back a window of the same stamp changes nothing the heap sees. -/
theorem Tracked.setWindow (h : r.Tracked) {w w' : ProducerWindow}
    (hw : r.producers.lookup p = some w) (hstamp : w'.lastTouch = w.lastTouch) :
    (r.setWindow p w').Tracked ∧ (r.setWindow p w').producers.size = r.producers.size := by
  have hsize : (r.setWindow p w').producers.size = r.producers.size :=
    Assoc.size_insert_of_lookup_some _ hw
  refine ⟨⟨h.pos, hsize.trans_le h.size_le, ?_, h.tracks.sorted⟩, hsize⟩
  exact h.tracks.covers.insert_of_mem (hstamp ▸ h.tracks.covers p w hw)

theorem lastTouch_enterEpoch (w : ProducerWindow) (epoch : Nat) :
    (enterEpoch w epoch).lastTouch = w.lastTouch := by
  unfold enterEpoch
  split <;> rfl

/-- A call is a touch, and at most a window put back under the touched stamp. -/
theorem apply_cases (r : DedupRegistry) (op : DedupOp) :
    ∃ epoch, op.apply r = r.touch op.producer epoch op.now
      ∨ ∃ w w', (r.touch op.producer epoch op.now).producers.lookup op.producer = some w
        ∧ w'.lastTouch = w.lastTouch
        ∧ op.apply r = (r.touch op.producer epoch op.now).setWindow op.producer w' := by
  have hself (p : Bytes) (epoch now : Nat) :
      ∃ w, (r.touch p epoch now).producers.lookup p = some w :=
    ⟨_, AList.lookup_insert _⟩
  cases op with
  | check p epoch msgId now =>
    obtain ⟨w, hw⟩ := hself p epoch now
    refine ⟨epoch, ?_⟩
    simp only [DedupOp.apply, DedupOp.producer, DedupOp.now, check, hw, Option.getD_some]
    split
    · exact .inl rfl
    · refine .inr ⟨w, ((enterEpoch w epoch).evictExpired (r.touch p epoch now).config.windowNanos
        now).2.evictOverflow (r.touch p epoch now).config.maxIds, rfl, ?_, by split <;> rfl⟩
      simp [lastTouch_enterEpoch]
  | record p msgId offset now =>
    obtain ⟨w, hw⟩ := hself p 0 now
    refine ⟨0, .inr ⟨w, ((ProducerWindow.evictExpired { w with
        index := w.index.insert msgId (offset, now)
        order := w.order ++ [(msgId, now)] } (r.touch p 0 now).config.windowNanos
        now).2.evictOverflow (r.touch p 0 now).config.maxIds), hw, by simp, ?_⟩⟩
    simp only [DedupOp.apply, DedupOp.producer, DedupOp.now, record, hw, Option.getD_some]

theorem Tracked.apply (h : r.Tracked) (op : DedupOp) :
    (op.apply r).Tracked ∧ (op.apply r).lru.length ≤ 2 * (op.apply r).producers.size
      ∧ ∀ q ≠ op.producer, (op.apply r).producers.lookup q
        = (r.roomByScan op.producer op.now).lookup q := by
  obtain ⟨epoch, hcases⟩ := apply_cases r op
  obtain ⟨htouch, hlen, hothers⟩ := h.touch op.producer epoch op.now
  rcases hcases with heq | ⟨w, w', hw, hstamp, heq⟩
  · rw [heq]
    exact ⟨htouch, hlen, hothers⟩
  · obtain ⟨hset, hsize⟩ := htouch.setWindow hw hstamp
    rw [heq, hsize]
    refine ⟨hset, hlen, fun q hq => ?_⟩
    exact (AList.lookup_insert_ne hq).trans (hothers q hq)

theorem tracked_runOps (config : DedupConfig) (ops : List DedupOp) :
    (runOps config ops).Tracked
      ∧ (runOps config ops).lru.length ≤ 2 * (runOps config ops).producers.size := by
  refine List.foldlRecOn (motive := fun r : DedupRegistry =>
      r.Tracked ∧ r.lru.length ≤ 2 * r.producers.size) ops _
    ⟨⟨Nat.le_max_right _ _, Nat.zero_le _, nofun, .nil⟩, Nat.zero_le _⟩ fun r ih op _ => ?_
  obtain ⟨htracked, hlen, -⟩ := ih.1.apply op
  exact ⟨htracked, hlen⟩

end DedupRegistry

/-! ## The producer sequences -/

/-- A call on the sequence registry. -/
inductive SeqOp where
  | check (producerId : Bytes) (epoch seq now : Nat)
  | record (producerId : Bytes) (epoch seq offset now : Nat)
  | restore (highWater : SeqHighWater) (now : Nat)

namespace SeqOp

def producer : SeqOp → Bytes
  | check p _ _ _ => p
  | record p _ _ _ _ => p
  | restore h _ => h.producerId

def apply (r : ProducerSeqRegistry) : SeqOp → ProducerSeqRegistry
  | check p epoch seq now => (r.check p epoch seq now).2
  | record p epoch seq offset now => r.record p epoch seq offset now
  | restore h now => r.restore now h

end SeqOp

namespace ProducerSeqRegistry

def runOps (config : SeqConfig) (ops : List SeqOp) : ProducerSeqRegistry :=
  ops.foldl SeqOp.apply (.new config)

/-- The producers left when room is made for `p` by a scan. -/
def roomByScan (r : ProducerSeqRegistry) (p : Bytes) : Assoc Bytes ProducerSeq :=
  if (r.producers.lookup p).isSome ∨ r.producers.size < r.config.maxProducers then r.producers
  else dropLeast ProducerSeq.lastTouch (r.producers.size + 1 - r.config.maxProducers) r.producers

/-- The heap serves the map. -/
structure Tracked (r : ProducerSeqRegistry) : Prop where
  pos : 0 < r.config.maxProducers
  size_le : r.producers.size ≤ r.config.maxProducers
  tracks : Tracks ProducerSeq.lastTouch r.lru r.producers

variable {r : ProducerSeqRegistry}

/-- Making room and storing an entry, as every call does. -/
theorem Tracked.put (h : r.Tracked) (p : Bytes) (e : ProducerSeq) (now : Nat) :
    ((r.makeRoomFor p).put p e now).Tracked
      ∧ ((r.makeRoomFor p).put p e now).lru.length
        ≤ 2 * ((r.makeRoomFor p).put p e now).producers.size
      ∧ ∀ q ≠ p, ((r.makeRoomFor p).put p e now).producers.lookup q
        = (r.roomByScan p).lookup q := by
  obtain ⟨hconfig, hscan, htracks, hfits⟩ : (r.makeRoomFor p).config = r.config
      ∧ (r.makeRoomFor p).producers = r.roomByScan p
      ∧ Tracks ProducerSeq.lastTouch (r.makeRoomFor p).lru (r.makeRoomFor p).producers
      ∧ (((r.makeRoomFor p).producers.lookup p).isSome
          ∧ (r.makeRoomFor p).producers.size ≤ r.config.maxProducers
        ∨ (r.makeRoomFor p).producers.size < r.config.maxProducers) := by
    unfold makeRoomFor roomByScan
    split
    · rename_i hsome
      exact ⟨rfl, by rw [if_pos (.inl hsome)], h.tracks, .inl ⟨hsome, h.size_le⟩⟩
    rename_i hnew
    split
    · rename_i hroom
      exact ⟨rfl, by rw [if_pos (.inr hroom)], h.tracks, .inr hroom⟩
    rename_i hfull
    rw [if_neg (not_or.mpr ⟨hnew, hfull⟩)]
    exact ⟨rfl, TouchHeap.evict_eq_dropLeast h.tracks.covers h.tracks.sorted h.pos,
      h.tracks.evict _, .inr (h.tracks.covers.size_evict_lt h.pos)⟩
  refine ⟨⟨hconfig ▸ h.pos, ?_, htracks.store rfl⟩, TouchHeap.length_push_le _ _ _ _,
    fun q hq => ?_⟩
  · rw [← hconfig] at hfits
    exact Assoc.size_insert_le_of_room hfits _
  · rw [← hscan]
    exact AList.lookup_insert_ne hq

theorem apply_eq_put (r : ProducerSeqRegistry) (op : SeqOp) :
    ∃ e now, op.apply r = (r.makeRoomFor op.producer).put op.producer e now := by
  cases op with
  | check p epoch seq now =>
    simp only [SeqOp.apply, SeqOp.producer, check]
    split
    · exact ⟨_, _, rfl⟩
    · exact ⟨_, _, rfl⟩
  | record p epoch seq offset now =>
    simp only [SeqOp.apply, SeqOp.producer, record]
    split
    · exact ⟨_, _, rfl⟩
    · exact ⟨_, _, rfl⟩
  | restore h now => exact ⟨_, _, rfl⟩

theorem Tracked.apply (h : r.Tracked) (op : SeqOp) :
    (op.apply r).Tracked ∧ (op.apply r).lru.length ≤ 2 * (op.apply r).producers.size
      ∧ ∀ q ≠ op.producer,
        (op.apply r).producers.lookup q = (r.roomByScan op.producer).lookup q := by
  obtain ⟨e, now, heq⟩ := apply_eq_put r op
  rw [heq]
  exact h.put op.producer e now

theorem tracked_runOps (config : SeqConfig) (ops : List SeqOp) :
    (runOps config ops).Tracked
      ∧ (runOps config ops).lru.length ≤ 2 * (runOps config ops).producers.size := by
  refine List.foldlRecOn (motive := fun r : ProducerSeqRegistry =>
      r.Tracked ∧ r.lru.length ≤ 2 * r.producers.size) ops _
    ⟨⟨Nat.le_max_right _ _, Nat.zero_le _, nofun, .nil⟩, Nat.zero_le _⟩ fun r ih op _ => ?_
  obtain ⟨htracked, hlen, -⟩ := ih.1.apply op
  exact ⟨htracked, hlen⟩

end ProducerSeqRegistry

/-! ## The transaction tombstones -/

/-- A call on the transaction table. -/
inductive TxnOp where
  | prepare (txnId : Bytes) (now : Nat)
  | resolve (txnId : Bytes) (outcome : TxnOutcome) (now : Nat)
  | revertResolvedToPrepared (txnId : Bytes) (now : Nat)
  | cancelPrepared (txnId : Bytes)
  | restore (txnId : Bytes) (state : TxnState) (instant : Nat)

namespace TxnOp

def txnId : TxnOp → Bytes
  | prepare id _ => id
  | resolve id _ _ => id
  | revertResolvedToPrepared id _ => id
  | cancelPrepared id => id
  | restore id _ _ => id

def apply (t : TxnTable) : TxnOp → TxnTable
  | prepare id now => (t.prepare id now).2
  | resolve id outcome now => (t.resolve id outcome now).2
  | revertResolvedToPrepared id now => t.revertResolvedToPrepared id now
  | cancelPrepared id => t.cancelPrepared id
  | restore id state instant => t.restore id state instant

/-- The call enters a tombstone found in the durable log. -/
def isRestore : TxnOp → Bool
  | restore _ (.resolved _) _ => true
  | _ => false

end TxnOp

namespace TxnTable

def runOps (config : TxnConfig) (ops : List TxnOp) : TxnTable := ops.foldl TxnOp.apply (.new config)

/-- The tombstones left when room is made for that of `id` by a scan. -/
def tombstonesByScan (t : TxnTable) (id : Bytes) : Assoc Bytes TxnEntry :=
  if (t.resolved.lookup id).isNone ∧ t.config.maxResolvedTombstones ≤ t.resolved.size then
    dropLeast TxnEntry.instant (t.resolved.size + 1 - t.config.maxResolvedTombstones) t.resolved
  else t.resolved

/-- The tombstones a call leaves to the other transactions: only the resolve of a prepared one makes
room. -/
def roomByScan (t : TxnTable) : TxnOp → Assoc Bytes TxnEntry
  | .resolve id _ _ =>
    if id.length ≤ maxTxnIdLen ∧ (t.prepared.lookup id).isSome then t.tombstonesByScan id
    else t.resolved
  | _ => t.resolved

/-- The heap serves the tombstones. -/
structure Tracked (t : TxnTable) : Prop where
  pos : 0 < t.config.maxResolvedTombstones
  tracks : Tracks TxnEntry.instant t.resolvedLru t.resolved

variable {t : TxnTable} {id : Bytes}

theorem removePrepared_frame (t : TxnTable) (id : Bytes) :
    (t.removePrepared id).config = t.config ∧ (t.removePrepared id).resolved = t.resolved
      ∧ (t.removePrepared id).resolvedLru = t.resolvedLru := by
  unfold removePrepared
  split <;> exact ⟨rfl, rfl, rfl⟩

/-- What a call does to the tombstones. -/
structure Serves (t : TxnTable) (op : TxnOp) (t' : TxnTable) : Prop where
  config : t'.config = t.config
  tracks : Tracks TxnEntry.instant t'.resolvedLru t'.resolved
  size_le : op.isRestore = false →
    t'.resolved.size ≤ max t.config.maxResolvedTombstones t.resolved.size
  heap : t'.resolvedLru = t.resolvedLru ∨ t'.resolvedLru.length ≤ 2 * t'.resolved.size
  others : ∀ q ≠ op.txnId, t'.resolved.lookup q = (t.roomByScan op).lookup q

/-- A call that leaves the tombstones alone. -/
theorem Tracked.of_frame (h : t.Tracked) {op : TxnOp} {t' : TxnTable}
    (hconfig : t'.config = t.config)
    (hres : t'.resolved = t.resolved) (hlru : t'.resolvedLru = t.resolvedLru)
    (hroom : t.roomByScan op = t.resolved) : Serves t op t' where
  config := hconfig
  tracks := hres ▸ hlru ▸ h.tracks
  size_le := fun _ => hres ▸ le_max_right _ _
  heap := .inl hlru
  others := fun q _ => by rw [hres, hroom]

/-- Making room pops the heap, and leaves it serving the tombstones that stay. -/
theorem Tracked.insertResolvedTombstone (h : t.Tracked) (id : Bytes) (outcome : TxnOutcome)
    (now : Nat) :
    ∃ t₁ : TxnTable, t.insertResolvedTombstone id outcome now = t₁.putResolved id outcome now
      ∧ t₁.config = t.config ∧ t₁.resolved = t.tombstonesByScan id ∧ t₁.Tracked
      ∧ ((t₁.resolved.lookup id).isSome ∧ t₁.resolved = t.resolved
        ∨ t₁.resolved.size < t.config.maxResolvedTombstones) := by
  unfold TxnTable.insertResolvedTombstone tombstonesByScan
  split_ifs with hroom
  · refine ⟨_, rfl, rfl, ?_, ⟨h.pos, h.tracks.evict _⟩, .inr ?_⟩
    · exact TouchHeap.evict_eq_dropLeast h.tracks.covers h.tracks.sorted h.pos
    · exact h.tracks.covers.size_evict_lt h.pos
  · refine ⟨_, rfl, rfl, rfl, h, ?_⟩
    rw [not_and_or, not_le] at hroom
    exact hroom.imp_left fun hsome => ⟨by simpa [Option.isSome_iff_ne_none] using hsome, rfl⟩

theorem Tracked.removePrepared (h : t.Tracked) (id : Bytes) : (t.removePrepared id).Tracked := by
  obtain ⟨hconfig, hres, hlru⟩ := removePrepared_frame t id
  exact ⟨hconfig ▸ h.pos, by rw [hres, hlru]; exact h.tracks⟩

/-- Resolving a prepared transaction stores its tombstone, the one call that makes room. -/
theorem Tracked.resolve_prepared (h : t.Tracked) (outcome : TxnOutcome) (now : Nat) {op : TxnOp}
    (hid : op.txnId = id) (hroom : t.roomByScan op = t.tombstonesByScan id) :
    Serves t op ((t.removePrepared id).insertResolvedTombstone id outcome now) := by
  obtain ⟨hconfig, hres, -⟩ := removePrepared_frame t id
  obtain ⟨t₁, heq, hconfig₁, hscan, htracked, hfits⟩ :=
    (h.removePrepared id).insertResolvedTombstone id outcome now
  have hsame : (t.removePrepared id).tombstonesByScan id = t.tombstonesByScan id := by
    rw [tombstonesByScan, tombstonesByScan, hconfig, hres]
  rw [heq]
  refine ⟨hconfig₁.trans hconfig, htracked.tracks.store rfl, fun _ => ?_,
    .inr (TouchHeap.length_push_le _ _ _ _), fun q hq => ?_⟩
  · rw [hconfig, hres] at hfits
    exact Assoc.size_insert_le_of_room (hfits.imp (fun h => ⟨h.1, h.2 ▸ le_max_right _ _⟩)
      lt_max_of_lt_left) _
  · rw [hroom, ← hsame, ← hscan]
    exact AList.lookup_insert_ne (hid ▸ hq)

theorem Tracked.resolve (h : t.Tracked) (id : Bytes) (outcome : TxnOutcome) (now : Nat) :
    Serves t (.resolve id outcome now) (t.resolve id outcome now).2 := by
  unfold TxnTable.resolve checkIdLen
  by_cases hid : id.length ≤ maxTxnIdLen
  · rw [if_neg (by omega)]
    simp only
    split_ifs with hprep
    · have hroom : t.roomByScan (.resolve id outcome now) = t.tombstonesByScan id :=
        if_pos ⟨hid, hprep⟩
      exact h.resolve_prepared outcome now rfl hroom
    · have hroom : t.roomByScan (.resolve id outcome now) = t.resolved :=
        if_neg fun hc => hprep hc.2
      split
      · split
        · exact h.of_frame rfl rfl rfl hroom
        · exact h.of_frame rfl rfl rfl hroom
      · exact h.of_frame rfl rfl rfl hroom
  · rw [if_pos (by omega)]
    exact h.of_frame rfl rfl rfl (if_neg fun hc => hid hc.1)

theorem Tracked.apply (h : t.Tracked) (op : TxnOp) : Serves t op (op.apply t) := by
  cases op with
  | prepare id now =>
    have hframe : (t.prepare id now).2 = t ∨ (t.prepare id now).2 = t.insertPrepared id now := by
      unfold prepare
      repeat' split
      all_goals first | exact .inl rfl | exact .inr rfl
    rcases hframe with heq | heq
    · exact h.of_frame (by rw [TxnOp.apply, heq]) (by rw [TxnOp.apply, heq])
        (by rw [TxnOp.apply, heq]) rfl
    · exact h.of_frame (by rw [TxnOp.apply, heq]; rfl) (by rw [TxnOp.apply, heq]; rfl)
        (by rw [TxnOp.apply, heq]; rfl) rfl
  | resolve id outcome now => exact h.resolve id outcome now
  | revertResolvedToPrepared id now =>
    simp only [TxnOp.apply, TxnTable.revertResolvedToPrepared]
    split_ifs with hsome
    · obtain ⟨e, he⟩ := Option.isSome_iff_exists.mp hsome
      have hsize := Assoc.size_erase_of_lookup_some he
      refine ⟨rfl, ⟨fun k b hk => ?_, h.tracks.sorted⟩, fun _ => ?_, .inl rfl, fun q hq => ?_⟩
      · exact h.tracks.covers k b (Assoc.lookup_erase_eq_some.mp hk).2
      · show Assoc.size (AList.erase id t.resolved) ≤ _
        omega
      · exact AList.lookup_erase_ne hq
    · exact h.of_frame rfl rfl rfl rfl
  | cancelPrepared id =>
    obtain ⟨hconfig, hres, hlru⟩ := removePrepared_frame t id
    exact h.of_frame hconfig hres hlru rfl
  | restore id state instant =>
    obtain ⟨hconfig, hres, hlru⟩ := removePrepared_frame t id
    cases state with
    | prepared => exact h.of_frame hconfig hres hlru rfl
    | resolved outcome =>
      refine ⟨hconfig, (h.removePrepared id).tracks.store rfl, nofun,
        .inr (TouchHeap.length_push_le _ _ _ _), fun q hq => ?_⟩
      exact (AList.lookup_insert_ne hq).trans (by rw [hres]; rfl)

theorem tracked_runOps (config : TxnConfig) (ops : List TxnOp) :
    (runOps config ops).Tracked ∧ ((∀ op ∈ ops, op.isRestore = false) →
      (runOps config ops).resolved.size ≤ (runOps config ops).config.maxResolvedTombstones) := by
  induction ops using List.reverseRecOn with
  | nil => exact ⟨⟨Nat.le_max_right _ _, nofun, .nil⟩, fun _ => Nat.zero_le _⟩
  | append_singleton ops op ih =>
    have hserves := ih.1.apply op
    rw [runOps, List.foldl_append]
    refine ⟨⟨hserves.config ▸ ih.1.pos, hserves.tracks⟩, fun hlive => ?_⟩
    have hold := ih.2 fun o ho => hlive o (List.mem_append_left _ ho)
    have hle := hserves.size_le (hlive op (List.mem_append_right _ (List.mem_singleton_self _)))
    show (op.apply (runOps config ops)).resolved.size
      ≤ (op.apply (runOps config ops)).config.maxResolvedTombstones
    rw [hserves.config]
    omega

end TxnTable

/-! ## The three together -/

/-- In every run of the three, a call makes room by dropping exactly what a scan for the least
last-use stamp would drop (the deduplication windows that aged empty go before that), every entry
has its current stamp on the heap, the entries stay within the capacity, and the heap stays within
twice the entries. Two exceptions are the tombstones': those restored from the durable log are not
bounded, and one taken back to prepared leaves its touch on the heap until the next tombstone. -/
theorem eviction_refines_scan :
    (∀ (config : DedupConfig) (ops : List DedupOp),
      (DedupRegistry.runOps config ops).producers.size
          ≤ (DedupRegistry.runOps config ops).config.maxProducers
        ∧ TouchHeap.Covers ProducerWindow.lastTouch (DedupRegistry.runOps config ops).lru
          (DedupRegistry.runOps config ops).producers
        ∧ (DedupRegistry.runOps config ops).lru.length
          ≤ 2 * (DedupRegistry.runOps config ops).producers.size
        ∧ ∀ op : DedupOp, ∀ q ≠ op.producer,
          (op.apply (DedupRegistry.runOps config ops)).producers.lookup q
            = ((DedupRegistry.runOps config ops).roomByScan op.producer op.now).lookup q)
      ∧ (∀ (config : SeqConfig) (ops : List SeqOp),
        (ProducerSeqRegistry.runOps config ops).producers.size
            ≤ (ProducerSeqRegistry.runOps config ops).config.maxProducers
          ∧ TouchHeap.Covers ProducerSeq.lastTouch (ProducerSeqRegistry.runOps config ops).lru
            (ProducerSeqRegistry.runOps config ops).producers
          ∧ (ProducerSeqRegistry.runOps config ops).lru.length
            ≤ 2 * (ProducerSeqRegistry.runOps config ops).producers.size
          ∧ ∀ op : SeqOp, ∀ q ≠ op.producer,
            (op.apply (ProducerSeqRegistry.runOps config ops)).producers.lookup q
              = ((ProducerSeqRegistry.runOps config ops).roomByScan op.producer).lookup q)
      ∧ ∀ (config : TxnConfig) (ops : List TxnOp),
        ((∀ op ∈ ops, op.isRestore = false) → (TxnTable.runOps config ops).resolved.size
            ≤ (TxnTable.runOps config ops).config.maxResolvedTombstones)
          ∧ TouchHeap.Covers TxnEntry.instant (TxnTable.runOps config ops).resolvedLru
            (TxnTable.runOps config ops).resolved
          ∧ ∀ op : TxnOp,
            ((op.apply (TxnTable.runOps config ops)).resolvedLru
                = (TxnTable.runOps config ops).resolvedLru
              ∨ (op.apply (TxnTable.runOps config ops)).resolvedLru.length
                ≤ 2 * (op.apply (TxnTable.runOps config ops)).resolved.size)
            ∧ ∀ q ≠ op.txnId, (op.apply (TxnTable.runOps config ops)).resolved.lookup q
              = ((TxnTable.runOps config ops).roomByScan op).lookup q := by
  refine ⟨fun config ops => ?_, fun config ops => ?_, fun config ops => ?_⟩
  · obtain ⟨htracked, hlen⟩ := DedupRegistry.tracked_runOps config ops
    exact ⟨htracked.size_le, htracked.tracks.covers, hlen, fun op => (htracked.apply op).2.2⟩
  · obtain ⟨htracked, hlen⟩ := ProducerSeqRegistry.tracked_runOps config ops
    exact ⟨htracked.size_le, htracked.tracks.covers, hlen, fun op => (htracked.apply op).2.2⟩
  · obtain ⟨htracked, hlive⟩ := TxnTable.tracked_runOps config ops
    exact ⟨hlive, htracked.tracks.covers, fun op =>
      ⟨(htracked.apply op).heap, (htracked.apply op).others⟩⟩

/-- At a cap of one the second resolve drops the tombstone of the first. -/
theorem eviction_refines_scan_two_resolves :
    (TxnTable.runOps ⟨2, 1⟩
        [.prepare [1] 0, .prepare [2] 0, .resolve [1] .committed 5]).resolved.size ≤ 1
      ∧ (TxnOp.apply (TxnTable.runOps ⟨2, 1⟩
        [.prepare [1] 0, .prepare [2] 0, .resolve [1] .committed 5])
        (.resolve [2] .committed 6)).resolved.lookup [1] = none := by
  obtain ⟨hsize, -, hop⟩ := eviction_refines_scan.2.2 ⟨2, 1⟩
    [.prepare [1] 0, .prepare [2] 0, .resolve [1] .committed 5]
  refine ⟨hsize (by decide), ?_⟩
  rw [(hop (.resolve [2] .committed 6)).2 [1] (by decide)]
  decide

/-- A registry of two producers, one recorded at 0, and one checked at 5 whose window is empty. -/
def twoWindows : DedupRegistry :=
  DedupRegistry.runOps ⟨4, 10, 2⟩ [.record [1] [9] 0 0, .check [2] 0 [9] 5]

/-- Two tombstones restored under a cap of one. -/
def twoRestored : TxnTable :=
  TxnTable.runOps ⟨1, 1⟩
    [.restore [1] (.resolved .committed) 0, .restore [2] (.resolved .committed) 0]

/-- A tombstone stored and taken back to prepared. -/
def takenBack : TxnTable :=
  TxnTable.runOps ⟨1, 1⟩
    [.prepare [1] 0, .resolve [1] .committed 5, .revertResolvedToPrepared [1] 6]

/-- A producer checked later than another is dropped before it because its window holds nothing, two
tombstones restored under a cap of one both stay, and one taken back leaves a touch of nothing. -/
theorem reap_before_least_and_restore_past_cap :
    ((twoWindows.producers.lookup [1]).map ProducerWindow.lastTouch = some 0
      ∧ (twoWindows.producers.lookup [2]).map ProducerWindow.lastTouch = some 5
      ∧ ((DedupOp.apply twoWindows (.check [3] 0 [9] 6)).producers.lookup [1]).isSome
      ∧ ((DedupOp.apply twoWindows (.check [3] 0 [9] 6)).producers.lookup [2]).isNone)
      ∧ (twoRestored.config.maxResolvedTombstones = 1 ∧ twoRestored.resolved.size = 2)
      ∧ takenBack.resolved.size = 0 ∧ takenBack.resolvedLru.length = 1 := by
  decide

end IronBus
