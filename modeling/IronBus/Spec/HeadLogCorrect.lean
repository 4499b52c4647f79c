import IronBus.ForStd.List
import IronBus.Native.HeadLog

/-!
# The heads of a log

What every call that does not open the log again does to it.

Key results:
- `append_moves`, `sync_moves`, `completeAsyncSync_moves`: records are only added, and the visible
  head only moves forward, never past what barriers have covered
- `tick_moves`, `tick_covered`: the multi-log tick may move it further
- `reopen_wf`, `reap_spec`: opening, and giving up segments
-/

namespace IronBus

open List

namespace HeadLog

variable {α : Type}

/-- The heads lie inside the log, and so do the segment bases. -/
structure Wf (l : HeadLog α) : Prop where
  flushed_le : l.flushedOffset ≤ l.nextOffset
  synced_le : l.syncedOffset ≤ l.flushedOffset
  segments_le : ∀ b ∈ l.segments, b ≤ l.flushedOffset
  /-- A roll is left pending only right after a seal. -/
  pending : l.pendingRoll = true → l.flushedOffset = l.nextOffset
  segments_ne : l.segments ≠ []
  next_le : l.nextOffset ≤ u64Max
  strays_lt : ∀ e ∈ l.strays, e.1 < u64Max

/-- Readers see only what barriers have covered. -/
def Covered (l : HeadLog α) : Prop := l.flushedOffset ≤ l.log.durable

variable {l : HeadLog α} {target : Nat} {io : CrashIo}

theorem fresh_wf : (fresh : HeadLog α).Wf where
  flushed_le := Nat.le_refl 0
  synced_le := Nat.le_refl 0
  segments_le := by simp [fresh]
  pending := nofun
  segments_ne := by simp [fresh]
  next_le := Nat.zero_le _
  strays_lt := nofun

/-- A later state of a log that was not opened again. -/
structure Moves (l l' : HeadLog α) : Prop where
  wf : l.Wf → l'.Wf
  records : l.log.records <+: l'.log.records
  durable : l.log.durable ≤ l'.log.durable
  flushed : l.Wf → l.flushedOffset ≤ l'.flushedOffset
  synced : l.Wf → l.syncedOffset ≤ l'.syncedOffset
  segments : l.segments <+: l'.segments

namespace Moves

variable {l l' l'' : HeadLog α}

theorem refl (l : HeadLog α) : l.Moves l where
  wf := id
  records := prefix_rfl
  durable := le_rfl
  flushed _ := le_rfl
  synced _ := le_rfl
  segments := prefix_rfl

theorem trans (h : l.Moves l') (h' : l'.Moves l'') : l.Moves l'' where
  wf hwf := h'.wf (h.wf hwf)
  records := h.records.trans h'.records
  durable := h.durable.trans h'.durable
  flushed hwf := (h.flushed hwf).trans (h'.flushed (h.wf hwf))
  synced hwf := (h.synced hwf).trans (h'.synced (h.wf hwf))
  segments := h.segments.trans h'.segments

/-- The log still starts where it did. -/
theorem earliestOffset_eq (h : l.Moves l') (hwf : l.Wf) :
    l'.earliestOffset = l.earliestOffset := by
  obtain ⟨t, ht⟩ := h.segments
  obtain ⟨b, rest, hb⟩ := exists_cons_of_ne_nil hwf.segments_ne
  rw [earliestOffset, earliestOffset, ← ht, hb]
  rfl

theorem nextOffset_le (h : l.Moves l') : l.nextOffset ≤ l'.nextOffset := h.records.length_le

end Moves

/-- Such a state that shows no more than barriers have covered, if the state before did not. -/
structure SafeMoves (l l' : HeadLog α) : Prop extends l.Moves l' where
  covered : l.Covered → l'.Covered

theorem SafeMoves.refl (l : HeadLog α) : l.SafeMoves l := ⟨.refl l, id⟩

theorem SafeMoves.trans {l' l'' : HeadLog α} (h : l.SafeMoves l') (h' : l'.SafeMoves l'') :
    l.SafeMoves l'' :=
  ⟨h.toMoves.trans h'.toMoves, fun hcov => h'.covered (h.covered hcov)⟩

theorem freeze_moves (l : HeadLog α) : l.SafeMoves l.freeze :=
  ⟨{ Moves.refl l with wf := fun h => { h with pending := nofun } }, id⟩

/-- The heads move to the end of the log. -/
theorem advanceSyncedOffset_moves (l : HeadLog α) :
    l.Moves l.advanceSyncedOffsetAfterExternalSync :=
  { Moves.refl l with
    wf := fun h =>
      { h with
        flushed_le := le_rfl
        synced_le := le_rfl
        segments_le := fun b hb => (h.segments_le b hb).trans h.flushed_le
        pending := fun _ => rfl }
    flushed := fun h => h.flushed_le
    synced := fun h => h.synced_le.trans h.flushed_le }

theorem settle_moves (l : HeadLog α) : l.SafeMoves l.settle :=
  { l.advanceSyncedOffset_moves with
    wf := fun h => { l.advanceSyncedOffset_moves.wf h with }
    durable := l.log.durable_le
    covered := fun _ => le_rfl }

/-- Starting a segment where every record is visible. -/
theorem createOrDeferSegment_moves (io : StartIo) (h : l.Wf → l.flushedOffset = l.nextOffset) :
    l.SafeMoves (l.createOrDeferSegment io).2 := by
  cases io with
  | started =>
    refine { SafeMoves.refl l with
      wf := fun hwf => { hwf with
        segments_le := fun b hb => ?_
        pending := nofun
        segments_ne := append_ne_nil_of_left_ne_nil hwf.segments_ne _ }
      segments := prefix_append _ _ }
    rcases mem_append.mp hb with hb | hb
    · exact hwf.segments_le b hb
    · rw [mem_singleton.mp hb]
      exact (h hwf).ge
  | deferred =>
    exact { SafeMoves.refl l with wf := fun hwf => { hwf with pending := fun _ => h hwf } }
  | broken => exact freeze_moves l

/-- A log with the same heads and records. -/
structure Ready (l l' : HeadLog α) : Prop where
  flushed : l'.flushedOffset = l.flushedOffset
  synced : l'.syncedOffset = l.syncedOffset
  records : l'.log.records = l.log.records
  durable : l'.log.durable = l.log.durable
  strays : l'.strays = l.strays

/-- Starting a segment changes no head and no record. -/
theorem createOrDeferSegment_ready (l : HeadLog α) (io : StartIo) :
    l.Ready (l.createOrDeferSegment io).2 := by
  cases io <;> exact ⟨rfl, rfl, rfl, rfl, rfl⟩

theorem ensureWritable_ready (l : HeadLog α) (io : StartIo) : l.Ready (l.ensureWritable io).2 := by
  unfold ensureWritable
  split
  · exact ⟨rfl, rfl, rfl, rfl, rfl⟩
  · split
    · exact l.createOrDeferSegment_ready io
    · exact ⟨rfl, rfl, rfl, rfl, rfl⟩

/-- A log that is ready has a writer and no pending roll. -/
theorem ensureWritable_ok {io : StartIo} (h : (l.ensureWritable io).1 = true) :
    (l.ensureWritable io).2.log.frozen = false ∧ (l.ensureWritable io).2.pendingRoll = false := by
  unfold ensureWritable at h ⊢
  by_cases hfrozen : l.log.frozen = true
  · rw [if_pos hfrozen] at h
    cases h
  · rw [if_neg hfrozen] at h ⊢
    have hopen : l.log.frozen = false := by simpa using hfrozen
    by_cases hpending : l.pendingRoll = true
    · rw [if_pos hpending] at h ⊢
      cases io with
      | started => exact ⟨hopen, rfl⟩
      | deferred => cases h
      | broken => cases h
    · rw [if_neg hpending]
      exact ⟨hopen, by simpa using hpending⟩

theorem ensureWritable_moves (l : HeadLog α) (io : StartIo) :
    l.SafeMoves (l.ensureWritable io).2 := by
  unfold ensureWritable
  split
  · exact .refl l
  · split
    · next hpending => exact createOrDeferSegment_moves io fun hwf => hwf.pending hpending
    · exact .refl l

theorem Ready.covered {l' : HeadLog α} (h : l.Ready l') : l'.Covered ↔ l.Covered := by
  rw [Covered, Covered, h.flushed, h.durable]

@[simp] theorem nextOffset_push (l : HeadLog α) (a : α) :
    ({ l with log := l.log.push a } : HeadLog α).nextOffset = l.nextOffset + 1 := by
  simp [nextOffset, RecordLog.push]

/-- Writing a record, with no roll pending and an offset left for it. -/
theorem writeSource_moves (hroll : l.pendingRoll = false) (hroom : l.nextOffset < u64Max)
    (fault : Option WriteFault) (a : α) :
    l.SafeMoves (l.writeSource fault a).2 := by
  rcases fault with _ | _ | _
  · have hnext := l.nextOffset_push a
    exact { SafeMoves.refl l with
      wf := fun hwf => { hwf with
        flushed_le := hwf.flushed_le.trans (hnext.ge.trans' (Nat.le_succ _))
        pending := fun hpending => absurd (hroll.symm.trans hpending) (by decide)
        next_le := hnext.trans_le hroom }
      records := prefix_append _ _ }
  · exact .refl l
  · refine { SafeMoves.refl l with wf := fun hwf => { hwf with strays_lt := fun e he => ?_ } }
    rcases mem_append.mp he with he | he
    · exact hwf.strays_lt e he
    · rw [mem_singleton.mp he]
      exact hroom

theorem roll_moves (l : HeadLog α) (sealFails : Bool) (start : StartIo) :
    l.SafeMoves (l.roll sealFails start).2 := by
  unfold roll
  split
  · exact freeze_moves l
  · exact l.settle_moves.trans (createOrDeferSegment_moves start fun _ => rfl)

/-- A roll that succeeds leaves a writer. -/
theorem roll_ok {sealFails : Bool} {start : StartIo} (h : (l.roll sealFails start).1 = true) :
    (l.roll sealFails start).2.pendingRoll = false := by
  cases sealFails with
  | true => cases h
  | false => cases start with
    | started => rfl
    | deferred => cases h
    | broken => cases h

/-- The part of an append before the record is written: a pending roll is retried, a full segment is
rolled, and there must be an offset left. -/
def makeRoom (l : HeadLog α) (io : WriteIo) : Bool × HeadLog α :=
  match l.ensureWritable io.retry with
  | (false, l) => (false, l)
  | (true, l) =>
    match l.rollIfFull io with
    | (false, l) => (false, l)
    | (true, l) => ((checkedAdd l.nextOffset 1).isSome, l)

theorem append_eq (l : HeadLog α) (io : WriteIo) (a : α) :
    l.append io a =
      if io.shed then (none, l)
      else
        match l.makeRoom io with
        | (false, l) => (none, l)
        | (true, l) => l.writeSource io.write a := by
  unfold append makeRoom
  split
  · rfl
  · rcases l.ensureWritable io.retry with ⟨_ | _, l₁⟩
    · rfl
    · dsimp only
      rcases l₁.rollIfFull io with ⟨_ | _, l₂⟩
      · rfl
      · dsimp only
        cases checkedAdd l₂.nextOffset 1 <;> rfl

theorem rollIfFull_moves (l : HeadLog α) (io : WriteIo) : l.SafeMoves (l.rollIfFull io).2 := by
  unfold rollIfFull
  split
  · exact l.roll_moves io.sealFails io.start
  · exact .refl l

theorem rollIfFull_ok {io : WriteIo} (hl : l.pendingRoll = false)
    (h : (l.rollIfFull io).1 = true) : (l.rollIfFull io).2.pendingRoll = false := by
  unfold rollIfFull at h ⊢
  split
  · next hfull =>
    rw [if_pos hfull] at h
    exact roll_ok h
  · exact hl

/-- Rolling changes no record. -/
theorem rollIfFull_records (l : HeadLog α) (io : WriteIo) :
    (l.rollIfFull io).2.log.records = l.log.records ∧ (l.rollIfFull io).2.strays = l.strays := by
  unfold rollIfFull roll
  split
  · split
    · exact ⟨rfl, rfl⟩
    · have hready := l.settle.createOrDeferSegment_ready io.start
      exact ⟨hready.records, hready.strays⟩
  · exact ⟨rfl, rfl⟩

theorem makeRoom_moves (l : HeadLog α) (io : WriteIo) : l.SafeMoves (l.makeRoom io).2 := by
  have hready := l.ensureWritable_moves io.retry
  unfold makeRoom
  generalize l.ensureWritable io.retry = res at hready ⊢
  obtain ⟨_ | _, l₁⟩ := res
  · exact hready
  · have hroll := hready.trans (l₁.rollIfFull_moves io)
    dsimp only
    generalize l₁.rollIfFull io = res at hroll ⊢
    obtain ⟨_ | _, l₂⟩ := res <;> exact hroll

theorem makeRoom_ok {io : WriteIo} (h : (l.makeRoom io).1 = true) :
    (l.makeRoom io).2.pendingRoll = false ∧ (l.makeRoom io).2.nextOffset < u64Max := by
  have hready := @ensureWritable_ok α l io.retry
  unfold makeRoom at h ⊢
  generalize l.ensureWritable io.retry = res at hready h ⊢
  obtain ⟨_ | _, l₁⟩ := res
  · cases h
  have hroll := @rollIfFull_ok α l₁ io (hready rfl).2
  dsimp only at h ⊢
  generalize l₁.rollIfFull io = res at hroll h ⊢
  obtain ⟨_ | _, l₂⟩ := res
  · cases h
  · refine ⟨hroll rfl, ?_⟩
    by_contra hfull
    have hnone : ¬ l₂.nextOffset + 1 ≤ u64Max := fun hle => hfull hle
    simp [checkedAdd, hnone] at h

/-- The room is made without a record. -/
theorem makeRoom_records (l : HeadLog α) (io : WriteIo) :
    (l.makeRoom io).2.log.records = l.log.records ∧ (l.makeRoom io).2.strays = l.strays := by
  have hready := l.ensureWritable_ready io.retry
  unfold makeRoom
  generalize l.ensureWritable io.retry = res at hready ⊢
  obtain ⟨_ | _, l₁⟩ := res
  · exact ⟨hready.records, hready.strays⟩
  · obtain ⟨hrec, hstray⟩ := l₁.rollIfFull_records io
    dsimp only
    generalize l₁.rollIfFull io = res at hrec hstray ⊢
    obtain ⟨_ | _, l₂⟩ := res <;>
      exact ⟨hrec.trans hready.records, hstray.trans hready.strays⟩

theorem append_moves (l : HeadLog α) (io : WriteIo) (a : α) :
    l.SafeMoves (l.append io a).2 := by
  have hmoves := l.makeRoom_moves io
  have hok := @makeRoom_ok α l io
  rw [append_eq]
  generalize l.makeRoom io = res at hmoves hok ⊢
  obtain ⟨_ | _, l₁⟩ := res
  · split
    · exact .refl l
    · exact hmoves
  · obtain ⟨hroll, hroom⟩ := hok rfl
    split
    · exact .refl l
    · exact hmoves.trans (writeSource_moves hroll hroom io.write a)

/-- An append that succeeds adds its record at the offset it returns; one that fails adds none, but
may leave it as a stray. -/
theorem append_records (l : HeadLog α) (io : WriteIo) (a : α) :
    ((l.append io a).1 = some l.nextOffset
        ∧ (l.append io a).2.log.records = l.log.records ++ [a]
        ∧ (l.append io a).2.strays = l.strays)
      ∨ ((l.append io a).1 = none ∧ (l.append io a).2.log.records = l.log.records
        ∧ ∀ e ∈ (l.append io a).2.strays, e ∈ l.strays ∨ e.2 = a) := by
  obtain ⟨hrec, hstray⟩ := l.makeRoom_records io
  rw [append_eq]
  generalize l.makeRoom io = res at hrec hstray ⊢
  split
  · exact .inr ⟨rfl, rfl, fun e he => .inl he⟩
  obtain ⟨_ | _, l₁⟩ := res
  · exact .inr ⟨rfl, hrec, fun e he => .inl (hstray ▸ he)⟩
  rcases io.write with _ | _ | _
  · exact .inl ⟨congrArg (fun rs => some (length rs)) hrec,
      congrArg (· ++ [a]) hrec, hstray⟩
  · exact .inr ⟨rfl, hrec, fun e he => .inl (hstray ▸ he)⟩
  · refine .inr ⟨rfl, hrec, fun e he => ?_⟩
    rcases mem_append.mp he with he | he
    · exact .inl (hstray ▸ he)
    · rw [mem_singleton.mp he]
      exact .inr rfl

/-! ## The barriers -/

theorem sync_moves (l : HeadLog α) (io : SyncIo) : l.SafeMoves (l.sync io).2 := by
  have hready := l.ensureWritable_moves io.retry
  unfold sync
  generalize l.ensureWritable io.retry = res at hready ⊢
  obtain ⟨_ | _, l₁⟩ := res
  · exact hready
  · dsimp only
    split
    · exact hready.trans l₁.freeze_moves
    · exact hready.trans l₁.settle_moves

/-- The barrier keeps the records. -/
theorem sync_records (l : HeadLog α) (io : SyncIo) :
    (l.sync io).2.log.records = l.log.records ∧ (l.sync io).2.strays = l.strays := by
  have hready := l.ensureWritable_ready io.retry
  unfold sync
  generalize l.ensureWritable io.retry = res at hready ⊢
  obtain ⟨_ | _, l₁⟩ := res
  · exact ⟨hready.records, hready.strays⟩
  · dsimp only
    split <;> exact ⟨hready.records, hready.strays⟩

/-- A barrier that succeeds covers everything. -/
theorem sync_ok {io : SyncIo} (h : (l.sync io).1 = true) :
    (l.sync io).2.flushedOffset = (l.sync io).2.nextOffset
      ∧ (l.sync io).2.syncedOffset = (l.sync io).2.nextOffset
      ∧ (l.sync io).2.log.durable = (l.sync io).2.nextOffset := by
  unfold sync at h ⊢
  generalize l.ensureWritable io.retry = res at h ⊢
  obtain ⟨_ | _, l₁⟩ := res
  · cases h
  · cases hfails : io.flushFails || io.barrierFails with
    | true =>
      rw [hfails] at h
      cases h
    | false => exact ⟨rfl, rfl, rfl⟩

theorem prepareAsyncSync_moves (l : HeadLog α) (io : SyncIo) :
    l.SafeMoves (l.prepareAsyncSync io).2 := by
  have hready := l.ensureWritable_moves io.retry
  unfold prepareAsyncSync
  generalize l.ensureWritable io.retry = res at hready ⊢
  obtain ⟨_ | _, l₁⟩ := res
  · exact hready
  · dsimp only
    split
    · exact hready
    · split
      · exact hready.trans l₁.freeze_moves
      · exact hready

/-- A staged barrier's target is the end of the log. -/
theorem prepareAsyncSync_target {io : SyncIo}
    (h : (l.prepareAsyncSync io).1 = some (some target)) : target = l.nextOffset := by
  have hready := l.ensureWritable_ready io.retry
  unfold prepareAsyncSync at h
  generalize l.ensureWritable io.retry = res at hready h
  obtain ⟨_ | _, l₁⟩ := res
  · cases h
  · dsimp only at h
    split at h
    · cases h
    · split at h
      · cases h
      · cases h
        rw [nextOffset, nextOffset, hready.records]

theorem barrierDone_moves (l : HeadLog α) (target : Nat) : l.SafeMoves (l.barrierDone target) :=
  { SafeMoves.refl l with
    wf := fun h => { h with }
    durable := le_max_left _ _
    covered := fun hcov => hcov.trans (le_max_left _ _) }

/-- Taking up a barrier that has covered its target. -/
theorem completeAsyncSync_moves (hdone : target ≤ l.log.durable) :
    l.SafeMoves (l.completeAsyncSync target) := by
  have h : target ≤ l.nextOffset := hdone.trans l.log.durable_le
  unfold completeAsyncSync
  split
  · exact .refl l
  next hcond =>
  have hlt : l.syncedOffset < target := by
    by_contra hle
    exact hcond (by simp [not_lt.mp hle])
  exact { SafeMoves.refl l with
    wf := fun hwf => { hwf with
      flushed_le := max_le hwf.flushed_le h
      synced_le := le_max_right _ _
      segments_le := fun b hb => (hwf.segments_le b hb).trans (le_max_left _ _)
      pending := fun hp => le_antisymm (max_le hwf.flushed_le h)
        ((hwf.pending hp).ge.trans (le_max_left _ _)) }
    flushed := fun _ => le_max_left _ _
    synced := fun _ => hlt.le
    covered := fun hcov => max_le hcov hdone }

/-! ## The tick -/

section Tick

variable {κ : Type}

/-- One log's part in a tick. -/
def tick (l : HeadLog α) (io : SyncIo) : TickPhase × HeadLog α :=
  if l.hasUnsyncedRecords then
    match l.flushNoSync io with
    | (false, l) => (.froze, l)
    | (true, l) =>
      match l.syncDataOnly io with
      | (false, l) => (.froze, l)
      | (true, l) => (.synced, l.advanceSyncedOffsetAfterExternalSync)
  else (.clean, l)

variable {l : HeadLog α}

theorem tickPasses_eq (io : κ → SyncIo) (e : κ × HeadLog α) :
    tickAdvance (tickBarrier io (tickFlush io e)) = (e.1, e.2.tick (io e.1)) := by
  unfold tickFlush tick
  split
  · rcases e.2.flushNoSync (io e.1) with ⟨_ | _, l₁⟩
    · rfl
    · simp only [tickBarrier, if_true]
      rcases l₁.syncDataOnly (io e.1) with ⟨_ | _, l₂⟩ <;> rfl
  · rfl

/-- A tick over several logs is a tick of each of them. -/
theorem commitTick_eq (io : κ → SyncIo) (logs : List (κ × HeadLog α)) :
    (commitTick io logs).2 = logs.map fun e => (e.1, (e.2.tick (io e.1)).2) := by
  simp only [commitTick, map_map]
  refine map_congr_left fun e _ => ?_
  have h := tickPasses_eq io e
  simp only [Function.comp_apply, h]

theorem flushNoSync_moves (l : HeadLog α) (io : SyncIo) : l.Moves (l.flushNoSync io).2 := by
  have hready := (l.ensureWritable_moves io.retry).toMoves
  unfold flushNoSync
  generalize l.ensureWritable io.retry = res at hready ⊢
  obtain ⟨_ | _, l₁⟩ := res
  · exact hready
  dsimp only
  split
  · exact hready.trans l₁.freeze_moves.toMoves
  · exact hready.trans { Moves.refl l₁ with
      wf := fun h => { h with
        flushed_le := le_rfl
        synced_le := h.synced_le.trans h.flushed_le
        segments_le := fun b hb => (h.segments_le b hb).trans h.flushed_le
        pending := fun _ => rfl }
      flushed := fun h => h.flushed_le }

theorem syncDataOnly_moves (l : HeadLog α) (io : SyncIo) : l.Moves (l.syncDataOnly io).2 := by
  have hready := (l.ensureWritable_moves io.retry).toMoves
  unfold syncDataOnly
  generalize l.ensureWritable io.retry = res at hready ⊢
  obtain ⟨_ | _, l₁⟩ := res
  · exact hready
  · dsimp only
    split
    · exact hready.trans l₁.freeze_moves.toMoves
    · exact hready.trans { Moves.refl l₁ with
        wf := fun h => { h with }
        durable := l₁.log.durable_le }

theorem tick_moves (l : HeadLog α) (io : SyncIo) : l.Moves (l.tick io).2 := by
  have hflush := l.flushNoSync_moves io
  unfold tick
  split
  · generalize l.flushNoSync io = res at hflush ⊢
    obtain ⟨_ | _, l₁⟩ := res
    · exact hflush
    · dsimp only
      have hbarrier := l₁.syncDataOnly_moves io
      generalize l₁.syncDataOnly io = res at hbarrier ⊢
      obtain ⟨_ | _, l₂⟩ := res
      · exact hflush.trans hbarrier
      · exact (hflush.trans hbarrier).trans l₂.advanceSyncedOffset_moves
  · exact .refl l

/-- What a write-out does: it ends with a writer and everything visible, or it fails and shows
nothing more. -/
theorem flushNoSync_cases (l : HeadLog α) (io : SyncIo) :
    (∃ l₁ : HeadLog α, l.flushNoSync io = (true, l₁)
        ∧ (l.pendingRoll = true → io.retry = .started) ∧ io.flushFails = false
        ∧ l₁.log.frozen = false ∧ l₁.pendingRoll = false ∧ l₁.flushedOffset = l.nextOffset
        ∧ l₁.log.records = l.log.records ∧ l₁.log.durable = l.log.durable)
      ∨ ∃ l₁, l.flushNoSync io = (false, l₁) ∧ l.Ready l₁ := by
  have hready := l.ensureWritable_ready io.retry
  have hok := @ensureWritable_ok α l io.retry
  have hretry : (l.ensureWritable io.retry).1 = true → l.pendingRoll = true →
      io.retry = .started := by
    intro hdone hpending
    rw [ensureWritable, hpending] at hdone
    split at hdone
    · cases hdone
    · cases hstart : io.retry with
      | started => rfl
      | deferred | broken => rw [hstart] at hdone; cases hdone
  unfold flushNoSync
  generalize l.ensureWritable io.retry = res at hready hok hretry ⊢
  obtain ⟨_ | _, l₁⟩ := res
  · exact .inr ⟨l₁, rfl, hready⟩
  obtain ⟨hopen, hroll⟩ := hok rfl
  cases io.flushFails with
  | true =>
    exact .inr ⟨l₁.freeze, rfl,
      ⟨hready.flushed, hready.synced, hready.records, hready.durable, hready.strays⟩⟩
  | false =>
    exact .inl ⟨_, rfl, hretry rfl, rfl, hopen, hroll, congrArg length hready.records,
      hready.records, hready.durable⟩

/-- The barrier of a log that has a writer. -/
theorem syncDataOnly_of_open (hopen : l.log.frozen = false) (hroll : l.pendingRoll = false)
    (io : SyncIo) :
    l.syncDataOnly io =
      if io.barrierFails then (false, l.freeze) else (true, { l with log := l.log.settle }) := by
  simp only [syncDataOnly, ensureWritable, hopen, hroll, Bool.false_eq_true, if_false]

/-- The tick of a log does not end with a barrier that fails after the write-out succeeded. -/
def TickCalm (l : HeadLog α) (io : SyncIo) : Prop :=
  l.hasUnsyncedRecords = true → (l.pendingRoll = true → io.retry = .started) →
    io.flushFails = false → io.barrierFails = false

/-- Such a tick keeps the visible head covered. -/
theorem tick_covered {io : SyncIo} (h : l.Covered) (hio : l.TickCalm io) :
    (l.tick io).2.Covered := by
  unfold tick
  split
  · next hdirty =>
    obtain ⟨l₁, hflush, hretry, hwritten, hopen, hroll, -⟩ | ⟨l₁, hflush, hready⟩ :=
      l.flushNoSync_cases io
    · have hbarrier := hio hdirty hretry hwritten
      rw [hflush]
      dsimp only
      rw [syncDataOnly_of_open hopen hroll, hbarrier]
      exact le_rfl
    · rw [hflush]
      exact hready.covered.mpr h
  · exact h

end Tick

/-! ## Opening -/

/-- Opening finds at least the records a barrier covered, and of those it finds in the log all but
possibly the last were appended. -/
theorem recovered_records (l : HeadLog α) (io : CrashIo) :
    (l.log.crash io.survivors).records <+: (l.recovered io).records
      ∧ l.log.durable ≤ (l.recovered io).durable
      ∧ ((l.recovered io).records = (l.log.crash io.survivors).records
        ∨ ∃ e ∈ l.strays, e.1 = (l.log.crash io.survivors).records.length
          ∧ (l.recovered io).records = (l.log.crash io.survivors).records ++ [e.2]) := by
  obtain ⟨found, heq, hdurable, hcases⟩ : ∃ found : RecordLog α,
      l.recovered io = (if io.torn then found.settle else found)
        ∧ found.durable = l.log.durable
        ∧ (found.records = (l.log.crash io.survivors).records
          ∨ ∃ e ∈ l.strays, e.1 = (l.log.crash io.survivors).records.length
            ∧ found.records = (l.log.crash io.survivors).records ++ [e.2]) := by
    refine ⟨_, rfl, ?_⟩
    rcases hstray : io.stray.bind (l.strays[·]?) with _ | ⟨offset, a⟩
    · exact ⟨rfl, .inl rfl⟩
    · dsimp only
      split
      · next hoffset =>
        obtain ⟨i, -, hi⟩ := Option.bind_eq_some_iff.mp hstray
        exact ⟨rfl, .inr ⟨(offset, a), mem_of_getElem? (i := i) hi, hoffset, rfl⟩⟩
      · exact ⟨rfl, .inl rfl⟩
  have hrec : (l.recovered io).records = found.records := by
    rw [heq]
    split <;> rfl
  have hdur : l.log.durable ≤ (l.recovered io).durable := by
    rw [heq, ← hdurable]
    split
    · exact found.durable_le
    · exact le_rfl
  rw [hrec]
  refine ⟨?_, hdur, hcases⟩
  obtain hsame | ⟨e, -, -, hone⟩ := hcases
  · rw [hsame]
  · rw [hone]
    exact prefix_append _ _

theorem length_crash (l : HeadLog α) (io : CrashIo) :
    (l.log.crash io.survivors).records.length =
      min (max l.log.durable io.survivors) l.nextOffset := length_take

/-- A crash that takes nothing readers could see leaves the visible records in place. -/
theorem flushed_le_recovered (h : l.Wf) (hio : l.flushedOffset ≤ max l.log.durable io.survivors) :
    l.flushedOffset ≤ (l.log.crash io.survivors).records.length :=
  (le_min hio h.flushed_le).trans_eq (l.length_crash io).symm

theorem reopen_wf (h : l.Wf) (hio : l.flushedOffset ≤ max l.log.durable io.survivors) :
    (l.reopen io).Wf := by
  have hkept := flushed_le_recovered h hio
  obtain ⟨hfront, -, hcases⟩ := l.recovered_records io
  have hfound : ∀ b ∈ l.segments, b ≤ (l.recovered io).records.length := fun b hb =>
    (h.segments_le b hb).trans (hkept.trans hfront.length_le)
  have hnext : (l.recovered io).records.length ≤ u64Max := by
    have hlen : (l.log.crash io.survivors).records.length ≤ u64Max :=
      (l.log.crash_spec io.survivors).1.length_le.trans h.next_le
    obtain heq | ⟨e, he, hoffset, heq⟩ := hcases
    · rw [heq]
      exact hlen
    · rw [heq, length_append, length_singleton, ← hoffset]
      exact h.strays_lt e he
  have hseg : (l.segments.drop (min io.gone (l.segments.length - 1))).filter
      (· ≤ (l.recovered io).records.length) =
        l.segments.drop (min io.gone (l.segments.length - 1)) :=
    filter_eq_self.mpr fun b hb => decide_eq_true (hfound b (mem_of_mem_drop hb))
  have hne : l.segments.drop (min io.gone (l.segments.length - 1)) ≠ [] := by
    have hpos := length_pos_of_ne_nil h.segments_ne
    rw [ne_eq, drop_eq_nil_iff]
    omega
  refine ⟨le_rfl, le_rfl, fun b hb => ?_, nofun, ?_, hnext, nofun⟩
  · simp only [reopen, hseg] at hb ⊢
    split at hb
    · rcases mem_append.mp hb with hb | hb
      · exact hfound b (mem_of_mem_drop hb)
      · exact (mem_singleton.mp hb).le
    · exact hfound b (mem_of_mem_drop hb)
  · simp only [reopen, hseg]
    split
    · exact append_ne_nil_of_left_ne_nil hne _
    · exact hne

/-! ## Reading -/

theorem lt_segmentEnd {offset : Nat} (h : offset < l.nextOffset) :
    offset < l.segmentEnd offset := by
  unfold segmentEnd
  rcases hfind : l.segments.find? (offset < ·) with _ | b
  · exact h
  · simpa using find?_some hfind

/-- A read inside the visible part finds a run of records there. -/
theorem readRangeRaw_run (hwf : l.Wf) {start maxRecords : Nat} (hmax : 0 < maxRecords)
    (hlo : l.earliestOffset ≤ start) (hhi : start < l.flushedOffset) :
    ∃ run, l.readRangeRaw start maxRecords = .ok run ∧ run ≠ [] ∧ run.length ≤ maxRecords
      ∧ start + run.length ≤ l.flushedOffset
      ∧ l.log.records.take (start + run.length) = l.log.records.take start ++ run := by
  have hend := lt_segmentEnd (hhi.trans_le hwf.flushed_le)
  have hnext : l.flushedOffset ≤ l.log.records.length := hwf.flushed_le
  rw [readRangeRaw, if_neg (by omega), if_neg (by omega)]
  generalize hstop : min (min (start + maxRecords) l.flushedOffset) (l.segmentEnd start) = stop
  have hlen : ((l.log.records.take stop).drop start).length = stop - start := by
    rw [length_drop, length_take]
    omega
  refine ⟨_, rfl, fun hnil => ?_, by omega, by omega, ?_⟩
  · rw [hnil, length_nil] at hlen
    omega
  · rw [hlen, Nat.add_sub_cancel' (by omega)]
    conv_lhs => rw [← take_append_drop start (l.log.records.take stop)]
    rw [take_take, min_eq_left (by omega)]

/-- A read of one visible record. -/
theorem readRangeRaw_one (hwf : l.Wf) {offset : Nat} {a : α} (hlo : l.earliestOffset ≤ offset)
    (hhi : offset < l.flushedOffset) (ha : l.log.records[offset]? = some a) :
    l.readRangeRaw offset 1 = .ok [a] := by
  obtain ⟨run, hread, hne, hle, -, htake⟩ := readRangeRaw_run hwf Nat.one_pos hlo hhi
  obtain ⟨b, rfl⟩ := length_eq_one_iff.mp
    (le_antisymm hle (length_pos_of_ne_nil hne))
  rw [hread, length_singleton, take_add_one, ha] at *
  simpa using append_cancel_left htake.symm

/-! ## Retention -/

/-- A sealed prefix ends inside the visible part of the log, at or below the floor. -/
theorem sealedPrefixEnd_le (h : l.Wf) {floor stop : Nat}
    (hstop : l.sealedPrefixEndAtOrBelow floor = some stop) :
    stop ≤ floor ∧ stop ≤ l.flushedOffset := by
  have hmem := mem_of_getLast? hstop
  exact ⟨by simpa using mem_takeWhile_imp hmem,
    h.segments_le stop (mem_of_mem_tail ((takeWhile_sublist _).subset hmem))⟩

/-- Unlinking keeps the records, and the log does not start past the floor. -/
theorem reap_spec (h : l.Wf) {wanted floor : Nat} (hfloor : l.earliestOffset ≤ floor) :
    (l.reap wanted floor).Wf ∧ (l.reap wanted floor).earliestOffset ≤ floor := by
  obtain ⟨b, rest, hsegments⟩ := exists_cons_of_ne_nil h.segments_ne
  simp only [reap, earliestOffset, hsegments, tail_cons, head?_cons,
    Option.getD_some] at hfloor ⊢
  generalize hn : min wanted (rest.takeWhile (· ≤ floor)).length = n
  have hle : n ≤ (rest.takeWhile (· ≤ floor)).length := hn ▸ min_le_right _ _
  have hlen : n ≤ rest.length := hle.trans (takeWhile_sublist _).length_le
  refine ⟨{ h with
    segments_le := fun b' hb' => h.segments_le b' (hsegments ▸ mem_of_mem_drop hb')
    segments_ne := by
      rw [ne_eq, drop_eq_nil_iff, length_cons]
      omega }, ?_⟩
  cases n with
  | zero => exact hfloor
  | succ n =>
    rw [drop_succ_cons]
    have hlt : n < (rest.takeWhile (· ≤ floor)).length := hle
    have hget : rest[n]? = some ((rest.takeWhile (· ≤ floor))[n]) :=
      List.IsPrefix.getElem?_eq_some (List.takeWhile_prefix _) (getElem?_eq_getElem hlt)
    rw [head?_drop, hget, Option.getD_some]
    simpa using mem_takeWhile_imp (getElem_mem hlt)

end HeadLog

end IronBus
