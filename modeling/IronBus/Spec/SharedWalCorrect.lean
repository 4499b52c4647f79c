import IronBus.Spec.SharedWalIndex

/-!
# Streams of the shared log

Each stream of the shared log is its own append-only sequence, across appends, barriers, retention
and crashes: what a reader sees of it only grows, a position keeps its record until it is reaped,
and no read crosses into another stream.

Opening the log counts everything it finds as flushed without a barrier, and takes up whichever
snapshot it finds. So what one opening showed, a later crash can take away, unless a barrier came
between. A run keeps beside the log whether that is so.

## Key results

- `Inv.appendTo`, `Inv.reap`, `Inv.reopen`: what the calls and an opening keep
- `Inv.writeReapCheckpoint`: no snapshot that may be found is older than the logical start
- `Inv.readAt_eq`, `Inv.readStream_eq`: reads return what is visible of the stream
- `streams_append_only`: each stream is an append-only sequence, in every run
-/

namespace IronBus

open SharedWal ReapCheckpoint List Tagged StreamSlot

namespace SharedWal

variable {ρ : Type}

/-- The records of a stream, in order. -/
def streamSeq (rs : List (Tagged ρ)) (id : StreamId) : List ρ :=
  (rs.filter (isOf id)).map body

/-- The part of a stream that readers see. -/
def visible (w : SharedWal ρ) (id : StreamId) : List ρ :=
  streamSeq (w.log.log.records.take w.log.flushedOffset) id

/-- What an append returned: the position a record of a stream got. -/
structure Grant (ρ : Type) where
  id : StreamId
  pos : Nat
  body : ρ

/-- The shared log, and the positions it gave out. A position whose record a crash took is no longer
among them. -/
structure World (ρ : Type) where
  wal : SharedWal ρ
  granted : List (Grant ρ)

def World.fresh : World ρ := ⟨SharedWal.fresh, []⟩

/-- The positions whose records a crash left. -/
def World.kept (s : World ρ) (io : HeadLog.CrashIo) : List (Grant ρ) :=
  s.granted.filter fun g =>
    g.pos < (streamSeq (s.wal.log.log.crash io.survivors).records g.id).length

/-- A world with what its last opening took up that no barrier had covered. -/
structure Traced (ρ : Type) extends World ρ where
  /-- It found records that no barrier had covered, and none has returned since. -/
  unsynced : Bool
  /-- It found a snapshot whose write had failed, and none has succeeded since. -/
  unwritten : Bool

def Traced.fresh : Traced ρ := ⟨World.fresh, false, false⟩

/-- One call, or a crash and the opening after it. A crash inside a call is the call failing there,
and then the crash. -/
inductive Step : Traced ρ → Traced ρ → Prop
  | declare {s : Traced ρ} (id : StreamId) : Step s { s with wal := (s.wal.declare id).2 }
  | appendTo {s : Traced ρ} {io : WriteIo} {id : StreamId} {body : ρ} {pos : Nat}
      {wal : SharedWal ρ} (h : s.wal.appendTo io id body = (.ok pos, wal)) :
      Step s { s with wal := wal, granted := s.granted ++ [⟨id, pos, body⟩] }
  | appendFails {s : Traced ρ} {io : WriteIo} {id : StreamId} {body : ρ} {e : WalError}
      {wal : SharedWal ρ} (h : s.wal.appendTo io id body = (.error e, wal)) :
      Step s { s with wal := wal }
  | sync {s : Traced ρ} (io : SyncIo) :
      Step s { s with
        wal := (s.wal.sync io).2
        unsynced := s.unsynced && !(s.wal.log.sync io).1 }
  | reap {s : Traced ρ} (io : ReapIo) (protectBelow : Nat) :
      Step s { s with
        wal := (s.wal.reap io protectBelow).2
        unwritten := s.unwritten
          && decide ((s.wal.reap io protectBelow).2.checkpoint.stored = s.wal.checkpoint.stored) }
  | reopen {s : Traced ρ} {io : HeadLog.CrashIo} {found : Option Bytes} {wal : SharedWal ρ}
      {n : Nat} (hfound : found ∈ s.wal.checkpoint.contents)
      (hopen : s.wal.reopen io found = .ok (wal, n))
      -- what the last opening took up, and no barrier has covered since, is still there
      (hlog : s.unsynced = true →
        s.wal.log.flushedOffset ≤ max s.wal.log.log.durable io.survivors)
      (hcheckpoint : s.unwritten = true → ∀ start bases,
        readCheckpoint found = .ok (start, bases) → s.wal.logicalEarliest ≤ start) :
      Step s
        { wal := wal
          granted := s.kept io
          unsynced := decide ((s.wal.log.recovered io).durable
            < (s.wal.log.recovered io).records.length)
          unwritten := decide (found ≠ s.wal.checkpoint.stored) }

/-- The states of a run. -/
abbrev Reach : Traced ρ → Traced ρ → Prop := Relation.ReflTransGen Step

/-- A payload the checkpoint file may hold is a true snapshot of the visible log. -/
def Truthful (rs : List (Tagged ρ)) (head : Nat) (payload : Bytes) : Prop :=
  ∃ start bases, decodeReapSnapshot payload = some (start, bases) ∧ start ≤ head
    ∧ Snapshot rs start bases

structure Inv (s : World ρ) : Prop where
  wf : s.wal.log.Wf
  tags : WellTagged s.wal.log.log.records
  strays : ∀ e ∈ s.wal.log.strays, WellTagged [e.2]
  start_le : s.wal.logicalEarliest ≤ s.wal.log.flushedOffset
  /-- No segment at or past the logical start is unlinked. -/
  physical : s.wal.log.earliestOffset ≤ s.wal.logicalEarliest
  indexed : Indexed s.wal.log.log.records s.wal.logicalEarliest s.wal.index
  truthful : ∀ payload, some payload ∈ s.wal.checkpoint.contents →
    Truthful s.wal.log.log.records s.wal.log.flushedOffset payload
  granted : ∀ g ∈ s.granted, (streamSeq s.wal.log.log.records g.id)[g.pos]? = some g.body

/-- Nothing in the checkpoint file is older than the logical start. -/
def Settled (w : SharedWal ρ) : Prop :=
  ∀ content ∈ w.checkpoint.contents, ∀ start bases,
    readCheckpoint content = .ok (start, bases) → w.logicalEarliest ≤ start

variable {s s' : World ρ} {rs rs' : List (Tagged ρ)} {id : StreamId} {body : ρ} {pos stop : Nat}
  {wal : SharedWal ρ} {found : Option Bytes} {io : HeadLog.CrashIo}

/-- The positions given out do not matter to the log. -/
theorem Inv.forget (h : Inv s) : Inv ⟨s.wal, []⟩ := { h with granted := nofun }

theorem inv_fresh : Inv (World.fresh : World ρ) where
  wf := HeadLog.fresh_wf
  tags := nofun
  strays := nofun
  start_le := le_rfl
  physical := le_rfl
  indexed _ := rfl
  truthful _ h := by simp [World.fresh, fresh, contents] at h
  granted := nofun

/-! ## What the calls do -/

theorem streamSeq_append (rs rs' : List (Tagged ρ)) (id : StreamId) :
    streamSeq (rs ++ rs') id = streamSeq rs id ++ streamSeq rs' id := by
  simp [streamSeq]

theorem streamSeq_front (h : rs <+: rs') (id : StreamId) :
    streamSeq rs id <+: streamSeq rs' id := by
  obtain ⟨t, rfl⟩ := h
  rw [streamSeq_append]
  exact prefix_append _ _

@[simp] theorem length_streamSeq (rs : List (Tagged ρ)) (id : StreamId) :
    (streamSeq rs id).length = rs.countP (isOf id) := by
  rw [streamSeq, length_map, countP_eq_length_filter]

/-- A payload stays true when the log grows. -/
theorem Truthful.mono {head head' : Nat} {payload : Bytes} (h : Truthful rs head payload)
    (hhead : head ≤ head') (htake : rs'.take head = rs.take head) :
    Truthful rs' head' payload := by
  obtain ⟨start, bases, hdec, hle, hsnap⟩ := h
  refine ⟨start, bases, hdec, hle.trans hhead, hsnap.congr ?_⟩
  have := congrArg (take start) htake
  rwa [take_take, take_take, min_eq_left hle] at this

theorem take_eq_of_front {n : Nat} (h : rs <+: rs') (hn : n ≤ rs.length) :
    rs'.take n = rs.take n := by
  obtain ⟨t, rfl⟩ := h
  rw [take_append_of_le_length hn]

/-- The log moves on, and what it holds stays in place. -/
theorem Inv.truthful_of_moves (h : Inv s) {log : HeadLog (Tagged ρ)}
    (hmoves : s.wal.log.Moves log) :
    ∀ payload, some payload ∈ s.wal.checkpoint.contents →
      Truthful log.log.records log.flushedOffset payload := fun payload hmem =>
  (h.truthful payload hmem).mono (hmoves.flushed h.wf)
    (take_eq_of_front hmoves.records h.wf.flushed_le)

/-- A call that moves the log without adding a record. -/
theorem Inv.withLog (h : Inv s) {log : HeadLog (Tagged ρ)} (hmoves : s.wal.log.Moves log)
    (hrec : log.log.records = s.wal.log.log.records)
    (hstrays : ∀ e ∈ log.strays, WellTagged [e.2]) :
    Inv { s with wal := { s.wal with log := log } } where
  wf := hmoves.wf h.wf
  tags := hrec ▸ h.tags
  strays := hstrays
  start_le := h.start_le.trans (hmoves.flushed h.wf)
  physical := (hmoves.earliestOffset_eq h.wf).trans_le h.physical
  indexed := hrec ▸ h.indexed
  truthful := h.truthful_of_moves hmoves
  granted := hrec ▸ h.granted

theorem declare_log (w : SharedWal ρ) (id : StreamId) :
    (w.declare id).2.log = w.log ∧ (w.declare id).2.logicalEarliest = w.logicalEarliest
      ∧ (w.declare id).2.checkpoint = w.checkpoint := by
  unfold declare
  split
  · exact ⟨rfl, rfl, rfl⟩
  · split <;> exact ⟨rfl, rfl, rfl⟩

theorem Inv.declare (h : Inv s) (id : StreamId) :
    Inv { s with wal := (s.wal.declare id).2 } := by
  unfold SharedWal.declare
  split
  · exact h
  split
  · exact h
  next hknown =>
  have hnone : s.wal.index.lookup id = none := by simpa using hknown
  refine { h with indexed := fun id' => ?_ }
  rw [← h.indexed id']
  by_cases heq : id' = id
  · subst heq
    rw [AList.lookup_insert, hnone]
    rfl
  · rw [AList.lookup_insert_ne heq]

/-- What appending to a stream does. -/
theorem appendTo_cases (w : SharedWal ρ) (io : WriteIo) (id : StreamId) (body : ρ) :
    (∃ slot log, id.isDefault = false ∧ w.index.lookup id = some slot
        ∧ w.log.SafeMoves log ∧ log.log.records = w.log.log.records ++ [⟨id.name, body⟩]
        ∧ log.strays = w.log.strays
        ∧ w.appendTo io id body = (.ok slot.nextPosition, { w with
            log := log
            index := w.index.insert id
              { slot with offsets := slot.offsets ++ [w.log.nextOffset] } }))
      ∨ ∃ e log, w.log.SafeMoves log ∧ log.log.records = w.log.log.records
        ∧ (∀ x ∈ log.strays, x ∈ w.log.strays ∨ (x.2 = ⟨id.name, body⟩ ∧ id.isDefault = false))
        ∧ w.appendTo io id body = (.error e, { w with log := log }) := by
  unfold appendTo
  split
  · exact .inr ⟨_, _, .refl _, rfl, fun x hx => .inl hx, rfl⟩
  next hdefault =>
  have hnamed : id.isDefault = false := by simpa using hdefault
  split
  · exact .inr ⟨_, _, .refl _, rfl, fun x hx => .inl hx, rfl⟩
  next slot hlook =>
  have hmoves := w.log.append_moves io ⟨id.name, body⟩
  rcases w.log.append_records io ⟨id.name, body⟩ with ⟨hok, hrec, hstray⟩ | ⟨hno, hrec, hstray⟩
  · have heq : w.log.append io ⟨id.name, body⟩ =
        (some w.log.nextOffset, (w.log.append io ⟨id.name, body⟩).2) := Prod.ext hok rfl
    rw [heq]
    exact .inl ⟨slot, _, hnamed, hlook, hmoves, hrec, hstray, rfl⟩
  · have heq : w.log.append io ⟨id.name, body⟩ =
        (none, (w.log.append io ⟨id.name, body⟩).2) := Prod.ext hno rfl
    rw [heq]
    exact .inr ⟨_, _, hmoves, hrec,
      fun x hx => (hstray x hx).imp_right fun h => ⟨h, hnamed⟩, rfl⟩

theorem appendTo_moves (w : SharedWal ρ) (io : WriteIo) (id : StreamId) (body : ρ) :
    w.log.SafeMoves (w.appendTo io id body).2.log
      ∧ (w.appendTo io id body).2.logicalEarliest = w.logicalEarliest
      ∧ (w.appendTo io id body).2.checkpoint = w.checkpoint := by
  obtain ⟨slot, log, -, -, hmoves, -, -, heq⟩ | ⟨e, log, hmoves, -, -, heq⟩ :=
    w.appendTo_cases io id body
  · rw [heq]
    exact ⟨hmoves, rfl, rfl⟩
  · rw [heq]
    exact ⟨hmoves, rfl, rfl⟩

section

variable (h : Inv s)

include h

theorem Inv.appendTo {io : WriteIo} (hw : s.wal.appendTo io id body = (.ok pos, wal)) :
    Inv ⟨wal, s.granted ++ [⟨id, pos, body⟩]⟩
      ∧ pos = (streamSeq s.wal.log.log.records id).length := by
  obtain ⟨slot, log, hnamed, hlook, hmoves, hrec, hstray, heq⟩ | ⟨e, log, -, -, -, heq⟩ :=
    s.wal.appendTo_cases io id body
  · rw [heq] at hw
    cases hw
    -- the next position is the number of records of the stream
    have hslot : slot = StreamSlot.at s.wal.log.log.records s.wal.logicalEarliest id := by
      rw [← h.indexed id, hlook]
      rfl
    have hpos : slot.nextPosition = (streamSeq s.wal.log.log.records id).length := by
      rw [hslot, nextPosition_at, length_streamSeq]
    refine ⟨?_, hpos⟩
    constructor
    · exact hmoves.wf h.wf
    · intro r hr
      rw [hrec] at hr
      rcases mem_append.mp hr with hr | hr
      · exact h.tags r hr
      · rw [mem_singleton.mp hr]
        exact ⟨id, hnamed, rfl⟩
    · intro e he
      exact h.strays e (hstray ▸ he)
    · exact h.start_le.trans (hmoves.flushed h.wf)
    · exact (hmoves.earliestOffset_eq h.wf).trans_le h.physical
    · have hpush := h.indexed.push (h.start_le.trans h.wf.flushed_le) id body
      rw [hlook, Option.getD_some] at hpush
      simp only
      rw [hrec]
      exact hpush
    · exact h.truthful_of_moves hmoves.toMoves
    · intro g hg
      simp only
      rw [hrec]
      rcases mem_append.mp hg with hg | hg
      · exact List.IsPrefix.getElem?_eq_some (streamSeq_front (prefix_append _ _) g.id)
          (h.granted g hg)
      · rw [mem_singleton.mp hg]
        simp only
        rw [hpos, streamSeq_append, getElem?_append_right le_rfl]
        simp [streamSeq, isOf]
  · rw [heq] at hw
    cases hw

theorem Inv.appendFails {io : WriteIo} {e : WalError}
    (hw : s.wal.appendTo io id body = (.error e, wal)) :
    Inv { s with wal := wal } := by
  obtain ⟨slot, log, -, -, -, -, -, heq⟩ | ⟨e', log, hmoves, hrec, hstray, heq⟩ :=
    s.wal.appendTo_cases io id body
  · rw [heq] at hw
    cases hw
  · rw [heq] at hw
    cases hw
    refine h.withLog hmoves.toMoves hrec fun x hx => ?_
    rcases hstray x hx with hx | ⟨hx, hnamed⟩
    · exact h.strays x hx
    · intro r hr
      rw [mem_singleton.mp hr, hx]
      exact ⟨id, hnamed, rfl⟩

omit h in
theorem sync_eq (w : SharedWal ρ) (io : SyncIo) :
    (w.sync io).2 = { w with log := (w.log.sync io).2 } := by
  unfold sync
  rcases w.log.sync io with ⟨_ | _, log⟩ <;> rfl

theorem Inv.sync (io : SyncIo) :
    Inv { s with wal := (s.wal.sync io).2 } := by
  rw [sync_eq]
  obtain ⟨hrec, hstrays⟩ := s.wal.log.sync_records io
  exact h.withLog (s.wal.log.sync_moves io).toMoves hrec fun e he => h.strays e (hstrays ▸ he)

/-! ## Retention -/

theorem Inv.unlink (io : ReapIo) :
    Inv { s with wal := (s.wal.unlink io).2 } := by
  obtain ⟨hwf, hphysical⟩ := @HeadLog.reap_spec _ s.wal.log h.wf io.wanted _ h.physical
  exact { h with wf := hwf, physical := hphysical }

/-- The snapshot a reap writes says where the log is to start, and is true of the log. -/
theorem Inv.payload (hstart : s.wal.logicalEarliest ≤ stop)
    (hstop : stop ≤ s.wal.log.flushedOffset)
    (hfits : (encodeReapSnapshot stop (s.wal.reapBases stop)).length ≤ sharedWalReapPayload) :
    ∃ bases, decodeReapSnapshot (encodeReapSnapshot stop (s.wal.reapBases stop))
        = some (stop, bases) ∧ Snapshot s.wal.log.log.records stop bases := by
  have hlen : s.wal.log.log.records.length ≤ u64Max := h.wf.next_le
  refine ⟨_, decodeReapSnapshot_encode ?_ ?_ (length_lt_of_encode hfits), ?_⟩
  · exact hstop.trans (h.wf.flushed_le.trans h.wf.next_le)
  · exact encodable_reapBases h.indexed h.tags hstart hlen
  · exact snapshot_reapBases h.indexed h.tags hstart

/-- A checkpoint write changes only the checkpoint file, whose contents stay true. No snapshot in it
is older than the one that was written, or than those before it. -/
theorem Inv.writeReapCheckpoint (io : CheckpointIo)
    (hstart : s.wal.logicalEarliest ≤ stop) (hstop : stop ≤ s.wal.log.flushedOffset) :
    ∃ checkpoint, (s.wal.writeReapCheckpoint io stop).2 = { s.wal with checkpoint := checkpoint }
      ∧ Inv { s with wal := { s.wal with checkpoint := checkpoint } }
      ∧ (Settled s.wal → Settled { s.wal with checkpoint := checkpoint })
      ∧ ((s.wal.writeReapCheckpoint io stop).1 = .ok true → ∀ content ∈ checkpoint.contents,
        ∀ start bases, readCheckpoint content = .ok (start, bases) → start = stop)
      ∧ ((s.wal.writeReapCheckpoint io stop).1 ≠ .ok true →
        checkpoint.stored = s.wal.checkpoint.stored) := by
  unfold SharedWal.writeReapCheckpoint
  dsimp only
  split
  · exact ⟨s.wal.checkpoint, rfl, h, id, nofun, fun _ => rfl⟩
  next hfits =>
  obtain ⟨bases, hdec, hsnap⟩ := h.payload hstart hstop (not_lt.mp hfits)
  have htrue : Truthful s.wal.log.log.records s.wal.log.flushedOffset
      (encodeReapSnapshot stop (s.wal.reapBases stop)) := ⟨stop, bases, hdec, hstop, hsnap⟩
  have hread : ∀ start bases, readCheckpoint
      (some (encodeReapSnapshot stop (s.wal.reapBases stop))) = .ok (start, bases) →
      start = stop := by
    intro start bases' hread
    rw [readCheckpoint, hdec] at hread
    cases hread
    rfl
  cases io with
  | ok =>
    -- only the payload just written can be found
    have hone : ∀ content ∈ contents ⟨some (encodeReapSnapshot stop (s.wal.reapBases stop)), []⟩,
        content = some (encodeReapSnapshot stop (s.wal.reapBases stop)) := by
      intro content hmem
      simpa [contents] using hmem
    refine ⟨_, rfl, { h with truthful := fun payload hmem => ?_ }, fun _ content hmem => ?_,
      fun _ content hmem => ?_, fun hno => absurd rfl hno⟩
    · cases hone _ hmem
      exact htrue
    · rw [hone content hmem]
      exact fun start bases hok => hstart.trans_eq (hread start bases hok).symm
    · rw [hone content hmem]
      exact hread
  | unopened => exact ⟨s.wal.checkpoint, rfl, h, id, nofun, fun _ => rfl⟩
  | failed =>
    -- a write that failed may be found later, like those before it
    have hmore : ∀ content ∈ contents { s.wal.checkpoint with issued := s.wal.checkpoint.issued ++
        [encodeReapSnapshot stop (s.wal.reapBases stop)] }, content ∈ s.wal.checkpoint.contents
          ∨ content = some (encodeReapSnapshot stop (s.wal.reapBases stop)) := by
      intro content hmem
      simpa only [contents, map_append, map_cons, map_nil, ← cons_append, mem_append,
        mem_singleton] using hmem
    refine ⟨_, rfl, { h with truthful := fun payload hmem => ?_ }, fun hset content hmem => ?_,
      nofun, fun _ => rfl⟩
    · obtain hold | hnew := hmore _ hmem
      · exact h.truthful payload hold
      · cases hnew
        exact htrue
    · obtain hold | rfl := hmore content hmem
      · exact hset content hold
      · exact fun start bases hok => hstart.trans_eq (hread start bases hok).symm

/-- The logical start moves to the end of a sealed prefix. -/
theorem Inv.trim (hstart : s.wal.logicalEarliest ≤ stop)
    (hstop : stop ≤ s.wal.log.flushedOffset) : Inv { s with wal := s.wal.trim stop } := by
  refine { h with
    start_le := hstop
    physical := h.physical.trans hstart
    indexed := fun id => ?_ }
  rw [SharedWal.trim, Assoc.lookup_retain, ← trim_at _ hstart, ← h.indexed id]
  rcases s.wal.index.lookup id with _ | slot <;> rfl

/-- What a retention pass does to the world: nothing a reader of a later position can see. -/
theorem Inv.reap (io : ReapIo) (protectBelow : Nat) :
    Inv { s with wal := (s.wal.reap io protectBelow).2 }
      ∧ (s.wal.reap io protectBelow).2.log.log = s.wal.log.log
      ∧ (s.wal.reap io protectBelow).2.log.flushedOffset = s.wal.log.flushedOffset
      ∧ s.wal.logicalEarliest ≤ (s.wal.reap io protectBelow).2.logicalEarliest
      ∧ (Settled s.wal
          ∨ (s.wal.reap io protectBelow).2.checkpoint.stored ≠ s.wal.checkpoint.stored →
        Settled (s.wal.reap io protectBelow).2) := by
  unfold SharedWal.reap
  split
  · exact ⟨h, rfl, rfl, le_rfl, fun hor => hor.resolve_right (absurd rfl)⟩
  rcases hstop : s.wal.log.sealedPrefixEndAtOrBelow protectBelow with _ | stop
  · exact ⟨h.unlink io, rfl, rfl, le_rfl, fun hor => hor.resolve_right (absurd rfl)⟩
  obtain ⟨-, hflushed⟩ := HeadLog.sealedPrefixEnd_le h.wf hstop
  dsimp only
  split
  · next htrip =>
    have hstart : s.wal.logicalEarliest ≤ stop := by
      simp only [Bool.and_eq_true, decide_eq_true_eq] at htrip
      exact htrip.1.le
    obtain ⟨checkpoint, heq, hinv, hset, hdone, hsame⟩ :=
      h.writeReapCheckpoint io.checkpoint hstart hflushed
    generalize s.wal.writeReapCheckpoint io.checkpoint stop = res at heq hdone hsame ⊢
    obtain ⟨res, wal⟩ := res
    cases heq
    rcases res with e | _ | _
    · exact ⟨hinv, rfl, rfl, le_rfl,
        fun hor => hset (hor.resolve_right (absurd (hsame nofun)))⟩
    · exact ⟨hinv.unlink io, rfl, rfl, le_rfl,
        fun hor => hset (hor.resolve_right (absurd (hsame nofun)))⟩
    · refine ⟨(hinv.trim hstart hflushed).unlink io, rfl, rfl, hstart, fun _ content hmem => ?_⟩
      exact fun start bases hok => (hdone rfl content hmem start bases hok).ge
  · exact ⟨h.unlink io, rfl, rfl, le_rfl, fun hor => hor.resolve_right (absurd rfl)⟩

/-! ## Opening -/

/-- Opening takes up a true snapshot. -/
theorem Inv.readCheckpoint (hfound : found ∈ s.wal.checkpoint.contents) :
    ∃ start bases, readCheckpoint found = .ok (start, bases)
      ∧ start ≤ s.wal.log.flushedOffset ∧ Snapshot s.wal.log.log.records start bases := by
  cases found with
  | none => exact ⟨0, ∅, rfl, Nat.zero_le _, snapshot_empty _⟩
  | some payload =>
    obtain ⟨start, bases, hdec, hle, hsnap⟩ := h.truthful payload hfound
    exact ⟨start, bases, by rw [readCheckpoint, hdec], hle, hsnap⟩

omit h in
theorem mem_reopened {c : ReapCheckpoint} {content : Option Bytes} (hfound : found ∈ c.contents)
    (h : content ∈ (c.reopened found).contents) :
    content ∈ c.contents := by
  simp only [contents, reopened, mem_cons] at h ⊢
  rcases h with h | h
  · exact .inl h
  split at h
  · simp at h
  · cases found with
    | none => simp at h
    | some payload =>
      rw [Option.toList_some, map_singleton, mem_singleton] at h
      subst h
      simpa [contents] using hfound

omit h in
/-- What an opening takes up. -/
theorem reopen_eq {w : SharedWal ρ} {n : Nat} (hopen : w.reopen io found = .ok (wal, n)) :
    wal.log = w.log.reopen io ∧ wal.checkpoint = w.checkpoint.reopened found
      ∧ ∃ bases, readCheckpoint found = .ok (wal.logicalEarliest, bases) := by
  rw [reopen, openOver] at hopen
  simp only [bind, Except.bind] at hopen
  split at hopen
  · cases hopen
  · split at hopen
    · cases hopen
    · split at hopen
      · cases hopen
      · next hread _ _ _ _ =>
        cases hopen
        exact ⟨rfl, rfl, _, hread⟩

theorem Inv.reopen {n : Nat} (hfound : found ∈ s.wal.checkpoint.contents)
    (hopen : s.wal.reopen io found = .ok (wal, n))
    (hlog : s.wal.log.flushedOffset ≤ max s.wal.log.log.durable io.survivors) :
    Inv ⟨wal, s.kept io⟩
      ∧ (s.wal.log.log.crash io.survivors).records <+: wal.log.log.records
      ∧ wal.log.flushedOffset = wal.log.log.records.length := by
  obtain ⟨start, bases, hread, hle, hsnap⟩ := h.readCheckpoint hfound
  obtain ⟨hfront, -, hcases⟩ := s.wal.log.recovered_records io
  have hwf := HeadLog.reopen_wf h.wf hlog
  have hkept := HeadLog.flushed_le_recovered h.wf hlog
  -- everything that was visible survives
  have hall : s.wal.log.log.records.take s.wal.log.flushedOffset <+:
      (s.wal.log.recovered io).records := by
    refine List.IsPrefix.trans ?_ hfront
    rw [RecordLog.crash]
    exact take_prefix_take_left hlog
  have htake : (s.wal.log.recovered io).records.take s.wal.log.flushedOffset =
      s.wal.log.log.records.take s.wal.log.flushedOffset := by
    rw [take_eq_of_front hall
      (by rw [length_take]; exact le_min le_rfl h.wf.flushed_le),
      take_take, Nat.min_self]
  have hhead : s.wal.log.flushedOffset ≤ (s.wal.log.recovered io).records.length :=
    hkept.trans hfront.length_le
  have htags : WellTagged (s.wal.log.recovered io).records := by
    intro r hr
    obtain heq | ⟨e, he, -, heq⟩ := hcases
    · rw [heq] at hr
      exact h.tags r ((s.wal.log.log.crash_spec io.survivors).1.subset hr)
    · rw [heq] at hr
      rcases mem_append.mp hr with hr | hr
      · exact h.tags r ((s.wal.log.log.crash_spec io.survivors).1.subset hr)
      · exact h.strays e he r hr
  -- the snapshot that is found only speaks of records below the head
  have hsnap' : Snapshot (s.wal.log.recovered io).records start bases := hsnap.congr (by
    have := congrArg (take start) htake
    rwa [take_take, take_take, min_eq_left hle] at this)
  rw [SharedWal.reopen, openOver, hread] at hopen
  simp only [bind, Except.bind] at hopen
  split at hopen
  · cases hopen
  next hphysical =>
  obtain ⟨index, hindex, hidx⟩ := rebuildIndex_spec hwf htags hsnap' (not_lt.mp hphysical)
    (hle.trans hhead)
  rw [hindex] at hopen
  cases hopen
  refine ⟨?_, hfront, rfl⟩
  have hidx' : Indexed (s.wal.log.recovered io).records start index := by
    have hlen : (s.wal.log.reopen io).log.records.take (s.wal.log.reopen io).flushedOffset =
        (s.wal.log.recovered io).records := take_length
    rwa [hlen] at hidx
  constructor
  · exact hwf
  · exact htags
  · nofun
  · exact hle.trans hhead
  · exact not_lt.mp hphysical
  · exact hidx'
  · intro payload hmem
    exact (h.truthful payload (mem_reopened hfound hmem)).mono hhead htake
  · -- a granted position still has its record
    intro g hg
    obtain ⟨hg, hpos⟩ := mem_filter.mp hg
    have hsome := h.granted g hg
    have hlt : g.pos < (streamSeq (s.wal.log.log.crash io.survivors).records g.id).length := by
      simpa using hpos
    have hseq := streamSeq_front (s.wal.log.log.crash_spec io.survivors).1 g.id
    have hget := getElem?_eq_getElem hlt
    have hsame := List.IsPrefix.getElem?_eq_some hseq hget
    rw [hsome] at hsame
    exact List.IsPrefix.getElem?_eq_some (streamSeq_front hfront g.id)
      (hget.trans hsame.symm)

/-! ## Reads -/

/-- A stream's slot, if it has one. -/
theorem Inv.slot {slot : StreamSlot} (hlook : s.wal.index.lookup id = some slot) :
    slot = StreamSlot.at s.wal.log.log.records s.wal.logicalEarliest id := by
  rw [← h.indexed id, hlook]
  rfl

/-- A stream without a slot has no records. -/
theorem Inv.countP_eq_zero (hlook : s.wal.index.lookup id = none) :
    s.wal.log.log.records.countP (isOf id) = 0 := by
  have hat := h.indexed id
  rw [hlook] at hat
  exact at_eq_default hat.symm

theorem Inv.streamEarliest_eq (id : StreamId) :
    s.wal.streamEarliest id =
      (s.wal.log.log.records.take s.wal.logicalEarliest).countP (isOf id) := by
  unfold streamEarliest
  rcases hlook : s.wal.index.lookup id with _ | slot
  · have hzero := h.countP_eq_zero hlook
    exact (Nat.le_zero.mp (hzero ▸ (take_sublist _ _).countP_le)).symm
  · rw [h.slot hlook]
    rfl

omit h in
/-- A visible record of the stream, by where it lies. -/
theorem visible_getElem? {w : SharedWal ρ} {o : Nat} {r : Tagged ρ}
    (ho : (w.log.log.records.findIdxs (isOf id))[pos]? = some o)
    (hr : (w.log.log.records.filter (isOf id))[pos]? = some r) :
    (w.visible id)[pos]? = if o < w.log.flushedOffset then some r.body else none := by
  have hiff := getElem?_findIdxs_lt_iff (n := w.log.flushedOffset) ho
  have hlen : (w.visible id).length =
      (w.log.log.records.take w.log.flushedOffset).countP (isOf id) := length_streamSeq _ _
  split
  · next hlt =>
    have hpos : pos < (w.visible id).length := hlen ▸ hiff.mp hlt
    have hget := List.IsPrefix.getElem?_eq_some
      (streamSeq_front (List.take_prefix w.log.flushedOffset w.log.log.records) id)
      (getElem?_eq_getElem hpos)
    rw [streamSeq, getElem?_map, hr] at hget
    rw [getElem?_eq_getElem hpos]
    exact hget.symm
  · next hge => exact getElem?_eq_none (by rw [hlen]; exact not_lt.mp (hiff.not.mp hge))

/-- A read of a stream from its earliest position on returns what is visible there. -/
theorem Inv.readAt_eq (hknown : (s.wal.index.lookup id).isSome = true)
    (hpos : s.wal.streamEarliest id ≤ pos) :
    s.wal.readAt id pos = .ok ((s.wal.visible id)[pos]?.map fun body => ⟨pos, id.name, body⟩) := by
  obtain ⟨slot, hlook⟩ := Option.isSome_iff_exists.mp hknown
  have hslot := h.slot hlook
  have hbase : slot.base ≤ pos := by simpa [streamEarliest, hlook] using hpos
  rw [readAt, hlook]
  dsimp only
  rw [if_neg (not_lt.mpr hbase)]
  have hoffsets : slot.offsets[pos - slot.base]? =
      (s.wal.log.log.records.findIdxs (isOf id))[pos]? := by
    rw [hslot] at hbase ⊢
    simp only [StreamSlot.at] at hbase ⊢
    rw [getElem?_drop, Nat.add_sub_cancel' hbase]
  have hrecord := StreamSlot.getElem?_offsets (hslot ▸ hbase : (StreamSlot.at
    s.wal.log.log.records s.wal.logicalEarliest id).base ≤ pos)
  rw [← hslot] at hrecord
  rcases ho : slot.offsets[pos - slot.base]? with _ | o
  · have hnone : (s.wal.log.log.records.findIdxs (isOf id)).length ≤ pos := by
      rw [hoffsets] at ho
      exact getElem?_eq_none_iff.mp ho
    have hvis : (s.wal.visible id)[pos]? = none := getElem?_eq_none (by
      rw [visible, length_streamSeq]
      exact (take_sublist _ _).countP_le.trans (length_findIdxs ▸ hnone))
    rw [hvis]
    rfl
  · rw [hoffsets] at ho
    have hmem := mem_of_getElem? ho
    obtain ⟨hlt, hof⟩ := mem_findIdxs_iff_exists_getElem_pos.mp hmem
    have hr : s.wal.log.log.records[o]? = some s.wal.log.log.records[o] :=
      getElem?_eq_getElem hlt
    have hfilter := (hrecord _).mpr ⟨o, hoffsets.trans ho, hr⟩
    dsimp only
    rw [visible_getElem? ho hfilter]
    split
    · next hge => rw [if_neg (not_lt.mpr hge)]; rfl
    next hlt' =>
    have hflushed := not_le.mp hlt'
    have hstart : s.wal.log.earliestOffset ≤ o := by
      -- the record is at or past the base, so it lies at or past the logical start
      refine h.physical.trans (not_lt.mp fun hbelow => ?_)
      have hk := (getElem?_findIdxs_lt_iff ho).mp hbelow
      rw [h.streamEarliest_eq] at hpos
      omega
    rw [if_pos hflushed, readOneDemuxed, HeadLog.readRangeRaw_one h.wf hstart hflushed hr]
    have htag : s.wal.log.log.records[o].tag = id.name := by simpa [isOf] using hof
    simp only [htag, if_true]
    rfl

/-- A successful read is inside the stream. -/
theorem Inv.readAt_ok {r : StreamedRecord ρ} (hread : s.wal.readAt id pos = .ok (some r)) :
    r.offset = pos ∧ r.streamTag = id.name ∧ (s.wal.visible id)[pos]? = some r.body := by
  have hsplit : (s.wal.index.lookup id).isSome = true ∧ s.wal.streamEarliest id ≤ pos := by
    rw [readAt] at hread
    unfold streamEarliest
    rcases hlook : s.wal.index.lookup id with _ | slot
    · rw [hlook] at hread
      cases hread
    · rw [hlook] at hread
      dsimp only at hread
      split at hread
      · cases hread
      · next hge => exact ⟨rfl, not_lt.mp hge⟩
  rw [h.readAt_eq hsplit.1 hsplit.2] at hread
  obtain ⟨body, hbody, rfl⟩ := Option.map_eq_some_iff.mp (Except.ok.inj hread)
  exact ⟨rfl, rfl, hbody⟩

end

/-! ## Runs -/

/-- What a later state keeps: the visible log, the forward motion of its start, and the positions of
visible records. -/
structure Grows (s s' : World ρ) : Prop where
  records : s.wal.log.log.records.take s.wal.log.flushedOffset <+:
    s'.wal.log.log.records.take s'.wal.log.flushedOffset
  start : s.wal.logicalEarliest ≤ s'.wal.logicalEarliest
  granted : ∀ g ∈ s.granted, g.pos < (s.wal.visible g.id).length → g ∈ s'.granted

namespace Grows

variable {s s' s'' : World ρ}

theorem visible (h : Grows s s') (id : StreamId) : s.wal.visible id <+: s'.wal.visible id :=
  streamSeq_front h.records id

theorem refl (s : World ρ) : Grows s s := ⟨prefix_rfl, le_rfl, fun _ hg _ => hg⟩

theorem trans (h : Grows s s') (h' : Grows s' s'') : Grows s s'' :=
  ⟨h.records.trans h'.records, h.start.trans h'.start, fun g hg hpos =>
    h'.granted g (h.granted g hg hpos) (hpos.trans_le (h.visible g.id).length_le)⟩

/-- A call that moves the log on and leaves the start alone. -/
theorem of_moves {wal : SharedWal ρ} {granted : List (Grant ρ)} (h : Inv s)
    (hmoves : s.wal.log.Moves wal.log) (hstart : s.wal.logicalEarliest ≤ wal.logicalEarliest)
    (hgranted : s.granted ⊆ granted) : Grows s ⟨wal, granted⟩ where
  records := by
    rw [← take_eq_of_front hmoves.records h.wf.flushed_le]
    exact take_prefix_take_left (hmoves.flushed h.wf)
  start := hstart
  granted _ hg _ := hgranted hg

end Grows

/-- A crash that takes nothing visible keeps the positions of visible records. -/
theorem Grows.of_reopen (hlog : s.wal.log.flushedOffset ≤ max s.wal.log.log.durable io.survivors)
    (hfront : (s.wal.log.log.crash io.survivors).records <+: wal.log.log.records)
    (hhead : wal.log.flushedOffset = wal.log.log.records.length)
    (hstart : s.wal.logicalEarliest ≤ wal.logicalEarliest) : Grows s ⟨wal, s.kept io⟩ := by
  have hvisible : s.wal.log.log.records.take s.wal.log.flushedOffset <+:
      (s.wal.log.log.crash io.survivors).records := take_prefix_take_left hlog
  refine ⟨?_, hstart, fun g hg hpos => mem_filter.mpr ⟨hg, decide_eq_true ?_⟩⟩
  · rw [hhead, take_length]
    exact hvisible.trans hfront
  · exact hpos.trans_le (streamSeq_front hvisible g.id).length_le

/-- What holds of a run. As long as the last opening took up nothing else, readers see only what
barriers have covered, and no snapshot that may be found is older than the logical start. -/
structure Sound (s : Traced ρ) : Prop where
  inv : Inv s.toWorld
  covered : s.unsynced = false → s.wal.log.Covered
  settled : s.unwritten = false → Settled s.wal

/-- A call that leaves the logical start and the checkpoint file alone. -/
theorem Sound.of_safeMoves {s : Traced ρ} {wal : SharedWal ρ} {granted : List (Grant ρ)}
    (h : Sound s) (hinv : Inv ⟨wal, granted⟩) (hmoves : s.wal.log.SafeMoves wal.log)
    (hstart : wal.logicalEarliest = s.wal.logicalEarliest)
    (hcheckpoint : wal.checkpoint = s.wal.checkpoint) (hgranted : s.granted ⊆ granted) :
    Sound { s with wal := wal, granted := granted } ∧ Grows s.toWorld ⟨wal, granted⟩ := by
  refine ⟨⟨hinv, fun hf => hmoves.covered (h.covered hf), fun hf => ?_⟩,
    .of_moves h.inv hmoves.toMoves hstart.ge hgranted⟩
  rw [Settled, hstart, hcheckpoint]
  exact h.settled hf

/-- An opening after a crash that keeps what the last one took up. -/
theorem Sound.reopen {s : Traced ρ} {n : Nat} (h : Sound s)
    (hfound : found ∈ s.wal.checkpoint.contents) (hopen : s.wal.reopen io found = .ok (wal, n))
    (hlog : s.unsynced = true → s.wal.log.flushedOffset ≤ max s.wal.log.log.durable io.survivors)
    (hcheckpoint : s.unwritten = true → ∀ start bases,
      readCheckpoint found = .ok (start, bases) → s.wal.logicalEarliest ≤ start) :
    Sound
        { wal := wal
          granted := s.kept io
          unsynced := decide ((s.wal.log.recovered io).durable
            < (s.wal.log.recovered io).records.length)
          unwritten := decide (found ≠ s.wal.checkpoint.stored) }
      ∧ Grows s.toWorld ⟨wal, s.kept io⟩ := by
  obtain ⟨hlogEq, hfile, bases, hread⟩ := reopen_eq hopen
  have hvisible : s.wal.log.flushedOffset ≤ max s.wal.log.log.durable io.survivors := by
    cases hf : s.unsynced with
    | true => exact hlog hf
    | false => exact (h.covered hf).trans (le_max_left _ _)
  have hstart : s.wal.logicalEarliest ≤ wal.logicalEarliest := by
    cases hf : s.unwritten with
    | true => exact hcheckpoint hf _ _ hread
    | false => exact h.settled hf found hfound _ _ hread
  obtain ⟨hinv, hfront, hhead⟩ := h.inv.reopen hfound hopen hvisible
  refine ⟨⟨hinv, fun hf => ?_, fun hf content hmem => ?_⟩, .of_reopen hvisible hfront hhead hstart⟩
  · rw [hlogEq]
    exact not_lt.mp (of_decide_eq_false hf)
  · -- what was found is all that may be found
    have hstored : found = s.wal.checkpoint.stored := not_not.mp (of_decide_eq_false hf)
    have hone : content = found := by
      simpa [hfile, contents, reopened, hstored] using hmem
    rw [hone, hread]
    intro start bases' heq
    cases heq
    exact le_rfl

/-- One step keeps the invariant and everything readers could see. -/
theorem Step.sound {s s' : Traced ρ} (hstep : Step s s') (h : Sound s) :
    Sound s' ∧ Grows s.toWorld s'.toWorld := by
  cases hstep with
  | declare id =>
    obtain ⟨hlog, hstart, hcheckpoint⟩ := s.wal.declare_log id
    exact h.of_safeMoves (h.inv.declare id) (hlog ▸ .refl _) hstart hcheckpoint
      (List.Subset.refl _)
  | @appendTo io id body pos wal hw =>
    obtain ⟨hmoves, hstart, hcheckpoint⟩ := s.wal.appendTo_moves io id body
    rw [hw] at hmoves hstart hcheckpoint
    exact h.of_safeMoves (h.inv.appendTo hw).1 hmoves hstart hcheckpoint (subset_append_left _ _)
  | @appendFails io id body e wal hw =>
    obtain ⟨hmoves, hstart, hcheckpoint⟩ := s.wal.appendTo_moves io id body
    rw [hw] at hmoves hstart hcheckpoint
    exact h.of_safeMoves (h.inv.appendFails hw) hmoves hstart hcheckpoint (List.Subset.refl _)
  | sync io =>
    have hinv := h.inv.sync io
    rw [sync_eq] at hinv ⊢
    obtain ⟨hsound, hgrows⟩ := h.of_safeMoves hinv (s.wal.log.sync_moves io) rfl rfl
      (List.Subset.refl _)
    refine ⟨⟨hinv, fun hf => ?_, hsound.settled⟩, hgrows⟩
    rcases Bool.and_eq_false_iff.mp hf with hold | hok
    · exact hsound.covered hold
    · obtain ⟨hflushed, -, hdurable⟩ := HeadLog.sync_ok (by simpa using hok)
      exact hflushed.trans_le hdurable.ge
  | reap io protectBelow =>
    obtain ⟨hinv, hlog, hflushed, hstart, hset⟩ := h.inv.reap io protectBelow
    refine ⟨⟨hinv, fun hf => ?_, fun hf => hset ?_⟩, ?_, hstart, fun g hg _ => hg⟩
    · rw [HeadLog.Covered, hlog, hflushed]
      exact h.covered hf
    · rcases Bool.and_eq_false_iff.mp hf with hold | hnew
      · exact .inl (h.settled hold)
      · exact .inr (of_decide_eq_false hnew)
    · simp only
      rw [hlog, hflushed]
  | reopen hfound hopen hlog hcheckpoint => exact h.reopen hfound hopen hlog hcheckpoint

theorem Reach.sound {s s' : Traced ρ} (hreach : Reach s s') (h : Sound s) :
    Sound s' ∧ Grows s.toWorld s'.toWorld := by
  induction hreach with
  | refl => exact ⟨h, .refl s.toWorld⟩
  | tail _ hstep ih =>
    obtain ⟨hsound, hgrows⟩ := hstep.sound ih.1
    exact ⟨hsound, ih.2.trans hgrows⟩

/-- A stream with a one-letter name. -/
def letterStream : StreamId := ⟨[0x61], .inr (by decide)⟩

/-- A crash that leaves `survivors` records and no stray. -/
def plainCrash (survivors : Nat) : HeadLog.CrashIo := ⟨survivors, none, 0, false, false⟩

/-- The log that opening gives, if it gives one. -/
def opened (w : SharedWal ρ) (survivors : Nat) (found : Option Bytes) : SharedWal ρ :=
  match w.reopen (plainCrash survivors) found with
  | .ok (w', _) => w'
  | .error _ => w

end SharedWal

end IronBus
