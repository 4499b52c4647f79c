import IronBus.Native.FollowerIngest
import IronBus.Spec.HeadLogCorrect
import IronBus.Spec.ReplicationCorrect

/-!
# What a follower appends, and what it reports

Whatever a leader sends and whichever appends fail, an apply adds whole intact frames in order and
nothing else. A report names the follower's next offset, which is synced as long as the storage does
not fail between the first append of a response and its barrier: whatever makes a call end early
before its first append leaves the log as it was, and every later exit syncs.

## Key results

- `applyFetchResponse_ingests`: what one response can add to the log
- `applyFetchResponse_calm`: when a call leaves nothing unsynced
- `reports_synced`: the same over runs, with what is reported
-/

namespace IronBus

open Codec

namespace HeadLog

variable {α : Type} {l : HeadLog α}

/-- There is a writer, and no roll is pending. -/
structure Live (l : HeadLog α) : Prop where
  frozen : l.log.frozen = false
  pending : l.pendingRoll = false

theorem Live.ensureWritable (h : l.Live) (io : StartIo) : l.ensureWritable io = (true, l) := by
  simp [HeadLog.ensureWritable, h.frozen, h.pending]

theorem Live.rollIfFull {io : WriteIo} (h : l.Live) (hok : (l.rollIfFull io).1 = true) :
    (l.rollIfFull io).2.Live := by
  unfold HeadLog.rollIfFull roll at hok ⊢
  cases hfull : io.full && l.activeHolds with
  | false => exact h
  | true =>
    cases hseal : io.sealFails with
    | true => simp [hfull, hseal] at hok
    | false =>
      cases hstart : io.start with
      | started => exact ⟨h.frozen, rfl⟩
      | deferred => simp [hfull, hseal, hstart, createOrDeferSegment] at hok
      | broken => simp [hfull, hseal, hstart, createOrDeferSegment] at hok

/-- After an append that succeeded the next one finds the log ready. -/
theorem append_live {io : WriteIo} {a : α} (h : (l.append io a).1 ≠ none) :
    (l.append io a).2.Live := by
  have hready := @ensureWritable_ok α l io.retry
  rw [append] at h ⊢
  split_ifs at h ⊢
  · exact absurd rfl h
  generalize l.ensureWritable io.retry = res at hready h ⊢
  obtain ⟨_ | _, l₁⟩ := res
  · exact absurd rfl h
  have hroll : (l₁.rollIfFull io).1 = true → (l₁.rollIfFull io).2.Live :=
    Live.rollIfFull ⟨(hready rfl).1, (hready rfl).2⟩
  dsimp only at h ⊢
  generalize l₁.rollIfFull io = res at hroll h ⊢
  obtain ⟨_ | _, l₂⟩ := res
  · exact absurd rfl h
  cases hoff : checkedAdd l₂.nextOffset 1 with
  | none => simp [hoff] at h
  | some next =>
    simp only [hoff] at h ⊢
    rcases hwrite : io.write with _ | _ | _
    · exact ⟨(hroll rfl).frozen, (hroll rfl).pending⟩
    · simp [hwrite, writeSource] at h
    · simp [hwrite, writeSource] at h

end HeadLog

/-- The storage takes one record: no cap is reached, a full segment is rolled, and the record is
written. -/
structure WriteIo.Calm (io : WriteIo) : Prop where
  shed : io.shed = false
  roll : io.full = true → io.sealFails = false ∧ io.start = .started
  write : io.write = none

/-- The buffer is written out and the barrier succeeds. -/
structure SyncIo.Calm (io : SyncIo) : Prop where
  flush : io.flushFails = false
  barrier : io.barrierFails = false

namespace HeadLog

variable {α : Type} {l : HeadLog α}

theorem Live.append {io : WriteIo} (h : l.Live) (hio : io.Calm) (hroom : l.nextOffset < u64Max)
    (a : α) : (l.append io a).1 ≠ none := by
  have hroll : (l.rollIfFull io).1 = true := by
    unfold HeadLog.rollIfFull
    split_ifs with hfull
    · obtain ⟨hseal, hstart⟩ := hio.roll (Bool.and_eq_true_iff.mp hfull).1
      simp [roll, hseal, hstart, createOrDeferSegment]
    · rfl
  have hnext : (l.rollIfFull io).2.nextOffset = l.nextOffset :=
    congrArg List.length (l.rollIfFull_records io).1
  rcases hres : l.rollIfFull io with ⟨_ | _, l₁⟩ <;> rw [hres] at hroll hnext
  · cases hroll
  · have hsome : checkedAdd l₁.nextOffset 1 = some (l₁.nextOffset + 1) :=
      if_pos (by rw [show l₁.nextOffset = l.nextOffset from hnext]; exact hroom)
    simp [HeadLog.append, h.ensureWritable, hio.shed, hres, hsome, hio.write, writeSource]

theorem Live.sync {io : SyncIo} (h : l.Live) (hio : io.Calm) : (l.sync io).1 = true := by
  simp [HeadLog.sync, h.ensureWritable, hio.flush, hio.barrier]

end HeadLog

/-- Once a first append has succeeded, nothing fails before the barrier is through. -/
structure IngestIo.Calm (io : IngestIo) : Prop where
  append : ∀ n, (io.append (n + 1)).Calm
  sync : io.sync.Calm

/-- A log as opening leaves it: everything it holds is synced. -/
structure HeadLog.Opened {α : Type} (l : HeadLog α) : Prop where
  wf : l.Wf
  synced : l.syncedOffset = l.nextOffset

namespace IngestFollower

variable [Checksums]

/-- The log took whole intact frames from the front of some bytes, each at its own offset. -/
structure Ingests (log : HeadLog Bytes) (bytes : Bytes) (log' : HeadLog Bytes) : Prop where
  moves : log.Moves log'
  frames : ∃ frames, log'.log.records = log.log.records ++ frames ∧ frames.flatten <+: bytes
    ∧ ∀ (i : Nat) (frame : Bytes), frames[i]? = some frame → Intact (log.nextOffset + i) frame

theorem Ingests.none {log log' : HeadLog Bytes} (h : log.Moves log')
    (hrecords : log'.log.records = log.log.records) (bytes : Bytes) : Ingests log bytes log' :=
  ⟨h, [], by simp [hrecords], List.nil_prefix, nofun⟩

/-- A front part of the bytes that decodes is an intact frame. -/
theorem intact_take {bytes : Bytes} {frame : DecodedFrame} (h : decodeInner bytes = .ok frame) :
    Intact frame.view.seq (bytes.take frame.total) := by
  have hlen := (total_le_of_decodeInner h).2
  have hdec := decodeInner_take_append h []
  rw [List.append_nil] at hdec
  exact ⟨frame, hdec, (List.length_take_of_le hlen).symm, rfl⟩

/-- One more frame in front. -/
theorem Ingests.cons {log log₁ log' : HeadLog Bytes} {bytes : Bytes} {frame : DecodedFrame}
    (hframe : decodeInner bytes = .ok frame) (hseq : frame.view.seq = log.nextOffset)
    (hmoves : log.Moves log₁)
    (hrecords : log₁.log.records = log.log.records ++ [bytes.take frame.total])
    (h : Ingests log₁ (bytes.drop frame.total) log') : Ingests log bytes log' := by
  obtain ⟨frames, hframes, hfront, hintact⟩ := h.frames
  refine ⟨hmoves.trans h.moves, bytes.take frame.total :: frames, ?_, ?_, fun i frame' hi => ?_⟩
  · rw [hframes, hrecords, List.append_assoc]
    rfl
  · obtain ⟨rest, hrest⟩ := hfront
    refine ⟨rest, ?_⟩
    rw [List.flatten_cons, List.append_assoc, hrest, List.take_append_drop]
  · match i, hi with
    | 0, hi =>
      cases hi
      rw [Nat.add_zero, ← hseq]
      exact intact_take hframe
    | i + 1, hi =>
      have hnext : log₁.nextOffset = log.nextOffset + 1 := by
        simp [HeadLog.nextOffset, hrecords]
      have := hintact i frame' hi
      rwa [hnext, Nat.add_right_comm, Nat.add_assoc] at this

omit [Checksums] in
/-- A rejection syncs what was appended, unless the storage fails. -/
theorem rejectFrame_spec (log : HeadLog Bytes) (io : SyncIo) (e : ReplicationError) :
    (rejectFrame log io e).1 = (log.sync io).2
      ∧ ∀ e', (rejectFrame log io e).2 = .error e' → e' ≠ .storage →
        (log.sync io).2.syncedOffset = (log.sync io).2.nextOffset := by
  have hok := @HeadLog.sync_ok Bytes log io
  unfold rejectFrame
  generalize log.sync io = res at hok ⊢
  obtain ⟨_ | _, log'⟩ := res
  · refine ⟨rfl, fun e' he' hne => ?_⟩
    cases he'
    exact absurd rfl hne
  · exact ⟨rfl, fun _ _ _ => (hok rfl).2.1⟩

/-- What a walk does, wherever it leaves: only a storage error leaves frames unsynced. -/
theorem applyFrames_ingests (io : IngestIo) (fuel : Nat) (log : HeadLog Bytes) (n : Nat)
    (bytes : Bytes) :
    Ingests log bytes (applyFrames io fuel log n bytes).1
      ∧ ∀ e, (applyFrames io fuel log n bytes).2 = .error e → e ≠ .storage →
        (applyFrames io fuel log n bytes).1.syncedOffset =
          (applyFrames io fuel log n bytes).1.nextOffset := by
  have hreject (log : HeadLog Bytes) (e : ReplicationError) (bytes : Bytes) :
      Ingests log bytes (rejectFrame log io.sync e).1
        ∧ ∀ e', (rejectFrame log io.sync e).2 = .error e' → e' ≠ .storage →
          (rejectFrame log io.sync e).1.syncedOffset =
            (rejectFrame log io.sync e).1.nextOffset := by
    obtain ⟨hlog, hsynced⟩ := rejectFrame_spec log io.sync e
    rw [hlog]
    exact ⟨.none (log.sync_moves io.sync).toMoves (log.sync_records io.sync).1 bytes, hsynced⟩
  induction fuel generalizing log n bytes with
  | zero => exact ⟨.none (.refl log) rfl bytes, nofun⟩
  | succ fuel ih =>
    unfold applyFrames
    split
    · exact ⟨.none (.refl log) rfl bytes, nofun⟩
    split
    · exact hreject log _ bytes
    next frame hframe =>
    split
    · exact hreject log _ bytes
    next hseq =>
    have hmoves := (log.append_moves (io.append n) (bytes.take frame.total)).toMoves
    have hrecords := log.append_records (io.append n) (bytes.take frame.total)
    generalize log.append (io.append n) (bytes.take frame.total) = res at hmoves hrecords ⊢
    obtain ⟨_ | offset, log₁⟩ := res
    · obtain ⟨h, -⟩ | ⟨-, h, -⟩ := hrecords
      · cases h
      · refine ⟨.none hmoves h bytes, fun e he hne => ?_⟩
        cases he
        exact absurd rfl hne
    · obtain ⟨-, h, -⟩ | ⟨h, -⟩ := hrecords
      · obtain ⟨hrest, hsynced⟩ := ih log₁ (n + 1) (bytes.drop frame.total)
        exact ⟨.cons hframe (not_not.mp hseq) hmoves h hrest, hsynced⟩
      · cases h

/-- What one response can do to the log. Whatever does not end in a storage error leaves the log as
it was or everything synced. -/
theorem applyFetchResponse_ingests (f : IngestFollower) (resp : FetchResponseBody) (io : IngestIo) :
    let r := f.applyFetchResponse resp io
    Ingests f.log resp.frameBytes r.1.log
      ∧ (resp.firstOffset ≠ f.log.nextOffset → r.1.log = f.log)
      ∧ (r.2 = .error .storage ∨ r.1.log = f.log ∨ r.1.log.syncedOffset = r.1.log.nextOffset)
      ∧ ∀ out, r.2 = .ok out → out.nextOffset = r.1.log.nextOffset := by
  obtain ⟨hwalk, hwalked⟩ := applyFrames_ingests io resp.frameBytes.length f.log 0 resp.frameBytes
  have hsame : Ingests f.log resp.frameBytes f.log := .none (.refl _) rfl _
  intro r
  simp only [r, applyFetchResponse]
  split_ifs with hempty hfirst
  · refine ⟨hsame, fun _ => rfl, .inr (.inl rfl), fun out hout => ?_⟩
    cases hout
    rfl
  · exact ⟨hsame, fun _ => rfl, .inr (.inl rfl), nofun⟩
  · -- the walk, and then the barrier
    generalize
      applyFrames io resp.frameBytes.length f.log 0 resp.frameBytes = walked at hwalk hwalked
    obtain ⟨log, e | appended⟩ := walked
    · refine ⟨hwalk, fun h => absurd h hfirst, ?_, nofun⟩
      by_cases he : e = .storage
      · exact .inl (by rw [he])
      · exact .inr (.inr (hwalked e rfl he))
    · have hmoves := (log.sync_moves io.sync).toMoves
      have hrecords := (log.sync_records io.sync).1
      have hok := @HeadLog.sync_ok Bytes log io.sync
      dsimp only
      generalize log.sync io.sync = res at hmoves hrecords hok ⊢
      obtain ⟨ok, log'⟩ := res
      have hingests : Ingests f.log resp.frameBytes log' := by
        obtain ⟨frames, hframes⟩ := hwalk.frames
        exact ⟨hwalk.moves.trans hmoves, frames, hrecords.trans hframes.1, hframes.2⟩
      cases ok with
      | false => exact ⟨hingests, fun h => absurd h hfirst, .inl rfl, nofun⟩
      | true =>
        dsimp only
        split_ifs
        · exact ⟨hingests, fun h => absurd h hfirst, .inr (.inr (hok rfl).2.1), nofun⟩
        · refine ⟨hingests, fun h => absurd h hfirst, .inr (.inr (hok rfl).2.1), fun out hout => ?_⟩
          cases hout
          rfl

/-! ## What is left unsynced -/

/-- The log takes the first frame of the response. -/
def Takes (f : IngestFollower) (resp : FetchResponseBody) : Prop :=
  resp.firstOffset = f.log.nextOffset ∧
    ∃ frame, decodeInner resp.frameBytes = .ok frame ∧ frame.view.seq = f.log.nextOffset

/-- A walk that goes on behind a first frame meets no storage error, and leaves the log ready for
the barrier. -/
theorem applyFrames_calm {io : IngestIo} (hio : io.Calm) (fuel : Nat) (log : HeadLog Bytes)
    (n : Nat)
    (bytes : Bytes) (hlive : log.Live) (hroom : log.nextOffset + bytes.length ≤ u64Max) :
    (applyFrames io fuel log (n + 1) bytes).2 ≠ .error .storage
      ∧ ∀ appended, (applyFrames io fuel log (n + 1) bytes).2 = .ok appended →
        (applyFrames io fuel log (n + 1) bytes).1.Live := by
  have hreject (log : HeadLog Bytes) (hlive : log.Live) (e : ReplicationError) :
      (rejectFrame log io.sync e).2 = .error e := by
    have hok := hlive.sync hio.sync
    unfold rejectFrame
    generalize log.sync io.sync = res at hok ⊢
    obtain ⟨_ | _, log'⟩ := res
    · cases hok
    · rfl
  induction fuel generalizing log n bytes with
  | zero => exact ⟨by simp [applyFrames], fun _ _ => hlive⟩
  | succ fuel ih =>
    unfold applyFrames
    split
    · exact ⟨by simp, fun _ _ => hlive⟩
    next hbytes =>
    split
    · rw [hreject log hlive]
      exact ⟨by simp, fun _ h => by cases h⟩
    next frame hframe =>
    split
    · rw [hreject log hlive]
      exact ⟨by simp, fun _ h => by cases h⟩
    -- a frame takes at least a byte, so the room lasts
    have htotal := total_le_of_decodeInner hframe
    have hlen := List.length_pos_iff.mpr hbytes
    have hsome := hlive.append (hio.append n) (by omega) (bytes.take frame.total)
    have hlive' := HeadLog.append_live hsome
    have hrecords := log.append_records (io.append (n + 1)) (bytes.take frame.total)
    generalize log.append (io.append (n + 1)) (bytes.take frame.total) = res
      at hsome hlive' hrecords ⊢
    obtain ⟨_ | offset, log₁⟩ := res
    · exact absurd rfl hsome
    · obtain ⟨-, hrec, -⟩ | ⟨h, -⟩ := hrecords
      · refine ih log₁ (n + 1) (bytes.drop frame.total) hlive' ?_
        have hnext : log₁.nextOffset = log.nextOffset + 1 := by
          simpa [HeadLog.nextOffset] using congrArg List.length hrec
        rw [hnext, List.length_drop]
        omega
      · cases h

/-- A whole walk: a storage error comes before the first append, and at its end the log is as it was
or ready for a barrier that will succeed. -/
theorem applyFrames_zero_calm {io : IngestIo} (fuel : Nat) (log : HeadLog Bytes) (bytes : Bytes)
    (hcalm : ∀ frame, decodeInner bytes = .ok frame → frame.view.seq = log.nextOffset →
      io.Calm ∧ log.nextOffset + bytes.length ≤ u64Max) :
    ((applyFrames io fuel log 0 bytes).2 = .error .storage →
        (applyFrames io fuel log 0 bytes).1.nextOffset = log.nextOffset)
      ∧ ∀ appended, (applyFrames io fuel log 0 bytes).2 = .ok appended →
        (applyFrames io fuel log 0 bytes).1.nextOffset = log.nextOffset
          ∨ (applyFrames io fuel log 0 bytes).1.Live ∧ io.sync.Calm := by
  have hreject (e : ReplicationError) :
      (rejectFrame log io.sync e).1.nextOffset = log.nextOffset := by
    rw [(rejectFrame_spec log io.sync e).1]
    exact congrArg List.length (log.sync_records io.sync).1
  cases fuel with
  | zero => exact ⟨fun _ => rfl, fun _ _ => .inl rfl⟩
  | succ fuel =>
    unfold applyFrames
    split
    · exact ⟨fun _ => rfl, fun _ _ => .inl rfl⟩
    split
    · exact ⟨fun _ => hreject _, fun _ _ => .inl (hreject _)⟩
    next frame hframe =>
    split
    · exact ⟨fun _ => hreject _, fun _ _ => .inl (hreject _)⟩
    next hseq =>
    -- a frame that is taken makes the storage calm from here on
    obtain ⟨hio, hroom⟩ := hcalm frame hframe (not_not.mp hseq)
    have htotal := total_le_of_decodeInner hframe
    have hlive := @HeadLog.append_live Bytes log (io.append 0) (bytes.take frame.total)
    have hrecords := log.append_records (io.append 0) (bytes.take frame.total)
    generalize log.append (io.append 0) (bytes.take frame.total) = res at hlive hrecords ⊢
    obtain ⟨_ | offset, log₁⟩ := res
    · obtain ⟨h, -⟩ | ⟨-, hrec, -⟩ := hrecords
      · cases h
      · exact ⟨fun _ => congrArg List.length hrec, fun _ h => by cases h⟩
    · obtain ⟨-, hrec, -⟩ | ⟨h, -⟩ := hrecords
      · have hnext : log₁.nextOffset = log.nextOffset + 1 := by
          simpa [HeadLog.nextOffset] using congrArg List.length hrec
        obtain ⟨hwalk, hend⟩ := applyFrames_calm hio fuel log₁ 0 (bytes.drop frame.total)
          (hlive (by simp)) (by rw [hnext, List.length_drop]; omega)
        exact ⟨fun h => absurd h hwalk, fun n hn => .inr ⟨hend n hn, hio.sync⟩⟩
      · cases h

/-- A call whose storage does not fail behind a first append ends in a storage error only if it has
appended nothing. -/
theorem applyFetchResponse_calm {f : IngestFollower} {resp : FetchResponseBody} {io : IngestIo}
    (hcalm : f.Takes resp → io.Calm ∧ f.log.nextOffset + resp.frameBytes.length ≤ u64Max)
    (h : (f.applyFetchResponse resp io).2 = .error .storage) :
    (f.applyFetchResponse resp io).1.log.nextOffset = f.log.nextOffset := by
  unfold applyFetchResponse at h ⊢
  simp only at h ⊢
  split at h
  · rename_i hempty
    rw [if_pos hempty]
  rename_i hempty
  split at h
  · rename_i hfirst
    rw [if_neg hempty, if_pos hfirst]
  rename_i hfirst
  rw [if_neg hempty, if_neg hfirst]
  obtain ⟨hwalk, hend⟩ := applyFrames_zero_calm resp.frameBytes.length f.log resp.frameBytes
    fun frame hframe hseq => hcalm ⟨not_not.mp hfirst, frame, hframe, hseq⟩
  generalize applyFrames io resp.frameBytes.length f.log 0 resp.frameBytes = walked
    at h hwalk hend ⊢
  obtain ⟨log, e | appended⟩ := walked
  · exact hwalk (by simpa using h)
  -- the walk came to its end: the barrier failed, so nothing was appended before it
  have hrecords := (log.sync_records io.sync).1
  have hok := fun (hlive : log.Live) (hio : io.sync.Calm) => hlive.sync hio
  dsimp only at h ⊢
  generalize log.sync io.sync = res at h hrecords hok ⊢
  obtain ⟨_ | _, log'⟩ := res
  · rcases hend appended rfl with hsame | ⟨hlive, hio⟩
    · exact (congrArg List.length hrecords).trans hsame
    · cases hok hlive hio
  · dsimp only at h
    split at h <;> cases h

/-! ## Runs -/

/-- One response. If the log takes its first frame, the storage does not fail behind that frame, and
there are offsets left for all of it. -/
inductive Step : IngestFollower → IngestFollower → Prop
  | apply {f : IngestFollower} (resp : FetchResponseBody) (io : IngestIo)
      (hcalm : f.Takes resp → io.Calm ∧ f.log.nextOffset + resp.frameBytes.length ≤ u64Max) :
      Step f (f.applyFetchResponse resp io).1

/-- The states of a run. -/
abbrev Reach : IngestFollower → IngestFollower → Prop := Relation.ReflTransGen Step

theorem Step.opened {f f' : IngestFollower} (hstep : Step f f') (h : f.log.Opened) :
    f'.log.Opened := by
  obtain ⟨resp, io, hcalm⟩ := hstep
  obtain ⟨hingests, -, hcases, -⟩ := applyFetchResponse_ingests f resp io
  have hwf := hingests.moves.wf h.wf
  refine ⟨hwf, ?_⟩
  rcases hcases with herror | hlog | hsynced
  · -- nothing was appended, and the synced head does not go back
    have hle := hingests.moves.synced h.wf
    have hnext := applyFetchResponse_calm hcalm herror
    exact le_antisymm (hwf.synced_le.trans hwf.flushed_le)
      (by rw [hnext, ← h.synced]; exact hle)
  · rw [hlog]
    exact h.synced
  · exact hsynced

theorem Reach.opened {f f' : IngestFollower} (hreach : Reach f f') (h : f.log.Opened) :
    f'.log.Opened := by
  induction hreach with
  | refl => exact h
  | tail _ hstep ih => exact hstep.opened ih

/-- A follower over any opened log, after any responses during none of which the storage failed
between an append and its barrier: the next response, whatever it holds and however it fails, adds
whole intact frames from its front, each with the sequence number of its offset, and nothing if it
does not continue the log; and both a success and a report name only what is synced. -/
theorem reports_synced {log : HeadLog Bytes} (hopen : log.Opened) {f : IngestFollower}
    (hf : Reach (new log) f) (resp : FetchResponseBody) (io : IngestIo) (nodeId : Nat) :
    let r := f.applyFetchResponse resp io
    (∃ frames, r.1.log.log.records = f.log.log.records ++ frames
      ∧ frames.flatten <+: resp.frameBytes
      ∧ ∀ (i : Nat) (frame : Bytes), frames[i]? = some frame → Intact (f.log.nextOffset + i) frame)
    ∧ (resp.firstOffset ≠ f.log.nextOffset → r.1.log = f.log)
    ∧ (∀ out, r.2 = .ok out →
      out.nextOffset = r.1.log.nextOffset ∧ out.nextOffset ≤ r.1.log.syncedOffset)
    ∧ (f.followerReport nodeId).fsyncedOffset ≤ f.log.syncedOffset := by
  have hopened := hf.opened hopen
  obtain ⟨hingests, hsame, hcases, hout⟩ := applyFetchResponse_ingests f resp io
  intro r
  refine ⟨hingests.frames, hsame, fun out hok => ⟨hout out hok, ?_⟩, hopened.synced.ge⟩
  rw [hout out hok]
  rcases hcases with herror | hlog | hsynced
  · rw [herror] at hok
    cases hok
  · rw [show r.1.log = f.log from hlog]
    exact hopened.synced.ge
  · exact hsynced.ge

end IngestFollower

/-! ## Two frames -/

namespace IngestFollower

local instance : Checksums := ⟨castagnoli, fun _ => 0⟩

/-- A response with the first `count` frames of a leader's log. -/
def frontResponse (count : Nat) : FetchResponseBody :=
  ⟨count, 0, count, (List.range count).flatMap fun seq => frameBytes ⟨seq, 0, 0, [], [], [7]⟩ [] []⟩

/-- A response that a caught-up leader sends. -/
def emptyResponse : FetchResponseBody := ⟨2, 1, 0, []⟩

/-- Every append and every barrier succeeds. -/
def calmIo : IngestIo := ⟨fun _ => .ok, .ok⟩

theorem fresh_opened : (HeadLog.fresh : HeadLog Bytes).Opened := ⟨HeadLog.fresh_wf, rfl⟩

theorem calm_ok : WriteIo.ok.Calm := ⟨rfl, fun h => absurd h (by decide), rfl⟩

theorem calmIo_calm : calmIo.Calm := ⟨fun _ => calm_ok, ⟨rfl, rfl⟩⟩

/-- The first append of a call fails; a second call brings two frames, and an empty response comes
after them. -/
theorem reports_synced_two :
    let io : IngestIo := ⟨fun n => if n = 0 then { WriteIo.ok with shed := true } else .ok, .ok⟩
    let f₁ := ((new .fresh).applyFetchResponse (frontResponse 2) io).1
    let f := (f₁.applyFetchResponse (frontResponse 2) calmIo).1
    f.log.nextOffset = 2
      ∧ (∀ out, (f.applyFetchResponse emptyResponse calmIo).2 = .ok out →
        out.nextOffset ≤ (f.applyFetchResponse emptyResponse calmIo).1.log.syncedOffset)
      ∧ (f.followerReport 2).fsyncedOffset ≤ f.log.syncedOffset := by
  intro io f₁ f
  have hio : io.Calm := ⟨fun _ => calm_ok, ⟨rfl, rfl⟩⟩
  have hf₁ : Reach (new .fresh) f₁ := .single (.apply (frontResponse 2) io fun _ =>
    ⟨hio, by decide +kernel⟩)
  have hf : Reach (new .fresh) f := hf₁.tail (.apply (frontResponse 2) calmIo fun _ =>
    ⟨calmIo_calm, by decide +kernel⟩)
  obtain ⟨-, -, hsynced, hreport⟩ := reports_synced fresh_opened hf emptyResponse calmIo 2
  exact ⟨by decide +kernel, fun out hout => (hsynced out hout).2, hreport⟩

/-- The second append fails: the first frame stays unsynced, and both the report and the success of
an empty response name it. -/
theorem reports_unsynced :
    let io : IngestIo := ⟨fun n => if n = 1 then { WriteIo.ok with shed := true } else .ok, .ok⟩
    let r := (new .fresh).applyFetchResponse (frontResponse 2) io
    let r' := r.1.applyFetchResponse emptyResponse calmIo
    r.2 = .error .storage
      ∧ (r.1.followerReport 2).fsyncedOffset = 1 ∧ r.1.log.syncedOffset = 0
      ∧ r'.2 = .ok ⟨0, 1, 1⟩ ∧ r'.1.log.syncedOffset = 0 := by
  decide +kernel

end IngestFollower

end IronBus
