import IronBus.ForStd.List
import IronBus.Native.Divergence
import IronBus.Spec.CodecCanonical

/-!
# A follower that shares the leader's lineage

A follower whose log is a front part of what its leader has flushed stays one: a response appends
the leader's next frames verbatim, however far the storage lets it get, and a reconciliation finds
nothing to drop. A log that differs becomes one through the reconciliation, when the floor lies
below the first difference and the probes reach past the end of the log.

Key results:
- `Follower.apply_serveFetch`: what a leader's response does to a log that shares its lineage
- `Follower.reconcileOnAdopt_of_shared`: a reconciliation leaves such a log alone
- `Follower.Heals.reconcileOnAdopt`: it makes a front part of a log that differs
-/

namespace IronBus

open Codec List ReplicaLog

/-- A later state of the same log. -/
def ReplicaLog.Grows (l l' : ReplicaLog) : Prop :=
  l.records <+: l'.records ∧ l.flushed ≤ l'.flushed

/-- What a leader serves of its log. -/
def ReplicaLog.served (l : ReplicaLog) : List Bytes := l.records.take l.flushed

variable {l : ReplicaLog} {frame : Bytes}

theorem ReplicaLog.served_appendFrameVerbatim (l : ReplicaLog) (frame : Bytes) :
    (l.appendFrameVerbatim frame).served = l.served :=
  take_append_of_le_length l.flushed_le

theorem ReplicaLog.served_sync (l : ReplicaLog) : l.sync.served = l.records := take_length

theorem ReplicaLog.length_served (l : ReplicaLog) : l.served.length = l.flushed := by
  simp [served, l.flushed_le]

/-- A run of a leader's frames is what follows a log that shares its lineage. -/
theorem ReplicaLog.run_of_shared (log : ReplicaLog) {plane : ReplicaLog} {tail : List Bytes}
    (n room : Nat)
    (h : log.records ++ tail = plane.served) :
    ∃ m, plane.readRangeRaw log.nextOffset n room
      = ⟨(tail.take m).flatten, log.nextOffset, (tail.take m).length⟩ := by
  refine ⟨min n (min room (plane.flushed - log.nextOffset)), ?_⟩
  have htail : tail =
      (plane.records.drop log.nextOffset).take (plane.flushed - log.nextOffset) := by
    have hdrop : (log.records ++ tail).drop log.nextOffset = tail := drop_left
    rw [← hdrop, h, served, drop_take]
  simp only [readRangeRaw]
  generalize plane.flushed - log.nextOffset = d at htail ⊢
  simp only [htail, take_take]
  rw [show min (min n (min room d)) d = min n (min room d) by omega]

/-- What a read returns, frame by frame. -/
theorem ReplicaLog.getElem?_run {start n i : Nat}
    (h : ((l.records.drop start).take n)[i]? = some frame) :
    l.records[start + i]? = some frame := by
  have hlt := (List.getElem?_eq_some_iff.mp h).1
  rw [List.length_take] at hlt
  rw [List.getElem?_take_of_lt (by omega), List.getElem?_drop] at h
  exact h

/-- A sync settles the log, unless it fails. -/
theorem Follower.trySync_cases (log : ReplicaLog) (io : StorageFaults) :
    trySync log io = (settled log.records, .ok ()) ∨
      io ≠ .none ∧ trySync log io = (log, .error .storage) := by
  unfold trySync
  split
  · next hfails =>
    refine .inr ⟨?_, rfl⟩
    rintro rfl
    cases hfails
  · exact .inl rfl

theorem Follower.rejectFrame_records (log : ReplicaLog) (io : StorageFaults)
    (e : ReplicationError) :
    (rejectFrame log io e).1.records = log.records := by
  unfold rejectFrame trySync
  split_ifs <;> rfl

/-- A heal cuts a log that ends above the floor, unless the leader does not reach the floor. -/
theorem Follower.healOnLink_of_lt {f : Follower} {floor leaderHw : Nat}
    (habove : floor < f.log.nextOffset) (hreach : floor ≤ leaderHw) :
    (f.healOnLink floor leaderHw).log = settled (f.log.records.take floor) := by
  have hcut : f.log.truncateTo floor = .ok (settled (f.log.records.take floor)) := by
    rw [truncateTo, if_neg (by omega), if_neg (by omega)]
  rw [healOnLink, healDivergentFollower, if_neg (by omega), nextFetchOffset, if_pos habove,
    truncateToCommitted, hcut]

/-- A heal cuts a log at the floor, if at all. -/
theorem Follower.healOnLink_cases (f : Follower) (floor leaderHw : Nat) :
    f.healOnLink floor leaderHw = f ∨
      (f.healOnLink floor leaderHw).log = settled (f.log.records.take floor) := by
  by_cases h : leaderHw < floor ∨ f.log.nextOffset ≤ floor
  · left
    unfold healOnLink healDivergentFollower nextFetchOffset
    split_ifs with hbehind habove
    · rfl
    · omega
    · rfl
  · exact .inr (healOnLink_of_lt (by omega) (by omega))

variable [Checksums]

/-- The bytes are one whole frame. -/
def ValidFrame (frame : Bytes) : Prop := ∃ f, decodeInner frame = .ok f ∧ f.total = frame.length

instance (frame : Bytes) : Decidable (ValidFrame frame) :=
  decidable_of_iff ((decodeInner frame).toOption.any fun f => f.total == frame.length) <| by
    cases h : decodeInner frame <;> simp [ValidFrame, h, Except.toOption]

theorem ValidFrame.ne_nil {frame : Bytes} (h : ValidFrame frame) : frame ≠ [] := by
  obtain ⟨f, hdec, htotal⟩ := h
  have := total_le_of_decodeInner hdec
  rintro rfl
  simp at htotal
  omega

/-- A frame that decodes whole, with the sequence number of its offset. -/
def Intact (offset : Nat) (frame : Bytes) : Prop :=
  ∃ f, decodeInner frame = .ok f ∧ f.total = frame.length ∧ f.view.seq = offset

/-- A log of intact frames. -/
def ReplicaLog.Intact (l : ReplicaLog) : Prop :=
  ∀ i frame, l.records[i]? = some frame → IronBus.Intact i frame

theorem ReplicaLog.Intact.of_shared {l' : ReplicaLog} (h : l'.Intact)
    (hshared : l.records <+: l'.served) : l.Intact := fun i frame hi =>
  h i frame ((hshared.trans (List.take_prefix ..)).getElem?_eq_some hi)

theorem ReplicaLog.Intact.append (h : l.Intact) (hframe : IronBus.Intact l.nextOffset frame) :
    (l.appendFrameVerbatim frame).Intact := by
  intro i frame' hi
  rw [appendFrameVerbatim, getElem?_append] at hi
  split_ifs at hi with hlt
  · exact h i frame' hi
  · obtain ⟨hi0, rfl⟩ : i - l.records.length = 0 ∧ frame = frame' := by
      simpa [getElem?_singleton] using hi
    rwa [show i = l.nextOffset by unfold nextOffset; omega]

/-- What follows an intact frame does not change how it decodes. -/
theorem decodeInner_append {f : DecodedFrame} (rest : Bytes) (hf : decodeInner frame = .ok f)
    (htotal : f.total = frame.length) :
    decodeInner (frame ++ rest) = .ok f := by
  have hdec := decodeInner_take_append hf rest
  rwa [htotal, take_length] at hdec

/-- The frame a writer encodes is intact at the record's sequence number. -/
theorem intact_frameBytes (rec : RecordView) {subject streamTag : Bytes}
    (hone : subject = [] ∨ streamTag = [])
    (hplain : RecordFlags.contains rec.flags RecordFlags.encrypted = false)
    (hseq : rec.seq < 2 ^ 64) (hts : rec.timestampMs < 2 ^ 64)
    (hs : subject.length < 2 ^ 16) (ht : streamTag.length < 2 ^ 16)
    (hmax : encodedLen rec subject streamTag ≤ maxRecordBytesCeiling) :
    Intact rec.seq (frameBytes rec subject streamTag) := by
  have hdec := decodeInner_frameBytes [] hone hplain hseq hts hs ht hmax
  rw [append_nil] at hdec
  exact ⟨_, hdec, (length_frameBytes rec subject streamTag).symm, rfl⟩

theorem Intact.valid {offset : Nat} (h : Intact offset frame) : ValidFrame frame := by
  obtain ⟨f, hf, htotal, -⟩ := h
  exact ⟨f, hf, htotal⟩

theorem Intact.ne_nil {offset : Nat} (h : Intact offset frame) : frame ≠ [] := h.valid.ne_nil

namespace Follower

variable {plane : ReplicaLog}

/-- Whatever the bytes, a walk only adds to the log. -/
theorem applyFrames_records (io : StorageFaults) (fuel : Nat) (log : ReplicaLog) (n : Nat)
    (bytes : Bytes) : log.records <+: (applyFrames io fuel log n bytes).1.records := by
  induction fuel generalizing log n bytes with
  | zero => exact prefix_rfl
  | succ fuel ih =>
    unfold applyFrames
    split
    · exact prefix_rfl
    · split
      · rw [rejectFrame_records]
      · split_ifs
        · rw [rejectFrame_records]
        · exact prefix_rfl
        · refine List.IsPrefix.trans ?_ (ih ..)
          exact prefix_append ..

/-- Whatever the response, an apply only adds to the log. -/
theorem applyFetchResponse_records (f : Follower) (resp : FetchResponseBody) (io : StorageFaults) :
    f.log.records <+: (f.applyFetchResponse resp io).1.log.records := by
  have hwalk := applyFrames_records io resp.frameBytes.length f.log 0 resp.frameBytes
  unfold applyFetchResponse
  dsimp only
  split_ifs
  · exact prefix_rfl
  · exact prefix_rfl
  generalize applyFrames io _ f.log 0 resp.frameBytes = walked at hwalk
  obtain ⟨log, walk⟩ := walked
  cases walk with
  | error e => exact hwalk
  | ok appended =>
    dsimp only at hwalk ⊢
    rcases trySync_cases log io with hsync | ⟨-, hsync⟩
    · rw [hsync]
      dsimp only
      split_ifs <;> exact hwalk
    · rw [hsync]
      exact hwalk

/-- Walking the bytes of intact frames appends a front part of them and fails only with the storage;
nothing is synced on the way. -/
theorem applyFrames_spec (io : StorageFaults) {frames : List Bytes} {log : ReplicaLog}
    {n fuel : Nat} (hfuel : frames.length ≤ fuel)
    (hintact : ∀ i frame, frames[i]? = some frame → Intact (log.nextOffset + i) frame) :
    ∃ k, (applyFrames io fuel log n frames.flatten).1.records = log.records ++ frames.take k ∧
      (applyFrames io fuel log n frames.flatten).1.flushed = log.flushed ∧
      (applyFrames io fuel log n frames.flatten).1.durable = log.durable ∧
      ∀ e, (applyFrames io fuel log n frames.flatten).2 = .error e → io ≠ .none := by
  induction frames generalizing log n fuel with
  | nil =>
    refine ⟨0, ?_⟩
    cases fuel <;> simp [applyFrames]
  | cons frame frames ih =>
    obtain ⟨fuel, rfl⟩ : ∃ m, fuel = m + 1 := ⟨fuel - 1, by simp at hfuel; omega⟩
    have hframe := hintact 0 frame rfl
    have hne : frame ++ frames.flatten ≠ [] := by simp [hframe.ne_nil]
    obtain ⟨f, hf, htotal, hseq⟩ := hframe
    simp only [flatten_cons, applyFrames, if_neg hne, decodeInner_append _ hf htotal, hseq,
      Nat.add_zero, ne_eq, not_true_eq_false, if_false, htotal, take_left, drop_left]
    split
    · next hfails =>
      refine ⟨0, by simp, rfl, rfl, fun e _ => ?_⟩
      rintro rfl
      cases hfails
    have hnext : (log.appendFrameVerbatim frame).nextOffset = log.nextOffset + 1 := by
      simp [nextOffset, appendFrameVerbatim]
    have hrest : ∀ i frame', frames[i]? = some frame' →
        Intact ((log.appendFrameVerbatim frame).nextOffset + i) frame' := by
      intro i frame' hi
      rw [hnext, Nat.add_assoc, Nat.add_comm 1]
      exact hintact (i + 1) frame' (by simpa using hi)
    obtain ⟨k, hrecords, hkept⟩ := @ih _ (n + 1) fuel (by simpa using hfuel) hrest
    refine ⟨k + 1, ?_, hkept⟩
    rw [hrecords]
    simp [appendFrameVerbatim]

/-- The frames a log lacks carry on its sequence. -/
theorem intact_tail {log : ReplicaLog} {tail : List Bytes} (hintact : plane.Intact)
    (h : log.records ++ tail = plane.served) (m i : Nat) (frame : Bytes)
    (hi : (tail.take m)[i]? = some frame) : Intact (log.nextOffset + i) frame := by
  have hlt := (List.getElem?_eq_some_iff.mp hi).1
  rw [List.length_take] at hlt
  rw [List.getElem?_take_of_lt (by omega)] at hi
  have hmem : plane.served[log.nextOffset + i]? = some frame := by
    rw [← h, nextOffset, List.getElem?_append_right (Nat.le_add_right _ _)]
    simpa using hi
  rw [served, List.getElem?_take] at hmem
  split at hmem
  · exact hintact _ _ hmem
  · cases hmem

/-- A response served to a follower that shares the leader's lineage extends it. Everything is
synced afterwards, unless there was nothing to apply or the storage failed. -/
theorem apply_serveFetch {f : Follower} (hintact : plane.Intact)
    (hshare : f.log.records <+: plane.served) (maxRecords maxBytes room : Nat)
    (io : StorageFaults) {f' : Follower} {result : Except ReplicationError ApplyOutcome}
    (happly : f.applyFetchResponse (serveFetch plane (f.fetchRequest maxRecords maxBytes) room) io =
      (f', result)) :
    f'.log.records <+: plane.served ∧ (f'.log = settled f'.log.records ∨
      f'.log.flushed = f.log.flushed ∧ f'.log.durable = f.log.durable ∧
      ((serveFetch plane (f.fetchRequest maxRecords maxBytes) room).recordCount ≠ 0 →
        io ≠ .none ∧ ∃ e, result = .error e)) := by
  obtain ⟨tail, htail⟩ := hshare
  obtain ⟨m, hrun⟩ := f.log.run_of_shared maxRecords room htail
  have hserve : serveFetch plane (f.fetchRequest maxRecords maxBytes) room
      = ⟨plane.flushed, f.log.nextOffset, min (tail.take m).length u32Max,
        (tail.take m).flatten⟩ := by
    simp only [serveFetch, fetchRequest, hrun]
  rw [hserve] at happly ⊢
  have hall := intact_tail hintact htail m
  have hfuel : (tail.take m).length ≤ (tail.take m).flatten.length := by
    refine length_le_length_flatten fun frame hframe => ?_
    obtain ⟨i, hi⟩ := mem_iff_getElem?.mp hframe
    exact (hall i frame hi).ne_nil
  obtain ⟨k, hrecords, hflushed, hdurable, hfails⟩ := applyFrames_spec io (n := 0) hfuel hall
  have hshared : f.log.records ++ (tail.take m).take k <+: plane.served := by
    rw [← htail]
    exact (prefix_append_right_inj _).mpr ((List.take_prefix ..).trans (List.take_prefix ..))
  simp only [applyFetchResponse, ne_eq, not_true_eq_false, if_false] at happly
  split_ifs at happly with hempty
  · obtain ⟨rfl, -⟩ := Prod.mk.inj happly
    exact ⟨⟨tail, htail⟩, .inr ⟨rfl, rfl, fun hne => absurd hempty.1 hne⟩⟩
  generalize applyFrames io _ f.log 0 (tail.take m).flatten = walked
    at happly hrecords hflushed hdurable hfails
  obtain ⟨log, walk⟩ := walked
  dsimp only at hrecords hflushed hdurable hfails
  rw [← hrecords] at hshared
  cases walk with
  | error e =>
    obtain ⟨rfl, rfl⟩ := Prod.mk.inj happly
    exact ⟨hshared, .inr ⟨hflushed, hdurable, fun _ => ⟨hfails e rfl, _, rfl⟩⟩⟩
  | ok appended =>
    dsimp only at happly
    -- the count of the response is the one served, so only the sync decides
    rcases trySync_cases log io with hsync | ⟨hio, hsync⟩
    · rw [hsync] at happly
      dsimp only at happly
      split_ifs at happly <;>
        (obtain ⟨rfl, rfl⟩ := Prod.mk.inj happly; exact ⟨hshared, .inl rfl⟩)
    · rw [hsync] at happly
      obtain ⟨rfl, rfl⟩ := Prod.mk.inj happly
      exact ⟨hshared, .inr ⟨hflushed, hdurable, fun _ => ⟨hio, _, rfl⟩⟩⟩

/-! ## Reconciliation -/

/-- A reconciliation cuts a log at the floor the node knows, if at all. -/
theorem reconcileOnAdopt_cases (f : Follower) (committedFloor : Option Nat)
    (probe backward : Option FetchResponseBody) (room : Nat) :
    f.reconcileOnAdopt committedFloor probe backward room = f ∨
      ∃ floor ∈ committedFloor, (f.reconcileOnAdopt committedFloor probe backward room).log
        = settled (f.log.records.take floor) := by
  unfold reconcileOnAdopt
  split
  · rename_i resp floor
    split_ifs
    · exact (f.healOnLink_cases floor _).imp_right fun h => ⟨floor, rfl, h⟩
    unfold reconcileContentMismatchOnAdopt
    split_ifs
    · exact .inl rfl
    cases backward with
    | none => exact .inl rfl
    | some leaderResp =>
      dsimp only
      split_ifs
      · exact .inl rfl
      · split
        · exact (f.healOnLink_cases floor _).imp_right fun h => ⟨floor, rfl, h⟩
        · exact .inl rfl
  · exact .inl rfl

/-- Two runs of frames that differ somewhere first differ at the offset the comparison gives, and
two that give none are one a front part of the other. -/
theorem firstContentDivergence_frames {ls fs : List Bytes} (hl : ∀ b ∈ ls, ValidFrame b)
    (hf : ∀ b ∈ fs, ValidFrame b) {fuel : Nat} (hfuel : ls.length ≤ fuel) (base : Nat) :
    (∃ i l f, firstContentDivergence fuel base ls.flatten fs.flatten = some (base + i)
        ∧ ls[i]? = some l ∧ fs[i]? = some f ∧ l ≠ f ∧ ls.take i = fs.take i)
      ∨ (firstContentDivergence fuel base ls.flatten fs.flatten = none
        ∧ (ls <+: fs ∨ fs <+: ls)) := by
  induction ls generalizing fs fuel base with
  | nil =>
    refine .inr ⟨?_, .inl nil_prefix⟩
    cases fuel <;> simp [firstContentDivergence]
  | cons l ls ih =>
    obtain ⟨fuel, rfl⟩ : ∃ k, fuel = k + 1 := ⟨fuel - 1, by simp at hfuel; omega⟩
    cases fs with
    | nil => exact .inr ⟨by simp [firstContentDivergence], .inr nil_prefix⟩
    | cons f fs =>
      have hvl := hl l mem_cons_self
      have hvf := hf f mem_cons_self
      have hne : ¬ (l ++ ls.flatten = [] ∨ f ++ fs.flatten = []) := by
        simp [hvl.ne_nil, hvf.ne_nil]
      obtain ⟨dl, hdl, htl⟩ := hvl
      obtain ⟨df, hdf, htf⟩ := hvf
      simp only [flatten_cons, firstContentDivergence, decodeInner_append _ hdl htl,
        decodeInner_append _ hdf htf, if_neg hne, htl, htf, take_left, drop_left]
      by_cases hlf : l = f
      · subst hlf
        rw [if_neg (by simp)]
        rcases ih (fun b hb => hl b (mem_cons_of_mem _ hb))
          (fun b hb => hf b (mem_cons_of_mem _ hb)) (by simpa using hfuel) (base + 1) with
          ⟨i, l', f', hres, hi, hi', hdiff, htake⟩ | ⟨hres, hprefix⟩
        · refine .inl ⟨i + 1, l', f', ?_, hi, hi', hdiff, by simp [htake]⟩
          rw [hres, Nat.add_assoc, Nat.add_comm 1]
        · exact .inr ⟨hres, hprefix.imp (prefix_cons_inj l).mpr (prefix_cons_inj l).mpr⟩
      · rw [if_pos hlf]
        exact .inl ⟨0, l, f, rfl, rfl, rfl, hlf, rfl⟩

/-- Two runs give no difference exactly when they agree as far as both go, and none is reported
below their start. -/
theorem firstContentDivergence_none {ls fs : List Bytes} (hl : ∀ b ∈ ls, ValidFrame b)
    (hf : ∀ b ∈ fs, ValidFrame b) (base : Nat) :
    let first := firstContentDivergence ls.flatten.length base ls.flatten fs.flatten
    (first = none ↔ ∀ i, i < ls.length → i < fs.length → ls[i]? = fs[i]?)
      ∧ ∀ o, first = some o → base ≤ o := by
  have hfuel := length_le_length_flatten fun b hb => (hl b hb).ne_nil
  rcases firstContentDivergence_frames hl hf hfuel base with
    ⟨i, l, f, hsome, hil, hif, hne, -⟩ | ⟨hnone, hfront⟩
  · rw [hsome]
    refine ⟨iff_of_false (Option.some_ne_none _) fun h => hne ?_,
      fun o ho => Option.some.inj ho ▸ Nat.le_add_right ..⟩
    have heq := h i (List.getElem?_eq_some_iff.mp hil).1 (List.getElem?_eq_some_iff.mp hif).1
    rw [hil, hif] at heq
    exact Option.some.inj heq
  · rw [hnone]
    refine ⟨iff_of_true rfl fun i hi ho => ?_, nofun⟩
    rcases hfront with h | h
    · exact (getElem?_eq_getElem hi).trans (h.getElem?_eq_some (getElem?_eq_getElem hi)).symm
    · exact (h.getElem?_eq_some (getElem?_eq_getElem ho)).trans (getElem?_eq_getElem ho).symm

/-- The comparison of what a leader serves with a node's own log, from an offset on. -/
theorem firstContentDivergence_run {own : ReplicaLog} (hintact : plane.Intact) (hown : own.Intact)
    (req : FetchRecordsBody) (n maxRecords room : Nat) :
    let served := serveFetch plane req n
    let held := own.readRangeRaw req.fromOffset maxRecords room
    (firstContentDivergence served.frameBytes.length req.fromOffset served.frameBytes held.bytes
        = none ↔
      ∀ i, i < min req.maxRecords (min n (plane.flushed - req.fromOffset)) →
        i < min maxRecords (min room (own.flushed - req.fromOffset)) →
        plane.records[req.fromOffset + i]? = own.records[req.fromOffset + i]?) ∧
    ∀ o, firstContentDivergence served.frameBytes.length req.fromOffset served.frameBytes held.bytes
        = some o → req.fromOffset ≤ o := by
  have hvalid {l : ReplicaLog} (hl : l.Intact) (start m : Nat) :
      ∀ b ∈ (l.records.drop start).take m, ValidFrame b := by
    intro b hb
    obtain ⟨i, hi⟩ := mem_iff_getElem?.mp hb
    exact (hl _ b (getElem?_run hi)).valid
  have hl := hvalid hintact req.fromOffset
    (min req.maxRecords (min n (plane.flushed - req.fromOffset)))
  have hf := hvalid hown req.fromOffset (min maxRecords (min room (own.flushed - req.fromOffset)))
  have hagree := firstContentDivergence_none hl hf req.fromOffset
  refine ⟨hagree.1.trans ?_, hagree.2⟩
  have hplane := plane.flushed_le
  have hflushed := own.flushed_le
  simp only [length_take, length_drop, getElem?_take, getElem?_drop]
  constructor
  · intro h i hi ho
    have := h i (by omega) (by omega)
    rwa [if_pos hi, if_pos ho] at this
  · intro h i hi ho
    rw [if_pos (by omega), if_pos (by omega)]
    exact h i (by omega) (by omega)

/-- A follower that shares the leader's lineage is left as it is, whatever the floor, and also when
the leader has moved on between the two probes. -/
theorem reconcileOnAdopt_of_shared {f : Follower} (hshare : f.log.records <+: plane.served)
    {committedFloor : Option Nat} {probe backward : Option FetchResponseBody} (room : Nat)
    (hprobe : ∀ resp ∈ probe, resp.highWatermark = plane.flushed)
    (hbackward : ∀ resp ∈ backward, ∃ plane' req n, plane'.Intact ∧ plane.Grows plane'
      ∧ resp = serveFetch plane' req n) :
    f.reconcileOnAdopt committedFloor probe backward room = f := by
  have hlen : f.nextFetchOffset ≤ plane.flushed :=
    hshare.length_le.trans ((length_take_le _ _))
  unfold reconcileOnAdopt
  split
  · rename_i resp floor
    have hhw := hprobe resp rfl
    rw [if_neg (by simp [suspectUncommittedTail, emptyRunAboveLeaderFrontier, hhw]; omega)]
    unfold reconcileContentMismatchOnAdopt
    split_ifs with hfloor
    · rfl
    cases backward with
    | none => rfl
    | some leaderResp =>
      obtain ⟨plane', req, n, hintact, hgrows, rfl⟩ := hbackward leaderResp rfl
      dsimp only
      split_ifs with hskip
      · rfl
      obtain ⟨-, hfirst⟩ := not_or.mp hskip
      obtain rfl : req.fromOffset = floor := not_not.mp hfirst
      have hheld : f.log.records <+: plane'.records :=
        hshare.trans ((List.take_prefix ..).trans hgrows.1)
      have hown : f.log.Intact := fun i frame hi => hintact i frame (hheld.getElem?_eq_some hi)
      have hclean := (firstContentDivergence_run hintact hown req n fullCatchupRecords room).1.mpr
        fun i _ ho => by
          have hlt : req.fromOffset + i < f.log.records.length := by
            have := f.log.flushed_le
            omega
          rw [getElem?_eq_getElem hlt]
          exact hheld.getElem?_eq_some (getElem?_eq_getElem hlt)
      rw [hclean]
      rfl
  · rfl

/-- What lets an adoption heal a log that may differ from the leader's. Both hold the same below
the floor and the first probe is answered; and unless that finds the log to end above the leader's,
the second probe is answered too, and both its run and the node's own reach the end of the log. -/
structure Heals (plane : ReplicaLog) (f : Follower) (floor : Nat)
    (probe backward : Option FetchResponseBody) (room : Nat) : Prop where
  shared : f.log.records.take floor <+: plane.served
  probed : ∃ maxRecords maxBytes n,
    probe = some (serveFetch plane (f.fetchRequest maxRecords maxBytes) n)
  compared : floor < f.log.nextOffset → f.log.nextOffset ≤ plane.flushed →
    ∃ plane' req n, plane'.Intact ∧ plane.Grows plane' ∧ backward = some (serveFetch plane' req n)
      ∧ req.fromOffset = floor ∧ f.log.nextOffset ≤ floor + min req.maxRecords n
      ∧ f.log.nextOffset ≤ floor + min fullCatchupRecords room
      ∧ f.log.flushed = f.log.nextOffset

omit [Checksums] in
/-- A leader that ends below a follower's log has nothing to serve from its end. -/
theorem emptyRun_of_lt {f : Follower} (h : plane.flushed < f.log.nextOffset)
    (maxRecords maxBytes n : Nat) :
    emptyRunAboveLeaderFrontier f.nextFetchOffset
      (serveFetch plane (f.fetchRequest maxRecords maxBytes) n) = true := by
  have hzero : plane.flushed - f.log.nextOffset = 0 := by omega
  simp [emptyRunAboveLeaderFrontier, serveFetch, fetchRequest, readRangeRaw, nextFetchOffset, hzero,
    h]

omit [Checksums] in
/-- A log that agrees with the leader's below the floor and from there to its end is a front part
of what the leader serves. -/
theorem prefix_of_agrees {f : Follower} {floor : Nat} {plane' : ReplicaLog}
    (hshared : f.log.records.take floor <+: plane.served) (hgrows : plane.Grows plane')
    (hend : f.log.nextOffset ≤ plane.flushed)
    (hagree : ∀ i, floor + i < f.log.nextOffset →
      plane'.records[floor + i]? = f.log.records[floor + i]?) :
    f.log.records <+: plane.served := by
  rw [prefix_iff_getElem?]
  intro i hi
  by_cases hfloor : i < floor
  · have hlt : i < (f.log.records.take floor).length := by
      rw [length_take]
      omega
    have := prefix_iff_getElem?.mp hshared i hlt
    rwa [getElem_take] at this
  · obtain ⟨j, rfl⟩ := Nat.exists_eq_add_of_le (not_lt.mp hfloor)
    have hsame := hagree j hi
    have hlt : floor + j < plane.records.length :=
      (lt_of_lt_of_le hi hend).trans_le plane.flushed_le
    rw [served, getElem?_take_of_lt (lt_of_lt_of_le hi hend), getElem?_eq_getElem hlt,
      ← hgrows.1.getElem?_eq_some (getElem?_eq_getElem hlt), hsame, getElem?_eq_getElem hi]

/-- A reconciliation that can heal leaves a front part of what the leader has flushed: the whole
log, or what lies below the floor. -/
theorem Heals.reconcileOnAdopt {f : Follower} {floor room : Nat}
    {probe backward : Option FetchResponseBody} (h : Heals plane f floor probe backward room)
    (hf : f.log.Intact) :
    (f.reconcileOnAdopt (some floor) probe backward room).log.records <+: plane.served := by
  obtain ⟨maxRecords, maxBytes, n, rfl⟩ := h.probed
  by_cases hfloor : f.log.nextOffset ≤ floor
  · -- nothing above the floor: the log is what lies below it
    have hall : f.log.records.take floor = f.log.records := take_of_length_le hfloor
    rcases f.reconcileOnAdopt_cases (some floor) _ backward room with hsame | ⟨fl, hfl, hcut⟩
    · rw [hsame, ← hall]
      exact h.shared
    · obtain rfl := Option.some.inj hfl
      rw [hcut]
      exact h.shared
  have hlt : floor < f.log.nextOffset := not_le.mp hfloor
  have hreach : floor ≤ plane.flushed := by
    have hlen := h.shared.length_le
    rw [length_take, plane.length_served] at hlen
    unfold nextOffset at hlt
    omega
  have hheal (hw : Nat) (hle : floor ≤ hw) :
      (f.healOnLink floor hw).log.records <+: plane.served := by
    rw [healOnLink_of_lt hlt hle]
    exact h.shared
  unfold Follower.reconcileOnAdopt
  dsimp only
  split_ifs with hsuspect
  · exact hheal _ hreach
  -- the leader reaches the end of the log, or the first probe would have told
  have hend : f.log.nextOffset ≤ plane.flushed := by
    by_contra hbeyond
    have hempty := emptyRun_of_lt (not_le.mp hbeyond) maxRecords maxBytes n
    apply hsuspect
    rw [suspectUncommittedTail, hempty]
    simpa [nextFetchOffset] using hlt
  obtain ⟨plane', req, m, hintact, hgrows, rfl, rfl, hleader, hown, hflushed⟩ :=
    h.compared hlt hend
  have hlonger := hgrows.2
  have hrecords := plane'.flushed_le
  have hcount : (serveFetch plane' req m).recordCount ≠ 0 := by
    simp only [serveFetch, readRangeRaw, length_take, length_drop, u32Max]
    omega
  have hskip : ¬ ((serveFetch plane' req m).recordCount = 0
      ∨ (serveFetch plane' req m).firstOffset ≠ req.fromOffset) := by
    rintro (hzero | hfirst)
    · exact hcount hzero
    · exact hfirst rfl
  unfold reconcileContentMismatchOnAdopt
  rw [if_neg (by simpa [nextFetchOffset] using hlt)]
  dsimp only
  rw [if_neg hskip]
  obtain ⟨hclean, hsome⟩ :=
    firstContentDivergence_run hintact hf req m fullCatchupRecords room
  cases hdiff : firstContentDivergence (serveFetch plane' req m).frameBytes.length req.fromOffset
      (serveFetch plane' req m).frameBytes
      (f.log.readRangeRaw req.fromOffset fullCatchupRecords room).bytes with
  | none =>
    change f.log.records <+: plane.served
    refine prefix_of_agrees h.shared hgrows hend fun i hi => ?_
    exact hclean.mp hdiff i (by omega) (by omega)
  | some o =>
    rw [classifyContentDivergence, if_neg (not_lt.mpr (hsome o hdiff))]
    exact hheal _ (hreach.trans (hlonger.trans (le_max_left ..)))

end Follower

end IronBus
