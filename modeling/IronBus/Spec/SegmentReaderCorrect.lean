import IronBus.Spec.CodecBounds
import IronBus.Spec.Frames
import IronBus.Spec.SegmentFormatCorrect

/-!
# Recovery agrees with the scan

Recovery reads a segment through a window, learns the length of each frame from its first bytes and
checks that the sequences follow each other. The scan decodes the whole record region.

Key results:
- `bodyWalkAux_run`: on every file both walk over the same frames
- `recovery_agrees_with_scan`: so they believe the same footers
- `compacted_index_seeks`: the index of a compacted segment has the place of each of its frames
-/

namespace IronBus

open Codec List

namespace SegmentReader

section Walks

variable [Checksums]

/-- A frame in a front part of the bytes starts there. -/
theorem decodeInner_of_take {body : Bytes} {n : Nat} {f : DecodedFrame}
    (h : decodeInner (body.take n) = .ok f) : decodeInner body = .ok f := by
  have hle := (total_le_of_decodeInner h).2
  have happend := decodeInner_take_append h (body.drop f.total)
  rw [length_take] at hle
  rwa [take_take, min_eq_left (by omega), take_append_drop] at happend

/-- The bytes that are read first give the length of a frame: the header and, if the flags ask for
it, the length of the field behind it. -/
theorem decodedLen_peek {rest : Bytes} {f : DecodedFrame} {k : Nat}
    (hf : decodeInner rest = .ok f) (hk : recordHeaderLen ≤ k)
    (hfield : hasPostHeaderPrefixField (flagsAt rest) = true → recordHeaderLen + 2 ≤ rest.length →
      recordHeaderLen + 2 ≤ k) : decodedLen (rest.take k) = .ok f.total := by
  refine decodedLen_take hf ?_
  obtain ⟨h, hparse, -, -, hlong, hbody⟩ := (decodeInner_eq_ok_iff).mp hf
  obtain ⟨-, -, -, -, rfl⟩ := parseHeader_eq_ok_iff.mp hparse
  have hflags : f.view.flags = flagsAt rest := by
    rw [(decodeBody_eq_ok_iff.mp hbody).2]
    rfl
  rw [hflags, Bool.or_comm]
  by_cases hset : hasPostHeaderPrefixField (flagsAt rest) = true
  · exact .inl (hfield hset (hlong (by rwa [Bool.or_comm])).1)
  · exact .inr ⟨hk, Bool.not_eq_true _ ▸ hset⟩

/-- The frames of a front part of the bytes are a front part of their frames. -/
theorem frames_take_prefix (body : Bytes) (n : Nat) : frames (body.take n) <+: frames body := by
  induction hlen : body.length using Nat.strong_induction_on generalizing body n with
  | _ len ih =>
    cases hdec : decodeInner (body.take n) with
    | error e =>
      rw [show frames (body.take n) = [] from framesAux_of_error hdec _]
      exact List.nil_prefix
    | ok f =>
      have hwhole := decodeInner_of_take hdec
      obtain ⟨hmin, hmax⟩ := total_le_of_decodeInner hwhole
      rw [frames_of_ok hdec, frames_of_ok hwhole, drop_take, prefix_cons_inj]
      exact ih _ (by rw [length_drop]; omega) _ _ rfl

variable {r : SegmentReader}

/-! ## The walk through a window -/

/-- A recovery walk that has passed a frame. -/
def BodyWalk.pass (w : BodyWalk) (f : DecodedFrame) : BodyWalk :=
  ⟨w.count + 1, max w.maxTimestampMs f.view.timestampMs, f.view.seq, w.cursor + f.total, none⟩

variable {header : SegmentHeader} {w : BodyWalk} {fuel : Nat}

section

variable {body : Bytes} {win : Window} {pos : Nat}

/-- A window shows a part of the region, from `pos` or before it on. -/
structure Window.Shows (win : Window) (body : Bytes) (pos : Nat) : Prop where
  start_le : win.start ≤ pos
  part : win.bytes <+: body.drop win.start

omit [Checksums] in
/-- A filled window shows the region from `pos` on, as far as needed. -/
theorem fillWindow_shows (h : win.Shows body pos) (need : Nat) :
    (fillWindow body win pos need).Shows body pos
      ∧ ∃ k ≥ need, (fillWindow body win pos need).rel pos = (body.drop pos).take k := by
  simp only [fillWindow, if_pos h.start_le]
  split_ifs with hheld
  · refine ⟨h, _, hheld, ?_⟩
    rw [Window.rel, prefix_iff_eq_take.mp h.part, drop_take, drop_drop,
      Nat.add_sub_cancel' h.start_le, length_take, min_eq_left h.part.length_le]
  · refine ⟨⟨le_rfl, List.take_prefix _ _⟩,
      max need (min recoveryWindowBytes (body.length - pos)), le_max_left _ _, ?_⟩
    rw [Window.rel, Nat.sub_self, drop_zero]
    rfl

theorem fillHeader_shows (h : win.Shows body pos) :
    (fillHeader body win pos).Shows body pos ∧ ∃ k,
      (fillHeader body win pos).rel pos = (body.drop pos).take k
        ∧ ∀ f, decodeInner (body.drop pos) = .ok f →
          decodedLen ((body.drop pos).take k) = .ok f.total := by
  obtain ⟨hshows, k, hk, hrel⟩ := fillWindow_shows h recordHeaderLen
  have hflags : flagsAt ((fillWindow body win pos recordHeaderLen).rel pos)
      = flagsAt (body.drop pos) := by
    rw [hrel]
    exact congrArg UInt8.ofNat (Bytes.natAt_congr_take (n := k) (by rw [take_take, Nat.min_self])
      (Nat.le_trans (by decide) hk))
  simp only [fillHeader, hflags, ← length_drop]
  split_ifs with hfield
  · obtain ⟨hshows', k', hk', hrel'⟩ := fillWindow_shows hshows (recordHeaderLen + 2)
    exact ⟨hshows', k', hrel', fun f hf => decodedLen_peek hf (by omega) fun _ _ => hk'⟩
  · exact ⟨hshows, k, hrel, fun f hf =>
      decodedLen_peek hf hk fun hset hlong => absurd ⟨hset, hlong⟩ hfield⟩

end

/-- The sequences of the frames follow each other from `baseSeq` on. -/
def Chained (baseSeq : Nat) (fs : List DecodedFrame) : Prop :=
  fs.map (·.view.seq) = range' baseSeq fs.length

section

variable (hplain : header.isEncrypted = false) {body : Bytes} {win : Window}
  (hwin : win.Shows body w.cursor)

include hplain hwin

/-- A frame is passed if its sequence is the next one. -/
theorem bodyWalkAux_ok {f : DecodedFrame} (hf : decodeInner (body.drop w.cursor) = .ok f)
    (fuel : Nat) : ∃ win' : Window, win'.Shows body (w.pass f).cursor ∧
      ∀ w', bodyWalkAux header body (fuel + 1) win w = .ok w' ↔
        f.view.seq = header.baseSeq + w.count
          ∧ bodyWalkAux header body fuel win' (w.pass f) = .ok w' := by
  obtain ⟨hmin, hmax⟩ := total_le_of_decodeInner hf
  have hself := decodeInner_take_append hf []
  have hseq := (view_of_decodeInner hf).2.1
  rw [append_nil] at hself
  rw [length_drop] at hmax
  obtain ⟨hshows, k, hrel, hpeek⟩ := fillHeader_shows hwin
  obtain ⟨hshows', k', hk', hrel'⟩ := fillWindow_shows hshows f.total
  refine ⟨_, ⟨Nat.le_add_right_of_le hshows'.start_le, hshows'.part⟩, fun w' => ?_⟩
  rw [bodyWalkAux]
  simp only [hrel, hpeek f hf, hrel', take_take, min_eq_left hk', recoveryDecode,
    hplain, hself, Bool.false_eq_true, if_false, checkedAdd,
    if_neg (show ¬ body.length - w.cursor = 0 by omega),
    if_neg (show ¬ body.length - w.cursor < recordHeaderLen by simp only [recordHeaderLen]; omega),
    if_neg (not_lt.mpr hmax)]
  by_cases hle : header.baseSeq + w.count ≤ u64Max
  · rw [if_pos hle]
    by_cases heq : f.view.seq = header.baseSeq + w.count
    · simp [heq, BodyWalk.pass]
    · simp [heq]
  · rw [if_neg hle]
    simp only [u64Max] at hle
    simp only [reduceCtorEq, false_iff]
    omega

/-- Where no frame starts the walk stops, with a reason if bytes are left. -/
theorem bodyWalkAux_error {e : DecodeError} (he : decodeInner (body.drop w.cursor) = .error e)
    (hfuel : (body.drop w.cursor).length ≤ fuel) (hw : w.tailReason = none) :
    ∃ reason : Option ReasonCode, reason.isNone = (0 == (body.drop w.cursor).length)
      ∧ bodyWalkAux header body fuel win w = .ok { w with tailReason := reason } := by
  rw [length_drop] at hfuel ⊢
  by_cases hnil : body.length - w.cursor = 0
  · refine ⟨none, by rw [hnil]; rfl, ?_⟩
    rw [← hw]
    cases fuel with
    | zero => rfl
    | succ fuel => rw [bodyWalkAux, if_pos hnil]
  obtain ⟨fuel, rfl⟩ : ∃ n, fuel = n + 1 := ⟨fuel - 1, by omega⟩
  suffices ∃ reason, bodyWalkAux header body (fuel + 1) win w
      = .ok { w with tailReason := some reason } by
    obtain ⟨reason, hstop⟩ := this
    exact ⟨some reason, (beq_false_of_ne (Ne.symm hnil)).symm, hstop⟩
  rw [bodyWalkAux]
  simp only [if_neg hnil]
  split_ifs
  · exact ⟨_, rfl⟩
  cases decodedLen ((fillHeader body win w.cursor).rel w.cursor) with
  | error e => exact ⟨_, rfl⟩
  | ok total =>
    simp only
    split_ifs
    · exact ⟨_, rfl⟩
    obtain ⟨-, k, hk, hrel⟩ := fillWindow_shows (fillHeader_shows hwin).1 total
    rw [hrel, take_take, min_eq_left hk]
    -- a frame in a front part of what is left would start there
    cases hdec : decodeInner ((body.drop w.cursor).take total) with
    | error e => exact ⟨.corruptRecordBody, by simp [recoveryDecode, hplain, hdec]⟩
    | ok f =>
      rw [decodeInner_of_take hdec] at he
      cases he

/-- The walk passes the frames if their sequences follow each other, and gives a reason if bytes
are left behind them. -/
theorem bodyWalkAux_run (hfuel : (body.drop w.cursor).length ≤ fuel) (hw : w.tailReason = none) :
    ∃ reason : Option ReasonCode,
      reason.isNone = (framesLen (frames (body.drop w.cursor)) == (body.drop w.cursor).length)
      ∧ ∀ w', bodyWalkAux header body fuel win w = .ok w' ↔
        Chained (header.baseSeq + w.count) (frames (body.drop w.cursor)) ∧ w'
          = { (frames (body.drop w.cursor)).foldl BodyWalk.pass w with tailReason := reason } := by
  -- on the bytes that are left: a passed frame takes some of them
  induction hn : (body.drop w.cursor).length using Nat.strong_induction_on
    generalizing w win fuel with
  | _ n ih =>
  cases hdec : decodeInner (body.drop w.cursor) with
  | error e =>
    have hframes : frames (body.drop w.cursor) = [] := framesAux_of_error hdec _
    obtain ⟨reason, hreason, hstop⟩ := bodyWalkAux_error hplain hwin hdec hfuel hw
    refine ⟨reason, by rw [hframes, hreason, hn]; rfl, fun w' => ?_⟩
    rw [hstop, hframes, Except.ok.injEq, eq_comm]
    exact (and_iff_right rfl).symm
  | ok f =>
    obtain ⟨hmin, hmax⟩ := total_le_of_decodeInner hdec
    obtain ⟨fuel, rfl⟩ : ∃ n, fuel = n + 1 := ⟨fuel - 1, by omega⟩
    obtain ⟨win', hwin', hstep⟩ := bodyWalkAux_ok hplain hwin hdec fuel
    have hnext : body.drop (w.pass f).cursor = (body.drop w.cursor).drop f.total := drop_drop.symm
    have hlen : (body.drop (w.pass f).cursor).length = n - f.total := by
      rw [hnext, length_drop, hn]
    obtain ⟨reason, hreason, hrest⟩ := ih _ (by omega) hwin' (show _ ≤ fuel by omega) rfl hlen
    rw [hnext] at hreason hrest
    refine ⟨reason, ?_, fun w' => ?_⟩
    · rw [hreason, frames_of_ok hdec, Bool.eq_iff_iff, beq_iff_eq, beq_iff_eq, framesLen, framesLen,
        map_cons, sum_cons]
      omega
    · rw [frames_of_ok hdec, hstep, hrest]
      simp only [Chained, map_cons, length_cons, range'_succ, cons.injEq, foldl_cons, and_assoc]
      rfl

end

omit [Checksums] in
theorem foldl_pass (fs : List DecodedFrame) (header : SegmentHeader) :
    fs.foldl BodyWalk.pass (.start header) = ⟨fs.length,
      (fs.map (·.view.timestampMs)).foldl max 0,
      (fs.getLast?.map (·.view.seq)).getD header.baseSeq, framesLen fs, none⟩ := by
  induction fs using reverseRecOn with
  | nil => rfl
  | append_singleton fs f ih => simp [ih, BodyWalk.pass, framesLen]

omit [Checksums] in
theorem Chained.front {baseSeq : Nat} {fs gs : List DecodedFrame} (h : Chained baseSeq gs)
    (hfs : fs <+: gs) : Chained baseSeq fs := by
  obtain ⟨rest, rfl⟩ := hfs
  have hfront := congrArg (take fs.length) h
  rwa [map_append, take_left' (length_map _), length_append, ← range'_append_1,
    take_left' length_range'] at hfront

/-- The body walk accepts the bodies whose sequences follow each other, and sums up their frames as
the plain walk does. -/
theorem scanBodyStreaming_cases (hplain : r.header.isEncrypted = false) (body : Bytes) :
    ∃ w : BodyWalk, w.maxTimestampMs = ((frames body).map (·.view.timestampMs)).foldl max 0
      ∧ walkSummary r.header.baseSeq body (frames body)
        = ⟨w.count, w.lastSeq, w.cursor, w.tailReason.isNone⟩
      ∧ (Chained r.header.baseSeq (frames body) ∧ r.scanBodyStreaming body = .ok w
        ∨ ¬ Chained r.header.baseSeq (frames body) ∧ ∃ e, r.scanBodyStreaming body = .error e) := by
  have hfold := foldl_pass (frames body) r.header
  have hstart : Window.Shows ⟨0, []⟩ body (BodyWalk.start r.header).cursor :=
    ⟨Nat.le_refl 0, List.nil_prefix⟩
  obtain ⟨reason, hclean, hrun⟩ := bodyWalkAux_run hplain hstart le_rfl rfl
  refine ⟨{ (frames body).foldl BodyWalk.pass (.start r.header) with tailReason := reason },
    by rw [hfold], by rw [hfold, walkSummary, hclean]; rfl, ?_⟩
  by_cases hchain : Chained r.header.baseSeq (frames body)
  · exact .inl ⟨hchain, (hrun _).mpr ⟨hchain, rfl⟩⟩
  · refine .inr ⟨hchain, ?_⟩
    cases hres : r.scanBodyStreaming body with
    | error e => exact ⟨e, rfl⟩
    | ok w' => exact absurd ((hrun w').mp hres).1 hchain

/-- Recovery accepts a segment if the sequences of the frames that the scan returns follow each
other, and only then. It learns what the scan finds: the number of records, the largest timestamp,
the footer and the end of the valid data. -/
theorem recovery_agrees_with_scan (hplain : r.header.isEncrypted = false) :
    (∀ rs, r.scanRecovery = .ok rs → ∃ fs, r.walkFrames = .ok (fs, rs.footer, rs.validEnd)
      ∧ Chained r.header.baseSeq fs ∧ rs.recordCount = fs.length
      ∧ rs.maxTimestampMs = (fs.map (·.view.timestampMs)).foldl max 0)
    ∧ ∀ fs footer validEnd, r.walkFrames = .ok (fs, footer, validEnd) →
      Chained r.header.baseSeq fs → ∃ rs, r.scanRecovery = .ok rs := by
  obtain ⟨w, hmax, hsum, hres⟩ := scanBodyStreaming_cases hplain (r.region r.data.length)
  obtain ⟨w', hmax', hsum', hres'⟩ :=
    scanBodyStreaming_cases hplain (r.region (r.data.length - segmentFooterLen))
  have hfront := frames_take_prefix (r.region r.data.length)
    (r.data.length - segmentFooterLen - segmentHeaderLen)
  rw [show (r.region r.data.length).take _ = r.region (r.data.length - segmentFooterLen) by
    rw [region, region, Bytes.readAt, Bytes.readAt, take_take, min_eq_left (by omega)]]
    at hfront
  have hcount := (congrArg WalkSummary.count hsum).symm
  have hcount' := (congrArg WalkSummary.count hsum').symm
  simp only [scanRecovery, walkFrames, walkWithFooter, walkWhole, hsum, hsum']
  dsimp only [walkSummary] at hcount hcount'
  cases r.footerCandidate with
  | none =>
    obtain ⟨hchain, hok⟩ | ⟨hchain, e, herr⟩ := hres
    · simp [hok, hchain, hcount, hmax]
    · simpa [herr] using hchain
  | some f =>
    obtain ⟨hchain', hok'⟩ | ⟨hchain', e, herr'⟩ := hres'
    · simp only [hok']
      split_ifs
      · simp
      · simp [hchain', hcount', hmax']
      · obtain ⟨hchain, hok⟩ | ⟨hchain, e, herr⟩ := hres
        · simp [hok, hchain, hcount, hmax]
        · simpa [herr] using hchain
    · -- a whole file with chained frames has them in front of the footer too
      have hchain : ¬ Chained r.header.baseSeq (frames (r.region r.data.length)) :=
        fun h => hchain' (h.front hfront)
      simp only [herr']
      split_ifs <;> simp [hchain, hchain']

/-! ## The index of a compacted segment -/

/-- At an indexed position the rest of the frames starts. -/
theorem frames_at_positioned {body : Bytes} {start i pos : Nat} {f : DecodedFrame}
    (h : (positioned start (frames body))[i]? = some (pos, f)) :
    ∃ k, pos = start + k ∧ frames (body.drop k) = (frames body).drop i := by
  induction i generalizing body start with
  | zero =>
    refine ⟨0, ?_, rfl⟩
    cases hdec : frames body with
    | nil => simp [hdec, positioned] at h
    | cons g fs => simp_all [positioned]
  | succ i ih =>
    cases hdec : decodeInner body with
    | error e => simp [frames, framesAux_of_error hdec, positioned] at h
    | ok g =>
      rw [frames_of_ok hdec] at h ⊢
      obtain ⟨k, hk, hrest⟩ := ih h
      exact ⟨g.total + k, by omega, by rw [← drop_drop, hrest, drop_succ_cons]⟩

omit [Checksums] in
theorem map_snd_positioned (fs : List DecodedFrame) (start : Nat) :
    (positioned start fs).map Prod.snd = fs := by
  induction fs generalizing start with
  | nil => rfl
  | cons f fs ih => rw [positioned, map_cons, ih]

theorem compactedFrames_some {fs : List DecodedFrame} {footer : SegmentFooter}
    {block : CompactionMeta} {stop : Nat}
    (h : r.compactedFrames = .ok (some (fs, footer, block, stop))) :
    fs = frames (r.region stop) := by
  unfold compactedFrames at h
  split at h
  · cases h
  · -- the trailer decodes, and no check of the body fails
    dsimp only at h
    split at h
    · cases h
    split_ifs at h
    simp only [Except.ok.injEq, Option.some.injEq, Prod.mk.injEq] at h
    obtain ⟨rfl, -, -, rfl⟩ := h
    rfl

/-- The entries of an index over frames from a position on. -/
def entries (header : SegmentHeader) (position : Nat) (fs : List DecodedFrame) : List (Nat × Nat) :=
  (positioned position fs).map fun (pos, f) =>
    (compactedOffset header.baseOffset header.baseSeq f.view.seq, pos)

/-- The walk of the index checks the frames that the scan checks, in the same order. -/
theorem positionsWalk_eq (header : SegmentHeader) (endSeq : Nat) {fuel : Nat} {body : Bytes}
    (hfuel : body.length ≤ fuel) (index position : Nat) (prev : Option Nat) :
    positionsWalk header endSeq fuel body index position prev
      = (sequenceFault header.baseSeq endSeq index prev (frames body)).elim
        (.ok (if framesLen (frames body) = body.length then
          some (entries header position (frames body)) else none)) .error := by
  induction fuel generalizing body index position prev with
  | zero =>
    obtain rfl := length_eq_zero_iff.mp (Nat.le_zero.mp hfuel)
    rfl
  | succ fuel ih =>
    rw [positionsWalk]
    by_cases hnil : body = []
    · subst hnil
      rfl
    rw [if_neg hnil]
    cases hdec : Codec.decodeInner body with
    | error e =>
      have hpos : ¬ 0 = body.length := fun h => hnil (length_eq_zero_iff.mp h.symm)
      rw [frames, framesAux_of_error hdec]
      simp [sequenceFault, framesLen, hpos]
    | ok f =>
      obtain ⟨hmin, hmax⟩ := Codec.total_le_of_decodeInner hdec
      have hrest := @ih (body.drop f.total) (by rw [length_drop]; omega) (index + 1)
        (position + f.total) (some f.view.seq)
      have hlen : framesLen (f :: frames (body.drop f.total)) = body.length
          ↔ framesLen (frames (body.drop f.total)) = (body.drop f.total).length := by
        simp only [framesLen, map_cons, sum_cons, length_drop]
        omega
      simp only [frames_of_ok hdec, sequenceFault, hrest, hlen]
      split_ifs with hfault hwhole
      · rfl
      -- the walk behind the frame ends in the verdict on the frames behind it
      all_goals
        cases sequenceFault header.baseSeq endSeq (index + 1) (some f.view.seq)
          (frames (body.drop f.total)) <;> rfl

omit [Checksums] in
theorem mismatch_of_sequenceFault {baseSeq endSeq index : Nat} {prev : Option Nat}
    {fs : List DecodedFrame} {e : StorageError}
    (h : sequenceFault baseSeq endSeq index prev fs = some e) :
    ∃ i expected found, e = .recoveredSequenceMismatch i expected found := by
  induction fs generalizing index prev with
  | nil => cases h
  | cons f fs ih =>
    rw [sequenceFault] at h
    split_ifs at h
    · exact ⟨_, _, _, (Option.some.inj h).symm⟩
    · exact ih h

/-- What the index is, by what the scan finds. -/
def indexOf (header : SegmentHeader) :
    Except StorageError (Option (List DecodedFrame × SegmentFooter × CompactionMeta × Nat)) →
      Except StorageError (Option (List (Nat × Nat) × Nat))
  | .error (.corruptCompacted ..) => .ok none
  | .error e => .error e
  | .ok none => .ok none
  | .ok (some (fs, _, _, stop)) => .ok (some (entries header segmentHeaderLen fs, stop))

omit [Checksums] in
theorem length_entries (header : SegmentHeader) (position : Nat) (fs : List DecodedFrame) :
    (entries header position fs).length = fs.length := by
  rw [entries, length_map, ← length_map Prod.snd, map_snd_positioned]

theorem compactedBytePositions_eq (r : SegmentReader) :
    r.compactedBytePositions = indexOf r.header r.compactedFrames := by
  unfold compactedBytePositions compactedFrames
  cases r.compactedTrailer with
  | none => rfl
  | some trailer =>
    obtain ⟨block, footer, stop⟩ := trailer
    simp only [positionsWalk_eq r.header _ le_rfl]
    cases hfault : sequenceFault r.header.baseSeq block.coveredEndSeq 0 none
      (frames (r.region stop)) with
    | some e =>
      obtain ⟨_, _, _, rfl⟩ := mismatch_of_sequenceFault hfault
      rfl
    | none =>
      simp only [Option.elim_none]
      split_ifs <;> simp_all [indexOf, length_entries]

/-- The index of a compacted segment is built exactly if the scan accepts it. It lists the offsets
of the records that the scan returns, and a read from an indexed position returns these from there
on. -/
theorem compacted_index_seeks (r : SegmentReader) :
    (∀ s, r.scanCompacted = .ok (some s) →
      ∃ ps, r.compactedBytePositions = .ok (some (ps, s.validEnd)))
    ∧ ∀ ps stop, r.compactedBytePositions = .ok (some (ps, stop)) →
      ∃ s, r.scanCompacted = .ok (some s) ∧ s.validEnd = stop
        ∧ ps.map Prod.fst = s.records.map (·.offset)
        ∧ ∀ i p, ps[i]? = some p → ∀ max, r.scanCompactedFrom p.2 r.header.baseOffset
          r.header.baseSeq stop max = (s.records.drop i).take max := by
  rw [compactedBytePositions_eq]
  unfold scanCompacted
  cases hframes : r.compactedFrames with
  | error e => cases e <;> simp [indexOf]
  | ok found =>
    cases found with
    | none => simp [indexOf]
    | some found =>
      obtain ⟨fs, footer, block, stop⟩ := found
      have hfs := compactedFrames_some hframes
      refine ⟨fun s hs => ?_, fun ps stop' hps => ?_⟩
      · cases hs
        exact ⟨_, rfl⟩
      cases hps
      refine ⟨_, rfl, rfl, ?_, ?_⟩
      · conv_rhs => rw [← map_snd_positioned fs segmentHeaderLen]
        simp only [entries, map_map, Function.comp_def, survivor, OwnedRecord.fromView]
      · intro i p hp max
        rw [entries, getElem?_map, Option.map_eq_some_iff] at hp
        obtain ⟨⟨pos, f⟩, hpos, rfl⟩ := hp
        subst hfs
        obtain ⟨k, rfl, hrest⟩ := frames_at_positioned hpos
        have hdrop : r.data.readAt (segmentHeaderLen + k) (stop - (segmentHeaderLen + k))
            = (r.region stop).drop k := by
          rw [region, Bytes.readAt, Bytes.readAt, drop_take, drop_drop, Nat.sub_sub]
        rw [scanCompactedFrom, hdrop, hrest, map_take, map_drop]

end Walks

/-! ## A concrete segment -/

local instance recoveryChecksums : Checksums := ⟨castagnoli, fun _ => 0⟩

/-- A segment with one record and the first bytes of another one. -/
def tornSegment : SegmentReader :=
  ⟨⟨0, 0, 0, 0, 0⟩, (⟨0, 0, 0, 0, 0⟩ : SegmentHeader).encode
    ++ frameBytes ⟨0, 9, 0, [], [], [7]⟩ [] [] ++ [66, 73, 1]⟩

/-- Recovery and the scan of it find the one record. -/
theorem recovery_of_torn_segment :
    tornSegment.scanRecovery = .ok ⟨tornSegment.header, none, 1, 9, 0, some .tornTail, 109⟩
      ∧ ∃ fs, tornSegment.walkFrames = .ok (fs, none, 109) ∧ Chained 0 fs ∧ fs.length = 1 := by
  have hrecover : tornSegment.scanRecovery
      = .ok ⟨tornSegment.header, none, 1, 9, 0, some .tornTail, 109⟩ := by decide +kernel
  obtain ⟨fs, hwalk, hchain, hcount, -⟩ := (recovery_agrees_with_scan
    (show tornSegment.header.isEncrypted = false from rfl)).1 _ hrecover
  exact ⟨hrecover, fs, hwalk, hchain, hcount.symm⟩

/-- A compacted segment that covers five sequences and keeps the record of one. -/
def compactedSegment : SegmentReader :=
  ⟨⟨0, 0, 0, 0, 1⟩, (⟨0, 0, 0, 0, 1⟩ : SegmentHeader).encode
    ++ frameBytes ⟨3, 9, 0, [], [], [7]⟩ [] []
    ++ withCrc (Bytes.ofNatLE 4 0x01024653 ++ [0, 3, 1].flatMap (Bytes.ofNatLE 8))
    ++ withCrc ([0, 5, 0, 5, 0].flatMap (Bytes.ofNatLE 8))⟩

/-- Its index has the one record, which is read from there. -/
theorem index_of_compacted_segment :
    compactedSegment.compactedBytePositions = .ok (some ([(3, 64)], 109))
      ∧ ∃ s, compactedSegment.scanCompacted = .ok (some s) ∧ s.records.map (·.offset) = [3]
        ∧ compactedSegment.scanCompactedFrom 64 0 0 109 1 = s.records.take 1 := by
  have hindex : compactedSegment.compactedBytePositions = .ok (some ([(3, 64)], 109)) := by
    decide +kernel
  obtain ⟨s, hscan, -, hoffsets, hseek⟩ := (compacted_index_seeks compactedSegment).2 _ _ hindex
  exact ⟨hindex, s, hscan, hoffsets.symm, hseek 0 _ rfl 1⟩

end SegmentReader

end IronBus
