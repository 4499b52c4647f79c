import IronBus.ForStd.List
import IronBus.Native.RangeRead

/-!
# Range reads return a front of what is visible

Key results:
- `Wf.readRange_front`: a bounded read returns the first visible records from its start, in order
  and without a gap, as long as no byte cap cuts a compacted segment: there the read goes on with
  the next segment and skips what the cap left out
- `Wf.readRangeRaw_front`: so does the raw read, and its tail begins where it ends
-/

namespace IronBus

open SlotRecord List

variable [Checksums]

namespace RangeLog

/-- Everything a read can find, in order. -/
def records (log : RangeLog) : List SlotRecord := log.segments.flatMap (·.records)

/-- The records of some segments between two offsets. -/
def between (segments : List Slot) (start stop : Nat) : List SlotRecord :=
  (segments.flatMap (·.records)).filter fun r => start ≤ r.offset ∧ r.offset < stop

/-- What a read from `start` may return. -/
def visible (log : RangeLog) (start : Nat) : List SlotRecord :=
  between log.segments start log.flushedOffset

/-- The segments lie behind each other, and a dense one holds consecutive offsets. -/
structure Wf (log : RangeLog) : Prop where
  bound : log.flushedOffset ≤ u64Max
  within : ∀ s ∈ log.segments, ∀ r ∈ s.records, s.coveredBaseOffset ≤ r.offset
  ordered : log.segments.Pairwise fun a b => ∀ r ∈ a.records, r.offset < b.coveredBaseOffset
  sorted : ∀ s ∈ log.segments, s.records.Pairwise fun a b => a.offset < b.offset
  dense : ∀ s ∈ log.segments, s.compactedCovered = none →
    ∀ i r, s.records[i]? = some r → r.offset = s.baseOffset + i

/-- No segment is compacted. -/
def Dense (log : RangeLog) : Prop := ∀ s ∈ log.segments, s.compactedCovered = none

variable {log : RangeLog} {s : Slot} {start : Nat}

@[simp] theorem between_cons (s : Slot) (rest : List Slot) (start stop : Nat) :
    between (s :: rest) start stop = between [s] start stop ++ between rest start stop := by
  simp [between]

/-! ## Pushing records -/

omit [Checksums] in
/-- What pushing does: it takes a front of the records, all of them visible, and the whole list
unless it stops. -/
theorem pushRecords_front (b : ReadBounds) (rs out : List OwnedRecord) (total : Nat) :
    ∃ ext, ext <+: rs ∧ (∀ r ∈ ext, r.offset < b.flushed)
      ∧ (pushRecords b rs out total).2.1 = out ++ ext
      ∧ ((pushRecords b rs out total).1 = false → ext = rs) := by
  induction rs generalizing out total with
  | nil => exact ⟨[], prefix_rfl, nofun, by simp [pushRecords], fun _ => rfl⟩
  | cons r rs ih =>
    unfold pushRecords pushRecord
    split_ifs with hbound hcap
    · exact ⟨[], nil_prefix, nofun, by simp, nofun⟩
    · exact ⟨[], nil_prefix, nofun, by simp, nofun⟩
    · obtain ⟨ext, hfront, hvis, hout, hall⟩ := ih (out ++ [r]) (total + r.encodedLen)
      refine ⟨r :: ext, cons_prefix_cons.mpr ⟨rfl, hfront⟩, ?_, ?_, ?_⟩
      · rintro x hx
        rcases mem_cons.mp hx with rfl | hx
        · omega
        · exact hvis x hx
      · simpa using hout
      · intro hgo
        rw [hall hgo]

/-- Without a byte cap a scan returns as many records as it may. -/
theorem scanBounded_none (max : Nat) (first : Bool) (total : Nat) (rs : List SlotRecord) :
    scanBounded none max first total rs = rs.take max := by
  induction rs generalizing max first total with
  | nil => cases max <;> rfl
  | cons r rs ih =>
    cases max with
    | zero => rfl
    | succ max => simp [scanBounded, SegmentReader.overCap, ih]

theorem scanBounded_front (cap : Option Nat) (max : Nat) (first : Bool) (total : Nat)
    (rs : List SlotRecord) : scanBounded cap max first total rs <+: rs.take max := by
  induction rs generalizing max first total with
  | nil => cases max <;> exact nil_prefix
  | cons r rs ih =>
    cases max with
    | zero => exact nil_prefix
    | succ max =>
      simp only [scanBounded]
      split
      · exact nil_prefix
      · exact cons_prefix_cons.mpr ⟨rfl, ih max false _⟩

/-! ## One segment -/

/-- The records of a dense segment from an offset in it are consecutive. -/
theorem Wf.offset_from (h : log.Wf) (hs : s ∈ log.segments) (hdense : s.compactedCovered = none)
    {i : Nat} {r : SlotRecord} (hstart : s.baseOffset ≤ start) (hr : (s.from start)[i]? = some r) :
    r.offset = start + i := by
  -- the records below `start` are the first `start - base` ones
  have hdrop : s.from start = s.records.drop (start - s.baseOffset) :=
    filter_le_of_consecutive (h.dense s hs hdense) start
  rw [hdrop, getElem?_drop] at hr
  have := h.dense s hs hdense _ r hr
  omega

theorem between_singleton (s : Slot) (start stop : Nat) :
    between [s] start stop = (s.from start).filter fun r => r.offset < stop := by
  simp [between, Slot.from, filter_filter, Bool.and_comm]

/-- A front of a segment's records that are all visible is a front of what is visible of it. -/
theorem front_between {stop : Nat} {ext : List OwnedRecord}
    (hfront : ext <+: (s.from start).map record) (hvis : ∀ r ∈ ext, r.offset < stop) :
    ext <+: (between [s] start stop).map record := by
  have hfilter := hfront.filter fun r => decide (r.offset < stop)
  rw [filter_eq_self.mpr (by simpa using hvis), filter_map] at hfilter
  rw [between_singleton]
  exact hfilter

/-- What reading one segment adds: a front of what is visible of it, and all of it unless the read
stops or is full. -/
theorem Wf.readSlotInto_front (h : log.Wf) (hs : s ∈ log.segments) {b : ReadBounds}
    (hcut : b.maxBytes = none ∨ s.compactedCovered = none) (out : List OwnedRecord) (total : Nat) :
    ∃ ext, ext <+: (between [s] b.startV b.flushed).map record
      ∧ (readSlotInto s b out total).2.1 = out ++ ext
      ∧ ((readSlotInto s b out total).1 = false →
        ext = (between [s] b.startV b.flushed).map record
          ∨ b.max ≤ (out ++ ext).length) := by
  -- it is enough to push a front of the segment that is whole, full or reaches the visible end
  have key (rs : List SlotRecord) (hrs : rs <+: s.from b.startV)
      (hwhole : rs = s.from b.startV ∨ b.max - out.length ≤ rs.length
        ∨ between [s] b.startV b.flushed <+: rs) :
      ∃ ext, ext <+: (between [s] b.startV b.flushed).map record
        ∧ (pushRecords b (rs.map record) out total).2.1 = out ++ ext
        ∧ ((pushRecords b (rs.map record) out total).1 = false →
          ext = (between [s] b.startV b.flushed).map record
            ∨ b.max ≤ (out ++ ext).length) := by
    obtain ⟨ext, hfront, hvis, hout, hall⟩ :=
      pushRecords_front b (rs.map record) out total
    have hext := front_between (hfront.trans (hrs.map _)) hvis
    refine ⟨ext, hext, hout, fun hgo => ?_⟩
    obtain rfl := hall hgo
    rcases hwhole with rfl | hfull | hend
    · refine .inl ?_
      rw [between_singleton, filter_eq_self.mpr]
      intro r hr
      have := hvis _ (mem_map_of_mem hr)
      simpa [record, OwnedRecord.fromView] using this
    · refine .inr ?_
      simp only [length_append, length_map]
      omega
    · exact .inl (hext.eq_of_length_le (hend.map _).length_le)
  have hfrom {c : Nat} (hc : c ≤ s.coveredBaseOffset) : s.from (Nat.max b.startV c)
      = s.from b.startV := by
    refine filter_congr fun r hr => ?_
    have := h.within s hs r hr
    simp only [Nat.max_def, decide_eq_decide]
    split <;> omega
  unfold readSlotInto
  cases hc : s.compactedCovered with
  | some covered =>
    have hnone : b.maxBytes = none := by
      rcases hcut with hcut | hcut
      · exact hcut
      · rw [hc] at hcut
        cases hcut
    simp only [hnone, Option.map_none, scanBounded_none]
    rw [hfrom (by simp [Slot.coveredBaseOffset, hc])]
    refine key _ (List.take_prefix _ _) ?_
    by_cases hle : (s.from b.startV).length ≤ b.max - out.length
    · exact .inl (take_of_length_le hle)
    · exact .inr (.inl (by rw [length_take]; omega))
  | none =>
    dsimp only
    have hbase : s.baseOffset = s.coveredBaseOffset := by simp [Slot.coveredBaseOffset, hc]
    split
    · have hoff (i : Nat) (r : SlotRecord)
          (hr : (s.from (Nat.max b.startV s.baseOffset))[i]? = some r) :
          r.offset = Nat.max b.startV s.baseOffset + i :=
        h.offset_from hs hc (le_max_right ..) hr
      rw [hfrom hbase.le] at hoff ⊢
      refine key _ (List.take_prefix _ _) ?_
      rcases le_total (b.max - out.length)
          (b.flushed - Nat.max b.startV s.baseOffset) with hle | hle
      · rw [show Nat.min _ _ = b.max - out.length from min_eq_left hle]
        by_cases hlen : (s.from b.startV).length ≤ b.max - out.length
        · exact .inl (take_of_length_le hlen)
        · exact .inr (.inl (by rw [length_take]; omega))
      · rw [show Nat.min _ _ = b.flushed - Nat.max b.startV s.baseOffset from min_eq_right hle]
        refine .inr (.inr ?_)
        -- the records past the cut are past the visible end
        rw [between_singleton, filter_lt_of_consecutive hoff]
    · exact key _ prefix_rfl (.inl rfl)

/-! ## The decoded read -/

theorem Wf.readSegments_front (h : log.Wf) {b : ReadBounds}
    (hcut : b.maxBytes = none ∨ log.Dense) {segments : List Slot}
    (hsub : ∀ s ∈ segments, s ∈ log.segments) (out : List OwnedRecord) (total : Nat) :
    ∃ ext, ext <+: (between segments b.startV b.flushed).map record
      ∧ readSegments b segments out total = out ++ ext := by
  induction segments generalizing out total with
  | nil => exact ⟨[], nil_prefix, by simp [readSegments]⟩
  | cons s rest ih =>
    unfold readSegments
    split_ifs with hpast hfull
    · exact ⟨[], nil_prefix, by simp⟩
    · exact ⟨[], nil_prefix, by simp⟩
    · have hs := hsub s mem_cons_self
      obtain ⟨ext, hfront, hout, hall⟩ :=
        h.readSlotInto_front hs (hcut.imp_right fun hd => hd s hs) out total
      rw [between_cons, map_append]
      have hstop : ext <+: (between [s] b.startV b.flushed).map record
          ++ (between rest b.startV b.flushed).map record :=
        hfront.trans (prefix_append _ _)
      generalize readSlotInto s b out total = res at hout hall
      obtain ⟨_ | _, out', total'⟩ := res
      · obtain rfl : out' = out ++ ext := hout
        rcases hall rfl with rfl | hmax
        · obtain ⟨ext', hfront', hout'⟩ :=
            ih (fun s' hs' => hsub s' (mem_cons_of_mem s hs')) (out ++ _) total'
          exact ⟨_, (prefix_append_right_inj _).mpr hfront',
            hout'.trans (append_assoc ..)⟩
        · -- the read is full, so the next round ends it
          refine ⟨ext, hstop, ?_⟩
          cases rest with
          | nil => rfl
          | cons s' rest => simp only [readSegments, if_pos hmax, ite_self]
      · exact ⟨ext, hstop, hout⟩

/-- The segments before the one an offset belongs to hold only lower offsets. -/
theorem Wf.between_drop (h : log.Wf) (start stop : Nat) :
    between (log.segments.drop (log.segmentIndexFor start)) start stop
      = between log.segments start stop := by
  conv_rhs => rw [← take_append_drop (log.segmentIndexFor start) log.segments]
  simp only [between, flatMap_append, filter_append]
  rw [self_eq_append_left, filter_eq_nil_iff]
  intro r hr
  obtain ⟨s, hs, hmem⟩ := mem_flatMap.mp hr
  obtain ⟨i, hi⟩ := mem_iff_getElem?.mp hs
  rw [getElem?_take] at hi
  split at hi
  · next hlt =>
    -- the segment at the index is the last whose base is not past `start`
    have hidx : log.segmentIndexFor start
        < log.segments.findIdx fun s => start < s.coveredBaseOffset := by
      unfold segmentIndexFor at hlt ⊢
      omega
    have hlen := hidx.trans_le findIdx_le_length
    have hbase : ¬ start < (log.segments[log.segmentIndexFor start]).coveredBaseOffset := by
      simpa using not_of_lt_findIdx hidx
    obtain ⟨hilt, rfl⟩ := List.getElem?_eq_some_iff.mp hi
    have hord := List.pairwise_iff_getElem.mp h.ordered i (log.segmentIndexFor start) hilt hlen hlt
      r hmem
    simp only [decide_eq_true_eq]
    omega
  · cases hi

/-- The decoded read returns a front of what is visible from its start. -/
theorem Wf.readRange_front (h : log.Wf) {max : Nat} {maxBytes : Option Nat}
    (hcut : maxBytes = none ∨ log.Dense) {out : List OwnedRecord}
    (hok : log.readRange start max maxBytes = .ok out) :
    out <+: (log.visible start).map record := by
  unfold readRange at hok
  split_ifs at hok
  · cases hok
    exact nil_prefix
  · cases hok
    obtain ⟨ext, hfront, hout⟩ := h.readSegments_front
      (b := ⟨start, log.flushedOffset, max, maxBytes⟩) hcut
      (fun s hs => mem_of_mem_drop hs) [] 0
    rw [hout, visible, ← h.between_drop]
    exact hfront

/-! ## The raw read -/

theorem Wf.pairwise_records (h : log.Wf) :
    log.records.Pairwise fun a b => a.offset < b.offset := by
  rw [records, pairwise_flatMap]
  refine ⟨h.sorted, h.ordered.imp_of_mem fun _ hb hlt x hx y hy => ?_⟩
  exact (hlt x hx).trans_le (h.within _ hb y hy)

/-- The segment at an offset's index begins at or before the offset. -/
theorem covered_le_of_segmentIndexFor (hs : log.segments[log.segmentIndexFor start]? = some s)
    (hold : log.oldest ≤ start) :
    s.coveredBaseOffset ≤ start := by
  obtain ⟨hlt, rfl⟩ := List.getElem?_eq_some_iff.mp hs
  by_cases hzero : log.segments.findIdx (fun s => start < s.coveredBaseOffset) = 0
  · have hidx : log.segmentIndexFor start = 0 := by rw [segmentIndexFor, hzero]
    have hhead : log.oldest = log.segments[log.segmentIndexFor start].coveredBaseOffset := by
      simp only [oldest, hidx, head?_eq_getElem?]
      rw [getElem?_eq_getElem (by omega)]
      rfl
    omega
  · have hidx : log.segmentIndexFor start
        < log.segments.findIdx fun s => start < s.coveredBaseOffset := by
      unfold segmentIndexFor
      omega
    simpa using not_of_lt_findIdx hidx

/-- Behind a front of consecutive offsets the visible records go on where it ends. -/
theorem Wf.visible_drop (h : log.Wf) {rs : List SlotRecord} (hfront : rs <+: log.visible start)
    (hoff : ∀ i r, rs[i]? = some r → r.offset = start + i) :
    log.visible (start + rs.length) = (log.visible start).drop rs.length := by
  obtain ⟨rest, hrest⟩ := hfront
  have hsorted : (rs ++ rest).Pairwise fun a b => a.offset < b.offset := by
    rw [hrest]
    exact h.pairwise_records.filter _
  have hnarrow : log.visible (start + rs.length)
      = (log.visible start).filter fun r => start + rs.length ≤ r.offset := by
    simp only [visible, between, filter_filter]
    refine filter_congr fun r _ => ?_
    rw [Bool.eq_iff_iff]
    simp only [decide_eq_true_eq, Bool.and_eq_true]
    omega
  rw [hnarrow, ← hrest, filter_append, drop_left]
  have hlow : rs.filter (fun r => start + rs.length ≤ r.offset) = [] := by
    rw [filter_le_of_consecutive hoff, Nat.add_sub_cancel_left, drop_length]
  rw [hlow, List.nil_append, List.filter_eq_self]
  intro r hr
  simp only [decide_eq_true_eq]
  cases hlast : rs.getLast? with
  | none =>
    obtain rfl := getLast?_eq_none_iff.mp hlast
    have hmem : r ∈ log.visible start := by rw [← hrest]; exact hr
    have := (mem_filter.mp hmem).2
    simp only [decide_eq_true_eq] at this
    simpa using this.1
  | some last =>
    have hmem := mem_of_getLast? hlast
    rw [getLast?_eq_getElem?] at hlast
    have hpos := length_pos_of_mem hmem
    have := hoff _ last hlast
    have := (pairwise_append.mp hsorted).2.2 last hmem r hr
    omega

/-- A front of a dense segment's records that ends before the visible end is a front of what is
visible. -/
theorem Wf.dense_front (h : log.Wf) {rs : List SlotRecord}
    (hs : log.segments[log.segmentIndexFor start]? = some s) (hdense : s.compactedCovered = none)
    (hbase : s.baseOffset ≤ start) (hrs : rs <+: (s.from start).take (log.flushedOffset - start)) :
    rs <+: log.visible start ∧ ∀ i r, rs[i]? = some r → r.offset = start + i := by
  have hmem := mem_of_getElem? hs
  have hfrom := hrs.trans (List.take_prefix _ _)
  have hoff (i : Nat) (r : SlotRecord) (hr : rs[i]? = some r) : r.offset = start + i :=
    h.offset_from hmem hdense hbase (hfrom.getElem?_eq_some hr)
  refine ⟨?_, hoff⟩
  have hvis : rs.filter (fun r => decide (r.offset < log.flushedOffset)) = rs := by
    rw [filter_lt_of_consecutive hoff]
    exact take_of_length_le (hrs.length_le.trans (length_take_le _ _))
  have hslot : rs <+: between [s] start log.flushedOffset := by
    rw [between_singleton, ← hvis]
    exact hfrom.filter _
  have hdrop : log.segments.drop (log.segmentIndexFor start)
      = s :: log.segments.drop (log.segmentIndexFor start + 1) := by
    obtain ⟨hlt, rfl⟩ := List.getElem?_eq_some_iff.mp hs
    exact List.drop_eq_getElem_cons hlt
  rw [visible, ← h.between_drop, hdrop, between_cons]
  exact hslot.trans (List.prefix_append _ _)

/-- What the raw read returns. -/
structure RawRun.Front (run : RawRun) (log : RangeLog) (start : Nat) (rs : List SlotRecord) :
    Prop where
  front : rs <+: log.visible start
  offset : ∀ i r, rs[i]? = some r → r.offset = start + i
  bytes : run.bytes = rs.flatMap (·.stored.bytes)
  count : run.recordCount = rs.length
  first : rs ≠ [] → run.firstOffset = start

theorem RawRun.Front.empty (log : RangeLog) (start : Nat) :
    (RawRun.empty start).Front log start [] :=
  ⟨List.nil_prefix, nofun, rfl, rfl, nofun⟩

/-- The raw read returns a front of what is visible from its start, and the decoded read that
follows begins where it ends. -/
theorem Wf.readRangeRaw_front (h : log.Wf) {max : Nat} {maxBytes : Option Nat} {run : RawRun}
    {tailFrom : Option Nat} (hok : log.readRangeRaw start max maxBytes = .ok (run, tailFrom)) :
    ∃ rs, run.Front log start rs
      ∧ ∀ f, tailFrom = some f → log.visible f = (log.visible start).drop rs.length := by
  unfold readRangeRaw at hok
  split_ifs at hok with hnone henc hold
  · cases hok
    exact ⟨[], .empty log start, nofun⟩
  · cases hok
    exact ⟨[], .empty log start, by rintro f ⟨⟩; rfl⟩
  · cases hs : log.segments[log.segmentIndexFor start]? with
    | none =>
      rw [hs] at hok
      cases hok
      exact ⟨[], .empty log start, by rintro f ⟨⟩; rfl⟩
    | some s =>
      rw [hs] at hok
      dsimp only at hok
      have hmem := mem_of_getElem? hs
      have hcov := covered_le_of_segmentIndexFor hs (not_lt.mp hold)
      cases hc : s.compactedCovered with
      -- a compacted segment is left to the decoded read
      | some covered =>
        rw [hc] at hok
        cases hok
        refine ⟨[], .empty log start, ?_⟩
        rintro f ⟨⟩
        simp only [Slot.coveredBaseOffset, hc, Option.getD_some] at hcov
        rw [show Nat.max start covered = start from max_eq_left hcov]
        rfl
      | none =>
        rw [hc] at hok
        dsimp only at hok
        have hbase : s.baseOffset ≤ start := by
          simpa [Slot.coveredBaseOffset, hc] using hcov
        rw [show Nat.max start s.baseOffset = start from max_eq_left hbase] at hok
        by_cases hidx : s.indexedEnd ≤ start
        · rw [if_pos hidx] at hok
          cases hok
          exact ⟨[], .empty log start, by rintro f ⟨⟩; rfl⟩
        · rw [if_neg hidx] at hok
          have hrs := (scanBounded_front maxBytes max true 0
            ((s.from start).take (log.flushedOffset - start))).trans (List.take_prefix _ _)
          obtain ⟨hfront, hoff⟩ := h.dense_front hs hc hbase hrs
          obtain ⟨rfl, htail⟩ := Prod.mk.inj (Except.ok.inj hok)
          refine ⟨_, ⟨hfront, hoff, rfl, rfl, fun _ => rfl⟩, fun f hf => ?_⟩
          rw [← htail] at hf
          split_ifs at hf
          cases hf
          exact h.visible_drop hfront hoff

end RangeLog

end IronBus
