import IronBus.Native.DeliverFrames
import IronBus.Spec.Frames
import IronBus.Spec.RangeReadCorrect

/-!
# What a delivery reply says

The deliveries a reply holds: those of its single frames and, by position, those of its batch
frames.

Key results:
- `readFetchResponse_messages`: a client that reads a reply without an error returns one message
  for each of them, in order
- `StreamServer.fetch_front`: the reply of a streaming fetch holds a front of the visible records
  from the offset asked for, if every frame of it fits the frame cap
-/

namespace IronBus

open DeliveryFrame DeliverBody List

variable [Checksums] [Compression]

/-! ## The deliveries of a reply -/

/-- The delivery of a stored frame at an offset. -/
def DeliverBody.ofFrame (generation offset : Nat) (f : DecodedFrame) : DeliverBody :=
  ⟨offset, generation, f.view.flags, f.view.timestampMs, f.view.key, f.view.headers, f.view.payload⟩

/-- The deliveries of the stored frames of a batch, numbered from an offset. -/
def batchBodies (generation : Nat) : Nat → List DecodedFrame → List DeliverBody
  | _, [] => []
  | offset, f :: fs =>
    .ofFrame generation offset f :: batchBodies generation (saturatingAdd offset 1) fs

def DeliveryFrame.bodies : DeliveryFrame → List DeliverBody
  | .deliver d => [d]
  | .deliverBatch header bytes => batchBodies header.generation header.firstOffset (frames bytes)
  | _ => []

/-- The message of a delivery, if its payload decompresses. -/
def DeliverBody.message (d : DeliverBody) : Option Message :=
  (if RecordFlags.contains d.flags RecordFlags.compressed then
    (Compression.decompressPayload d.flags d.payload).map fun p =>
      (d.flags &&& ~~~RecordFlags.compressed, p)
  else some (d.flags, d.payload)).map fun p =>
    ⟨d.offset, d.generation, p.1, d.timestampMs, d.key, d.headers, p.2⟩

variable {d : DeliverBody} {maxAggregate generation limit : Nat} {i : Ingest} {fetch : Fetch}

omit [Checksums] in
theorem DeliverBody.offset_message {m : Message} (h : d.message = some m) :
    m.offset = d.offset := by
  obtain ⟨p, -, rfl⟩ := Option.map_eq_some_iff.mp h
  rfl

/-- The messages of some deliveries. -/
abbrev Messages := List.Forall₂ fun (d : DeliverBody) (m : Message) => d.message = some m

omit [Checksums] in
theorem Messages.map_offset {ds : List DeliverBody} {ms : List Message} (h : Messages ds ms) :
    ms.map Message.offset = ds.map offset := by
  induction h with
  | nil => rfl
  | cons hm _ ih => simp [offset_message hm, ih]

/-! ## Reading a reply -/

omit [Checksums] in
/-- A delivery that leaves no failure behind has become a message. -/
theorem ingestDelivery_ok (h : (ingestDelivery maxAggregate d i).poison = none) :
    i.poison = none ∧ ∃ m, d.message = some m ∧ (ingestDelivery maxAggregate d i).fetch.messages
      = i.fetch.messages ++ [m] := by
  unfold ingestDelivery at h ⊢
  cases hp : i.poison with
  | some e => simp [hp] at h
  | none =>
    refine ⟨rfl, ?_⟩
    simp only [hp, Option.isSome_none, Bool.false_eq_true, if_false] at h ⊢
    unfold message
    generalize (if RecordFlags.contains d.flags RecordFlags.compressed = true then
      (Compression.decompressPayload d.flags d.payload).map fun p =>
        (d.flags &&& ~~~RecordFlags.compressed, p)
      else some (d.flags, d.payload)) = decoded at h ⊢
    cases decoded with
    | none => cases h
    | some p =>
      dsimp only at h ⊢
      split_ifs at h ⊢
      exact ⟨_, rfl, rfl⟩

/-- The records of a batch become messages one by one, and all its bytes are read. -/
theorem ingestBatch_ok {fuel : Nat} {bytes : Bytes} {offset decoded n : Nat} {i' : Ingest}
    (hfuel : bytes.length ≤ fuel)
    (h : ingestBatch maxAggregate generation fuel bytes offset decoded i = .ok (n, i'))
    (hp : i'.poison = none) :
    i.poison = none ∧ n = decoded + (frames bytes).length
      ∧ ∃ ms, Messages (batchBodies generation offset (frames bytes)) ms
        ∧ i'.fetch.messages = i.fetch.messages ++ ms := by
  induction fuel generalizing bytes offset decoded i with
  | zero =>
    obtain rfl : bytes = [] := length_eq_zero_iff.mp (by omega)
    cases h
    exact ⟨hp, rfl, [], .nil, by simp⟩
  | succ fuel ih =>
    unfold ingestBatch at h
    split_ifs at h with hempty
    · cases h
      subst hempty
      exact ⟨hp, rfl, [], .nil, by simp⟩
    · cases hd : Codec.decodeInner bytes with
      | error e => simp [hd] at h
      | ok f =>
        rw [hd] at h
        dsimp only at h
        obtain ⟨hmin, hmax⟩ := Codec.total_le_of_decodeInner hd
        obtain ⟨hp₁, hn, ms, hms, hfetch⟩ := ih (by rw [length_drop]; omega) h
        obtain ⟨hp₀, m, hm, hfetch₁⟩ := ingestDelivery_ok hp₁
        rw [frames_of_ok hd]
        refine ⟨hp₀, ?_, m :: ms, .cons hm hms, ?_⟩
        · rw [hn, length_cons]
          omega
        · rw [hfetch, hfetch₁, append_assoc]
          rfl

/-- A frame that leaves no failure behind has become messages. -/
theorem ingestFrame_ok {frame : DeliveryFrame} {i' : Ingest}
    (h : ingestFrame limit maxAggregate frame i = .ok i') (hp : i'.poison = none) :
    i.poison = none ∧ ∃ ms, Messages frame.bodies ms
      ∧ i'.fetch.messages = i.fetch.messages ++ ms := by
  unfold ingestFrame at h
  split_ifs at h
  cases frame with
  | deliver d =>
    cases h
    obtain ⟨hp₀, m, hm, hfetch⟩ := ingestDelivery_ok hp
    exact ⟨hp₀, [m], .cons hm .nil, hfetch⟩
  | deliverBatch header bytes =>
    dsimp only at h
    split_ifs at h
    generalize hb : ingestBatch maxAggregate header.generation bytes.length bytes
      header.firstOffset 0 _ = res at h
    cases res with
    | error e => cases h
    | ok p =>
      dsimp only at h
      split_ifs at h
      cases h
      obtain ⟨hp₀, -, hms⟩ := ingestBatch_ok le_rfl hb hp
      exact ⟨hp₀, hms⟩
  | deadLetter offset reason =>
    cases h
    exact ⟨hp, [], .nil, by simp⟩
  | truncated earliest skipped =>
    cases h
    exact ⟨hp, [], .nil, by simp⟩
  | gapMarker first last bytes reason =>
    cases h
    exact ⟨hp, [], .nil, by simp⟩
  | flowEnd delivered => cases h
  | err error => cases h
  | other tag => cases h

/-- Whether a frame ends the reply. -/
def DeliveryFrame.Ends : DeliveryFrame → Prop
  | .flowEnd _ => True
  | .err _ => True
  | _ => False

theorem readFetchFrames_messages {body : List DeliveryFrame} {delivered : Nat}
    (hbody : ∀ f ∈ body, ¬ f.Ends)
    (h : readFetchFrames limit maxAggregate (body ++ [.flowEnd delivered]) i = .ok fetch) :
    i.poison = none ∧ ∃ ms, Messages (body.flatMap bodies) ms
      ∧ fetch.messages = i.fetch.messages ++ ms := by
  induction body generalizing i with
  | nil =>
    simp only [nil_append, readFetchFrames] at h
    cases hp : i.poison with
    | some e => simp [hp] at h
    | none =>
      rw [hp] at h
      cases h
      exact ⟨rfl, [], .nil, by simp⟩
  | cons frame body ih =>
    have hends := hbody frame mem_cons_self
    have hstep : ∃ i₁, ingestFrame limit maxAggregate frame i = .ok i₁
        ∧ readFetchFrames limit maxAggregate (body ++ [.flowEnd delivered]) i₁ = .ok fetch := by
      rw [cons_append] at h
      cases frame with
      | flowEnd n => exact absurd trivial hends
      | err e => exact absurd trivial hends
      | _ =>
        simp only [readFetchFrames] at h
        split at h
        · cases h
        · exact ⟨_, ‹_›, h⟩
    obtain ⟨i₁, hframe, hrest⟩ := hstep
    obtain ⟨hp₁, ms', hms', hfetch'⟩ := ih (fun f hf => hbody f (mem_cons_of_mem _ hf)) hrest
    obtain ⟨hp₀, ms, hms, hfetch⟩ := ingestFrame_ok hframe hp₁
    refine ⟨hp₀, ms ++ ms', rel_append hms hms', ?_⟩
    rw [hfetch', hfetch, append_assoc]

/-- A reply that is read without an error gives the messages of its deliveries. -/
theorem readFetchResponse_messages {body : List DeliveryFrame} {delivered : Nat}
    (hbody : ∀ f ∈ body, ¬ f.Ends)
    (h : readFetchResponse limit maxAggregate (body ++ [.flowEnd delivered]) = .ok fetch) :
    Messages (body.flatMap bodies) fetch.messages := by
  obtain ⟨-, ms, hms, hfetch⟩ := readFetchFrames_messages hbody h
  rw [show Ingest.new.fetch.messages = [] from rfl, nil_append] at hfetch
  exact hfetch ▸ hms

/-! ## The reply of a streaming fetch -/

omit [Checksums] [Compression] in
theorem map_offset_batchBodies {offset : Nat} {fs : List DecodedFrame}
    (h : offset + fs.length ≤ u64Max + 1) :
    (batchBodies generation offset fs).map DeliverBody.offset = range' offset fs.length := by
  induction fs generalizing offset with
  | nil => rfl
  | cons f fs ih =>
    rw [length_cons] at h
    cases fs with
    | nil => rfl
    | cons g fs =>
      have hnext : saturatingAdd offset 1 = offset + 1 := by
        simp only [saturatingAdd, length_cons] at h ⊢
        omega
      rw [batchBodies, map_cons, hnext, ih (by omega), length_cons, range'_succ]
      rfl

omit [Checksums] in
theorem deliverBodyOf_offset {capable : Bool} {r : OwnedRecord}
    (h : deliverBodyOf capable generation r = some d) : d.offset = r.offset := by
  unfold deliverBodyOf at h
  split at h
  · cases h
  · split_ifs at h
    cases h
    rfl

/-- The single frames of a tail deliver a front of it. -/
theorem emitTailRecords_front {capable : Bool} {rs : List OwnedRecord}
    (hfits : ∀ r ∈ rs, ∀ d, deliverBodyOf capable 0 r = some d → d.frameLen ≤ maxFrameLen) :
    ((emitTailRecords capable rs).1.flatMap bodies).map offset
      <+: rs.map OwnedRecord.offset ∧ ∀ f ∈ (emitTailRecords capable rs).1, ¬ f.Ends := by
  induction rs with
  | nil => exact ⟨List.nil_prefix, nofun⟩
  | cons r rs ih =>
    unfold emitTailRecords
    cases hd : deliverBodyOf capable 0 r with
    | none => exact ⟨List.nil_prefix, nofun⟩
    | some d =>
      obtain ⟨hfront, hends⟩ := ih fun r' hr' => hfits r' (mem_cons_of_mem _ hr')
      have hreply : replyDeliver d = [.deliver d] := if_pos (hfits r mem_cons_self d hd)
      simp only [hreply, cons_append, nil_append]
      constructor
      · simpa [bodies, deliverBodyOf_offset hd] using hfront
      · rintro f hf
        rcases mem_cons.mp hf with rfl | hf
        · exact id
        · exact hends f hf

/-- The conditions under which a reply leaves nothing out: every record's frame and every raw run
fit the frame cap, and no byte cap meets a compacted segment. -/
structure StreamSession.Whole (session : StreamSession) (log : RangeLog) (maxBytes : Nat) :
    Prop where
  records : ∀ r ∈ log.records, ∀ d,
    deliverBodyOf session.compressedDeliveryEnabled 0 r.record = some d → d.frameLen ≤ maxFrameLen
  runs : session.deliverBatchEnabled → ∀ start want cap run tailFrom, want ≤ session.window →
    log.readRangeRaw start want cap = .ok (run, tailFrom) → batchFits run.bytes
  uncut : log.Dense ∨ session.ceilingBytes = 0 ∧ maxBytes = 0

namespace StreamServer

/-- The offsets of the visible records from `start`. -/
def visibleOffsets (s : StreamServer) (start : Nat) : List Nat :=
  (s.log.visible start).map SlotRecord.offset

variable {rs : List SlotRecord} {start : Nat} {s : StreamServer}

omit [Compression] in
theorem map_offset_of_front {out : List OwnedRecord} (h : out <+: rs.map SlotRecord.record) :
    out.map OwnedRecord.offset <+: rs.map SlotRecord.offset := by
  have := h.map OwnedRecord.offset
  rwa [map_map] at this

omit [Compression] in
/-- A front of the visible records lies below the end of the log's offsets. -/
theorem front_length_le {log : RangeLog} (hfront : rs <+: log.visible start)
    (hoff : ∀ i r, rs[i]? = some r → r.offset = start + i) (hne : rs ≠ []) :
    start + rs.length ≤ log.flushedOffset := by
  have hlast := getLast?_eq_getElem? (l := rs)
  rw [getLast?_eq_some_getLast hne] at hlast
  have hlow := hoff _ _ hlast.symm
  have hmem := (mem_filter.mp (hfront.subset (getLast_mem hne))).2
  have hpos := length_pos_iff.mpr hne
  simp only [decide_eq_true_eq] at hmem
  omega

omit [Compression] in
/-- The deliveries of a raw run. -/
theorem map_offset_batch {log : RangeLog} (hwf : log.Wf) {run : RangeLog.RawRun}
    (h : run.Front log start rs) (hne : rs ≠ []) :
    (bodies (.deliverBatch ⟨run.firstOffset, 0, run.recordCount⟩ run.bytes)).map
      DeliverBody.offset = rs.map SlotRecord.offset := by
  have hframes : frames run.bytes = rs.map (·.stored.frame) := by
    have := Stored.frames_flat_append (rs.map (·.stored)) []
    rw [append_nil, Stored.flat, flatMap_map, map_map] at this
    rw [h.bytes, this]
    exact append_nil _
  have hlen := front_length_le h.front h.offset hne
  have hbound := hwf.bound
  simp only [bodies, hframes, h.first hne]
  rw [map_offset_batchBodies (by rw [length_map]; omega), length_map]
  refine ext_getElem (by simp) fun i hi hi' => ?_
  rw [length_map] at hi'
  rw [getElem_range', getElem_map, h.offset i _ (getElem?_eq_getElem hi')]
  omega

omit [Compression] in
/-- What the engine serves record by record. -/
theorem streamFetchIn_front {max : Nat} {maxBytes : Option Nat} {records : List OwnedRecord}
    (hwf : s.log.Wf) (hcut : maxBytes = none ∨ s.log.Dense)
    (h : s.streamFetchIn start max maxBytes = .ok records) :
    records <+: (s.log.visible start).map SlotRecord.record := by
  unfold streamFetchIn at h
  split_ifs at h
  · cases h
    exact nil_prefix
  · cases hr : s.log.readRange start max maxBytes with
    | error e => simp [hr, Except.mapError] at h
    | ok out =>
      rw [hr] at h
      cases h
      exact hwf.readRange_front hcut hr

omit [Compression] in
/-- What the engine serves raw: a run, and a tail that begins where the run ends. -/
theorem streamFetchRawIn_front {max : Nat} {maxBytes : Option Nat} {raw : RangeLog.RawRun}
    {tail : List OwnedRecord} (hwf : s.log.Wf) (hcut : maxBytes = none ∨ s.log.Dense)
    (h : s.streamFetchRawIn start max maxBytes = .ok (raw, tail)) :
    ∃ rs, raw.Front s.log start rs
      ∧ (raw = .empty start ∨ ∃ t, s.log.readRangeRaw start max maxBytes = .ok (raw, t))
      ∧ tail <+: ((s.log.visible start).drop rs.length).map SlotRecord.record := by
  unfold streamFetchRawIn at h
  split_ifs at h
  · cases h
    exact ⟨[], .empty _ _, .inl rfl, nil_prefix⟩
  · cases hr : s.log.readRangeRaw start max maxBytes with
    | error e => simp [hr] at h
    | ok p =>
      obtain ⟨run, tailFrom⟩ := p
      obtain ⟨rs, hfront, htail⟩ := hwf.readRangeRaw_front hr
      rw [hr] at h
      cases tailFrom with
      | none =>
        cases h
        exact ⟨rs, hfront, .inr ⟨_, rfl⟩, nil_prefix⟩
      | some f =>
        dsimp only at h
        split_ifs at h
        · cases hread : s.log.readRange f (max - run.recordCount) maxBytes with
          | error e => simp [hread] at h
          | ok out =>
            rw [hread] at h
            cases h
            refine ⟨rs, hfront, .inr ⟨_, rfl⟩, ?_⟩
            rw [← htail f rfl]
            exact hwf.readRange_front hcut hread
        · cases h
          exact ⟨rs, hfront, .inr ⟨_, rfl⟩, nil_prefix⟩

/-- What a streaming fetch replies: an error, or a front of the visible records. -/
theorem handleStreamFetch_front {session : StreamSession} {req : StreamFetchBody}
    (hwf : s.log.Wf) (hwhole : session.Whole s.log req.maxBytes) :
    (∃ e, s.handleStreamFetch session req = [.err e])
    ∨ ∃ body delivered, s.handleStreamFetch session req = body ++ [.flowEnd delivered]
      ∧ (∀ f ∈ body, ¬ f.Ends)
      ∧ (body.flatMap bodies).map offset
        <+: s.visibleOffsets req.startOffset := by
  unfold handleStreamFetch
  dsimp only
  generalize hbytes : (if minBudget session.ceilingBytes req.maxBytes = 0 then none
    else some (minBudget session.ceilingBytes req.maxBytes)) = maxBytes
  have hcut : maxBytes = none ∨ s.log.Dense := by
    rcases hwhole.uncut with hd | ⟨hc, hm⟩
    · exact .inr hd
    · refine .inl ?_
      rw [← hbytes, hc, hm]
      rfl
  have hfits {out : List OwnedRecord}
      (hsub : ∀ r ∈ out, r ∈ (s.log.visible req.startOffset).map SlotRecord.record) :
      ∀ r ∈ out, ∀ d, deliverBodyOf session.compressedDeliveryEnabled 0 r = some d →
        d.frameLen ≤ maxFrameLen := by
    intro r hr d hd
    obtain ⟨x, hx, rfl⟩ := mem_map.mp (hsub r hr)
    exact hwhole.records x (mem_filter.mp hx).1 d hd
  split_ifs with hbatch
  · -- a raw batch, and the records of the active segment behind it
    cases hraw :
      s.streamFetchRawIn req.startOffset (min req.maxRecords session.window) maxBytes with
    | error e => exact .inl ⟨_, rfl⟩
    | ok p =>
      obtain ⟨raw, tail⟩ := p
      obtain ⟨rs, hfront, hread, htail⟩ := streamFetchRawIn_front hwf hcut hraw
      obtain ⟨hemit, hends⟩ := emitTailRecords_front (hfits fun r hr =>
        map_subset _ (drop_subset _ _) (htail.subset hr))
      have hoffsets := hemit.trans (map_offset_of_front htail)
      dsimp only [emitStreamRawBatch]
      rw [hfront.count]
      refine .inr ⟨_, _, rfl, ?_⟩
      by_cases hne : rs = []
      · subst hne
        exact ⟨hends, hoffsets⟩
      · have hfit : batchFits raw.bytes := by
          rcases hread with rfl | ⟨t, ht⟩
          · show batchFits [] = true
            decide
          · exact hwhole.runs hbatch _ _ _ _ _ (min_le_right ..) ht
        rw [if_neg (by simpa using hne), if_pos hfit]
        constructor
        · rintro f hf
          rcases mem_cons.mp hf with rfl | hf
          · exact id
          · exact hends f hf
        · -- the tail goes on where the batch ends
          have hsplit : s.log.visible req.startOffset
              = rs ++ (s.log.visible req.startOffset).drop rs.length := by
            obtain ⟨rest, hrest⟩ := hfront.front
            rw [← hrest, drop_left]
          have hrun := map_offset_batch hwf hfront hne
          rw [hfront.count] at hrun
          rw [visibleOffsets, hsplit, map_append, flatMap_append, map_append,
            flatMap_singleton, hrun]
          exact (prefix_append_right_inj _).mpr hoffsets
  · cases hread : s.streamFetchIn req.startOffset (min req.maxRecords session.window) maxBytes with
    | error e => exact .inl ⟨_, rfl⟩
    | ok records =>
      have hfront := streamFetchIn_front hwf hcut hread
      obtain ⟨hemit, hends⟩ := emitTailRecords_front (hfits fun r hr => hfront.subset hr)
      exact .inr ⟨_, _, rfl, hends, hemit.trans (map_offset_of_front hfront)⟩

end StreamServer

/-- A streaming fetch that is answered and read returns a front of the visible records. -/
theorem StreamServer.fetch_front {s : StreamServer} {session : StreamSession}
    {req : StreamFetchBody} (hwf : s.log.Wf) (hwhole : session.Whole s.log req.maxBytes)
    (h : readFetchResponse limit maxAggregate (s.handleStreamFetch session req) = .ok fetch) :
    fetch.messages.map Message.offset <+: s.visibleOffsets req.startOffset := by
  rcases handleStreamFetch_front hwf hwhole with ⟨e, he⟩ | ⟨body, n, hbody, hends, hfront⟩
  · rw [he] at h
    cases h
  · rw [hbody] at h
    rw [(readFetchResponse_messages hends h).map_offset]
    exact hfront

end IronBus
