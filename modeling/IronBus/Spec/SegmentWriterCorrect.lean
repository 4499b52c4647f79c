import IronBus.Native.SegmentWriter

/-!
# Appends that fail

A frame goes into the writer's buffer before it is known whether it fits and whether a spill of
the buffer succeeds.

Key results:
- `appendFrame_outcome`, `appendAt_outcome`: what is written and buffered after a call
- `failed_append_iff`: a failed append takes the frame out again, except where the file position
  would pass the width of a `u64`: only `appendAt` does so there
-/

namespace IronBus

namespace SegmentWriter

open List Prog

/-- The file up to where the buffer belongs, and then the buffer, are `b`. -/
def Holds (s : Disk × SegmentWriter) (b : Bytes) : Prop :=
  ∃ f, s.1.files.get s.2.header.segmentId = some f ∧ s.2.pendingBase ≤ f.live.length
    ∧ f.live.take s.2.pendingBase ++ s.2.pending = b ∧ b.length = s.2.writePos

variable {s : Disk × SegmentWriter} {b : Bytes}

/-! ## Writing the buffer out -/

/-- A write into a file at most as far as it reaches. -/
theorem take_writeAt {f buf : Bytes} {off : Nat} (h : off ≤ f.length) :
    (f.writeAt off buf).take off = f.take off
      ∧ (f.writeAt off buf).take (off + buf.length) = f.take off ++ buf := by
  have hpad : (f.padTo off).take off = f.take off := by
    rw [Bytes.padTo, take_append_of_le_length h]
  have hlen : (f.take off ++ buf).length = off + buf.length := by
    rw [length_append, length_take, min_eq_left h]
  rw [Bytes.writeAt, hpad]
  constructor
  · rw [append_assoc, take_append_of_le_length (by rw [length_take]; omega),
      take_take, Nat.min_self]
  · rw [take_append_of_le_length hlen.ge, take_of_length_le hlen.le]

/-- A write to a file that exists: all of the buffer reaches it, or the write fails with some. -/
theorem writeAllAt_cases (id : Nat) (buf : Bytes) (off : Nat) (d : Disk) :
    ∃ out d' tr, Disk.writeAllAt id buf off d = ⟨out, d', tr⟩
      ∧ ∀ f, d.files.get id = some f → ∃ buf' stable,
        d'.files.get id = some ⟨f.live.writeAt off buf', stable⟩ ∧ (out = .ok () → buf' = buf) := by
  refine ⟨_, _, _, rfl, fun f hf => ?_⟩
  have hget : ∀ (d : Disk) (g : File → File), d.files.get id = some f →
      (Disk.updateFile id g d).2.files.get id = some (g f) := by
    intro d g hd
    rw [Disk.updateFile, hd]
    exact NatMap.get_insert_self ..
  dsimp only
  split
  · exact ⟨buf, _, hget d _ hf, fun _ => rfl⟩
  · exact ⟨buf, _, hget _ _ hf, fun _ => rfl⟩
  · exact ⟨_, _, hget _ _ hf, nofun⟩

/-- A write-out empties the buffer or, if it fails, leaves the writer as it was. -/
theorem flushPending_cases (s : Disk × SegmentWriter) :
    (s.2.pending = [] ∧ flushPending s = ⟨.ok (), s, []⟩)
      ∨ ∃ out d' tr, flushPending s = ⟨out, (d', match out with
          | .ok () => { s.2 with pendingBase := s.2.writePos, pending := [] }
          | .error _ => s.2), tr⟩
        ∧ ∀ f, s.1.files.get s.2.header.segmentId = some f → ∃ buf stable,
          d'.files.get s.2.header.segmentId = some ⟨f.live.writeAt s.2.pendingBase buf, stable⟩
            ∧ (out = .ok () → buf = s.2.pending) := by
  obtain ⟨d, w⟩ := s
  by_cases hp : w.pending = []
  · refine .inl ⟨hp, ?_⟩
    simp only [flushPending, bind, andThen, gets, hp, if_true]
    rfl
  · right
    obtain ⟨out, d', tr, heq, hfile⟩ :=
      writeAllAt_cases w.header.segmentId w.pending w.pendingBase d
    refine ⟨out, d', tr.map (·, w), ?_, hfile⟩
    simp only [flushPending, bind, andThen, gets, hp, if_false, onDisk, zoom, heq]
    cases out <;> simp [Prog.modify]

theorem flushPending_error {e : StorageError} (h : (flushPending s).out = .error e) :
    (flushPending s).st.2 = s.2 := by
  obtain ⟨-, heq⟩ | ⟨out, d', tr, heq, -⟩ := flushPending_cases s
  · rw [heq]
  · rw [heq] at h ⊢
    cases h
    rfl

/-- A write-out, successful or not, leaves what the file and the buffer hold. -/
theorem Holds.flush (h : Holds s b) : Holds (flushPending s).st b := by
  obtain ⟨f, hf, hbase, hb, hlen⟩ := h
  have hpos : s.2.pendingBase + s.2.pending.length = s.2.writePos := by
    rw [← hlen, ← hb, length_append, length_take, min_eq_left hbase]
  obtain ⟨-, heq⟩ | ⟨out, d', tr, heq, hfile⟩ := flushPending_cases s
  · rw [heq]
    exact ⟨f, hf, hbase, hb, hlen⟩
  · obtain ⟨buf, stable, hf', hbuf⟩ := hfile f hf
    have hgrown : f.live.length ≤ (f.live.writeAt s.2.pendingBase buf).length := by simp
    rw [heq]
    cases out with
    | error e => exact ⟨_, hf', hbase.trans hgrown, by rw [(take_writeAt hbase).1, hb], hlen⟩
    | ok u =>
      obtain rfl := hbuf rfl
      refine ⟨_, hf', ?_, ?_, hlen⟩
      · simp only [Bytes.length_writeAt, hpos]
        exact le_max_right ..
      · simp only [← hpos, (take_writeAt hbase).2, append_nil, hb]

/-! ## One call -/

/-- An append of a frame that passes the checks of the count and the offset and ends behind the last
position of a file. -/
def FrameOverflows (w : SegmentWriter) (frame : Bytes) : Prop :=
  w.recordCount ≠ u32Max ∧ w.header.baseOffset + w.recordCount ≤ u64Max ∧ frame ≠ []
    ∧ u64Max < w.writePos + frame.length

/-- How an append can end: it fails and changes nothing, it fails and leaves its frame, or it
succeeds. -/
inductive Outcome (s : Disk × SegmentWriter) (frame : Bytes) (overflows : Prop)
    (r : Run (Disk × SegmentWriter) StorageError Nat) : Prop
  | failed {e : StorageError} (out : r.out = .error e) (writer : r.st.2 = s.2)
    (fits : ¬ overflows) (holds : ∀ b, Holds s b → Holds r.st b)
  | left {e : StorageError} (out : r.out = .error e) (writer : r.st.2 ≠ s.2) (hover : overflows)
  | done {n : Nat} (out : r.out = .ok n) (holds : ∀ b, Holds s b → Holds r.st (b ++ frame))

/-- A call that fails before it touches anything. -/
theorem Outcome.refused {frame : Bytes} {overflows : Prop} {e : StorageError} (h : ¬ overflows) :
    Outcome s frame overflows ⟨.error e, s, []⟩ :=
  .failed rfl rfl h fun _ hb => hb

/-- The frame is in the buffer and fits. -/
theorem finishAppend_outcome {frame : Bytes} {overflows : Prop} (hfits : ¬ overflows)
    (seq timestampMs offset : Nat) :
    Outcome s frame overflows (finishAppend s.2 frame (s.2.writePos + frame.length) seq timestampMs
      offset (s.1, { s.2 with pending := s.2.pending ++ frame })) := by
  obtain ⟨d, w⟩ := s
  let staged : SegmentWriter :=
    { w with pending := w.pending ++ frame, writePos := w.writePos + frame.length }
  have hstaged : ∀ b, Holds (d, w) b → Holds (d, staged) (b ++ frame) := by
    rintro b ⟨f, hf, hbase, rfl, hlen⟩
    refine ⟨f, hf, hbase, (append_assoc ..).symm, ?_⟩
    rw [length_append, hlen]
  by_cases hspill : pendingSpillBytes ≤ w.pending.length + frame.length
  · rcases hflush : flushPending (d, staged) with ⟨out, ⟨d', w'⟩, tr⟩
    have hholds : ∀ b, Holds (d, w) b → Holds (d', w') (b ++ frame) := fun b hb => by
      simpa only [hflush] using (hstaged b hb).flush
    have hspilled : flushPending (d, { w with
        pending := w.pending ++ frame, writePos := staged.writePos }) = _ := hflush
    cases out with
    | ok u =>
      simp only [finishAppend, bind, Prog.andThen, Prog.modify, hspill, if_true, Prog.attempt]
      simp only [show w.writePos + frame.length = staged.writePos from rfl, hspilled]
      exact .done rfl hholds
    | error e =>
      obtain rfl : w' = staged := by
        simpa only [hflush] using flushPending_error (congrArg Prog.Run.out hflush)
      have hback : { staged with
          pending := staged.pending.take w.pending.length, writePos := w.writePos } = w := by
        simp [staged]
      simp only [finishAppend, bind, Prog.andThen, Prog.modify, hspill, if_true, Prog.attempt]
      simp only [show w.writePos + frame.length = staged.writePos from rfl, hspilled]
      simp only [Prog.andThen, Prog.modify, Prog.fail, hback]
      refine .failed rfl rfl hfits fun b hb => ?_
      obtain ⟨f, hf, hbase, hcat, -⟩ := hholds b hb
      obtain ⟨-, -, -, -, hlen⟩ := hb
      exact ⟨f, hf, hbase, append_cancel_right ((append_assoc ..).trans hcat), hlen⟩
  · simp only [finishAppend, bind, Prog.andThen, Prog.modify, hspill, if_false]
    exact .done rfl hstaged

theorem appendFrame_outcome (s : Disk × SegmentWriter) (frame : Bytes) (seq timestampMs : Nat) :
    Outcome s frame (s.2.FrameOverflows frame) (appendFrame frame seq timestampMs s) := by
  obtain ⟨d, w⟩ := s
  simp only [appendFrame, bind, andThen, gets]
  by_cases hcount : w.recordCount = u32Max
  · simp only [hcount, if_true]
    exact .refused fun h => h.1 hcount
  simp only [hcount, if_false]
  by_cases hoffset : w.header.baseOffset + w.recordCount ≤ u64Max
  · rw [checkedAdd, if_pos hoffset]
    by_cases hpos : w.writePos + frame.length ≤ u64Max
    · have hfits : ¬ w.FrameOverflows frame := fun h => absurd hpos (not_le.mpr h.2.2.2)
      have hfinish := @finishAppend_outcome (d, w) frame _ hfits seq timestampMs
        (w.header.baseOffset + w.recordCount)
      simpa [checkedAdd, hpos, finishAppend, Prog.modify, bind, Prog.andThen] using hfinish
    · have hrun : checkedAdd w.writePos frame.length = none := if_neg hpos
      simp only [hrun, nil_append]
      by_cases hframe : frame = []
      · subst hframe
        simp only [append_nil]
        exact .refused fun h => h.2.2.1 rfl
      · refine .left rfl (fun h => hframe ?_)
          ⟨hcount, hoffset, hframe, not_le.mp hpos⟩
        exact append_right_eq_self.mp (congrArg pending h)
  · rw [checkedAdd, if_neg hoffset]
    exact .refused fun h => hoffset h.2.1

section Calls

variable [Checksums]

/-- An append at an offset never leaves its frame behind. -/
theorem appendAt_outcome (s : Disk × SegmentWriter) (offset : Nat) (rec : RecordView)
    (subject : Bytes) :
    Outcome s ((Codec.encode rec subject []).toOption.getD []) False
      (appendAt offset rec subject s) := by
  obtain ⟨d, w⟩ := s
  simp only [appendAt, bind, andThen, gets]
  by_cases hcount : w.recordCount = u32Max
  · simp only [hcount, if_true]
    exact .refused not_false
  simp only [hcount, if_false]
  cases Codec.encode rec subject [] with
  | error e => exact .refused not_false
  | ok frame =>
    by_cases hpos : w.writePos + frame.length ≤ u64Max
    · have hfinish := @finishAppend_outcome (d, w) frame _ not_false rec.seq rec.timestampMs
        offset
      simpa [checkedAdd, hpos, Prog.modify, Prog.andThen, Except.toOption] using hfinish
    · have hrun : checkedAdd w.writePos frame.length = none := if_neg hpos
      simp only [hrun, Prog.modify, Prog.andThen, Prog.fail, take_left, nil_append]
      exact .refused not_false

/-! ## Runs -/

/-- A call to a writer. -/
inductive WriterOp where
  | encoded (rec : RecordView) (subject streamTag : Bytes)
  | verbatim (frame : Bytes) (seq timestampMs : Nat)
  | at (offset : Nat) (rec : RecordView) (subject : Bytes)
  | flush

namespace WriterOp

def run : WriterOp → WriterM Nat
  | .encoded rec subject streamTag => appendEncoded rec subject streamTag
  | .verbatim frame seq timestampMs => appendVerbatim frame seq timestampMs
  | .at offset rec subject => appendAt offset rec subject
  | .flush => do
    flushPending
    return 0

/-- The frame a call appends; empty if the codec refuses the record. -/
def frame : WriterOp → Bytes
  | .encoded rec subject streamTag => (Codec.encode rec subject streamTag).toOption.getD []
  | .verbatim frame _ _ => frame
  | .at _ rec subject => (Codec.encode rec subject []).toOption.getD []
  | .flush => []

/-- A call that ends with its frame in the buffer though it fails. -/
def Overflows (op : WriterOp) (w : SegmentWriter) : Prop :=
  match op with
  | .encoded .. | .verbatim .. => w.FrameOverflows op.frame
  | .at .. | .flush => False

/-- What a call appended. -/
def written (op : WriterOp) (s : Disk × SegmentWriter) : Bytes :=
  match (op.run s).out with
  | .ok _ => op.frame
  | .error _ => []

end WriterOp

/-- The frames of the calls that succeeded, and the state a run ends in. -/
def runOps : List WriterOp → Disk × SegmentWriter → Bytes × Disk × SegmentWriter
  | [], s => ([], s)
  | op :: ops, s =>
    let rest := runOps ops (op.run s).st
    (op.written s ++ rest.1, rest.2)

/-- No call of a run overflows. -/
def AllFit : List WriterOp → Disk × SegmentWriter → Prop
  | [], _ => True
  | op :: ops, s => ¬ op.Overflows s.2 ∧ AllFit ops (op.run s).st

theorem run_outcome (op : WriterOp) (s : Disk × SegmentWriter) :
    Outcome s op.frame (op.Overflows s.2) (op.run s) := by
  cases op with
  | encoded rec subject streamTag =>
    simp only [WriterOp.run, appendEncoded, WriterOp.Overflows, WriterOp.frame]
    cases Codec.encode rec subject streamTag with
    | error e => exact .refused fun h => h.2.2.1 rfl
    | ok frame => exact appendFrame_outcome s frame rec.seq rec.timestampMs
  | verbatim frame seq timestampMs => exact appendFrame_outcome s frame seq timestampMs
  | «at» offset rec subject => exact appendAt_outcome s offset rec subject
  | flush =>
    have hholds : ∀ b, Holds s b → Holds (flushPending s).st b := fun _ h => h.flush
    simp only [WriterOp.run, bind, andThen]
    rcases hflush : flushPending s with ⟨_ | _, s', tr⟩ <;> rw [hflush] at hholds
    · exact .failed rfl (by simpa only [hflush] using flushPending_error (congrArg _ hflush))
        not_false hholds
    · exact .done rfl fun b hb => by rw [WriterOp.frame, append_nil]; exact hholds b hb

/-- The file and the buffer hold the frames of the calls that succeeded. -/
theorem Holds.runOps (h : Holds s b) {ops : List WriterOp} (hfit : AllFit ops s) :
    Holds (runOps ops s).2 (b ++ (runOps ops s).1) := by
  induction ops generalizing s b with
  | nil => simpa only [SegmentWriter.runOps, append_nil] using h
  | cons op ops ih =>
    obtain ⟨hop, hrest⟩ := hfit
    simp only [SegmentWriter.runOps, WriterOp.written]
    cases run_outcome op s with
    | failed hout _ _ hholds =>
      rw [hout, nil_append]
      exact ih (hholds b h) hrest
    | left _ _ hover => exact absurd hover hop
    | done hout hholds =>
      rw [hout, ← append_assoc]
      exact ih (hholds b h) hrest

/-- A failed append, encoded, verbatim or at an offset, leaves the writer as it was exactly if it
did not run out of file positions. In a run whose calls all fit, after any mixture of failed and
successful calls that a successful write-out ends, the file holds what it held and then the frames
of the successful appends. -/
theorem failed_append_iff :
    (∀ (op : WriterOp) (s : Disk × SegmentWriter) (e : StorageError), (op.run s).out = .error e →
      ((op.run s).st.2 = s.2 ↔ ¬ op.Overflows s.2))
    ∧ ∀ (ops : List WriterOp) (s : Disk × SegmentWriter) (b : Bytes), Holds s b → AllFit ops s →
      (flushPending (runOps ops s).2).out = .ok () →
      ∃ f, (flushPending (runOps ops s).2).st.1.files.get
          (flushPending (runOps ops s).2).st.2.header.segmentId = some f
        ∧ f.live.take (flushPending (runOps ops s).2).st.2.writePos = b ++ (runOps ops s).1 := by
  refine ⟨fun op s e he => ?_, fun ops s b h hfit hflushed => ?_⟩
  · cases run_outcome op s with
    | failed _ hwriter hfits => exact iff_of_true hwriter hfits
    | left _ hwriter hover => exact iff_of_false hwriter (not_not.mpr hover)
    | done hout =>
      rw [hout] at he
      cases he
  · obtain ⟨f, hf, hbase, hcat, hlen⟩ := (h.runOps hfit).flush
    have hempty : (flushPending (runOps ops s).2).st.2.pending = [] := by
      obtain ⟨hp, heq⟩ | ⟨out, d', tr, heq, -⟩ := flushPending_cases (runOps ops s).2
      · rw [heq, hp]
      · rw [heq] at hflushed ⊢
        cases hflushed
        rfl
    rw [hempty, List.append_nil] at hcat
    refine ⟨f, hf, ?_⟩
    rw [← hlen, ← hcat, List.length_take, min_eq_left hbase]

end Calls

/-! ## Concrete runs -/

local instance writerChecksums : Checksums := ⟨castagnoli, fun _ => 0⟩

/-- A writer at a position of a file with three bytes, whose next write fails after one byte. -/
def writerAt (pos : Nat) : Disk × SegmentWriter :=
  ({ Disk.empty [some 1] false with files := NatMap.empty.insert 0 ⟨[1, 2, 3], 3⟩ },
    resume ⟨0, 0, 0, 0, 0⟩ pos 0 0 0)

def torn : List WriterOp := [.verbatim [7, 8] 0 0, .flush, .verbatim [9] 1 0]

/-- A write-out that fails after one byte between two appends loses nothing. -/
theorem torn_flush_repaired :
    Holds (writerAt 3) [1, 2, 3] ∧ (WriterOp.flush.run ((WriterOp.verbatim [7, 8] 0 0).run
        (writerAt 3)).st).out = .error (.io .other)
      ∧ ∃ f, (flushPending (runOps torn (writerAt 3)).2).st.1.files.get
          (flushPending (runOps torn (writerAt 3)).2).st.2.header.segmentId = some f
        ∧ f.live.take (flushPending (runOps torn (writerAt 3)).2).st.2.writePos
          = [1, 2, 3] ++ [7, 8, 9] := by
  have hholds : Holds (writerAt 3) [1, 2, 3] := ⟨⟨[1, 2, 3], 3⟩, rfl, by decide, rfl, rfl⟩
  have hfit : AllFit torn (writerAt 3) :=
    ⟨fun h => absurd h.2.2.2 (by decide), not_false, fun h => absurd h.2.2.2 (by decide), trivial⟩
  exact ⟨hholds, rfl, failed_append_iff.2 torn (writerAt 3) [1, 2, 3] hholds hfit rfl⟩

/-- One position before the end of the file positions, a frame of two bytes is refused and stays in
the buffer, in front of the next one. -/
theorem refused_frame_stays :
    ((WriterOp.verbatim [7, 8] 0 0).run (writerAt (u64Max - 1))).out = .error .segmentFull
      ∧ (writerAt (u64Max - 1)).2.pending = []
      ∧ ((WriterOp.verbatim [7, 8] 0 0).run (writerAt (u64Max - 1))).st.2.pending = [7, 8]
      ∧ (runOps [.verbatim [7, 8] 0 0, .verbatim [9] 1 0] (writerAt (u64Max - 1))).1 = [9]
      ∧ (runOps [.verbatim [7, 8] 0 0, .verbatim [9] 1 0] (writerAt (u64Max - 1))).2.2.pending
        = [7, 8, 9] := ⟨rfl, rfl, rfl, rfl, rfl⟩

end SegmentWriter

end IronBus
