import IronBus.Spec.SegmentReaderCorrect
import IronBus.Spec.SegmentWriterCorrect

/-!
# What a barrier covered survives

A writer writes only behind what a barrier has covered.

Key results:
- `Behind.run`, `Behind.crash`: these bytes stay through every later call, at every point where a
  crash can find it
- `synced_records_survive`: a reader of what a crash left finds the records in them
-/

namespace IronBus

open List Prog Stored

namespace SegmentWriter

/-! ## Covered bytes -/

/-- The file starts with `b`, which a barrier has covered. -/
def Covered (id : Nat) (b : Bytes) (d : Disk) : Prop :=
  ∃ f, d.files.get id = some f ∧ b <+: f.live.take f.stable

/-- The covered bytes `b` are in front of all that the writer has yet to write. -/
structure Behind (id : Nat) (b : Bytes) (s : Disk × SegmentWriter) : Prop where
  covered : Covered id b s.1
  same : s.2.header.segmentId = id
  base : b.length ≤ s.2.pendingBase
  pos : b.length ≤ s.2.writePos

variable {id : Nat} {b : Bytes} {s : Disk × SegmentWriter}

/-- A write behind the covered bytes leaves them covered, whether it fails or not. -/
theorem Covered.writeAllAt {d : Disk} (h : Covered id b d) {off : Nat} (hoff : b.length ≤ off)
    (buf : Bytes) : Keeps (Disk.writeAllAt id buf off) d (Covered id b) := by
  obtain ⟨f, hf, hb⟩ := h
  obtain ⟨hlive, hstable⟩ := prefix_take_iff.mp hb
  have hpad : b <+: (f.live.padTo off).take off :=
    prefix_take_iff.mpr ⟨hlive.trans (prefix_append _ _), hoff⟩
  have hwrite : ∀ (d' : Disk) buf, d'.files = d.files →
      Covered id b (Disk.updateFile id (File.write off buf) d').2 := by
    intro d' buf hd
    rw [Disk.updateFile, hd, hf]
    refine ⟨_, NatMap.get_insert_self .., prefix_take_iff.mpr ⟨?_, Nat.le_min.mpr ⟨hstable, hoff⟩⟩⟩
    rw [File.write, Bytes.writeAt, append_assoc]
    exact hpad.trans (prefix_append _ _)
  rw [Disk.writeAllAt, Disk.fallible, keeps_effect]
  split <;> exact hwrite _ _ rfl

theorem Behind.flushPending (h : Behind id b s) : Keeps flushPending s (Behind id b) := by
  obtain ⟨hcovered, rfl, hbase, hpos⟩ := h
  simp only [flushPending, wp_bind, wp_gets, wp_ite, wp_pure, onDisk, wp_zoom,
    wp_modify]
  refine ⟨fun _ => ⟨hcovered, rfl, hbase, hpos⟩, fun _ => ?_⟩
  exact wp_mono (hcovered.writeAllAt hbase _) (fun _ _ hd => ⟨hd, rfl, hpos, hpos⟩)
    (fun _ _ hd => ⟨hd, rfl, hbase, hpos⟩) fun _ hd => ⟨hd, rfl, hbase, hpos⟩

theorem Behind.finishAppend {w : SegmentWriter} {stop : Nat} (h : Behind id b s)
    (hw : b.length ≤ w.writePos) (hstop : b.length ≤ stop) (frame : Bytes)
    (seq timestampMs offset : Nat) :
    Keeps (finishAppend w frame stop seq timestampMs offset) s (Behind id b) := by
  have hstaged : Behind id b (s.1, { s.2 with writePos := stop }) :=
    ⟨h.covered, h.same, h.base, hstop⟩
  simp only [SegmentWriter.finishAppend, Keeps, wp_bind, wp_modify, wp_ite, wp_attempt, wp_pure,
    wp_fail]
  refine ⟨fun _ => ?_, fun _ => ⟨h.covered, h.same, h.base, hstop⟩⟩
  exact wp_mono hstaged.flushPending (fun _ _ ht => ⟨ht.covered, ht.same, ht.base, ht.pos⟩)
    (fun _ _ ht => ⟨ht.covered, ht.same, ht.base, hw⟩) fun _ ht => ht

theorem le_of_checkedAdd {m n stop : Nat} (h : checkedAdd m n = some stop) : m ≤ stop := by
  simp only [checkedAdd, Option.ite_none_right_eq_some, Option.some.injEq] at h
  omega

theorem Behind.appendFrame (h : Behind id b s) (frame : Bytes) (seq timestampMs : Nat) :
    Keeps (appendFrame frame seq timestampMs) s (Behind id b) := by
  have hbuffered : Behind id b (s.1, { s.2 with pending := s.2.pending ++ frame }) :=
    ⟨h.covered, h.same, h.base, h.pos⟩
  simp only [SegmentWriter.appendFrame, Keeps, wp_bind, wp_gets, wp_ite, wp_fail]
  refine ⟨fun _ => h, fun _ => ?_⟩
  cases checkedAdd s.2.header.baseOffset s.2.recordCount with
  | none => exact wp_fail.mpr h
  | some offset =>
    simp only [wp_bind, wp_modify]
    cases hstop : checkedAdd s.2.writePos frame.length with
    | none => exact wp_fail.mpr hbuffered
    | some stop =>
      exact hbuffered.finishAppend h.pos (h.pos.trans (le_of_checkedAdd hstop)) frame seq
        timestampMs offset

/-- A successful barrier covers everything that was appended. -/
theorem Holds.sync (h : Holds s b) : wp sync s (fun _ => Behind s.2.header.segmentId b)
    (fun _ _ => True) fun _ => True := by
  have hflushed : wp flushPending s (fun _ t => Holds t b ∧ t.2.pending = []
      ∧ t.2.header = s.2.header) (fun _ _ => True) fun _ => True := by
    have hholds := h.flush
    rw [wp]
    obtain ⟨hp, heq⟩ | ⟨out, d', tr, heq, -⟩ := flushPending_cases s
    · rw [heq]
      exact ⟨⟨h, hp, rfl⟩, fun _ _ => trivial⟩
    · rw [heq] at hholds ⊢
      cases out with
      | ok u => exact ⟨⟨hholds, rfl, rfl⟩, fun _ _ => trivial⟩
      | error e => exact ⟨trivial, fun _ _ => trivial⟩
  simp only [SegmentWriter.sync, wp_bind, wp_gets, onDisk, wp_zoom, Disk.syncData, Disk.fallible,
    wp_effect, and_true]
  refine wp_mono hflushed ?_ (fun _ _ _ => trivial) fun _ _ => trivial
  rintro - t ⟨⟨f, hf, hbase, hcat, hlen⟩, hp, hheader⟩
  rw [hp, append_nil] at hcat
  have hpos : b.length = t.2.pendingBase := by
    rw [← hcat, length_take, min_eq_left hbase]
  have hcovered : ∀ d : Disk, d.files = t.1.files →
      Ends (Disk.updateFile t.2.header.segmentId File.sync d).1
        (Disk.updateFile t.2.header.segmentId File.sync d).2
        (fun _ d => Behind s.2.header.segmentId b (d, t.2)) fun _ _ => True := by
    intro d hd
    rw [Disk.updateFile, hd, hf, hheader]
    refine ⟨⟨_, NatMap.get_insert_self .., ?_⟩, by rw [hheader], hpos.le, hlen.le⟩
    rw [File.sync, take_length, ← hcat]
    exact List.take_prefix _ _
  split
  · exact hcovered _ rfl
  · exact hcovered _ rfl
  · trivial

section Calls

variable [Checksums]

theorem Behind.appendAt (h : Behind id b s) (offset : Nat) (rec : RecordView) (subject : Bytes) :
    Keeps (appendAt offset rec subject) s (Behind id b) := by
  simp only [SegmentWriter.appendAt, Keeps, wp_bind, wp_gets, wp_ite, wp_fail]
  refine ⟨fun _ => h, fun _ => ?_⟩
  cases Codec.encode rec subject [] with
  | error e => exact wp_fail.mpr h
  | ok frame =>
    have hbuffered : Behind id b (s.1, { s.2 with pending := s.2.pending ++ frame }) :=
      ⟨h.covered, h.same, h.base, h.pos⟩
    simp only [wp_bind, wp_modify]
    cases hstop : checkedAdd s.2.writePos frame.length with
    | none => exact wp_bind.mpr (wp_modify.mpr (wp_fail.mpr ⟨h.covered, h.same, h.base, h.pos⟩))
    | some stop =>
      exact hbuffered.finishAppend h.pos (h.pos.trans (le_of_checkedAdd hstop)) frame rec.seq
        rec.timestampMs offset

theorem Behind.run (h : Behind id b s) (op : WriterOp) : Keeps op.run s (Behind id b) := by
  cases op with
  | encoded rec subject streamTag =>
    rw [WriterOp.run, appendEncoded]
    cases Codec.encode rec subject streamTag with
    | error e => exact wp_fail.mpr h
    | ok frame => exact h.appendFrame frame rec.seq rec.timestampMs
  | verbatim frame seq timestampMs => exact h.appendFrame frame seq timestampMs
  | «at» offset rec subject => exact h.appendAt offset rec subject
  | flush =>
    simp only [WriterOp.run, Keeps, wp_bind, wp_pure]
    exact h.flushPending

/-- The states in which a crash can find a run of calls. -/
def CrashIn : List WriterOp → Disk × SegmentWriter → Disk × SegmentWriter → Prop
  | [], s, t => t = s
  | op :: ops, s, t => t = s ∨ t ∈ (op.run s).trail ∨ CrashIn ops (op.run s).st t

theorem Behind.crash (h : Behind id b s) {ops : List WriterOp} {t : Disk × SegmentWriter}
    (ht : CrashIn ops s t) : Behind id b t := by
  induction ops generalizing s with
  | nil => exact ht ▸ h
  | cons op ops ih =>
    obtain rfl | ht | ht := ht
    · exact h
    · exact (h.run op).2 t ht
    · exact ih (h.run op).st ht

/-- What was appended before a successful barrier survives every later call and a crash at any point
of it: a reader opens what is left of the file, whatever bytes follow the covered ones, and its walk
starts with these records. -/
theorem synced_records_survive {h : SegmentHeader} (hfits : h.Fits) {s t : Disk × SegmentWriter}
    {old new : List Stored} {ops later : List WriterOp} (hstart : Holds s (h.encode ++ flat old))
    (hfit : AllFit ops s) (hnew : (runOps ops s).1 = flat new)
    (hsync : (sync (runOps ops s).2).out = .ok ())
    (hcrash : CrashIn later (sync (runOps ops s).2).st t) :
    ∃ f, t.1.files.get t.2.header.segmentId = some f ∧ ∀ image, f.live.take f.stable <+: image →
      SegmentReader.openFile image = .ok ⟨h, image⟩
        ∧ (old ++ new).map frame <+: frames (image.drop segmentHeaderLen) := by
  have hsynced := (hstart.runOps hfit).sync.of_ok hsync
  obtain ⟨⟨f, hf, hb⟩, hid, -, -⟩ := hsynced.crash hcrash
  rw [hid]
  refine ⟨f, hf, fun image himage => ?_⟩
  obtain ⟨rest, rfl⟩ := hb.trans himage
  rw [hnew, append_assoc h.encode, flat, flat, ← flatMap_append, ← flat, append_assoc]
  refine ⟨?_, ?_⟩
  · have hdec := SegmentHeader.decode_encode hfits
    rw [SegmentReader.openFile, if_neg (by simp), Bytes.readAt_append_left (by simp), hdec]
  · rw [drop_left' (SegmentHeader.length_encode h), frames_flat_append]
    exact prefix_append _ _

end Calls

/-! ## A concrete run -/

local instance crashChecksums : Checksums := ⟨castagnoli, fun _ => 0⟩

def firstHeader : SegmentHeader := ⟨0, 0, 0, 0, 0⟩

theorem oneByte_fits : [(7 : UInt8)].length < 2 ^ 29 := by decide

/-- A record with one byte. -/
def oneByte : Stored := .ofPayload [7] oneByte_fits

/-- A new segment whose third write fails after one byte. -/
def newSegment : Disk × SegmentWriter :=
  ((create firstHeader { Disk.empty [none, none, none, some 1] false with
    files := NatMap.empty.insert 0 ⟨[], 0⟩ }).st, started firstHeader)

def synced : Disk × SegmentWriter :=
  (sync (runOps [.verbatim oneByte.bytes 0 0] newSegment).2).st

def tornAppend : List WriterOp := [.verbatim oneByte.bytes 1 0, .flush]

/-- A record is appended and synced; of the next one a byte reaches the file before a crash. -/
theorem synced_record_survives_torn_write :
    ∃ f, (runOps tornAppend synced).2.1.files.get 0 = some f
      ∧ ∀ image, f.live.take f.stable <+: image →
        SegmentReader.openFile image = .ok ⟨firstHeader, image⟩
          ∧ [oneByte.frame] <+: frames (image.drop segmentHeaderLen) := by
  have hholds : Holds newSegment (firstHeader.encode ++ flat []) :=
    ⟨⟨firstHeader.encode, 0⟩, rfl, by decide, rfl, rfl⟩
  have hfit : AllFit [.verbatim oneByte.bytes 0 0] newSegment :=
    ⟨fun h => absurd h.2.2.2 (by decide), trivial⟩
  have hcrash : CrashIn tornAppend synced (runOps tornAppend synced).2 :=
    .inr (.inr (.inr (.inr rfl)))
  have hnew : (runOps [.verbatim oneByte.bytes 0 0] newSegment).1 = flat [oneByte] := rfl
  exact synced_records_survive ⟨by decide, by decide, by decide, by decide, by decide⟩ hholds hfit
    hnew rfl hcrash

end SegmentWriter

end IronBus
