import IronBus.Spec.MetadataCodecCorrect
import IronBus.Spec.MetadataStorageCorrect

/-!
# The snapshots that are served to peers

A snapshot is written with the membership of its index, but served with the membership in force.
These are the same only if the membership changes since have left it as it was. A peer that installs
a snapshot also replaces the members in its state machine by the membership it carries.

A node that restarts takes its membership from the last state record of its log, so the run keeps
beside the node how much was applied when each record was written.

## Key results

- `lastState_marked`: the membership of the last state record, by the mark of the record
- `Runs.inv`: what a node has applied, stored and marked, over all runs
- `metadata_restores`: the metadata state machine gets its snapshots back
- `served_exact_iff`: when a served snapshot is the one of its index
-/

namespace IronBus

namespace ServedSnapshot

open MetadataCore MetadataLogStorage MetadataStorage List

/-! ## Committed entries -/

/-- What the Raft core makes of a membership change, and what the state machine does. -/
structure Machine (S : Type) where
  new : S
  applyConfChange : RaftEntry → ConfState → ConfState
  applyEncoded : RaftEntry → S → S
  setMembership : Nat → ConfState → S → S
  snapshot : S → Bytes
  restoreFromSnapshot : Bytes → S
  snapshot_ne_nil : ∀ x, snapshot x ≠ []
  voters_ne_nil : ∀ e cs, cs.voters ≠ [] → (applyConfChange e cs).voters ≠ []

section

variable {S : Type} (m : Machine S) (seed : List Nat) (hist : List RaftEntry)

def applyEntry (x : ConfState × S) (e : RaftEntry) : ConfState × S :=
  match e.entryType with
  | .normal => if e.data = [] then x else (x.1, m.applyEncoded e x.2)
  | _ =>
    let cs := m.applyConfChange e x.1
    (cs, m.setMembership e.index cs x.2)

/-- The membership and the state machine after the first committed entries. -/
def after (n : Nat) : ConfState × S :=
  (hist.take n).foldl (applyEntry m) ((freshStorage seed).core.confState, m.new)

/-- What a peer has once it has installed a snapshot. -/
def install (snap : RaftSnapshot) : ConfState × S :=
  (snap.confState,
    m.setMembership snap.index snap.confState (m.restoreFromSnapshot snap.data))

/-- The states of a history are what their snapshots are restored to. -/
def Restores : Prop :=
  ∀ n, m.restoreFromSnapshot (m.snapshot (after m seed hist n).2) = (after m seed hist n).2

def termOf (index : Nat) : Option Nat := (hist[index - 1]?).map (·.term)

/-- An index with its term and its bytes. -/
def Cut (x : Nat × Nat × Bytes) : Prop :=
  0 < x.1 → termOf hist x.1 = some x.2.1 ∧ x.2.2 = m.snapshot (after m seed hist x.1).2

/-- A snapshot with the term, the membership and the bytes of its index. A peer that installs it and
applies entries that follow is where the group is after these. -/
structure Exact (snap : RaftSnapshot) : Prop where
  cut : Cut m seed hist (snap.index, snap.term, snap.data)
  confState : snap.confState = (after m seed hist snap.index).1
  follows : ∀ n, snap.index ≤ n →
    ((hist.take n).drop snap.index).foldl (applyEntry m) (install m snap) = after m seed hist n

/-! ## Runs -/

/-- A node: the committed entries it has applied, the applied index of its state machine, which a
leader's empty entry does not move, the state machine, the storage and whether a failed write has
stopped it. -/
structure Node (S : Type) where
  applied : Nat
  appliedIndex : Nat
  state : S
  storage : MetadataLogStorage
  healthFailed : Bool

/-- What a write to the storage leaves. -/
def Node.written (g : Node S) (r : Bool × MetadataLogStorage) : Node S :=
  { g with storage := r.2, healthFailed := !r.1 }

/-- Applies a membership change: the state machine gets it once it is synced. -/
def Node.applyConfChangeEntry (g : Node S) (e : RaftEntry) (io : AppendIo) (fails : Bool) :
    Node S :=
  let cs := m.applyConfChange e g.storage.core.confState
  match g.storage.setConfState io cs with
  | (false, s) => g.written (false, s)
  | (true, s) =>
    match s.sync fails with
    | (false, s) => g.written (false, s)
    | (true, s) => ⟨g.applied + 1, g.applied + 1, m.setMembership e.index cs g.state, s, false⟩

/-- Takes a snapshot of the leader. -/
def Node.installSnapshot (g : Node S) (write : CheckpointWrite) (segments : Nat)
    (snap : RaftSnapshot) : Node S :=
  match g.storage.installReceivedSnapshot write segments snap with
  | (.error _, s) => g.written (false, s)
  | (.ok false, s) => g.written (true, s)
  | (.ok true, s) => ⟨snap.index, snap.index, (install m snap).2, s, false⟩

/-- What a restarted node finds in its snapshot. -/
def recovered (c : MetadataCore) : S :=
  if c.snapshotIndex = 0 ∨ c.snapshotData = [] then m.new
  else m.restoreFromSnapshot c.snapshotData

/-- The marks of a log, where what is new was written for the first `n` entries. -/
def marked (marks : List Nat) (n : Nat) (s : MetadataLogStorage) : List Nat :=
  marks ++ replicate (s.log.records.length - marks.length) n

/-- The marks of what is left of a log that was cut at its front. -/
def unreclaimed (marks : List Nat) (s : MetadataLogStorage) : List Nat :=
  marks.drop (marks.length - s.log.records.length)

/-- The mark of the last state record. -/
def lastMark (rs : List MetaRecord) (marks : List Nat) : Option Nat :=
  (rs.zip marks).foldl (fun o r => match r.1 with
    | .state _ _ => some r.2
    | _ => o) none

/-- The runs of a node, with the number of entries that were applied when each record of its log was
written. A node that a failed write has stopped only restarts. -/
inductive Runs : Node S → List Nat → Prop where
  | start : Runs ⟨0, 0, m.new, freshStorage seed, false⟩ []
  | append {g : Node S} {marks : List Nat} (h : Runs g marks) (hup : g.healthFailed = false)
    (io : AppendIo) (e : RaftEntry) : Runs (g.written (g.storage.appendEntryRecord io e))
      (marked marks g.applied (g.storage.appendEntryRecord io e).2)
  | hardState {g : Node S} {marks : List Nat} (h : Runs g marks) (hup : g.healthFailed = false)
    (io : AppendIo) (hs : HardState) : Runs (g.written (g.storage.setHardState io hs))
      (marked marks g.applied (g.storage.setHardState io hs).2)
  | sync {g : Node S} {marks : List Nat} (h : Runs g marks) (hup : g.healthFailed = false)
    (fails : Bool) : Runs (g.written (g.storage.sync fails)) marks
  | noop {g : Node S} {marks : List Nat} {e : RaftEntry} (h : Runs g marks)
    (hup : g.healthFailed = false) (he : hist[g.applied]? = some e)
    (htype : e.entryType = .normal) (hdata : e.data = []) :
    Runs { g with applied := g.applied + 1 } marks
  | command {g : Node S} {marks : List Nat} {e : RaftEntry} (h : Runs g marks)
    (hup : g.healthFailed = false) (he : hist[g.applied]? = some e)
    (htype : e.entryType = .normal) (hdata : e.data ≠ []) :
    Runs ⟨g.applied + 1, g.applied + 1, m.applyEncoded e g.state, g.storage, false⟩ marks
  | confChange {g : Node S} {marks : List Nat} {e : RaftEntry} (h : Runs g marks)
    (hup : g.healthFailed = false) (he : hist[g.applied]? = some e)
    (htype : e.entryType ≠ .normal) (io : AppendIo) (fails : Bool) :
    Runs (g.applyConfChangeEntry m e io fails)
      (marked marks (g.applied + 1) (g.applyConfChangeEntry m e io fails).storage)
  | snapshot {g : Node S} {marks : List Nat} {term : Nat}
    {answer : Except MetadataStorageError Unit} {s : MetadataLogStorage} (h : Runs g marks)
    (hup : g.healthFailed = false) (write : CheckpointWrite) (segments : Nat)
    (hterm : g.storage.core.termAt g.appliedIndex = some term)
    -- the log holds the entries that were applied
    (hraft : termOf hist g.appliedIndex = some term)
    (hcreate : g.storage.createSnapshotAndCompact write segments g.appliedIndex term
      (m.snapshot g.state) = some (answer, s)) : Runs { g with storage := s } (unreclaimed marks s)
  | received {g : Node S} {marks : List Nat} {snap : RaftSnapshot} (h : Runs g marks)
    (hup : g.healthFailed = false) (write : CheckpointWrite) (segments : Nat)
    (hexact : Exact m seed hist snap) :
    Runs (g.installSnapshot m write segments snap)
      (unreclaimed marks (g.installSnapshot m write segments snap).storage)
  | restart {g : Node S} {marks : List Nat} {s : MetadataLogStorage} (h : Runs g marks)
    (survivors : Nat)
    -- the last state record that is left was written with the membership of the stored snapshot
    (hconf : ∀ n, lastMark (g.storage.log.crash survivors).records marks = some n →
      (after m seed hist n).1 = (after m seed hist (base g.storage.checkpoint).snapshotIndex).1)
    (hopen : reopen (g.storage.log.crash survivors) g.storage.earliest
      g.storage.checkpoint seed = .ok s) :
    Runs ⟨s.core.snapshotIndex, s.core.snapshotIndex, recovered m s.core, s, false⟩
      (marks.take s.log.records.length)

/-- What a mirror says of its snapshot. -/
def cutOf (c : MetadataCore) : Nat × Nat × Bytes :=
  (c.snapshotIndex, c.snapshotTerm, c.snapshotData)

/-- A record of the log holds the membership of its mark. -/
def Fitting (r : MetaRecord) (n : Nat) : Prop :=
  match r with
  | .entry _ => True
  | .state _ cs => cs = (after m seed hist n).1
  | _ => False

/-- What is stored: the snapshot has the term, the bytes and the membership of its index, and every
record of the log the membership of its mark. -/
structure Stored (s : MetadataLogStorage) (marks : List Nat) : Prop where
  checkpoint : Cut m seed hist (cutOf (base s.checkpoint))
  member : seeded seed (base s.checkpoint).confState
    = (after m seed hist (base s.checkpoint).snapshotIndex).1
  records : Forall₂ (Fitting m seed hist) s.log.records marks

/-- A node is where the group was after the entries it has applied, and its snapshots are cut from
there. -/
structure Inv (g : Node S) (marks : List Nat) : Prop where
  state : g.healthFailed = false →
    (g.storage.core.confState, g.state) = after m seed hist g.applied
  index : after m seed hist g.appliedIndex = after m seed hist g.applied
  core : Cut m seed hist (cutOf g.storage.core)
  stored : Stored m seed hist g.storage marks

variable {m seed hist} {g : Node S} {e : RaftEntry} {n : Nat} {s : MetadataLogStorage}
  {marks : List Nat} {rs : List MetaRecord}

theorem after_succ (he : hist[n]? = some e) :
    after m seed hist (n + 1) = applyEntry m (after m seed hist n) e := by
  rw [after, take_add_one, he, Option.toList_some, foldl_append]
  rfl

theorem after_from {k : Nat} (hk : k ≤ n) :
    ((hist.take n).drop k).foldl (applyEntry m) (after m seed hist k) = after m seed hist n := by
  rw [after, ← foldl_append, ← min_eq_left hk, ← take_take, min_eq_left hk,
    take_append_drop, after]

theorem applyEntry_of_change (htype : e.entryType ≠ .normal) (x : ConfState × S) :
    applyEntry m x e = (m.applyConfChange e x.1,
      m.setMembership e.index (m.applyConfChange e x.1) x.2) := by
  unfold applyEntry
  split
  · contradiction
  · rfl

/-- A membership of the history has voters, where the first one has. -/
theorem seeded_after (n : Nat) :
    seeded seed (after m seed hist n).1 = (after m seed hist n).1 := by
  have hvoters : seed ≠ [] → (after m seed hist n).1.voters ≠ [] := by
    intro hseed
    have hfold (es : List RaftEntry) (x : ConfState × S) (hx : x.1.voters ≠ []) :
        (es.foldl (applyEntry m) x).1.voters ≠ [] := by
      induction es generalizing x with
      | nil => exact hx
      | cons e es ih =>
        refine ih _ ?_
        unfold applyEntry
        split
        · split <;> exact hx
        · exact m.voters_ne_nil _ _ hx
    exact hfold _ _ hseed
  unfold seeded
  split
  · next hempty =>
    have hseed : seed = (after m seed hist n).1.voters := by
      rw [hempty.1]
      exact by_contra fun h => hvoters h hempty.1
    conv_lhs => enter [1]; rw [hseed]
  · rfl

/-- The last state record holds the membership of its mark. -/
theorem lastState_marked (h : Forall₂ (Fitting m seed hist) rs marks) :
    (lastState rs).map (·.2) = (lastMark rs marks).map fun n => (after m seed hist n).1 := by
  -- both folds start from what an earlier part of the log has left
  suffices hfold : ∀ (o : Option (HardState × ConfState)) (o' : Option Nat),
      o.map (·.2) = o'.map (fun n => (after m seed hist n).1) →
      (rs.foldl (fun o r => match r with
        | .state hs cs => some (hs, cs)
        | _ => o) o).map (·.2)
      = ((rs.zip marks).foldl (fun o r => match r.1 with
        | .state _ _ => some r.2
        | _ => o) o').map fun n => (after m seed hist n).1 from hfold none none rfl
  induction h with
  | nil => exact fun _ _ ho => ho
  | @cons r n rs marks hr _ ih =>
    intro o o' ho
    cases r with
    | entry e => exact ih o o' ho
    | state hs cs => exact ih (some (hs, cs)) (some n) (congrArg some hr)
    | _ => exact hr.elim

/-- A record that is written gets the mark of the membership it holds. -/
theorem Stored.recorded (h : Stored m seed hist s marks) (io : AppendIo) {r : MetaRecord}
    {c : MetadataCore} (hr : Fitting m seed hist r n) :
    Stored m seed hist (MetadataStorage.recorded s io r c)
      (marked marks n (MetadataStorage.recorded s io r c)) := by
  refine ⟨h.checkpoint, h.member, ?_⟩
  have hlen := h.records.length_eq
  unfold marked MetadataStorage.recorded
  simp only [(s.log.append_records io r).1]
  split
  · have hone : (s.log.records ++ [r]).length - marks.length = 1 := by
      rw [length_append, length_singleton]
      omega
    rw [hone]
    exact rel_append h.records (.cons hr .nil)
  · rw [hlen, Nat.sub_self, replicate_zero, append_nil]
    exact h.records

/-- A sync leaves what is in the log, and the mirror, as it is. -/
theorem sync_keeps (s : MetadataLogStorage) (fails : Bool) :
    (s.sync fails).2.log.records = s.log.records ∧ (s.sync fails).2.core = s.core
      ∧ (s.sync fails).2.checkpoint = s.checkpoint := by
  have hrec := (s.log.sync_spec fails).1
  unfold sync
  generalize s.log.sync fails = res at hrec ⊢
  obtain ⟨_ | _, log⟩ := res <;> exact ⟨hrec, rfl, rfl⟩

theorem Stored.synced (h : Stored m seed hist s marks) (fails : Bool) :
    Stored m seed hist (s.sync fails).2 marks := by
  obtain ⟨hrec, -, hcheck⟩ := sync_keeps s fails
  exact ⟨hcheck ▸ h.checkpoint, hcheck ▸ h.member, hrec ▸ h.records⟩

/-- A log that was not cut keeps its marks. -/
theorem Stored.uncut (h : Stored m seed hist s marks) :
    Stored m seed hist s (unreclaimed marks s) := by
  rw [unreclaimed, h.records.length_eq, Nat.sub_self, drop_zero]
  exact h

theorem Stored.reclaimed (h : Stored m seed hist s marks) (segments index : Nat) :
    Stored m seed hist (s.reclaimLogPrefix segments index).2
      (unreclaimed marks (s.reclaimLogPrefix segments index).2) := by
  have hlen := h.records.length_eq
  refine ⟨?_, ?_, ?_⟩ <;> unfold reclaimLogPrefix <;> split
  · exact h.checkpoint
  · exact h.checkpoint
  · exact h.member
  · exact h.member
  · exact h.uncut.records
  · simp only [unreclaimed, RecordLog.reap, length_drop, ← hlen]
    rcases le_total (min segments (s.protectFloor index)) s.log.records.length with hin | hout
    · rw [Nat.sub_sub_self hin]
      exact forall₂_drop _ h.records
    · rw [drop_of_length_le hout, drop_of_length_le (by omega)]
      exact .nil

/-- A snapshot with the membership of its index is written to the checkpoint. -/
theorem Stored.snapshot (h : Stored m seed hist s marks) (snap : RaftSnapshot)
    (hcut : Cut m seed hist (snap.index, snap.term, snap.data))
    (hconf : snap.confState = (after m seed hist snap.index).1) :
    Stored m seed hist { s with checkpoint := some snap } marks := by
  rcases Nat.eq_zero_or_pos snap.index with hzero | hpos
  · have hbase : base (some snap) = empty := by
      rw [base, applySnapshot, if_pos (hzero ▸ Nat.zero_lt_one)]
    refine ⟨?_, ?_, h.records⟩
    · simp only [hbase]
      exact fun hno => absurd hno (Nat.lt_irrefl 0)
    · simp only [hbase]
      rfl
  · refine ⟨?_, ?_, h.records⟩
    · simp only [base_some hpos]
      exact hcut
    · simp only [base_some hpos, hconf]
      exact seeded_after _

/-- What leaves the membership and the snapshot alone keeps the invariant. -/
theorem Inv.keep (h : Inv m seed hist g marks) {failed : Bool} {marks' : List Nat}
    (hup : g.healthFailed = false) (hconf : s.core.confState = g.storage.core.confState)
    (hcut : cutOf s.core = cutOf g.storage.core) (hstored : Stored m seed hist s marks') :
    Inv m seed hist { g with storage := s, healthFailed := failed } marks' :=
  ⟨fun _ => hconf ▸ h.state hup, h.index, hcut ▸ h.core, hstored⟩

theorem Inv.recorded (h : Inv m seed hist g marks) (hup : g.healthFailed = false) {failed : Bool}
    (io : AppendIo) {r : MetaRecord} {c : MetadataCore}
    (hconf : c.confState = g.storage.core.confState) (hcut : cutOf c = cutOf g.storage.core)
    (hr : Fitting m seed hist r n) :
    Inv m seed hist
      { g with storage := MetadataStorage.recorded g.storage io r c, healthFailed := failed }
      (marked marks n (MetadataStorage.recorded g.storage io r c)) := by
  refine h.keep hup ?_ ?_ (h.stored.recorded io hr)
  all_goals
    rw [MetadataStorage.recorded]
    split
    · assumption
    · rfl

/-- A reclaimed log leaves the mirror as it is. -/
theorem core_reclaimLogPrefix (s : MetadataLogStorage) (segments index : Nat) :
    (s.reclaimLogPrefix segments index).2.core = s.core := by
  unfold reclaimLogPrefix
  split <;> rfl

theorem known_of_fitting (h : Forall₂ (Fitting m seed hist) rs marks) : ∀ r ∈ rs, Known r := by
  induction h with
  | nil => exact fun _ hr => absurd hr not_mem_nil
  | @cons r _ _ _ hr _ ih =>
    refine forall_mem_cons.mpr ⟨?_, ih⟩
    cases r with
    | entry e => exact .entry e
    | state hs cs => exact .state hs cs
    | _ => exact hr.elim

/-- What a restarted node opens: the mirror of its snapshot, with the membership of its index. -/
theorem Stored.reopened (h : Stored m seed hist s marks) {survivors : Nat}
    (hconf : ∀ n, lastMark (s.log.crash survivors).records marks = some n →
      (after m seed hist n).1 = (after m seed hist (base s.checkpoint).snapshotIndex).1)
    {s' : MetadataLogStorage} (hopen : reopen (s.log.crash survivors) s.earliest
      s.checkpoint seed = .ok s') :
    cutOf s'.core = cutOf (base s.checkpoint)
      ∧ s'.core.confState = (after m seed hist s'.core.snapshotIndex).1
      ∧ Stored m seed hist s' (marks.take s'.log.records.length) := by
  have hfront := (s.log.crash_spec survivors).1
  generalize s.log.crash survivors = log at hconf hopen hfront
  have hleft : Forall₂ (Fitting m seed hist) log.records (marks.take log.records.length) := by
    have := forall₂_take log.records.length h.records
    rwa [← List.prefix_iff_eq_take.mp hfront] at this
  have hmark :
      lastMark log.records (marks.take log.records.length) = lastMark log.records marks := by
    have hmin : min log.records.length marks.length = log.records.length :=
      min_eq_left (h.records.length_eq ▸ hfront.length_le)
    have hzip := @zip_eq_zip_take_min _ _ log.records marks
    rw [hmin, take_length] at hzip
    rw [lastMark, lastMark, hzip]
  rw [reopen_known (known_of_fitting hleft)] at hopen
  cases hopen
  obtain ⟨hindex, hterm, hdata, -⟩ :=
    @rebuilt_fields seed s.checkpoint log.records
  refine ⟨by rw [cutOf, hindex, hterm, hdata, cutOf], ?_, h.checkpoint, h.member, hleft⟩
  simp only [hindex, rebuilt_confState, lastState_marked hleft, hmark]
  cases hlast : lastMark log.records marks with
  | none => exact h.member
  | some n => exact (seeded_after n).trans (hconf n hlast)

theorem Exact.install_eq {snap : RaftSnapshot} (h : Exact m seed hist snap) :
    install m snap = after m seed hist snap.index := by
  have := h.follows snap.index le_rfl
  rwa [drop_of_length_le (length_take_le _ _)] at this

theorem recovered_eq (hrestore : Restores m seed hist) {c : MetadataCore}
    (h : Cut m seed hist (cutOf c)) : recovered m c = (after m seed hist c.snapshotIndex).2 := by
  unfold recovered
  rcases Nat.eq_zero_or_pos c.snapshotIndex with hzero | hpos
  · rw [if_pos (.inl hzero), hzero]
    rfl
  · have hdata : c.snapshotData = _ := (h hpos).2
    rw [hdata, if_neg (by simp [cutOf, hpos.ne', m.snapshot_ne_nil])]
    exact hrestore _

theorem setConfState_cases (s : MetadataLogStorage) (io : AppendIo) (cs : ConfState) :
    cutOf (s.setConfState io cs).2.core = cutOf s.core
      ∧ ((s.setConfState io cs).1 = true → (s.setConfState io cs).2.core.confState = cs) := by
  unfold setConfState
  rcases s.log.append io _ with ⟨_ | _, log⟩
  · exact ⟨rfl, fun hno => absurd hno Bool.false_ne_true⟩
  · exact ⟨rfl, fun _ => rfl⟩

theorem Inv.confChange (h : Inv m seed hist g marks) (hup : g.healthFailed = false)
    (he : hist[g.applied]? = some e) (htype : e.entryType ≠ .normal) (io : AppendIo)
    (fails : Bool) :
    Inv m seed hist (g.applyConfChangeEntry m e io fails)
      (marked marks (g.applied + 1) (g.applyConfChangeEntry m e io fails).storage) := by
  have hstate : after m seed hist _ = _ := after_succ he
  rw [applyEntry_of_change htype, ← h.state hup] at hstate
  dsimp only at hstate
  unfold Node.applyConfChangeEntry
  dsimp only
  generalize m.applyConfChange e g.storage.core.confState = cs at hstate
  -- the record has the membership after the entry
  have hfit : Fitting m seed hist (.state g.storage.core.hardState cs) (g.applied + 1) :=
    (congrArg Prod.fst hstate).symm
  have hwritten := h.stored.recorded io (c := { g.storage.core with confState := cs }) hfit
  rw [← setConfState_eq] at hwritten
  have hset := setConfState_cases g.storage io cs
  generalize g.storage.setConfState io cs = res at hset hwritten ⊢
  obtain ⟨_ | _, s⟩ := res
  · exact ⟨fun hno => absurd hno.symm Bool.false_ne_true, h.index, hset.1 ▸ h.core, hwritten⟩
  obtain ⟨hrec, hcore, -⟩ := sync_keeps s fails
  have hsynced := hwritten.synced fails
  have hlen : marked marks (g.applied + 1) s = marked marks (g.applied + 1) (s.sync fails).2 := by
    rw [marked, marked, hrec]
  dsimp only at hsynced
  rw [hlen] at hsynced
  dsimp only
  generalize s.sync fails = res at hcore hsynced ⊢
  obtain ⟨_ | _, s'⟩ := res
  · refine ⟨fun hno => absurd hno.symm Bool.false_ne_true, h.index, ?_, hsynced⟩
    exact hcore ▸ hset.1 ▸ h.core
  · refine ⟨fun _ => ?_, rfl, hcore ▸ hset.1 ▸ h.core, hsynced⟩
    rw [hcore, hset.2 rfl]
    exact hstate.symm

theorem Inv.received {snap : RaftSnapshot} (h : Inv m seed hist g marks)
    (hup : g.healthFailed = false) (hexact : Exact m seed hist snap) (write : CheckpointWrite)
    (segments : Nat) :
    Inv m seed hist (g.installSnapshot m write segments snap)
      (unreclaimed marks (g.installSnapshot m write segments snap).storage) := by
  have hstored := h.stored.snapshot snap hexact.cut hexact.confState
  unfold Node.installSnapshot installReceivedSnapshot
  split_ifs with hstale
  · -- it is older than the log
    exact h.keep hup rfl rfl h.stored.uncut
  cases write with
  | fails stored =>
    cases stored with
    | false => exact h.keep hup rfl rfl h.stored.uncut
    | true => exact h.keep hup rfl rfl hstored.uncut
  | ok =>
    dsimp only [writeCheckpoint]
    rw [applySnapshot, if_neg hstale]
    generalize hs : MetadataLogStorage.mk g.storage.log _ _ _ (some snap) = s
    have hinstalled : Stored m seed hist s marks ∧ cutOf s.core = (snap.index, snap.term, snap.data)
        ∧ s.core.confState = snap.confState := by
      subst hs
      exact ⟨⟨hstored.checkpoint, hstored.member, hstored.records⟩, rfl, rfl⟩
    obtain ⟨hnow, hcut, hconf⟩ := hinstalled
    replace hcut : Cut m seed hist (cutOf s.core) := hcut ▸ hexact.cut
    have hreclaimed := hnow.reclaimed segments snap.index
    have hkept := core_reclaimLogPrefix s segments snap.index
    generalize s.reclaimLogPrefix segments snap.index = res at hreclaimed hkept ⊢
    obtain ⟨_ | _, s'⟩ := res
    · exact ⟨fun hno => absurd hno.symm Bool.false_ne_true, h.index, hkept ▸ hcut, hreclaimed⟩
    · refine ⟨fun _ => ?_, rfl, hkept ▸ hcut, hreclaimed⟩
      rw [hkept, hconf]
      exact hexact.install_eq

theorem Runs.inv (hrestore : Restores m seed hist) (h : Runs m seed hist g marks) :
    Inv m seed hist g marks := by
  induction h with
  | start => exact ⟨fun _ => rfl, rfl, nofun, nofun, rfl, .nil⟩
  | append _ hup io e ih =>
    rw [Node.written, appendEntryRecord_eq]
    exact ih.recorded hup io (by rw [mirrorEntry_eq]) (by rw [mirrorEntry_eq]; rfl) trivial
  | hardState _ hup io hs ih =>
    rw [Node.written, setHardState_eq]
    exact ih.recorded hup io rfl rfl (congrArg Prod.fst (ih.state hup))
  | @sync g _ _ hup fails ih =>
    have hcore := (sync_keeps g.storage fails).2.1
    exact ih.keep hup (by rw [hcore]) (by rw [hcore]) (ih.stored.synced fails)
  | noop _ hup he htype hdata ih =>
    have hsame : after m seed hist _ = _ := after_succ he
    rw [applyEntry, htype] at hsame
    simp only [hdata, if_true] at hsame
    exact ⟨fun _ => (ih.state hup).trans hsame.symm, ih.index.trans hsame.symm, ih.core, ih.stored⟩
  | command _ hup he htype hdata ih =>
    refine ⟨fun _ => ?_, rfl, ih.core, ih.stored⟩
    simp only
    rw [after_succ he, ← ih.state hup, applyEntry, htype]
    simp only [if_neg hdata]
  | confChange _ hup he htype io fails ih => exact ih.confChange hup he htype io fails
  | @snapshot g marks term _ _ _ hup write segments hterm hraft hcreate ih =>
    -- the snapshot is of what the node has applied
    have hcut : Cut m seed hist (_, _, m.snapshot _) := fun _ =>
      ⟨hraft, by rw [ih.index, ← ih.state hup]⟩
    have hconf : g.storage.core.confState = (after m seed hist g.appliedIndex).1 := by
      rw [ih.index, ← ih.state hup]
    have hstored := ih.stored.snapshot
      ⟨g.appliedIndex, term, g.storage.core.confState, m.snapshot g.state⟩ hcut hconf
    obtain ⟨-, rfl⟩ | ⟨c, -, hnew, hcompact, rfl⟩ | ⟨stored, -, -, rfl⟩ :=
      createSnapshotAndCompact_cases hcreate
    · exact ⟨ih.state, ih.index, ih.core, ih.stored.uncut⟩
    · rw [compact_of_termAt hnew hterm] at hcompact
      cases hcompact
      refine ⟨fun _ => ?_, ih.index, ?_, Stored.reclaimed ?_ _ _⟩
      · rw [core_reclaimLogPrefix]
        exact ih.state hup
      · rw [core_reclaimLogPrefix]
        exact hcut
      · exact ⟨hstored.checkpoint, hstored.member, hstored.records⟩
    · cases stored with
      | false => exact ⟨ih.state, ih.index, ih.core, ih.stored.uncut⟩
      | true => exact ⟨ih.state, ih.index, ih.core, hstored.uncut⟩
  | received _ hup write segments hexact ih => exact ih.received hup hexact write segments
  | restart _ survivors hconf hopen ih =>
    -- the state comes from the checkpoint, the membership from the last record
    obtain ⟨hcut, hmember, hstored⟩ := ih.stored.reopened hconf hopen
    have hcore := hcut ▸ ih.stored.checkpoint
    exact ⟨fun _ => Prod.ext hmember (recovered_eq hrestore hcore), rfl, hcore, hstored⟩

/-- A snapshot that is served is the one of its index, and a peer can go on from it, just if the
membership in force is the one of that index and the members in the state machine are those of the
membership. -/
theorem served_exact_iff (hrestore : Restores m seed hist) (h : Runs m seed hist g marks)
    (hup : g.healthFailed = false) {request : Nat} {snap : RaftSnapshot}
    (hserve : g.storage.snapshot request = some snap) :
    Exact m seed hist snap ↔
      (after m seed hist g.applied).1 = (after m seed hist snap.index).1
        ∧ m.setMembership snap.index (after m seed hist snap.index).1
          (after m seed hist snap.index).2 = (after m seed hist snap.index).2 := by
  have hinv := h.inv hrestore
  have hconf : g.storage.core.confState = (after m seed hist g.applied).1 := by
    rw [← hinv.state hup]
  unfold snapshot at hserve
  split at hserve
  case isFalse => cases hserve
  rename_i hcovers
  cases hserve
  obtain ⟨hterm, hdata⟩ := hinv.core hcovers.2
  have hrestored := (congrArg m.restoreFromSnapshot hdata).trans (hrestore _)
  simp only [cutOf] at hrestored
  constructor
  · intro hexact
    have hstate := congrArg Prod.snd hexact.install_eq
    have hsame := hexact.confState
    simp only [install, hrestored] at hstate hsame
    exact ⟨hconf ▸ hsame, hsame ▸ hstate⟩
  · rintro ⟨hsame, hmembers⟩
    simp only at hsame hmembers
    refine ⟨hinv.core, hconf.trans hsame, fun n hn => ?_⟩
    rw [install, hrestored, hconf, hsame, hmembers]
    exact after_from hn

end

/-! ## The metadata state machine -/

section

open MetadataStateMachine

/-- States of the metadata that hold the same are one state. -/
def sameSetoid : Setoid MetadataStateMachine where
  r := Same
  iseqv :=
    ⟨fun _ => ⟨rfl, rfl, rfl, fun _ => rfl, rfl⟩,
      fun h => ⟨h.members.symm, h.placements.symm, h.committedHw.symm, fun k => (h.config k).symm,
        h.appliedIndex.symm⟩,
      fun h h' => ⟨h.members.trans h'.members, h.placements.trans h'.placements,
        h.committedHw.trans h'.committedHw, fun k => (h.config k).trans (h'.config k),
        h.appliedIndex.trans h'.appliedIndex⟩⟩

/-- What a command leaves; one that cannot be read stops the node, and nothing is applied. -/
def applyCommand (e : RaftEntry) (s : MetadataStateMachine) : MetadataStateMachine :=
  match s.applyEncoded e.index e.data with
  | .ok s => s
  | .error _ => s

variable {conf : RaftEntry → ConfState → ConfState}
  {hconf : ∀ e cs, cs.voters ≠ [] → (conf e cs).voters ≠ []}

theorem same_applyCommand {s t : MetadataStateMachine} (h : s.Same t) (e : RaftEntry) :
    (applyCommand e s).Same (applyCommand e t) := by
  unfold applyCommand applyEncoded
  cases MetadataCommand.decode e.data with
  | error _ => exact h
  | ok cmd => exact h.apply e.index cmd

/-- The state machine of the metadata group, over what the Raft core makes of a change. -/
def metadataMachine (conf : RaftEntry → ConfState → ConfState)
    (hconf : ∀ e cs, cs.voters ≠ [] → (conf e cs).voters ≠ []) : Machine (Quotient sameSetoid) where
  new := Quotient.mk _ new
  applyConfChange := conf
  applyEncoded e := Quotient.map (applyCommand e) fun _ _ h => same_applyCommand h e
  setMembership index cs := Quotient.map (·.setMembership index cs) fun _ _ h =>
    ⟨rfl, h.placements, h.committedHw, h.config, rfl⟩
  snapshot := Quotient.lift snapshot fun _ _ h => h.snapshot_eq
  restoreFromSnapshot buf := Quotient.mk _ <|
    match restoreFromSnapshot buf with
    | .ok s => s
    | .error _ => new
  snapshot_ne_nil := Quotient.ind fun _ => cons_ne_nil _ _
  voters_ne_nil := hconf

def InRange (cs : ConfState) : Prop :=
  ∀ n ∈ cs.learners ++ cs.learnersNext ++ (cs.voters ++ cs.votersOutgoing), n < 2 ^ 64

/-- Snapshots of the metadata are restored, as long as no map has more entries than a count can
say. -/
theorem metadata_restores {seed : List Nat} {hist : List RaftEntry}
    (hindex : ∀ e ∈ hist, e.index < 2 ^ 64) (hseed : InRange (freshStorage seed).core.confState)
    (hnodes : ∀ e cs, InRange cs → InRange (conf e cs))
    (hfits : ∀ n s, (after (metadataMachine conf hconf) seed hist n).2 = Quotient.mk _ s → s.Fits) :
    Restores (metadataMachine conf hconf) seed hist := by
  have hfold (es : List RaftEntry) (hes : ∀ e ∈ es, e.index < 2 ^ 64)
      (x : ConfState × Quotient sameSetoid) (hcs : InRange x.1)
      (hx : ∃ s, x.2 = Quotient.mk _ s ∧ s.InRange) :
      ∃ s, (es.foldl (applyEntry (metadataMachine conf hconf)) x).2 = Quotient.mk _ s
        ∧ s.InRange := by
    induction es generalizing x with
    | nil => exact hx
    | cons e es ih =>
      obtain ⟨he, hes⟩ := forall_mem_cons.mp hes
      obtain ⟨cs, _⟩ := x
      obtain ⟨s, rfl, hs⟩ := hx
      rw [foldl_cons]
      unfold applyEntry
      split
      · split_ifs
        · exact ih hes _ hcs ⟨s, rfl, hs⟩
        · refine ih hes _ hcs ⟨applyCommand e s, rfl, ?_⟩
          unfold applyCommand applyEncoded
          cases hdec : MetadataCommand.decode e.data with
          | error _ => exact hs
          | ok cmd => exact hs.apply he (MetadataCommand.decode_ok.mp hdec).1
      · exact ih hes _ (hnodes e cs hcs) ⟨_, rfl, hs.setMembership ⟨he, hnodes e cs hcs⟩⟩
  intro n
  obtain ⟨s, hs, hrange⟩ := hfold (hist.take n) (fun e he => hindex e (mem_of_mem_take he))
    ((freshStorage seed).core.confState, Quotient.mk _ new) hseed
    ⟨_, rfl, new_inRange⟩
  obtain ⟨s', hrestore, hsame⟩ := restore_snapshot hrange (hfits n s hs)
  have hbytes : (metadataMachine conf hconf).snapshot (Quotient.mk _ s) = s.snapshot := rfl
  rw [show (after (metadataMachine conf hconf) seed hist n).2 = _ from hs]
  refine Quotient.sound ?_
  rw [hbytes, hrestore]
  exact hsame

end

/-! ## A snapshot between two changes -/

/-- A state machine that keeps its members. -/
def memberTable : Machine Bytes where
  new := []
  applyConfChange e cs := { cs with voters := cs.voters ++ e.data.map UInt8.toNat }
  applyEncoded e x := x ++ e.data
  setMembership _ cs _ := cs.voters.map UInt8.ofNat
  snapshot x := 1 :: x
  restoreFromSnapshot := tail
  snapshot_ne_nil _ := cons_ne_nil _ _
  voters_ne_nil _ _ h := append_ne_nil_of_left_ne_nil h _

def voters (vs : List Nat) : ConfState := ⟨vs, [], [], [], false⟩

/-- A voter joins the ones before it. -/
def join (index : Nat) : RaftEntry := ⟨index, 1, .confChangeV2, [.ofNat (index + 1)]⟩

/-- A snapshot between two voters that join. -/
def joined : MetadataLogStorage :=
  let s := ((freshStorage [1]).append [] [join 1, join 2]).2
  let s := ((s.setConfState .ok (voters [1, 2])).2.sync false).2
  ((s.createSnapshotAndCompact .ok 0 1 1 [1, 1, 2]).map (·.2)).getD s

theorem restores_memberTable (seed : List Nat) (hist : List RaftEntry) :
    Restores memberTable seed hist := fun _ => rfl

theorem runs_joined :
    Runs memberTable [1] [join 1, join 2] ⟨1, 1, [1, 2], joined, false⟩ [0, 0, 1] := by
  have hwritten : Runs memberTable [1] [join 1, join 2] _ _ :=
    .append (.append .start rfl .ok (join 1)) rfl .ok (join 2)
  have hchanged := hwritten.confChange (e := join 1) rfl rfl (by decide) .ok false
  have hrefused := hchanged.snapshot rfl (.fails false) 0 rfl rfl rfl
  exact hrefused.snapshot rfl .ok 0 rfl rfl rfl

/-- What a restart after the snapshot opens. -/
def restarted : MetadataLogStorage :=
  ⟨joined.log.crash 0, 0, 3, rebuilt [1] joined.checkpoint joined.log.records, joined.checkpoint⟩

theorem served_exact_restarted :
    Exact memberTable [1] [join 1, join 2] ⟨1, 1, voters [1, 2], [1, 1, 2]⟩ := by
  have hrun : Runs memberTable [1] [join 1, join 2] ⟨1, 1, [1, 2], restarted, false⟩ [0, 0, 1] :=
    runs_joined.restart 0 (by rintro n ⟨⟩; rfl) rfl
  have hserve : restarted.snapshot 1 = some ⟨1, 1, voters [1, 2], [1, 1, 2]⟩ := rfl
  exact (served_exact_iff (restores_memberTable _ _) hrun rfl hserve).mpr ⟨rfl, rfl⟩

/-- The third voter joins, and the same snapshot is served with all three. A peer that installs it
and goes on adds the third again. -/
theorem served_after_change :
    let s := ((joined.setConfState .ok (voters [1, 2, 3])).2.sync false).2
    let snap : RaftSnapshot := ⟨1, 1, voters [1, 2, 3], [1, 1, 2]⟩
    Runs memberTable [1] [join 1, join 2] ⟨2, 2, [1, 2, 3], s, false⟩ [0, 0, 1, 2]
      ∧ s.snapshot 1 = some snap
      ∧ (after memberTable [1] [join 1, join 2] 1).1 = voters [1, 2]
      ∧ (after memberTable [1] [join 1, join 2] 2).1 = voters [1, 2, 3]
      ∧ (applyEntry memberTable (install memberTable snap) (join 2)).1 = voters [1, 2, 3, 3] :=
  ⟨runs_joined.confChange (e := join 2) rfl rfl (by decide) .ok false, rfl, rfl, rfl, rfl⟩

end ServedSnapshot

end IronBus
