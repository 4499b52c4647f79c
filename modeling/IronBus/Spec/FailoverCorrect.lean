import IronBus.Native.DataPlane
import IronBus.Native.Metadata
import IronBus.Spec.QuorumCorrect

/-!
# What a failover keeps

The leader of a partition releases an ack once its quorum has reported; the committed bar in the
metadata follows from time to time. When the leader fails, the driver of a survivor promotes itself
if its log reaches the bar, and the other survivors cut their logs at the bar they know when theirs
differ.

Key results:
- `Reach.inv`: what the logs and the bars of all nodes have in common, in every run
- `released_survive`: an ack is safe when the bar had passed it
- `acked_record_lost`: a leader that fails takes with it what it acked since its last checkpoint
-/

namespace IronBus

open ReplicaSet DataPlaneController Function

/-- A node's data plane in a partition with one leader. -/
def ReplicaSet.controller (w : ReplicaSet) (partition n : Nat) : DataPlaneController where
  nodeId := n
  roles := NatMap.empty.insert partition
    (if n = w.leader then .leader w.plane w.isr (.withCap maxParkedAcksPerPartition)
      else .follower (w.followers n))

/-- One partition through the failure of its leader. The metadata machine is kept with every state
it had, since a node may lag behind; `released` are the offsets acked before the failure, and
`failed` is what the failure left. -/
structure FailoverWorld where
  set : ReplicaSet
  gate : QuorumAckGate Nat
  metadata : MetadataStateMachine
  history : List MetadataStateMachine
  released : List Nat
  failed : Option ReplicaSet

namespace FailoverWorld

def start (leader : Nat) (replicaIds : List Nat) (config : IsrConfig)
    (metadata : MetadataStateMachine) : FailoverWorld :=
  ⟨.start leader replicaIds config, .withCap maxParkedAcksPerPartition, metadata, [], [], none⟩

/-- A leader is there: the first one, or one promoted after it failed. -/
def Up (w : FailoverWorld) : Prop := ∀ s ∈ w.failed, w.set.leader ≠ s.leader

/-- Releases what is committed; after the failure nothing counts as released before it. -/
def release (w : FailoverWorld) : FailoverWorld :=
  let (offsets, gate) := w.gate.releaseUpTo w.set.isr.quorumCommit
  { w with
    gate := gate
    released := if w.failed.isNone then offsets ++ w.released else w.released }

/-- A produce that is synced here waits for its quorum, unless too many do. -/
def ack (w : FailoverWorld) (offset : Nat) : FailoverWorld :=
  let w := { w with set := w.set.ack offset }
  match w.gate.park offset offset with
  | none => w
  | some gate => { w with gate := gate }.release

def deliver (w : FailoverWorld) (report : AckReplicatedBody) : FailoverWorld :=
  { w with set := w.set.deliver report }.release

def commit (w : FailoverWorld) (cmd : MetadataCommand) : FailoverWorld :=
  { w with
    metadata := w.metadata.apply (w.metadata.appliedIndex + 1) cmd
    history := w.metadata :: w.history }

/-- The data plane as the driver of a node sees it. -/
def inputs (w : FailoverWorld) (n : Nat) : FailoverInputs where
  committedHw p := (w.set.controller p n).ownFrontier p
  ownFrontier p := (w.set.controller p n).ownFrontier p

/-- A survivor takes over, with an empty gate. -/
def promote (w : FailoverWorld) (n : Nat) (replicaIds : List Nat) (config : IsrConfig) :
    FailoverWorld :=
  { w with
    set := w.set.lead n replicaIds config
    gate := .withCap maxParkedAcksPerPartition }

variable {w w' : FailoverWorld} {partition : Nat}

/-- Releasing changes the gate, and adds to what was released before the failure. -/
theorem release_frame (w : FailoverWorld) : ∃ gate released,
    w.release = { w with gate := gate, released := released } ∧ w.released ⊆ released
      ∧ (w.failed.isSome → released = w.released) := by
  refine ⟨_, _, rfl, ?_, fun h => ?_⟩
  · split
    · exact List.subset_append_right ..
    · exact List.Subset.refl _
  · simp [Option.isSome_iff_ne_none.mp h]

theorem ack_frame (w : FailoverWorld) (offset : Nat) : ∃ gate released,
    w.ack offset = { w with set := w.set.ack offset, gate := gate, released := released }
      ∧ w.released ⊆ released ∧ (w.failed.isSome → released = w.released) := by
  unfold ack
  dsimp only
  split
  · exact ⟨_, _, rfl, List.Subset.refl _, fun _ => rfl⟩
  · exact release_frame _

/-- The world's promotion is the data plane's: of a follower whose log reaches the bar. -/
theorem controller_promote {n bar : Nat} {survivors : List Nat} {config : IsrConfig}
    {c : DataPlaneController} :
    (w.set.controller partition n).promoteFollowerToLeader partition survivors config bar = .ok c ↔
      n ≠ w.set.leader ∧ bar ≤ (w.set.followers n).log.nextOffset ∧
        (w.promote n survivors config).set.controller partition n = c := by
  by_cases hn : n = w.set.leader
  · simp [promoteFollowerToLeader, followerRole,
      controller, hn]
  have hrole : (w.set.controller partition n).followerRole partition = .ok (w.set.followers n) := by
    simp [followerRole, controller, hn]
  have hlead :
      (w.set.controller partition n).startLeader partition (w.set.followers n).log survivors
      config = (w.promote n survivors config).set.controller partition n := by
    simp only [startLeader, controller, promote, lead, log, if_neg hn, if_pos,
      NatMap.insert_insert]
  rw [promoteFollowerToLeader, hrole, ← hlead]
  dsimp only
  split_ifs with hbar
  · simp only [false_iff]
    omega
  · simp only [Except.ok.injEq, ne_eq, hn, not_false_eq_true, not_lt.mp hbar, true_and]

/-- What a replica holds of an offset, it still holds in a later state. -/
def Keeps (s s' : ReplicaSet) (offset : Nat) : Prop :=
  ∀ n frame, (s.log n).records[offset]? = some frame → (s'.log n).records[offset]? = some frame

theorem Keeps.of_plane {s s' : ReplicaSet} (hleader : s'.leader = s.leader)
    (hfollowers : s'.followers = s.followers) (hplane : s.plane.records <+: s'.plane.records)
    (offset : Nat) : Keeps s s' offset := by
  intro n frame h
  unfold log at h ⊢
  rw [hleader, hfollowers]
  split_ifs at h ⊢
  · exact hplane.getElem?_eq_some h
  · exact h

theorem Keeps.of_follower {s s' : ReplicaSet} {m offset : Nat} {f : Follower}
    (hleader : s'.leader = s.leader) (hplane : s'.plane = s.plane)
    (hfollowers : s'.followers = update s.followers m f)
    (hkeep : ∀ frame, (s.followers m).log.records[offset]? = some frame →
      f.log.records[offset]? = some frame) : Keeps s s' offset := by
  intro n frame h
  unfold log at h ⊢
  rw [hleader, hplane, hfollowers]
  split_ifs at h ⊢
  · exact h
  · by_cases hn : n = m
    · subst hn
      rw [update_self]
      exact hkeep frame h
    · rwa [update_of_ne hn]

/-- A promotion leaves every log where it is. -/
theorem Keeps.lead {s : ReplicaSet} {n : Nat} (hn : n ≠ s.leader) (replicaIds : List Nat)
    (config : IsrConfig) (offset : Nat) : Keeps s (s.lead n replicaIds config) offset := by
  intro m frame h
  simp only [ReplicaSet.log, ReplicaSet.lead, if_neg hn] at h ⊢
  by_cases hm : m = n
  · subst hm
    rw [if_neg hn] at h
    rwa [if_pos rfl]
  · rw [if_neg hm]
    by_cases hleader : m = s.leader
    · subst hleader
      rw [if_pos rfl] at h
      rwa [update_self]
    · rw [if_neg hleader] at h
      rwa [update_of_ne hleader]

/-- The first leader is up, or a promoted one is. -/
theorem Up.cases (h : w.Up) :
    w.failed = none ∨ ∃ s, w.failed = some s ∧ w.set.leader ≠ s.leader := by
  cases hf : w.failed with
  | none => exact .inl rfl
  | some s => exact .inr ⟨s, rfl, h s hf⟩

variable [Checksums]

/-- One step. When a survivor is promoted, and when one adopts the new leader, the bar it knows has
passed every ack that was released. -/
inductive Step (partition : Nat) (w : FailoverWorld) : FailoverWorld → Prop
  | append {frame : Bytes} (hup : w.Up) (hframe : Intact w.set.plane.nextOffset frame) :
      Step partition w { w with set := w.set.append frame }
  | sync (hup : w.Up) : Step partition w { w with set := w.set.sync }
  | ack {offset : Nat} (hup : w.Up) (hsynced : offset < w.set.plane.flushed) :
      Step partition w (w.ack offset)
  | adopt {n : Nat} {committedFloor : Option Nat} {probe backward : Option FetchResponseBody}
      {room : Nat} (hup : w.Up)
      (hprobe : ∀ resp ∈ probe, resp.highWatermark = w.set.plane.flushed)
      (hbackward : ∀ resp ∈ backward, ∃ plane' req m, plane'.Intact ∧ w.set.plane.Grows plane' ∧
        resp = serveFetch plane' req m)
      (hfloor : w.failed.isSome → ∀ floor ∈ committedFloor, ∀ o ∈ w.released, o < floor) :
      Step partition w { w with set := w.set.adopt n committedFloor probe backward room }
  | pull {n maxRecords maxBytes room : Nat} {io : StorageFaults} (hup : w.Up) :
      Step partition w { w with set := w.set.pull n maxRecords maxBytes room io }
  | deliver {report : AckReplicatedBody} (hup : w.Up) (hsent : report ∈ w.set.inflight) :
      Step partition w (w.deliver report)
  | disconnect (n : Nat) : Step partition w { w with set := w.set.disconnect n }
  | commit (cmd : MetadataCommand) : Step partition w (w.commit cmd)
  | fail (hup : w.failed = none) : Step partition w { w with failed := some w.set }
  | promote {n bar epoch : Nat} {d : MetadataDriver} {s : MetadataStateMachine}
      {placement : Placement} {survivors : List Nat} {config : IsrConfig}
      {c : DataPlaneController} (hdown : ¬ w.Up) (hnode : d.nodeId = n)
      (hs : s ∈ w.metadata :: w.history)
      (hpropose : d.failoverProposal (w.inputs n) s partition placement
        = some (.placePartition partition survivors n epoch))
      (hbar : s.committedHw.get partition = some bar)
      (hpromote : (w.set.controller partition n).promoteFollowerToLeader partition survivors config
        bar = .ok c)
      (hpassed : ∀ o ∈ w.released, o < bar) :
      Step partition w (w.promote n survivors config)

inductive Reach (partition : Nat) : FailoverWorld → Prop
  | start (leader : Nat) (replicaIds : List Nat) (config : IsrConfig)
      (metadata : MetadataStateMachine) : Reach partition (start leader replicaIds config metadata)
  | step {w w' : FailoverWorld} (h : Reach partition w) (hs : Step partition w w') :
      Reach partition w'

structure Inv (w : FailoverWorld) : Prop where
  intact : w.set.plane.Intact
  /-- Until a survivor is promoted, every follower holds a front part of the leader's log. -/
  shared : (∀ s ∈ w.failed, w.set.leader = s.leader) →
    ∀ n, (w.set.followers n).log.records <+: w.set.plane.served
  failed : ∀ s ∈ w.failed, w.set.leader = s.leader → s.plane = w.set.plane
  kept : ∀ s ∈ w.failed, w.set.leader ≠ s.leader → ∀ o ∈ w.released,
    ∃ frame, s.plane.records[o]? = some frame ∧ w.set.plane.records[o]? = some frame

/-- A step under a leader: the first leader's followers still share its lineage, a promoted
leader's log grows. -/
theorem Inv.of_up (h : Inv w) (hup : w.Up) (hfailed : w'.failed = w.failed)
    (hleader : w'.set.leader = w.set.leader)
    (hreleased : w.failed.isSome → w'.released = w.released) (hintact : w'.set.plane.Intact)
    (hplane : w.set.plane.records <+: w'.set.plane.records)
    (hshared : w.failed = none → ∀ n, (w'.set.followers n).log.records <+: w'.set.plane.served) :
    Inv w' := by
  rcases hup.cases with hnone | ⟨s, hsome, hne⟩
  · refine ⟨hintact, fun _ => hshared hnone, fun s hs => ?_, fun s hs => ?_⟩ <;>
      (rw [hfailed, hnone] at hs; cases hs)
  · have hother : ∀ s', s' ∈ w'.failed → w'.set.leader ≠ s'.leader := by
      intro s' hs'
      rw [hfailed] at hs'
      rw [hleader]
      exact hup s' hs'
    refine ⟨hintact, fun hall => absurd (hall s (hfailed ▸ hsome)) ?_, fun s' hs' heq => ?_,
      fun s' hs' _ o ho => ?_⟩
    · exact hother s (hfailed ▸ hsome)
    · exact absurd heq (hother s' hs')
    · rw [hfailed] at hs'
      rw [hreleased (by simp [hsome])] at ho
      obtain ⟨frame, hold, hnew⟩ := h.kept s' hs' (hup s' hs') o ho
      exact ⟨frame, hold, hplane.getElem?_eq_some hnew⟩

theorem Inv.shared_up (h : Inv w) (hnone : w.failed = none) (n : Nat) :
    (w.set.followers n).log.records <+: w.set.plane.served :=
  h.shared (fun s hs => by rw [hnone] at hs; cases hs) n

/-- A leader that still leads keeps the reconciliation of a follower from changing anything. -/
theorem Inv.adopt (h : Inv w) (hnone : w.failed = none) (n : Nat) {committedFloor : Option Nat}
    {probe backward : Option FetchResponseBody} (room : Nat)
    (hprobe : ∀ resp ∈ probe, resp.highWatermark = w.set.plane.flushed)
    (hbackward : ∀ resp ∈ backward, ∃ plane' req m, plane'.Intact ∧ w.set.plane.Grows plane' ∧
      resp = serveFetch plane' req m) :
    (w.set.adopt n committedFloor probe backward room).followers = w.set.followers := by
  rw [ReplicaSet.adopt]
  dsimp only
  rw [Follower.reconcileOnAdopt_of_shared (h.shared_up hnone n) room hprobe hbackward,
    update_eq_self]

theorem Inv.pull (h : Inv w) (hnone : w.failed = none) (n maxRecords maxBytes room : Nat)
    (io : StorageFaults) (m : Nat) :
    ((w.set.pull n maxRecords maxBytes room io).followers m).log.records
      <+: w.set.plane.served := by
  obtain ⟨-, -, f, hfollowers, hf⟩ := w.set.pull_frame n maxRecords maxBytes room io
  rw [hfollowers]
  by_cases hm : m = n
  · subst hm
    rw [update_self]
    rcases hf with rfl | rfl
    · exact h.shared_up hnone m
    · exact (Follower.apply_serveFetch h.intact (h.shared_up hnone m) _ _ _ _ rfl).1
  · rw [update_of_ne hm]
    exact h.shared_up hnone m

/-- A survivor whose log reaches the bar holds everything acked below it. -/
theorem Inv.promote (h : Inv w) {n bar : Nat} {survivors : List Nat} {config : IsrConfig}
    (hdown : ¬ w.Up) (hn : n ≠ w.set.leader) (hbar : bar ≤ (w.set.followers n).log.nextOffset)
    (hpassed : ∀ o ∈ w.released, o < bar) : Inv (w.promote n survivors config) := by
  obtain ⟨s, hs, hleader⟩ : ∃ s ∈ w.failed, w.set.leader = s.leader := by
    simpa [Up] using hdown
  have honly : ∀ s' ∈ w.failed, s' = s := fun s' hs' => Option.some.inj (hs'.symm.trans hs)
  have hshared := h.shared (fun s' hs' => honly s' hs' ▸ hleader) n
  have hplane : (w.promote n survivors config).set.plane = (w.set.followers n).log :=
    if_neg hn
  refine ⟨?_, fun hall => ?_, fun s' hs' heq => ?_, fun s' hs' _ o ho => ?_⟩
  · rw [hplane]
    exact h.intact.of_shared hshared
  · exact absurd ((hall s hs).trans hleader.symm) hn
  · obtain rfl := honly s' hs'
    exact absurd (heq.trans hleader.symm) hn
  · obtain rfl := honly s' hs'
    have hlt : o < (w.set.followers n).log.records.length := (hpassed o ho).trans_le hbar
    have hget := List.getElem?_eq_getElem hlt
    refine ⟨_, ?_, by rw [hplane, hget]⟩
    rw [h.failed s' hs hleader]
    exact (hshared.trans (List.take_prefix ..)).getElem?_eq_some hget

theorem Inv.step (h : Inv w) (hs : Step partition w w') : Inv w' := by
  cases hs with
  | append hup hframe =>
    refine h.of_up hup rfl rfl (fun _ => rfl) (h.intact.append hframe) (List.prefix_append ..)
      fun hnone n => ?_
    rw [append, ReplicaLog.served_appendFrameVerbatim]
    exact h.shared_up hnone n
  | sync hup =>
    refine h.of_up hup rfl rfl (fun _ => rfl) h.intact List.prefix_rfl fun hnone n => ?_
    rw [sync, ReplicaLog.served_sync]
    exact (h.shared_up hnone n).trans (List.take_prefix ..)
  | ack hup hsynced =>
    obtain ⟨gate, released, heq, -, hreleased⟩ := w.ack_frame _
    rw [heq]
    exact h.of_up hup rfl rfl hreleased h.intact List.prefix_rfl h.shared_up
  | adopt hup hprobe hbackward hfloor =>
    refine h.of_up hup rfl rfl (fun _ => rfl) h.intact List.prefix_rfl fun hnone n => ?_
    rw [h.adopt hnone _ _ hprobe hbackward]
    exact h.shared_up hnone n
  | pull hup =>
    obtain ⟨hplane, hleader, -⟩ := w.set.pull_frame _ _ _ _ _
    refine h.of_up hup rfl hleader (fun _ => rfl) ?_ ?_ fun hnone m => ?_
    · dsimp only
      rw [hplane]
      exact h.intact
    · dsimp only
      rw [hplane]
    · dsimp only
      rw [hplane]
      exact h.pull hnone _ _ _ _ _ m
  | deliver hup hsent =>
    obtain ⟨gate, released, heq, -, hreleased⟩ := release_frame _
    rw [deliver, heq]
    exact h.of_up hup rfl rfl hreleased h.intact List.prefix_rfl h.shared_up
  | disconnect n => exact ⟨h.intact, h.shared, h.failed, h.kept⟩
  | commit cmd => exact ⟨h.intact, h.shared, h.failed, h.kept⟩
  | fail hnone =>
    refine ⟨h.intact, fun _ => h.shared_up hnone, fun s hs _ => ?_, fun s hs hne => ?_⟩
    · obtain rfl := Option.some.inj hs
      rfl
    · obtain rfl := Option.some.inj hs
      exact absurd rfl hne
  | promote hdown hnode hs hpropose hbar hpromote hpassed =>
    obtain ⟨hn, hreach, -⟩ := controller_promote.mp hpromote
    exact h.promote hdown hn hreach hpassed

theorem Reach.inv (h : Reach partition w) : Inv w := by
  induction h with
  | start leader replicaIds config metadata =>
    refine ⟨fun i _ hi => ?_, fun _ n => List.nil_prefix, fun s hs => ?_, fun s hs => ?_⟩
    · simp [FailoverWorld.start, ReplicaSet.start, ReplicaLog.empty, ReplicaLog.settled] at hi
    · cases hs
    · cases hs
  | step _ hs ih => exact ih.step hs

theorem Step.subset_released (hs : Step partition w w') : w.released ⊆ w'.released := by
  cases hs with
  | ack =>
    obtain ⟨gate, released, heq, hsub, -⟩ := w.ack_frame _
    rw [heq]
    exact hsub
  | deliver =>
    obtain ⟨gate, released, heq, hsub, -⟩ := release_frame _
    rw [FailoverWorld.deliver, heq]
    exact hsub
  | _ => exact List.Subset.refl _

/-- No step takes an acked record from a replica that holds it. -/
theorem Inv.keeps (h : Inv w) (hs : Step partition w w') {o : Nat} (ho : o ∈ w.released) :
    Keeps w.set w'.set o := by
  cases hs with
  | append hup hframe =>
    refine .of_plane ?_ ?_ ?_ o
    · rfl
    · rfl
    · exact List.prefix_append ..
  | sync hup =>
    refine .of_plane ?_ ?_ ?_ o
    · rfl
    · rfl
    · exact List.prefix_rfl
  | ack hup hsynced =>
    obtain ⟨gate, released, heq, -⟩ := w.ack_frame _
    rw [heq]
    exact .of_plane rfl rfl List.prefix_rfl o
  | adopt hup hprobe hbackward hfloor =>
    rename_i n committedFloor probe backward room
    refine .of_follower rfl rfl rfl fun frame hframe => ?_
    rcases (w.set.followers n).reconcileOnAdopt_cases committedFloor probe backward room with
      hsame | ⟨floor, hf, hcut⟩
    · rwa [hsame]
    · -- before a failure the logs agree; after one the cut is above what was released
      cases hfailed : w.failed with
      | none =>
        rw [Follower.reconcileOnAdopt_of_shared (h.shared_up hfailed n) room hprobe hbackward]
        exact hframe
      | some s =>
        rw [hcut, ReplicaLog.settled,
          List.getElem?_take_of_lt (hfloor (by simp [hfailed]) floor hf o ho)]
        exact hframe
  | pull hup =>
    obtain ⟨hplane, hleader, f, hfollowers, hf⟩ := w.set.pull_frame _ _ _ _ _
    refine .of_follower hleader hplane hfollowers fun frame hframe => ?_
    rcases hf with rfl | rfl
    · exact hframe
    · exact (Follower.applyFetchResponse_records _ _ _).getElem?_eq_some hframe
  | deliver hup hsent => exact .of_plane rfl rfl List.prefix_rfl o
  | disconnect n => exact .of_plane rfl rfl List.prefix_rfl o
  | commit cmd => exact fun _ _ h => h
  | fail hnone => exact fun _ _ h => h
  | promote hdown hnode hs hpropose hbar hpromote hpassed =>
    exact .lead (controller_promote.mp hpromote).1 _ _ o

/-- From one state of a run to a later one. -/
inductive Run (partition : Nat) (w : FailoverWorld) : FailoverWorld → Prop
  | refl : Run partition w w
  | step {w' w'' : FailoverWorld} (h : Run partition w w') (hs : Step partition w' w'') :
      Run partition w w''

theorem Run.keeps (hreach : Reach partition w) (h : Run partition w w') {o : Nat}
    (ho : o ∈ w.released) :
    Reach partition w' ∧ o ∈ w'.released ∧ Keeps w.set w'.set o := by
  induction h with
  | refl => exact ⟨hreach, ho, fun _ _ h => h⟩
  | step _ hs ih =>
    obtain ⟨hreach', ho', hkeeps⟩ := ih
    exact ⟨.step hreach' hs, hs.subset_released ho',
      fun n frame hn => hreach'.inv.keeps hs ho' n frame (hkeeps n frame hn)⟩

/-- In every run in which the bar has passed every released ack when a survivor is promoted and when
one adopts it, the new leader holds what was acked, with the bytes the failed leader had, and no
replica ever loses an acked record. -/
theorem released_survive (h : Reach partition w) :
    (∀ s ∈ w.failed, w.set.leader ≠ s.leader → ∀ o ∈ w.released, ∃ frame,
      s.plane.records[o]? = some frame ∧ w.set.plane.records[o]? = some frame) ∧
    ∀ w', Run partition w w' → ∀ o ∈ w.released, ∀ n frame,
      (w.set.log n).records[o]? = some frame → (w'.set.log n).records[o]? = some frame :=
  ⟨h.inv.kept, fun _ hrun _ ho => (hrun.keeps h ho).2.2⟩

end FailoverWorld

namespace FailoverWorld

open ReplicaSet Codec

/-- The checksums the runs below are evaluated with; the frames are too short for the second. -/
local instance : Checksums := ⟨castagnoli, fun _ => 0⟩

/-- Three replicas of partition 0, of which two must hold a record; node 1 leads. -/
def trioMetadata : MetadataStateMachine :=
  MetadataStateMachine.new.apply 1 (.placePartition 0 [1, 2, 3] 1 1)

/-- The first record is synced on the leader and pulled by the followers. -/
def pulledOnce : FailoverWorld :=
  let w := start 1 [1, 2, 3] pairConfig trioMetadata
  let w := { w with set := w.set.append (firstFrame [7]) }
  let w := { w with set := w.set.sync }
  let w := w.ack 0
  let w := { w with set := w.set.pull 2 8 1024 8 .none }
  { w with set := w.set.pull 3 8 1024 8 .none }

/-- Node 2's report releases the ack, and the commit is checkpointed. -/
def checkpointed : FailoverWorld :=
  (pulledOnce.deliver ⟨2, 1⟩).commit (.checkpointCommittedHw 0 1)

def leaderless : FailoverWorld := { checkpointed with failed := some checkpointed.set }

/-- The leader fails and node 3 takes over. -/
def handedOver : FailoverWorld := leaderless.promote 3 [2, 3] pairConfig

theorem reach_checkpointed : Reach 0 checkpointed := by
  have hup : ∀ w : FailoverWorld, w.failed = none → w.Up := by
    intro w hw s hs
    rw [hw] at hs
    cases hs
  refine .step
    (.step (.step (.step (.step (.step (.step (.start 1 [1, 2, 3] pairConfig trioMetadata)
    (.append (hup _ rfl) (intact_firstFrame 7))) (.sync (hup _ rfl))) (.ack (hup _ rfl) ?_))
    (.pull (hup _ rfl))) (.pull (hup _ rfl))) (.deliver (hup _ ?_) ?_)) (.commit _)
  all_goals decide +kernel

theorem reach_handedOver : Reach 0 handedOver := by
  have hup : checkpointed.failed = none := by decide +kernel
  have hdown : Reach 0 leaderless := .step reach_checkpointed (.fail hup)
  have hpropose : (⟨3, [1], []⟩ : MetadataDriver).failoverProposal (leaderless.inputs 3)
      leaderless.metadata 0 ⟨[1, 2, 3], 1, 1⟩ = some (.placePartition 0 [2, 3] 3 2) := by
    decide +kernel
  have hbar : leaderless.metadata.committedHw.get 0 = some 1 := by decide +kernel
  have hpromote : (leaderless.set.controller 0 3).promoteFollowerToLeader 0 [2, 3] pairConfig 1
      = .ok (handedOver.set.controller 0 3) :=
    controller_promote.mpr ⟨by decide +kernel, by decide +kernel, rfl⟩
  have hnone : ¬ leaderless.Up := fun h => h checkpointed.set rfl (by decide +kernel)
  have hpassed : ∀ o ∈ leaderless.released, o < 1 := by decide +kernel
  exact .step hdown
    (.promote hnone rfl (List.mem_cons_self ..) hpropose hbar hpromote hpassed)

theorem released_survive_handedOver :
    ∃ frame, checkpointed.set.plane.records[0]? = some frame ∧
      handedOver.set.plane.records[0]? = some frame :=
  (released_survive reach_handedOver).1 checkpointed.set rfl (by decide +kernel) 0
    (by decide +kernel)

/-- The second record reaches node 2 and is acked; the leader fails before its next checkpoint. -/
def ackedThenFailed : FailoverWorld :=
  let w := { checkpointed with set := (checkpointed.set.append secondFrame).sync }
  let w := w.ack 1
  let w := { w with set := w.set.pull 2 8 1024 8 .none }
  let w := w.deliver ⟨2, 2⟩
  { w with failed := some w.set }

/-- Node 3 takes over. -/
def tookOver : FailoverWorld := ackedThenFailed.promote 3 [2, 3] pairConfig

/-- Node 2 adopts node 3 with the bar it knows. -/
def adopted : FailoverWorld :=
  let probe := serveFetch tookOver.set.plane ((tookOver.set.followers 2).fetchRequest 1024 1024) 8
  { tookOver with set := tookOver.set.adopt 2 (some 1) (some probe) none 8 }

/-- The checkpoint is the leader's own, and both records were acked. The driver of node 3, which has
only the first, proposes itself and is promoted; node 2 has the second record and drops it. -/
theorem acked_record_lost :
    (⟨1, [], []⟩ : MetadataDriver).checkpointProposal ((pulledOnce.deliver ⟨2, 1⟩).inputs 1)
      pulledOnce.metadata 0 ⟨[1, 2, 3], 1, 1⟩ = some (.checkpointCommittedHw 0 1) ∧
    ackedThenFailed.released = [1, 0] ∧
    (⟨3, [1], []⟩ : MetadataDriver).failoverProposal (ackedThenFailed.inputs 3)
      ackedThenFailed.metadata 0 ⟨[1, 2, 3], 1, 1⟩ = some (.placePartition 0 [2, 3] 3 2) ∧
    ((ackedThenFailed.set.controller 0 3).promoteFollowerToLeader 0 [2, 3] pairConfig 1).isOk ∧
    tookOver.set.plane.records[1]? = none ∧
    (tookOver.set.log 2).records[1]? = some secondFrame ∧
    (adopted.set.log 2).records[1]? = none := by
  decide +kernel

end FailoverWorld

end IronBus
