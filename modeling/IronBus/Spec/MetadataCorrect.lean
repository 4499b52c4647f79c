import IronBus.Native.Metadata

/-!
# Leader epochs of partitions

The metadata log orders the commands that successive metadata leaders propose, each from the part
of the log its node has applied. The state machine applies placements as they come.

Key results:
- `failoverProposal_spec`: what a node proposes, by the placement it knows
- `epochs_advance`: epochs never go back, and a proposal's is new iff its node has caught up
-/

namespace IronBus

open MetadataStateMachine List

namespace MetadataCommand

/-- The command sets the placement of a partition. -/
def Places (c : MetadataCommand) (p : Nat) : Prop :=
  match c with
  | .assignPartition partition _ _ => partition = p
  | .placePartition partition _ _ _ => partition = p
  | _ => False

instance (c : MetadataCommand) (p : Nat) : Decidable (c.Places p) := by
  cases c <;> unfold Places <;> infer_instance

end MetadataCommand

namespace MetadataStateMachine

/-- Applies commands in log order. -/
def replay (s : MetadataStateMachine) (cmds : List MetadataCommand) : MetadataStateMachine :=
  cmds.foldl (fun s c => s.apply (s.appliedIndex + 1) c) s

theorem replay_append (s : MetadataStateMachine) (cmds cmds' : List MetadataCommand) :
    s.replay (cmds ++ cmds') = (s.replay cmds).replay cmds' := foldl_append

theorem placements_apply_of_not_places {s : MetadataStateMachine} {c : MetadataCommand} {p : Nat}
    (h : ¬ c.Places p) (index : Nat) : (s.apply index c).placements.get p = s.placements.get p := by
  cases c with
  | assignPartition => exact NatMap.get_insert_of_ne (Ne.symm h)
  | placePartition => exact NatMap.get_insert_of_ne (Ne.symm h)
  | _ => rfl

theorem placements_replay_of_not_places {s : MetadataStateMachine} {cmds : List MetadataCommand}
    {p : Nat} (h : ∀ c ∈ cmds, ¬ c.Places p) :
    (s.replay cmds).placements.get p = s.placements.get p := by
  induction cmds generalizing s with
  | nil => rfl
  | cons c cmds ih =>
    refine (ih fun c' hc' => h c' (mem_cons_of_mem _ hc')).trans ?_
    exact placements_apply_of_not_places (h c mem_cons_self) _

end MetadataStateMachine

/-- A failover passes when the successor is in sync, complete, and fences the dead leader. -/
theorem checkFailoverPreservesCommitted_ok {f : Failover} :
    checkFailoverPreservesCommitted f = .ok () ↔
      f.successorInIsr ∧ f.committedHw ≤ f.successorDurablePrefix
        ∧ f.deadLeaderEpoch < f.successorEpoch := by
  unfold checkFailoverPreservesCommitted
  split_ifs <;> simp_all

namespace MetadataDriver

variable {d : MetadataDriver} {inputs : FailoverInputs} {s : MetadataStateMachine}

/-- A promotion the driver proposes is one epoch above the placement its node has applied. -/
theorem failoverProposal_spec {p : Nat} {placement : Placement} {cmd : MetadataCommand}
    (h : d.failoverProposal inputs s p placement = some cmd) :
    ∃ replicas, cmd = .placePartition p replicas d.nodeId (placement.epoch + 1) := by
  unfold failoverProposal at h
  split at h
  · cases h
  split at h
  · cases h
  dsimp only at h
  split at h
  · cases h
  split at h
  · cases h
  rename_i hcheck
  have hlt : placement.epoch < saturatingAdd placement.epoch 1 :=
    (checkFailoverPreservesCommitted_ok.mp hcheck).2.2
  have hepoch : saturatingAdd placement.epoch 1 = placement.epoch + 1 := by
    unfold saturatingAdd at hlt ⊢
    omega
  rw [hepoch] at h
  exact ⟨_, (Option.some.inj h).symm⟩

/-- A command the driver proposes either is a checkpoint or promotes its node one epoch above the
placement it has applied. -/
theorem mem_proposals {cmd : MetadataCommand} (h : cmd ∈ d.proposals inputs s) :
    (∀ p, ¬ cmd.Places p) ∨ ∃ p placement replicas, s.placements.get p = some placement
      ∧ cmd = .placePartition p replicas d.nodeId (placement.epoch + 1) := by
  rcases mem_append.mp h with hmem | hmem
  · obtain ⟨p, -, hp⟩ := mem_filterMap.mp hmem
    obtain ⟨placement, -, hcmd⟩ := Option.bind_eq_some_iff.mp hp
    unfold checkpointProposal at hcmd
    split at hcmd
    · cases hcmd
    · split at hcmd
      · cases hcmd
      · cases hcmd
        exact .inl fun _ => id
  · obtain ⟨p, -, hp⟩ := mem_filterMap.mp hmem
    obtain ⟨placement, hplace, hcmd⟩ := Option.bind_eq_some_iff.mp hp
    obtain ⟨replicas, rfl⟩ := failoverProposal_spec hcmd
    exact .inr ⟨p, placement, replicas, hplace, rfl⟩

end MetadataDriver

namespace MetadataLog

variable {base : MetadataStateMachine} {log : List MetadataCommand}

/-- The placement of a partition once the first `k` entries of the log are applied. -/
def placementAt (base : MetadataStateMachine) (log : List MetadataCommand) (k p : Nat) :
    Option Placement :=
  (base.replay (log.take k)).placements.get p

/-- The logs that drivers of successive metadata leaders build, each promotion proposed by a node
that has applied every placement of its partition in the log. -/
inductive Reach (base : MetadataStateMachine) : List MetadataCommand → Prop where
  | start : Reach base []
  | propose {log : List MetadataCommand} (h : Reach base log) (d : MetadataDriver)
      (inputs : FailoverInputs) (k : Nat) {cmd : MetadataCommand}
      (hcmd : cmd ∈ d.proposals inputs (base.replay (log.take k)))
      (hcaught : ∀ p, cmd.Places p → ∀ c ∈ log.drop k, ¬ c.Places p) : Reach base (log ++ [cmd])

/-- Between two points of the log a partition's placement stays, with nothing placing it, or moves
to a greater epoch. -/
def Advances (base : MetadataStateMachine) (log : List MetadataCommand) : Prop :=
  ∀ p i j placement, i ≤ j → placementAt base log i p = some placement →
    ∃ placement', placementAt base log j p = some placement'
      ∧ (placement' = placement ∧ (∀ c ∈ (log.take j).drop i, ¬ c.Places p)
        ∨ placement.epoch < placement'.epoch)

/-- Entries past the point do not count. -/
theorem placementAt_append_of_le {k : Nat} (h : k ≤ log.length) (cmds : List MetadataCommand)
    (p : Nat) : placementAt base (log ++ cmds) k p = placementAt base log k p := by
  rw [placementAt, placementAt, take_append_of_le_length h]

/-- Past the end of the log nothing changes. -/
theorem placementAt_of_length_le {k : Nat} (h : log.length ≤ k) (p : Nat) :
    placementAt base log k p = (base.replay log).placements.get p := by
  rw [placementAt, take_of_length_le h]

/-- What a proposer that has applied the partition's placements sees is current. -/
theorem placementAt_eq_of_caught {k p : Nat} (h : ∀ c ∈ log.drop k, ¬ c.Places p) :
    (base.replay log).placements.get p = placementAt base log k p := by
  have hsplit : base.replay log = (base.replay (log.take k)).replay (log.drop k) := by
    rw [← replay_append, take_append_drop]
  rw [hsplit, placementAt]
  exact placements_replay_of_not_places h

/-- Appending a command that leaves a partition alone or raises its epoch. -/
theorem Advances.snoc (h : Advances base log) {cmd : MetadataCommand}
    (hcmd : ∀ p placement, (base.replay log).placements.get p = some placement → cmd.Places p →
      ∃ placement',
        ((base.replay log).apply ((base.replay log).appliedIndex + 1) cmd).placements.get p
        = some placement' ∧ placement.epoch < placement'.epoch) :
    Advances base (log ++ [cmd]) := by
  intro p i j placement hij hi
  have hlast : base.replay (log ++ [cmd])
      = (base.replay log).apply ((base.replay log).appliedIndex + 1) cmd := by
    rw [replay_append]
    rfl
  by_cases hj : j ≤ log.length
  · rw [placementAt_append_of_le (hij.trans hj)] at hi
    rw [placementAt_append_of_le hj, take_append_of_le_length hj]
    exact h p i j placement hij hi
  · have hend : (log ++ [cmd]).length ≤ j := by
      rw [length_append, length_singleton]
      omega
    rw [placementAt_of_length_le hend, take_of_length_le hend]
    by_cases hi' : i ≤ log.length
    · -- across the old end of the log, then over the new entry
      rw [placementAt_append_of_le hi'] at hi
      obtain ⟨mid, hmid, hstep⟩ := h p i log.length placement hi' hi
      rw [placementAt_of_length_le le_rfl] at hmid
      rw [take_length] at hstep
      rw [hlast]
      by_cases hplaces : cmd.Places p
      · obtain ⟨placement', hnew, hlt⟩ := hcmd p mid hmid hplaces
        refine ⟨placement', hnew, .inr ?_⟩
        rcases hstep with ⟨rfl, -⟩ | hlt'
        · exact hlt
        · exact hlt'.trans hlt
      · rw [placements_apply_of_not_places hplaces]
        refine ⟨mid, hmid, hstep.imp_left fun ⟨heq, hquiet⟩ => ⟨heq, fun c hc => ?_⟩⟩
        rw [drop_append_of_le_length hi'] at hc
        rcases mem_append.mp hc with hc | hc
        · exact hquiet c hc
        · exact mem_singleton.mp hc ▸ hplaces
    · have hend' : (log ++ [cmd]).length ≤ i := by
        rw [length_append, length_singleton]
        omega
      rw [placementAt_of_length_le hend'] at hi
      refine ⟨placement, hi, .inl ⟨rfl, fun c hc => ?_⟩⟩
      rw [drop_eq_nil_of_le hend'] at hc
      cases hc

theorem Reach.advances (h : Reach base log) : Advances base log := by
  induction h with
  | start => exact fun p i j placement _ hi => ⟨placement, by simpa [placementAt] using hi,
      .inl ⟨rfl, by simp⟩⟩
  | @propose log _ d inputs k cmd hcmd hcaught ih =>
    refine ih.snoc fun p placement hplace hplaces => ?_
    rcases MetadataDriver.mem_proposals hcmd with hnone | ⟨p', seen, replicas, hseen, rfl⟩
    · exact absurd hplaces (hnone p)
    · cases (hplaces : p' = p)
      rw [placementAt_eq_of_caught (hcaught p rfl)] at hplace
      obtain rfl := Option.some.inj (hseen.symm.trans hplace)
      exact ⟨_, NatMap.get_insert_self _ _ _, Nat.lt_succ_self _⟩

/-- In every log whose promotions were proposed by nodes that had applied the partition's
placements, a partition's epoch never decreases and stands for one placement. A further promotion
is above the partition's epoch exactly when its proposer has applied the partition's placements. -/
theorem epochs_advance (base : MetadataStateMachine) (log : List MetadataCommand)
    (h : Reach base log) :
    (∀ p i j placement, i ≤ j → placementAt base log i p = some placement →
        ∃ placement', placementAt base log j p = some placement'
          ∧ placement.epoch ≤ placement'.epoch
          ∧ (placement.epoch = placement'.epoch → placement.leader = placement'.leader))
      ∧ ∀ (d : MetadataDriver) inputs k p replicas leader epoch,
        .placePartition p replicas leader epoch ∈ d.proposals inputs (base.replay (log.take k)) →
          ((∀ c ∈ log.drop k, ¬ c.Places p) ↔
            ∀ placement, (base.replay log).placements.get p = some placement →
              placement.epoch < epoch) := by
  have hadv := h.advances
  refine ⟨fun p i j placement hij hi => ?_, ?_⟩
  · obtain ⟨placement', hj, ⟨rfl, -⟩ | hlt⟩ := hadv p i j placement hij hi
    · exact ⟨placement', hj, le_rfl, fun _ => rfl⟩
    · exact ⟨placement', hj, Nat.le_of_lt hlt, fun heq => absurd heq (Nat.ne_of_lt hlt)⟩
  · intro d inputs k p replicas leader epoch hcmd
    rcases MetadataDriver.mem_proposals hcmd with hnone | ⟨p', seen, replicas', hseen, heq⟩
    · exact absurd rfl (hnone p)
    cases heq
    constructor
    · intro hcaught placement hplace
      rw [placementAt_eq_of_caught hcaught] at hplace
      obtain rfl := Option.some.inj (hseen.symm.trans hplace)
      exact Nat.lt_succ_self _
    · intro hlt
      by_cases hk : k ≤ log.length
      · obtain ⟨placement', hlast, ⟨-, hquiet⟩ | hgt⟩ := hadv p k log.length seen hk hseen
        · rwa [List.take_length] at hquiet
        · rw [placementAt_of_length_le le_rfl] at hlast
          have := hlt placement' hlast
          omega
      · rw [List.drop_eq_nil_of_le (Nat.le_of_not_le hk)]
        simp

/-- A partition led by node 1 at epoch 5, with a checkpoint. -/
def ledByOne : MetadataStateMachine :=
  { new with
    placements := NatMap.empty.insert 0 ⟨[1, 2, 3], 1, 5⟩
    committedHw := NatMap.empty.insert 0 0 }

/-- A data plane with nothing in it. -/
def idle : FailoverInputs := ⟨fun _ => 0, fun _ => 0⟩

/-- Node 2 takes over from node 1 and checkpoints; node 3 takes over from node 2 without having
seen the checkpoint. -/
def twoTakeovers : List MetadataCommand :=
  [.placePartition 0 [2, 3] 2 6, .checkpointCommittedHw 0 1, .placePartition 0 [3] 3 7]

theorem epochs_advance_takeover :
    ∃ placement', placementAt ledByOne twoTakeovers 3 0 = some placement'
      ∧ 6 ≤ placement'.epoch ∧ (6 = placement'.epoch → 2 = placement'.leader) := by
  have hfirst : Reach ledByOne [.placePartition 0 [2, 3] 2 6] :=
    .propose .start ⟨2, [1], []⟩ idle 0 (by decide) (by simp)
  have hsecond : Reach ledByOne [.placePartition 0 [2, 3] 2 6, .checkpointCommittedHw 0 1] :=
    hfirst.propose ⟨2, [1], []⟩ ⟨fun _ => 1, fun _ => 1⟩ 1 (by decide) fun p hp => hp.elim
  have hthird : Reach ledByOne twoTakeovers :=
    hsecond.propose ⟨3, [1, 2], []⟩ idle 1 (by decide) fun p _ c hc => by
      obtain rfl := mem_singleton.mp hc
      exact id
  exact (epochs_advance ledByOne twoTakeovers hthird).1 0 1 3 ⟨[2, 3], 2, 6⟩ (by decide) (by decide)

/-- Two metadata leaders that have not applied each other's promotion give epoch 6 to both, and one
that is two promotions behind takes the epoch from 7 back to 6. -/
theorem stale_proposers_reuse_epochs :
    .placePartition 0 [2, 3] 2 6 ∈ (⟨2, [1], []⟩ : MetadataDriver).proposals idle ledByOne
      ∧ .placePartition 0 [2, 3] 3 6 ∈ (⟨3, [1], []⟩ : MetadataDriver).proposals idle ledByOne
      ∧ placementAt ledByOne [.placePartition 0 [2, 3] 2 6, .placePartition 0 [2, 3] 3 6] 1 0
        = some ⟨[2, 3], 2, 6⟩
      ∧ placementAt ledByOne [.placePartition 0 [2, 3] 2 6, .placePartition 0 [2, 3] 3 6] 2 0
        = some ⟨[2, 3], 3, 6⟩
      ∧ .placePartition 0 [3] 3 7 ∈ (⟨3, [1, 2], []⟩ : MetadataDriver).proposals idle
        (ledByOne.replay [.placePartition 0 [2, 3] 2 6])
      ∧ .placePartition 0 [2, 3, 4] 4 6 ∈ (⟨4, [1], []⟩ : MetadataDriver).proposals idle ledByOne
      ∧ (placementAt ledByOne [.placePartition 0 [2, 3] 2 6, .placePartition 0 [3] 3 7,
        .placePartition 0 [2, 3, 4] 4 6] 2 0).map Placement.epoch = some 7
      ∧ (placementAt ledByOne [.placePartition 0 [2, 3] 2 6, .placePartition 0 [3] 3 7,
        .placePartition 0 [2, 3, 4] 4 6] 3 0).map Placement.epoch = some 6 := by
  decide

end MetadataLog

end IronBus
