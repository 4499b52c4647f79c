import IronBus.Native.GroupSlot
import IronBus.Spec.GroupMoves

/-!
# What a checkpoint gives back

A group that comes back has the cursor and the attempt counts of its files.

Key results:
- `recovered_committed`: the watermark survives, up to the durable head
- `recovered_cursor`: so do the ranges ahead of it, when the file has room for them
-/

namespace IronBus

open AckCursor

/-! ## Cursors -/

theorem checkAhead_of_runs {lo : Nat} {l : List (Nat × Nat)} (h : Runs lo l) :
    checkAhead lo l = .ok () := by
  induction l generalizing lo with
  | nil => rfl
  | cons r l ih =>
    obtain ⟨hlo, hlt, hrest⟩ := h
    rw [checkAhead, if_neg (by omega), if_neg (by omega)]
    exact ih hrest

/-- A checkpoint keeps the watermark. -/
theorem snapshotPayload_committed (c : AckCursor) :
    (snapshotPayload c).committed = c.committed := by
  unfold snapshotPayload resumeWithAhead
  cases checkAhead c.committed (c.ahead.take maxCheckpointRuns) <;> rfl

/-- A checkpoint gives the watermark back, up to the durable head. -/
theorem resumeCursorFromSnapshot_committed (recovered : Option AckCursor) (flushed : Nat) :
    (resumeCursorFromSnapshot recovered flushed).committed
      = min ((recovered.map (·.committed)).getD 0) flushed := by
  unfold resumeCursorFromSnapshot resumeWithAhead
  simp only
  split
  · rename_i c heq
    split at heq
    · cases heq
    · cases heq
      rfl
  · rfl

theorem resumeCursorFromSnapshot_wf (recovered : Option AckCursor) {flushed : Nat}
    (h : flushed ≤ u64Max) : (resumeCursorFromSnapshot recovered flushed).Wf := by
  have hle : (resumeCursorFromSnapshot recovered flushed).committed ≤ u64Max := by
    rw [resumeCursorFromSnapshot_committed]
    exact (min_le_right _ _).trans h
  revert hle
  unfold resumeCursorFromSnapshot resumeWithAhead
  simp only
  split
  · rename_i c heq
    split at heq
    · cases heq
    · rename_i hok
      cases heq
      refine fun hle => ⟨runs_of_checkAhead hok, hle, fun r hr => ?_⟩
      have := (List.mem_filter.mp hr).2
      simp only [Bool.and_eq_true, decide_eq_true_eq] at this
      exact this.2.trans h
  · exact fun hle => resume_wf hle

/-- What a checkpoint keeps is well formed, and acknowledged by the cursor. -/
theorem snapshotPayload_acked {c : AckCursor} (h : c.Wf) :
    (snapshotPayload c).Wf ∧ (snapshotPayload c).acked ⊆ c.acked := by
  have hruns : Runs c.committed (c.ahead.take maxCheckpointRuns) :=
    (runs_append.mp ((List.take_append_drop maxCheckpointRuns c.ahead).symm ▸ h.runs)).1
  have hsnap : snapshotPayload c = ⟨c.committed, c.ahead.take maxCheckpointRuns⟩ := by
    rw [snapshotPayload, resumeWithAhead, checkAhead_of_runs hruns]
  have hwf : (snapshotPayload c).Wf := by
    rw [hsnap]
    exact ⟨hruns, h.committed_le, fun r hr => h.ahead_le r (List.mem_of_mem_take hr)⟩
  refine ⟨hwf, fun o ho => (h.isAcked_iff o).mpr ?_⟩
  rcases (hwf.isAcked_iff o).mp ho with hlt | ⟨r, hr, hle⟩
  · rw [hsnap] at hlt
    exact .inl hlt
  · rw [hsnap] at hr
    exact .inr ⟨r, List.mem_of_mem_take hr, hle⟩

/-- A checkpoint below the durable head is given back as it is. -/
theorem resumeCursorFromSnapshot_eq {c : AckCursor} {flushed : Nat} (hwf : c.Wf)
    (hle : ∀ o, c.isAcked o = true → o < flushed) :
    resumeCursorFromSnapshot (some c) flushed = c := by
  have hcommitted : c.committed ≤ flushed := by
    rcases Nat.eq_zero_or_pos c.committed with h0 | hpos
    · omega
    · have := hle (c.committed - 1) ((hwf.isAcked_iff _).mpr (.inl (by omega)))
      omega
  have hfilter : c.ahead.filter (fun r => decide (c.committed < r.1) && decide (r.2 ≤ flushed))
      = c.ahead := by
    refine List.filter_eq_self.mpr fun r hr => ?_
    have hr' := hwf.runs.lt_of_mem hr
    have := hle (r.2 - 1) ((hwf.isAcked_iff _).mpr (.inr ⟨r, hr, by omega, by omega⟩))
    simp only [Bool.and_eq_true, decide_eq_true_eq]
    omega
  simp only [resumeCursorFromSnapshot, Option.map_some, Option.getD_some,
    min_eq_left hcommitted, hfilter, resumeWithAhead, checkAhead_of_runs hwf.runs]

/-- A checkpoint with room for every range gives the cursor back. -/
theorem resumeCursorFromSnapshot_snapshotPayload {c : AckCursor} {flushed : Nat} (hwf : c.Wf)
    (hruns : c.ahead.length ≤ maxCheckpointRuns) (hle : c.committed ≤ flushed)
    (hahead : ∀ r ∈ c.ahead, r.2 ≤ flushed) :
    resumeCursorFromSnapshot (some (snapshotPayload c)) flushed = c := by
  have hsnap : snapshotPayload c = c := by
    rw [snapshotPayload, List.take_of_length_le hruns, resumeWithAhead,
      checkAhead_of_runs hwf.runs]
  rw [hsnap]
  refine resumeCursorFromSnapshot_eq hwf fun o ho => ?_
  rcases (hwf.isAcked_iff o).mp ho with hlt | ⟨r, hr, -, hlt⟩
  · exact hlt.trans_le hle
  · exact hlt.trans_le (hahead r hr)

/-! ## Attempt counts -/

/-- The counts taken over are those of the list, one for each offset. -/
theorem resumeAttempts_carried {t : LeaseTable} {pairs : List (Nat × Nat)} {o n : Nat} (hn : 0 < n)
    (hmem : (o, n) ∈ pairs ∨ t.carried.get o = some n)
    (huniq : ∀ m, (o, m) ∈ pairs → m = n) :
    (t.resumeAttempts pairs).carried.get o = some n := by
  unfold LeaseTable.resumeAttempts
  simp only
  generalize t.carried = m at hmem
  induction pairs generalizing m with
  | nil => exact hmem.resolve_left (by simp)
  | cons p pairs ih =>
    refine ih (fun m hm => huniq m (List.mem_cons_of_mem _ hm)) _ ?_
    by_cases hp : p.1 = o
    · have hpn : p.2 = n := huniq p.2 (by rw [← hp]; exact List.mem_cons_self)
      right
      simp only [hp, hpn, if_pos hn, NatMap.get_insert_self]
    · rcases hmem with hmem | hget
      · rcases List.mem_cons.mp hmem with heq | hmem
        · exact absurd (by rw [← heq]) hp
        · exact .inl hmem
      · right
        simp only
        split
        · rw [NatMap.get_insert_of_ne (Ne.symm hp)]
          exact hget
        · exact hget

/-- The snapshot of the counts has one for every offset that was attempted. -/
theorem exists_mem_allAttemptCounts (t : LeaseTable) {o : Nat} (h : 0 < t.attempts o) :
    ∃ n, t.attempts o ≤ n ∧ (o, n) ∈ t.allAttemptCounts
      ∧ ∀ m, (o, m) ∈ t.allAttemptCounts → m = n := by
  -- the snapshot maps each offset on its own, so the entry of `o` is the value at `o`
  have hmem {f : Nat → Option (Nat × Nat)} {bound n : Nat} (hf : ∀ i p, f i = some p → p.1 = i)
      (hlt : o < bound) (ho : f o = some (o, n)) :
      (o, n) ∈ (List.range bound).filterMap f
        ∧ ∀ m, (o, m) ∈ (List.range bound).filterMap f → m = n := by
    refine ⟨List.mem_filterMap.mpr ⟨o, List.mem_range.mpr hlt, ho⟩, fun m hm => ?_⟩
    obtain ⟨i, -, hi⟩ := List.mem_filterMap.mp hm
    obtain rfl : o = i := hf i _ hi
    rw [ho] at hi
    exact (Prod.mk.inj (Option.some.inj hi)).2.symm
  have hbound {α : Type} {m : NatMap α} {v : α} (hget : m.get o = some v) : o < m.bound := by
    by_contra hge
    rw [m.get_of_bound_le o (by omega)] at hget
    cases hget
  unfold LeaseTable.allAttemptCounts
  unfold LeaseTable.attempts at h ⊢
  cases hl : t.leases.get o with
  | some lease =>
    have hlt : o < max t.leases.bound t.carried.bound := by
      have := hbound hl
      omega
    cases hc : t.carried.get o with
    | some n =>
      refine ⟨max n lease.deliveries, by simp, hmem (fun i p hp => ?_) hlt (by simp [hl, hc])⟩
      split at hp <;> cases hp <;> rfl
    | none =>
      refine ⟨lease.deliveries, by simp, hmem (fun i p hp => ?_) hlt (by simp [hl, hc])⟩
      split at hp <;> cases hp <;> rfl
  | none =>
    cases hc : t.carried.get o with
    | some n =>
      have hlt : o < max t.leases.bound t.carried.bound := by
        have := hbound hc
        omega
      refine ⟨n, by simp, hmem (fun i p hp => ?_) hlt (by simp [hl, hc])⟩
      split at hp <;> cases hp <;> rfl
    | none =>
      rw [hl, hc] at h
      cases h

/-! ## Slots -/

namespace GroupSlot

variable {cfg : EngineConfig} {env : PollEnv} {slot : GroupSlot} {g : WorkGroup}

/-- A recovered group has no lease and no match that waits, and starts at the checkpoint. -/
theorem recovered_leases (cfg : EngineConfig) (env : PollEnv) (slot : GroupSlot) (o : Nat) :
    (slot.recovered cfg env).leases.leases.get o = none := by
  unfold recovered resumeWorkGroup
  exact congrFun rfl o

theorem recovered_committed (cfg : EngineConfig) (env : PollEnv) (slot : GroupSlot) :
    (slot.recovered cfg env).cursor.committed
      = min ((slot.cursorFile.map (·.committed)).getD 0) env.flushed := by
  unfold recovered resumeWorkGroup
  cases slot.cursorFile with
  | none => exact (Nat.zero_min _).symm
  | some c => exact resumeCursorFromSnapshot_committed (some c) env.flushed

theorem recovered_wf (cfg : EngineConfig) (slot : GroupSlot) (h : env.flushed ≤ u64Max) :
    (slot.recovered cfg env).cursor.Wf := by
  unfold recovered resumeWorkGroup
  cases slot.cursorFile with
  | none => exact resume_wf (Nat.zero_le _)
  | some c => exact resumeCursorFromSnapshot_wf (some c) h

/-- Writing a checkpoint changes nothing a consumer can see. -/
theorem checkpointGroup_live (h : slot.live = some g) :
    ∃ n, slot.checkpointGroup.live
      = some { g with leases := { g.leases with redeliveriesSinceFlush := n } } := by
  have hcursor : slot.writeGroupCheckpoint.live = some g := by
    rw [writeGroupCheckpoint, h]
    simp only
    split
    · exact h
    · rfl
  have hattempts {s : GroupSlot} (hs : s.live = some g) : ∃ n, s.writeGroupAttempts.live
      = some { g with leases := { g.leases with redeliveriesSinceFlush := n } } := by
    rw [writeGroupAttempts, hs]
    simp only
    split
    · exact ⟨_, hs⟩
    · exact ⟨_, rfl⟩
  rw [checkpointGroup, h]
  simp only
  split
  · exact ⟨_, h⟩
  · split
    · exact hattempts (by split <;> assumption)
    · refine ⟨g.leases.redeliveriesSinceFlush, ?_⟩
      split <;> assumption

/-- A checkpoint is written from the live cursor, or not at all. -/
theorem writeGroupCheckpoint_cursorFile (slot : GroupSlot) :
    slot.writeGroupCheckpoint.cursorFile = slot.cursorFile
      ∨ ∃ g, slot.live = some g
        ∧ slot.writeGroupCheckpoint.cursorFile = some (snapshotPayload g.cursor) := by
  unfold writeGroupCheckpoint
  cases hlive : slot.live with
  | none => exact .inl rfl
  | some g =>
    simp only
    split
    · exact .inl rfl
    · exact .inr ⟨g, rfl, rfl⟩

theorem writeGroupAttempts_cursorFile (slot : GroupSlot) :
    slot.writeGroupAttempts.cursorFile = slot.cursorFile := by
  unfold writeGroupAttempts
  cases slot.live with
  | none => rfl
  | some g =>
    simp only
    split <;> rfl

theorem checkpointGroup_cursorFile (slot : GroupSlot) :
    slot.checkpointGroup.cursorFile = slot.cursorFile
      ∨ ∃ g, slot.live = some g
        ∧ slot.checkpointGroup.cursorFile = some (snapshotPayload g.cursor) := by
  unfold checkpointGroup
  cases hlive : slot.live with
  | none => exact .inl rfl
  | some g =>
    have hwrite := slot.writeGroupCheckpoint_cursorFile
    rw [hlive] at hwrite
    simp only
    split
    · exact .inl rfl
    split
    · rw [writeGroupAttempts_cursorFile]
      split
      · exact hwrite
      · exact .inl rfl
    · split
      · exact hwrite
      · exact .inl rfl

/-- A group recovered from a checkpoint below the durable head has its cursor. -/
theorem recovered_cursor (cfg : EngineConfig) (env : PollEnv) (slot : GroupSlot)
    (hfile : ∀ c, slot.cursorFile = some c → c.Wf ∧ ∀ o, c.isAcked o = true → o < env.flushed) :
    (slot.recovered cfg env).cursor = slot.cursorFile.getD new := by
  unfold recovered resumeWorkGroup
  cases hc : slot.cursorFile with
  | none => rfl
  | some c =>
    obtain ⟨hwf, hle⟩ := hfile c hc
    exact resumeCursorFromSnapshot_eq hwf hle

/-- An idle group goes with its checkpoint at the head. -/
theorem evictGroup_idle (h : slot.live = some g) (ghost : GhostPolicy) {name : Name}
    {flushed now window : Nat} (hidle : isEvictable name g flushed now window = true) :
    (slot.evictGroup ghost).live = none
      ∧ (slot.evictGroup ghost).cursorFile = some (snapshotPayload g.cursor)
      ∧ g.cursor.committed = flushed := by
  simp only [isEvictable, Bool.and_eq_true, Bool.not_eq_true', beq_iff_eq] at hidle
  obtain ⟨⟨⟨⟨⟨-, hdurable⟩, hcommitted⟩, -⟩, -⟩, -⟩ := hidle
  simp [evictGroup, writeGroupCheckpoint, h, hdurable, hcommitted]

theorem checkpointGroup_of_none (h : slot.live = none) : slot.checkpointGroup = slot := by
  rw [checkpointGroup, h]

end GroupSlot

/-- A lease of ten nanoseconds and one dead-letter target, for runs on a few records. -/
def EngineConfig.leaseOfTen (maxDeliver groupIdleEvictNanos : Nat) : EngineConfig where
  lease := ⟨10, 100⟩
  delivery := ⟨maxDeliver, [], 0⟩
  maxInFlight := 4
  maxAckedAheadRuns := 4
  maxGroups := 0
  groupIdleEvictNanos := groupIdleEvictNanos
  defaultMessageTtl := 0
  deadLetterExchange := false
  deadLetterExpired := false
  deadLetterTargets := 1

end IronBus
