import IronBus.Spec.ReplicationCorrect

/-!
# Comparing and healing a follower's tail

A follower compares the frames it holds with those the leader serves, and truncates when they
differ. The comparison walks two strings of frames of different lengths.

Key results:
- `heal_cases`: a heal truncates by the epochs, and by the committed floor when they give nothing
- `content_heal`: what a comparison and the heal after it leave
-/

namespace IronBus

open Codec List

variable [Checksums]

namespace EpochAwareFollower

variable {f f' : EpochAwareFollower} {floor leaderHw : Nat} {answer : Nat → LeaderEpochEndOffset}

/-- Where the epochs say the follower diverges. -/
def epochPoint (f : EpochAwareFollower) (answer : Nat → LeaderEpochEndOffset) : Nat :=
  (f.epochs.divergencePoint f.follower.log.nextOffset answer).truncateTo

/-- The follower cut at `target`. -/
structure CutTo (f : EpochAwareFollower) (target : Nat) (f' : EpochAwareFollower) : Prop where
  lt : target < f.follower.log.nextOffset
  next : f'.follower.log.nextOffset = target
  records : f'.follower.log.records = f.follower.log.records.take target

omit [Checksums] in
theorem truncateTo_of_lt {l : ReplicaLog} {target : Nat} (h : target < l.nextOffset) :
    ∃ log, l.truncateTo target = .ok log ∧ log.nextOffset = target
      ∧ log.records = l.records.take target := by
  rw [ReplicaLog.truncateTo, if_neg (by omega), if_neg (by omega)]
  exact ⟨_, rfl, length_take_of_le (Nat.le_of_lt h), rfl⟩

omit [Checksums] in
/-- The reconciliation cuts at the epochs' point, but not below the floor. -/
theorem reconcile_cases (f : EpochAwareFollower) (floor : Nat)
    (answer : Nat → LeaderEpochEndOffset) :
    (∃ d f', f.reconcileWithLeader floor answer = .ok (d, f') ∧ d.isNoOp = false
        ∧ f.CutTo (max (f.epochPoint answer) floor) f')
      ∨ (f.follower.log.nextOffset ≤ max (f.epochPoint answer) floor
        ∧ ∃ d, f.reconcileWithLeader floor answer = .ok (d, f) ∧ d.isNoOp = true) := by
  unfold reconcileWithLeader
  simp only [DivergencePoint.needsTruncation, Bool.not_eq_eq_eq_not, Bool.not_true,
    decide_eq_false_iff_not, not_lt, gt_iff_lt]
  split_ifs with hend
  · exact .inr ⟨hend, _, rfl, rfl⟩
  · rw [not_le] at hend
    obtain ⟨log, hlog, hnext, hrecords⟩ := truncateTo_of_lt hend
    rw [hlog]
    refine .inl ⟨_, _, rfl, ?_, hend, hnext, hrecords⟩
    exact beq_eq_false_iff_ne.mpr (Nat.sub_ne_zero_of_lt hend)

omit [Checksums] in
/-- A heal cuts at the epochs' point, or else at the floor, or else does nothing. -/
theorem heal_cases (f : EpochAwareFollower) (answer : Nat → LeaderEpochEndOffset)
    (hleader : floor ≤ leaderHw) :
    ∃ d f', f.healDivergentFollower floor leaderHw answer = .ok (d, f')
      ∧ (f.CutTo (max (f.epochPoint answer) floor) f'
        ∨ f.follower.log.nextOffset ≤ max (f.epochPoint answer) floor ∧ f.CutTo floor f'
        ∨ f.follower.log.nextOffset ≤ floor ∧ f' = f) := by
  unfold healDivergentFollower
  rcases reconcile_cases f floor answer with ⟨d, f', heq, hop, hcut⟩ | ⟨hend, d, heq, hop⟩
  · simp only [heq, hop, if_neg (not_lt.mpr hleader)]
    exact ⟨d, f', rfl, .inl hcut⟩
  · simp only [heq, hop, if_neg (not_lt.mpr hleader), Bool.not_true, Bool.false_eq_true,
      if_false]
    split_ifs with htail
    · obtain ⟨log, hlog, hnext, hrecords⟩ := truncateTo_of_lt htail
      rw [truncateToCommitted, hlog]
      exact ⟨_, _, rfl, .inr (.inl ⟨hend, htail, hnext, hrecords⟩)⟩
    · exact ⟨d, f, rfl, .inr (.inr ⟨not_lt.mp htail, rfl⟩)⟩

omit [Checksums] in
/-- A follower that ends at the floor is left as it is. -/
theorem heal_at_floor (hleader : floor ≤ leaderHw) (hend : f.follower.log.nextOffset ≤ floor) :
    ∃ d, f.healDivergentFollower floor leaderHw answer = .ok (d, f) := by
  obtain ⟨d, f', heq, hcases⟩ := heal_cases f answer hleader
  rcases hcases with hcut | ⟨-, hcut⟩ | ⟨-, rfl⟩
  · have := hcut.lt
    omega
  · have := hcut.lt
    omega
  · exact ⟨d, heq⟩

omit [Checksums] in
/-- A second heal changes nothing exactly when the epochs' point of the first did not lie strictly
between the floor and the end of the log. -/
theorem heal_repeats_iff {d : DivergenceTruncation}
    (h : f.healDivergentFollower floor leaderHw answer = .ok (d, f')) :
    (∃ d', f'.healDivergentFollower floor leaderHw answer = .ok (d', f'))
      ↔ ¬ (floor < f.epochPoint answer ∧ f.epochPoint answer < f.follower.log.nextOffset) := by
  have hleader : floor ≤ leaderHw := by
    by_contra hlt
    rw [healDivergentFollower, if_pos (by omega)] at h
    cases h
  obtain ⟨d₀, f₀, heq, hcases⟩ := heal_cases f answer hleader
  rw [h, Except.ok.injEq, Prod.mk.injEq] at heq
  obtain ⟨-, rfl⟩ := heq
  rcases hcases with hcut | ⟨hend, hcut⟩ | ⟨hend, rfl⟩
  · have hlt := hcut.lt
    have hnext := hcut.next
    by_cases hpoint : floor < f.epochPoint answer
    · -- the second heal cuts at the epochs' new point or at the floor, both below the first cut
      refine iff_of_false ?_ (by omega)
      rintro ⟨d', hd'⟩
      obtain ⟨d₁, f₁, heq, hcases⟩ := heal_cases f' answer hleader
      rw [hd', Except.ok.injEq, Prod.mk.injEq] at heq
      obtain ⟨-, rfl⟩ := heq
      rcases hcases with hcut' | ⟨-, hcut'⟩ | ⟨hend', -⟩
      · exact absurd hcut'.next hcut'.lt.ne'
      · exact absurd hcut'.next hcut'.lt.ne'
      · omega
    · exact iff_of_true (heal_at_floor hleader (by omega)) (by omega)
  · have hlt := hcut.lt
    exact iff_of_true (heal_at_floor hleader (by rw [hcut.next])) (by omega)
  · exact iff_of_true ⟨d, h⟩ (by omega)

end EpochAwareFollower

/-- The comparison of two runs of frames gives the first offset at which they differ, or none when
one is a front part of the other. Acting on it keeps every record below the floor and only drops a
tail, changes nothing when the leader is behind the floor, and is the last word for a second time
unless the epochs' point lies strictly between the floor and the end of the log. -/
theorem content_heal (ls fs : List Bytes) (hl : ∀ b ∈ ls, ValidFrame b)
    (hf : ∀ b ∈ fs, ValidFrame b) (base floor leaderHw : Nat) (f : EpochAwareFollower)
    (answer : Nat → LeaderEpochEndOffset) :
    let first := Follower.firstContentDivergence ls.flatten.length base ls.flatten fs.flatten
    ((∃ i l f, first = some (base + i) ∧ ls[i]? = some l ∧ fs[i]? = some f ∧ l ≠ f
          ∧ ls.take i = fs.take i)
        ∨ (first = none ∧ (ls <+: fs ∨ fs <+: ls)))
      ∧ ∀ f', f.reconcileContent first floor leaderHw answer = .ok f' →
        f'.follower.log.records <+: f.follower.log.records
          ∧ min floor f.follower.log.nextOffset ≤ f'.follower.log.nextOffset
          ∧ (leaderHw < floor → f' = f)
          ∧ (f'.reconcileContent first floor leaderHw answer = .ok f'
            ↔ (classifyContentDivergence first floor = .healToCommittedFloor →
              ¬ (floor < f.epochPoint answer
                ∧ f.epochPoint answer < f.follower.log.nextOffset))) := by
  intro first
  have hfuel := length_le_length_flatten fun b hb => (hl b hb).ne_nil
  refine ⟨Follower.firstContentDivergence_frames hl hf hfuel base, fun f' hf' => ?_⟩
  generalize first = first at *
  unfold EpochAwareFollower.reconcileContent at hf' ⊢
  cases hclass : classifyContentDivergence first floor with
  | clean =>
    simp only [hclass, Except.ok.injEq] at hf'
    subst hf'
    exact ⟨prefix_refl _, min_le_right _ _, fun _ => rfl, by simp⟩
  | criticalBelowCommittedFloor offset =>
    simp only [hclass, Except.ok.injEq] at hf'
    subst hf'
    exact ⟨prefix_refl _, min_le_right _ _, fun _ => rfl, by simp⟩
  | healToCommittedFloor =>
    simp only [hclass] at hf' ⊢
    cases hheal : f.healDivergentFollower floor leaderHw answer with
    | error e =>
      rw [hheal] at hf'
      cases hf'
    | ok r =>
      rw [hheal] at hf'
      obtain rfl := Except.ok.inj hf'
      have hrepeat := EpochAwareFollower.heal_repeats_iff hheal
      have hleader : floor ≤ leaderHw := by
        by_contra hlt
        rw [EpochAwareFollower.healDivergentFollower, if_pos (by omega)] at hheal
        cases hheal
      obtain ⟨d₀, f₀, heq, hcases⟩ := EpochAwareFollower.heal_cases f answer hleader
      rw [hheal, Except.ok.injEq] at heq
      subst heq
      refine ⟨?_, ?_, fun hlt => absurd hlt (by omega), ?_⟩
      · -- it cuts at the epochs, at the floor, or not at all
        rcases hcases with hcut | ⟨-, hcut⟩ | ⟨-, rfl⟩
        · exact hcut.records ▸ take_prefix _ _
        · exact hcut.records ▸ take_prefix _ _
        · exact prefix_refl _
      · rcases hcases with hcut | ⟨-, hcut⟩ | ⟨-, rfl⟩
        · have := hcut.next
          show _ ≤ f₀.follower.log.nextOffset
          omega
        · have := hcut.next
          show _ ≤ f₀.follower.log.nextOffset
          omega
        · exact min_le_right _ _
      · -- the second heal gives the same follower, whatever it reports
        rw [forall_const, ← hrepeat]
        constructor
        · intro h
          cases hsecond : f₀.healDivergentFollower floor leaderHw answer with
          | error e =>
            rw [hsecond] at h
            cases h
          | ok r' =>
            rw [hsecond] at h
            obtain ⟨d', f''⟩ := r'
            obtain rfl : f'' = f₀ := Except.ok.inj h
            exact ⟨d', rfl⟩
        · rintro ⟨d', hd'⟩
          show Except.map Prod.snd (f₀.healDivergentFollower floor leaderHw answer) = _
          rw [hd']
          rfl

end IronBus

namespace IronBus

local instance healChecksums : Checksums := ⟨castagnoli, fun _ => 0⟩

/-- The leader answers every question with the end of its first epoch. -/
def firstEpochAnswer (epoch : Nat) : LeaderEpochEndOffset := ⟨epoch, 1, 3⟩

/-- Two runs that differ in their second frame, and a follower without epochs: the first heal cuts
its tail, and the second finds nothing. -/
theorem content_heal_without_epochs :
    let frame (seq : Nat) (body : Bytes) := Codec.frameBytes ⟨seq, 0, 0, [], [], body⟩ [] []
    let ls := [frame 1 [7], frame 2 [8]]
    let fs := [frame 1 [7], frame 2 [9]]
    let first := Follower.firstContentDivergence ls.flatten.length 1 ls.flatten fs.flatten
    let f : EpochAwareFollower := ⟨⟨.settled [[0], [1], [2]], 0⟩, .new⟩
    ∃ f', f.reconcileContent first 1 3 firstEpochAnswer = .ok f'
      ∧ f'.follower.log.nextOffset = 1
      ∧ f'.reconcileContent first 1 3 firstEpochAnswer = .ok f' := by
  intro frame ls fs first f
  have hfirst : first = some 2 := by decide +kernel
  have hheal := (content_heal ls fs (by decide +kernel) (by decide +kernel) 1 1 3 f
    firstEpochAnswer).2
  have hok : f.reconcileContent first 1 3 firstEpochAnswer
      = .ok ⟨⟨.settled [[0]], 1⟩, ⟨[], .nil⟩⟩ := by
    rw [hfirst]
    rfl
  exact ⟨_, hok, rfl, (hheal _ hok).2.2.2.mpr fun _ => by decide⟩

/-- Four records, the first two under an epoch the leader shares: the first heal keeps those two,
and the second drops one of them. -/
theorem second_heal_drops_shared :
    let f : EpochAwareFollower := ⟨⟨.settled [[0], [1], [2], [3]], 0⟩,
      ⟨[⟨1, 0⟩, ⟨2, 2⟩], by simp [EpochEntry.Before]⟩⟩
    (f.reconcileContent (some 2) 1 4 firstEpochAnswer).map (·.follower.log.nextOffset) = .ok 2
      ∧ ((f.reconcileContent (some 2) 1 4 firstEpochAnswer).bind
        (·.reconcileContent (some 2) 1 4 firstEpochAnswer)).map (·.follower.log.nextOffset)
        = .ok 1 := ⟨rfl, rfl⟩

end IronBus
