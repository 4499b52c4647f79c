import IronBus.Native.Error
import IronBus.Native.Isr

/-!
# What the quorum commit says

The code takes the `min_isr`-th largest frontier among the members in sync. Evicted followers lag
behind all of them, so it is the `min_isr`-th largest among all replicas whenever there is one.

Key results:
- `lt_quorumCommit_iff`: an offset lies below the commit exactly when `min_isr` replicas have
  reported past it
- `quorumCommit_run`: the commit by what was reported in a run
- `releaseUpTo_spec`: what the gate releases
-/

namespace IronBus

open List

namespace IsrTracker

variable {t : IsrTracker} {c x : Nat}

/-- How many replicas, the leader among them, are known to have synced past an offset. -/
def reported (t : IsrTracker) (x : Nat) : Nat :=
  (t.leaderFsynced :: t.followers.values).countP (x < ·)

variable {n : Nat}

/-- A follower that was evicted lags behind every one that was not. -/
theorem lt_of_evicted {e f : Nat} (he : t.classify e ≠ .inSync) (hf : t.classify f = .inSync) :
    e < f := by
  unfold classify at he hf
  split_ifs at he hf <;> first | omega | simp_all

/-- Nor does an evicted follower reach the leader. -/
theorem lt_leader_of_evicted {e : Nat} (he : t.classify e ≠ .inSync) : e < t.leaderFsynced := by
  unfold classify at he
  split_ifs at he <;> first | omega | simp_all

theorem quorumCommit_eq_some_iff :
    t.quorumCommit = some c ↔ t.config.minIsr ≤ 1 + t.inSyncFollowers.length ∧
      (t.leaderFsynced :: t.inSyncFollowers).kthLargest t.config.minIsr = some c := by
  simp only [quorumCommit, meetsMinIsr, isrSize, ge_iff_le, Bool.not_eq_true',
    decide_eq_false_iff_not,
    length_cons]
  split_ifs <;> simp_all
  omega

/-- An offset lies below the commit when enough replicas have reported past it. -/
theorem lt_quorumCommit_iff (h : t.quorumCommit = some c) :
    x < c ↔ t.config.minIsr ≤ t.reported x := by
  obtain ⟨hsize, hkth⟩ := quorumCommit_eq_some_iff.mp h
  rw [lt_kthLargest_iff t.config.minIsr_pos hkth, reported, countP_cons,
    countP_cons, inSyncFollowers, countP_filter]
  have hle : t.followers.values.countP (fun f => decide (x < f) && decide (t.classify f = .inSync))
      ≤ t.followers.values.countP (x < ·) :=
    countP_mono_left fun f _ hf => (Bool.and_eq_true _ _ ▸ hf).1
  constructor
  · exact fun hk => hk.trans (Nat.add_le_add_right hle _)
  · intro hk
    by_cases hall : ∀ f ∈ t.followers.values, x < f → t.classify f = .inSync
    · -- whoever is past `x` is in sync, so the two counts agree
      rwa [countP_congr fun f hf => ?_]
      simpa using hall f hf
    · -- an evicted follower is past `x`, hence so is every member
      push Not at hall
      obtain ⟨e, -, hxe, he⟩ := hall
      have hmembers : t.followers.values.countP
          (fun f => decide (x < f) && decide (t.classify f = .inSync))
          = t.inSyncFollowers.length := by
        rw [inSyncFollowers, ← countP_eq_length_filter]
        refine countP_congr fun f _ => ?_
        simpa using fun hf => hxe.trans (lt_of_evicted he hf)
      rw [hmembers, if_pos (by simpa using hxe.trans (lt_leader_of_evicted he))]
      omega

/-- Every frontier is an offset the code can hold. -/
def Bounded (t : IsrTracker) : Prop :=
  t.leaderFsynced ≤ u64Max ∧ ∀ id f, t.followers.get id = some f → f ≤ u64Max

/-- Nothing is reported past the largest offset. -/
theorem Bounded.reported_u64Max (h : t.Bounded) : t.reported u64Max = 0 := by
  rw [reported, countP_eq_zero]
  intro f hf
  rcases mem_cons.mp hf with rfl | hf
  · simpa using h.1
  · obtain ⟨id, -, hget⟩ := mem_filterMap.mp hf
    simpa using h.2 id f hget

theorem Bounded.quorumCommit_le (h : t.Bounded) (hc : t.quorumCommit = some c) : c ≤ u64Max := by
  by_contra hlt
  have hk := (lt_quorumCommit_iff hc).mp (not_le.mp hlt)
  rw [h.reported_u64Max] at hk
  exact absurd hk (not_le.mpr t.config.minIsr_pos)

/-- A fresh tracker has every follower at the start. -/
theorem get_new (leaderId : Nat) (replicaIds : List Nat) (config : IsrConfig) (id : Nat) :
    (new leaderId replicaIds config).followers.get id
      = if id ∈ replicaIds ∧ id ≠ leaderId then some 0 else none := by
  have hfold : ∀ (ids : List Nat) (m : NatMap Nat),
      (ids.foldl (fun m id => if id ≠ leaderId then m.insert id 0 else m) m).get id
        = if id ∈ ids ∧ id ≠ leaderId then some 0 else m.get id := by
    intro ids
    induction ids with
    | nil => simp
    | cons i ids ih =>
      intro m
      rw [foldl_cons, ih]
      by_cases hid : id = i
      · subst hid
        split_ifs <;> simp_all
      · split_ifs <;> simp_all [NatMap.get_insert_of_ne hid]
  rw [new, hfold, NatMap.get_empty]

theorem bounded_new (leaderId : Nat) (replicaIds : List Nat) (config : IsrConfig) :
    (new leaderId replicaIds config).Bounded := by
  refine ⟨Nat.zero_le _, fun id f hget => ?_⟩
  rw [get_new] at hget
  split_ifs at hget
  cases hget
  exact Nat.zero_le _

theorem Bounded.observeLeaderFsync (h : t.Bounded) (hn : n ≤ u64Max) :
    (t.observeLeaderFsync n).Bounded :=
  ⟨max_le h.1 hn, h.2⟩

theorem Bounded.observeFollowerReport {r : AckReplicatedBody} (h : t.Bounded)
    (hr : r.fsyncedOffset ≤ u64Max) : (t.observeFollowerReport r).Bounded := by
  refine ⟨h.1, fun id f hget => ?_⟩
  rw [IsrTracker.observeFollowerReport] at hget
  by_cases hid : id = r.followerId
  · subst hid
    rw [NatMap.get_modify_self] at hget
    obtain ⟨f', hf', rfl⟩ := Option.map_eq_some_iff.mp hget
    exact max_le (h.2 _ _ hf') hr
  · exact h.2 id f (NatMap.get_modify_of_ne hid ▸ hget)

/-! ## What an observation changes -/

@[simp] theorem config_observeLeaderFsync (t : IsrTracker) (n : Nat) :
    (t.observeLeaderFsync n).config = t.config := rfl

@[simp] theorem followers_observeLeaderFsync (t : IsrTracker) (n : Nat) :
    (t.observeLeaderFsync n).followers = t.followers := rfl

@[simp] theorem leaderFsynced_observeFollowerReport (t : IsrTracker) (r : AckReplicatedBody) :
    (t.observeFollowerReport r).leaderFsynced = t.leaderFsynced := rfl

theorem reported_observeLeaderFsync (t : IsrTracker) (n x : Nat) :
    t.reported x ≤ (t.observeLeaderFsync n).reported x := by
  simp only [reported, countP_cons, followers_observeLeaderFsync]
  refine Nat.add_le_add_left ?_ _
  split_ifs <;> simp_all [observeLeaderFsync]

/-- The leader already counts past what lies below its frontier. -/
theorem reported_observeLeaderFsync_of_lt (hx : x < t.leaderFsynced) :
    (t.observeLeaderFsync n).reported x = t.reported x := by
  have hx' : x < (t.observeLeaderFsync n).leaderFsynced := hx.trans_le (le_max_left _ _)
  rw [reported, reported, countP_cons_of_pos (by simpa using hx'),
    countP_cons_of_pos (by simpa using hx), followers_observeLeaderFsync]

theorem reported_observeFollowerReport (t : IsrTracker) (r : AckReplicatedBody) (x : Nat) :
    t.reported x ≤ (t.observeFollowerReport r).reported x := by
  simp only [reported, countP_cons, leaderFsynced_observeFollowerReport,
    NatMap.countP_values]
  refine Nat.add_le_add_right ?_ _
  rw [observeFollowerReport, NatMap.keys_modify]
  refine countP_mono_left fun k _ hk => ?_
  by_cases hkr : k = r.followerId
  · subst hkr
    rw [NatMap.get_modify_self, Option.any_map]
    cases hget : t.followers.get r.followerId with
    | none => simp [hget] at hk
    | some f =>
      simp only [hget, Option.any_some, decide_eq_true_eq] at hk ⊢
      omega
  · rwa [NatMap.get_modify_of_ne hkr]

/-- A leader that moves ahead puts nobody back in sync. -/
theorem quorumCommit_observeLeaderFsync_none (h : t.quorumCommit = none) :
    (t.observeLeaderFsync n).quorumCommit = none := by
  have hsub : (t.observeLeaderFsync n).inSyncFollowers.length ≤ t.inSyncFollowers.length := by
    simp only [inSyncFollowers, ← countP_eq_length_filter, followers_observeLeaderFsync]
    refine countP_mono_left fun f _ hf => ?_
    have hf := of_decide_eq_true hf
    refine decide_eq_true ?_
    unfold classify observeLeaderFsync at *
    dsimp only at hf
    split_ifs at hf ⊢ <;> first | rfl | omega
  refine Option.eq_none_iff_forall_ne_some.mpr fun c hc => ?_
  obtain ⟨hsize, hkth⟩ := quorumCommit_eq_some_iff.mp hc
  cases hold : (t.leaderFsynced :: t.inSyncFollowers).kthLargest t.config.minIsr with
  | none =>
    have hlt := (kthLargest_eq_none_iff t.config.minIsr_pos).mp hold
    simp only [config_observeLeaderFsync, length_cons] at hsize hlt
    omega
  | some c' =>
    rw [quorumCommit_eq_some_iff.mpr ⟨by simp at hsize; omega, hold⟩] at h
    cases h

/-- A leader that moves ahead commits nothing more of what it had already synced. -/
theorem quorumCommit_observeLeaderFsync_le {c' : Nat} (hb : (t.observeLeaderFsync n).Bounded)
    (hx : saturatingAdd x 1 ≤ t.leaderFsynced) (hold : ∀ c, t.quorumCommit = some c → c ≤ x)
    (h : (t.observeLeaderFsync n).quorumCommit = some c') : c' ≤ x := by
  by_contra hlt
  have hxc : x < c' := not_le.mp hlt
  have hsynced : x < t.leaderFsynced := by
    have hle := hb.quorumCommit_le h
    simp only [saturatingAdd] at hx
    omega
  have hk := (lt_quorumCommit_iff h).mp hxc
  rw [reported_observeLeaderFsync_of_lt hsynced] at hk
  cases hc : t.quorumCommit with
  | none =>
    rw [quorumCommit_observeLeaderFsync_none hc] at h
    cases h
  | some c => exact absurd ((lt_quorumCommit_iff hc).mpr hk) (not_lt.mpr (hold c hc))

/-- Frontiers only move ahead. -/
structure Advances (t t' : IsrTracker) : Prop where
  config : t'.config = t.config
  leader : t.leaderFsynced ≤ t'.leaderFsynced
  reported : ∀ x, t.reported x ≤ t'.reported x

theorem advances_observeLeaderFsync (t : IsrTracker) (n : Nat) :
    t.Advances (t.observeLeaderFsync n) :=
  ⟨rfl, le_max_left _ _, t.reported_observeLeaderFsync n⟩

theorem advances_observeFollowerReport (t : IsrTracker) (r : AckReplicatedBody) :
    t.Advances (t.observeFollowerReport r) :=
  ⟨rfl, le_rfl, t.reported_observeFollowerReport r⟩

theorem Advances.trans {t t' t'' : IsrTracker} (h : t.Advances t') (h' : t'.Advances t'') :
    t.Advances t'' :=
  ⟨h'.config.trans h.config, h.leader.trans h'.leader,
    fun x => (h.reported x).trans (h'.reported x)⟩

/-- While frontiers move ahead, the commit does not fall, whoever was evicted or readmitted. -/
theorem Advances.quorumCommit_le {t' : IsrTracker} {c' : Nat} (h : t.Advances t')
    (hc : t.quorumCommit = some c) (hc' : t'.quorumCommit = some c') : c ≤ c' := by
  by_contra hlt
  have hk := (lt_quorumCommit_iff hc).mp (not_le.mp hlt)
  rw [← h.config] at hk
  exact Nat.lt_irrefl c' ((lt_quorumCommit_iff hc').mpr (hk.trans (h.reported c')))

/-! ## Runs of the tracker -/

/-- What the tracker is told. -/
inductive Report where
  | leaderFsync (flushedOffset : Nat)
  | follower (report : AckReplicatedBody)

def observe (t : IsrTracker) : Report → IsrTracker
  | .leaderFsync flushedOffset => t.observeLeaderFsync flushedOffset
  | .follower report => t.observeFollowerReport report

def observeAll (t : IsrTracker) (reports : List Report) : IsrTracker := reports.foldl observe t

theorem advances_observeAll (t : IsrTracker) (reports : List Report) :
    t.Advances (t.observeAll reports) := by
  induction reports generalizing t with
  | nil => exact ⟨rfl, le_rfl, fun _ => le_rfl⟩
  | cons r reports ih =>
    have hstep : t.Advances (t.observe r) := by
      cases r with
      | leaderFsync n => exact t.advances_observeLeaderFsync n
      | follower r => exact t.advances_observeFollowerReport r
    exact hstep.trans (ih (t.observe r))

/-- The frontiers of the replicas within the lag bound of the leader, its own first. -/
def withinLag (t : IsrTracker) : List Nat :=
  t.leaderFsynced :: t.followers.values.filter fun f =>
    t.config.maxLagRecords = 0 ∨ t.leaderFsynced ≤ f + t.config.maxLagRecords

theorem withinLag_eq (t : IsrTracker) : t.withinLag = t.leaderFsynced :: t.inSyncFollowers := by
  refine congrArg (_ :: ·) (filter_congr fun f _ => decide_eq_decide.mpr ?_)
  unfold classify
  split_ifs <;> simp_all <;> omega

theorem quorumCommit_eq_none_iff :
    t.quorumCommit = none ↔ t.withinLag.length < t.config.minIsr := by
  have hkth := kthLargest_eq_none_iff (l := t.withinLag) t.config.minIsr_pos
  rw [withinLag_eq] at hkth ⊢
  rw [← hkth, Option.eq_none_iff_forall_ne_some, Option.eq_none_iff_forall_ne_some]
  refine forall_congr' fun c => not_congr ?_
  rw [quorumCommit_eq_some_iff, and_iff_right_of_imp]
  intro hc
  by_contra hlt
  rw [hkth.mpr (by simp only [length_cons]; omega)] at hc
  cases hc

theorem quorumCommit_isGreatest (h : t.quorumCommit = some c) :
    IsGreatest {x | t.config.minIsr ≤ t.withinLag.countP (x ≤ ·)} c := by
  obtain ⟨hsize, hkth⟩ := quorumCommit_eq_some_iff.mp h
  rw [← withinLag_eq] at hkth
  have hlt {x : Nat} := lt_kthLargest_iff (x := x) t.config.minIsr_pos hkth
  constructor
  · cases c with
    | zero => simpa [withinLag_eq, Nat.add_comm] using hsize
    | succ x => exact hlt.mp (Nat.lt_succ_self x)
  · intro y hy
    by_contra hcy
    refine Nat.lt_irrefl c (hlt.mpr (le_trans hy ?_))
    refine countP_mono_left fun f _ hf => ?_
    simp only [decide_eq_true_eq] at hf ⊢
    omega

/-! ### What was reported -/

/-- The offset up to which a report says that a replica has synced, if it is about that replica.
What comes under the leader's id from a follower is not about the leader. -/
def Report.offsetOf (leaderId id : Nat) : Report → Option Nat
  | .leaderFsync flushedOffset => if id = leaderId then some flushedOffset else none
  | .follower report =>
    if id ≠ leaderId ∧ id = report.followerId then some report.fsyncedOffset else none

/-- The greatest offset reported of a replica; zero before the first report. -/
def frontier (leaderId : Nat) (reports : List Report) (id : Nat) : Nat :=
  (reports.filterMap (Report.offsetOf leaderId id)).foldl max 0

/-- The replicas whose frontier lies within the lag bound of the leader's. -/
def inSyncReplicas (leaderId : Nat) (replicaIds : List Nat) (config : IsrConfig)
    (reports : List Report) : Finset Nat :=
  (insert leaderId replicaIds.toFinset).filter fun id => config.maxLagRecords = 0 ∨
    frontier leaderId reports leaderId ≤ frontier leaderId reports id + config.maxLagRecords

theorem frontier_concat (leaderId : Nat) (reports : List Report) (r : Report) (id : Nat) :
    frontier leaderId (reports ++ [r]) id
      = max (frontier leaderId reports id) ((r.offsetOf leaderId id).getD 0) := by
  cases hr : r.offsetOf leaderId id <;> simp [frontier, hr]

/-- The tracker holds the greatest report of the leader and of each follower, and of nobody else. -/
theorem frontiers_observeAll (leaderId : Nat) (replicaIds : List Nat) (config : IsrConfig)
    (reports : List Report) :
    ((new leaderId replicaIds config).observeAll reports).leaderFsynced
        = frontier leaderId reports leaderId ∧
      ∀ id, ((new leaderId replicaIds config).observeAll reports).followers.get id
        = if id ∈ replicaIds ∧ id ≠ leaderId then some (frontier leaderId reports id)
          else none := by
  induction reports using List.reverseRecOn with
  | nil => exact ⟨rfl, get_new leaderId replicaIds config⟩
  | append_singleton reports r ih =>
    obtain ⟨hleader, hfollowers⟩ := ih
    simp only [observeAll, foldl_append, foldl_cons, foldl_nil, frontier_concat] at *
    cases r with
    | leaderFsync n =>
      simp only [observe, Report.offsetOf, observeLeaderFsync, hleader, hfollowers]
      refine ⟨by simp, fun id => ?_⟩
      split_ifs <;> simp_all
    | follower r =>
      simp only [observe, Report.offsetOf, observeFollowerReport, hleader]
      refine ⟨by simp, fun id => ?_⟩
      by_cases hid : id = r.followerId
      · subst hid
        rw [NatMap.get_modify_self, hfollowers]
        split_ifs <;> simp_all
      · rw [NatMap.get_modify_of_ne hid, hfollowers]
        split_ifs <;> simp_all

/-- Counting the frontiers the tracker takes for its members counts the replicas in sync. -/
theorem countP_withinLag (leaderId : Nat) (replicaIds : List Nat) (config : IsrConfig)
    (reports : List Report) (p : Nat → Bool) :
    ((new leaderId replicaIds config).observeAll reports).withinLag.countP p
      = ((inSyncReplicas leaderId replicaIds config reports).filter fun id =>
        p (frontier leaderId reports id)).card := by
  obtain ⟨hleader, hfollowers⟩ := frontiers_observeAll leaderId replicaIds config reports
  have hconfig := (advances_observeAll (new leaderId replicaIds config) reports).config
  generalize (new leaderId replicaIds config).observeAll reports = t at *
  have hnodup : t.followers.keys.Nodup := t.followers.keys_sorted.imp Nat.ne_of_lt
  -- the followers are the replicas but for the leader, which is counted by itself
  have hcounted (r : Nat → Bool) : t.followers.values.countP r
      = ((replicaIds.toFinset.erase leaderId).filter fun id =>
        r (frontier leaderId reports id)).card := by
    rw [NatMap.countP_values, countP_eq_length_filter, ← toFinset_card_of_nodup (hnodup.filter _)]
    congr 1
    ext id
    simp only [mem_toFinset, mem_filter, NatMap.mem_keys, hfollowers, Finset.mem_filter,
      Finset.mem_erase]
    by_cases hid : id ∈ replicaIds ∧ id ≠ leaderId
    · simp [hid]
    · have hout : ¬ (id ≠ leaderId ∧ id ∈ replicaIds) := fun h => hid h.symm
      simp [hid, hout]
  have hinsert : insert leaderId replicaIds.toFinset
      = insert leaderId (replicaIds.toFinset.erase leaderId) := by grind
  rw [withinLag, countP_cons, countP_filter, hcounted, inSyncReplicas, Finset.filter_filter,
    hinsert, Finset.filter_insert, hleader, hconfig]
  have hlag : config.maxLagRecords = 0 ∨
      frontier leaderId reports leaderId ≤ frontier leaderId reports leaderId
        + config.maxLagRecords := .inr (Nat.le_add_right _ _)
  by_cases hp : p (frontier leaderId reports leaderId) = true
  · rw [if_pos hp, if_pos ⟨hlag, hp⟩, Finset.card_insert_of_notMem (by simp)]
    simp [new, and_comm]
  · rw [if_neg hp, if_neg fun h => hp h.2]
    simp [new, and_comm]

/-- In every run the commit is missing exactly when too few replicas keep up with the leader, is
otherwise the greatest offset that enough of those have reached, and never falls; how far a replica
has come is the greatest offset reported of it. -/
theorem quorumCommit_run (leaderId : Nat) (replicaIds : List Nat) (config : IsrConfig)
    (reports : List Report) :
    let t := (new leaderId replicaIds config).observeAll reports
    let members := inSyncReplicas leaderId replicaIds config reports
    (t.quorumCommit = none ↔ members.card < config.minIsr) ∧
      (∀ c, t.quorumCommit = some c → IsGreatest
        {x | config.minIsr ≤ (members.filter (x ≤ frontier leaderId reports ·)).card} c) ∧
      ∀ later c c', t.quorumCommit = some c → (t.observeAll later).quorumCommit = some c' →
        c ≤ c' := by
  intro t members
  have hconfig : t.config = config := (advances_observeAll _ reports).config
  have hcount := countP_withinLag leaderId replicaIds config reports
  refine ⟨?_, fun c hc => ?_, fun later c c' hc hc' =>
    (advances_observeAll t later).quorumCommit_le hc hc'⟩
  · have hall := hcount fun _ => true
    rw [countP_true, Finset.filter_true_of_mem fun _ _ => rfl] at hall
    rw [quorumCommit_eq_none_iff, hconfig, hall]
  · have hgreatest := quorumCommit_isGreatest hc
    rw [hconfig] at hgreatest
    convert hgreatest using 3 with x
    rw [hcount]
    simp only [decide_eq_true_eq, members]

/-- Follower 2 is evicted when the leader moves on, and follower 3 catches up: the commit goes
from 4 to 12. -/
theorem quorumCommit_run_evicts :
    let t := (new 1 [1, 2, 3] ⟨2, 5, by decide⟩).observeAll
      [.leaderFsync 6, .follower ⟨2, 4⟩, .follower ⟨3, 2⟩]
    let t' := t.observeAll [.leaderFsync 12, .follower ⟨3, 12⟩]
    t.quorumCommit = some 4 ∧ t'.quorumCommit = some 12 ∧ 4 ≤ 12 := by
  intro t t'
  have hold : t.quorumCommit = some 4 := by decide
  have hnew : t'.quorumCommit = some 12 := by decide
  exact ⟨hold, hnew, (quorumCommit_run 1 [1, 2, 3] ⟨2, 5, by decide⟩
    [.leaderFsync 6, .follower ⟨2, 4⟩, .follower ⟨3, 2⟩]).2.2 _ 4 12 hold hnew⟩

end IsrTracker

/-! ## The gate -/

namespace QuorumAckGate

variable {τ : Type} {g : QuorumAckGate τ}

variable {g' : QuorumAckGate τ} {tokens : List τ}

theorem park_eq_some_iff {offset : Nat} {token : τ} :
    g.park offset token = some g' ↔ ¬ (g.cap ≠ 0 ∧ g.pending.length ≥ g.cap) ∧
      g' = { g with pending := g.pending ++ [⟨offset, token⟩] } := by
  unfold park
  split_ifs with h
  · simp [h]
  · rw [Option.some.injEq, eq_comm, and_iff_right h]

/-- A release takes a front part of the queue, all of it below the commit. -/
theorem releaseUpTo_spec {commit : Option Nat} (h : g.releaseUpTo commit = (tokens, g')) :
    ∃ front : List (PendingAck τ), g.pending = front ++ g'.pending ∧
      tokens = front.map PendingAck.token ∧ g'.cap = g.cap ∧
      ((front = [] ∧ g' = g ∧ commit = none) ∨
        ∃ c, commit = some c ∧ g'.releasedThrough = max c g.releasedThrough ∧
          (∀ a ∈ front, a.offset < max c g.releasedThrough) ∧
          ∀ a ∈ g'.pending.head?, max c g.releasedThrough ≤ a.offset) := by
  cases commit with
  | none =>
    obtain ⟨rfl, rfl⟩ := Prod.mk.injEq .. ▸ h
    exact ⟨[], rfl, rfl, rfl, .inl ⟨rfl, rfl, rfl⟩⟩
  | some c =>
    obtain ⟨rfl, rfl⟩ := Prod.mk.injEq .. ▸ h
    refine ⟨_, takeWhile_append_dropWhile.symm, rfl, rfl, .inr ⟨c, rfl, rfl, ?_, ?_⟩⟩
    · intro a ha
      simpa using mem_takeWhile_imp ha
    · intro a ha
      have hnot := head?_dropWhile_not (fun p : PendingAck τ =>
        decide (p.offset < max c g.releasedThrough)) g.pending
      rw [Option.mem_def.mp ha] at hnot
      simpa using hnot

/-- A commit that counted its replicas is never ahead of the current one, so a release is always
below the current commit. -/
theorem release_committed {isr : IsrTracker}
    (hthrough : ∀ x < g.releasedThrough, isr.config.minIsr ≤ isr.reported x)
    (h : g.releaseUpTo isr.quorumCommit = (tokens, g')) :
    (∀ x < g'.releasedThrough, isr.config.minIsr ≤ isr.reported x) ∧
      ∃ front, g.pending = front ++ g'.pending ∧ tokens = front.map PendingAck.token ∧
        ∀ a ∈ front, ∃ c, isr.quorumCommit = some c ∧ a.offset < c := by
  obtain ⟨front, happ, htokens, -, ⟨rfl, rfl, -⟩ | ⟨c, hc, hto, hdue, -⟩⟩ := releaseUpTo_spec h
  · exact ⟨hthrough, [], happ, htokens, by simp⟩
  · have hle : g.releasedThrough ≤ c := by
      by_contra hlt
      exact absurd ((IsrTracker.lt_quorumCommit_iff hc).mpr (hthrough c (not_le.mp hlt)))
        (Nat.lt_irrefl c)
    rw [max_eq_left hle] at hto hdue
    refine ⟨fun x hx => ?_, front, happ, htokens, fun a ha => ⟨c, hc, hdue a ha⟩⟩
    exact (IsrTracker.lt_quorumCommit_iff hc).mp (hto ▸ hx)

/-- A call that finds nothing due releases at most its own ack, and that only from an empty gate:
moving the leader ahead commits nothing of what was parked before. -/
theorem release_after_park {isr : IsrTracker} {gate' : QuorumAckGate τ} {offset n : Nat}
    {token : τ} (hb : (isr.observeLeaderFsync n).Bounded)
    (hfront : ∀ a ∈ g.pending, saturatingAdd a.offset 1 ≤ isr.leaderFsynced)
    (hclear : (g.releaseUpTo isr.quorumCommit).1 = [])
    (h : releaseUpTo { g with pending := g.pending ++ [⟨offset, token⟩] }
      (isr.observeLeaderFsync n).quorumCommit = (tokens, gate')) :
    (tokens = [] ∧ gate'.pending = g.pending ++ [⟨offset, token⟩]) ∨
      (g.pending = [] ∧ tokens = [token] ∧ gate'.pending = []) := by
  obtain ⟨front, happ, htokens, -, hcommit⟩ := releaseUpTo_spec h
  cases front with
  | nil => exact .inl ⟨htokens, happ.symm⟩
  | cons a front =>
    cases hpending : g.pending with
    | nil =>
      rw [hpending] at happ
      obtain ⟨rfl, hrest⟩ := cons.inj happ
      obtain ⟨rfl, hgate'⟩ := append_eq_nil_iff.mp hrest.symm
      exact .inr ⟨rfl, htokens, hgate'⟩
    | cons b rest =>
      rw [hpending] at happ
      obtain ⟨rfl, -⟩ := cons.inj happ
      obtain ⟨hnil, -⟩ | ⟨c', hc', -, hdue, -⟩ := hcommit
      · cases hnil
      have hkept : ∀ c, isr.quorumCommit = some c → max c g.releasedThrough ≤ b.offset := by
        intro c hc
        rw [hc] at hclear
        simpa [releaseUpTo, hpending, takeWhile_cons] using hclear
      cases hc : isr.quorumCommit with
      | none =>
        rw [IsrTracker.quorumCommit_observeLeaderFsync_none hc] at hc'
        cases hc'
      | some c =>
        have hle : c' ≤ b.offset := IsrTracker.quorumCommit_observeLeaderFsync_le hb
          (hfront b (hpending ▸ mem_cons_self))
          (fun c hc => (le_max_left _ _).trans (hkept c hc)) hc'
        have hb' : b.offset < max c' g.releasedThrough := hdue b mem_cons_self
        have := hkept c hc
        omega

end QuorumAckGate

end IronBus
