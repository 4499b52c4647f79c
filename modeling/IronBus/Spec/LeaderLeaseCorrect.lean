import IronBus.Native.LeaderLease

/-!
# At most one leader acts per epoch

A cluster of trackers, fed with what Raft reports to each node.

Key results:
- `lease_granted`, `lapsed_stays`: the lease bounds how long a replaced leader goes on
- `leaders_exclude`: Raft's election safety makes the epoch a cluster-wide fence
-/

namespace IronBus

namespace LeadershipTracker

/-- Renewing and granting leave the same lease. -/
theorem renewOrGrant_spec (t : LeadershipTracker) (term now : Nat) :
    (t.renewOrGrant term now).epoch = term
      ∧ (t.renewOrGrant term now).deadline = saturatingAdd now t.leaseNanos := by
  unfold renewOrGrant
  split
  · rename_i l hl
    obtain ⟨l₀, -, hl⟩ := Option.map_eq_some_iff.mp hl
    unfold LeaderLease.renew at hl
    split at hl
    · cases hl
    · rename_i hsame
      cases hl
      exact ⟨by simpa using (not_or.mp hsame).1, rfl⟩
  · exact ⟨rfl, rfl⟩

/-- What an observation can do: be stale, take the lease away, or leave a lease from now on. -/
theorem observe_cases (t : LeadershipTracker) (term : Nat) (isLeader : Bool) (now : Nat) :
    (term < t.epoch ∧ (t.observe term isLeader now).2 = t)
      ∨ t.epoch ≤ term ∧ (t.observe term isLeader now).2.epoch = term
        ∧ (t.observe term isLeader now).2.leaseNanos = t.leaseNanos
        ∧ ((isLeader = false ∧ (t.observe term isLeader now).2.lease = none)
          ∨ isLeader = true ∧ ∃ l, (t.observe term isLeader now).2.lease = some l
            ∧ l.epoch = term ∧ l.deadline = saturatingAdd now t.leaseNanos) := by
  unfold observe
  split
  · exact .inl ⟨‹_›, rfl⟩
  · rename_i hle
    refine .inr ⟨not_lt.mp hle, rfl, rfl, ?_⟩
    cases isLeader with
    | false => exact .inl ⟨rfl, rfl⟩
    | true => exact .inr ⟨rfl, _, rfl, t.renewOrGrant_spec term now⟩

theorem canActAsLeader_iff {t : LeadershipTracker} {at' : Nat} :
    t.canActAsLeader at' ↔ ∃ l, t.lease = some l ∧ l.epoch = t.epoch ∧ at' < l.deadline := by
  simp only [canActAsLeader, Option.any_eq_true, Bool.and_eq_true, beq_iff_eq,
    LeaderLease.isValid, decide_eq_true_iff]

end LeadershipTracker

/-- What Raft reports to a node. -/
structure LeaderObservation (ν : Type) where
  node : ν
  term : Nat
  isLeader : Bool
  now : Nat

/-- No term is led by two nodes. -/
def ElectionSafe {ν : Type} (obs : List (LeaderObservation ν)) : Prop :=
  ∀ o ∈ obs, ∀ o' ∈ obs, o.isLeader → o'.isLeader → o.term = o'.term → o.node = o'.node

instance {ν : Type} [DecidableEq ν] (obs : List (LeaderObservation ν)) :
    Decidable (ElectionSafe obs) :=
  inferInstanceAs (Decidable (∀ o ∈ obs, ∀ o' ∈ obs, _))

/-- The trackers of a cluster's nodes. -/
def LeaderCluster (ν : Type) := ν → LeadershipTracker

namespace LeaderCluster

variable {ν : Type} [DecidableEq ν]

def start (leaseNanos : ν → Nat) : LeaderCluster ν := fun n => .new (leaseNanos n)

def observe (c : LeaderCluster ν) (o : LeaderObservation ν) : LeaderCluster ν :=
  Function.update c o.node ((c o.node).observe o.term o.isLeader o.now).2

def observeAll (c : LeaderCluster ν) (obs : List (LeaderObservation ν)) : LeaderCluster ν :=
  obs.foldl observe c

theorem observe_self (c : LeaderCluster ν) (o : LeaderObservation ν) :
    c.observe o o.node = ((c o.node).observe o.term o.isLeader o.now).2 :=
  Function.update_self ..

theorem observe_of_ne (c : LeaderCluster ν) {o : LeaderObservation ν} {n : ν} (h : n ≠ o.node) :
    c.observe o n = c n :=
  Function.update_of_ne h ..

theorem observeAll_append (c : LeaderCluster ν) (obs obs' : List (LeaderObservation ν)) :
    c.observeAll (obs ++ obs') = (c.observeAll obs).observeAll obs' :=
  List.foldl_append

/-- Where a held lease comes from: the last report to the node that was not stale. -/
def GrantedBy (leaseNanos : ν → Nat) (obs : List (LeaderObservation ν)) (n : ν) (l : LeaderLease) :
    Prop :=
  ∃ pre o post, obs = pre ++ o :: post ∧ o.node = n ∧ o.isLeader ∧ o.term = l.epoch
    ∧ l.deadline = saturatingAdd o.now (leaseNanos n) ∧ ∀ o' ∈ post, o'.node = n → o'.term < o.term

variable {leaseNanos : ν → Nat} {obs : List (LeaderObservation ν)} {n : ν} {l : LeaderLease}

omit [DecidableEq ν] in
/-- A stale report, or one to another node, leaves a lease as it was granted. -/
theorem GrantedBy.snoc (h : GrantedBy leaseNanos obs n l) {o : LeaderObservation ν}
    (ho : o.node = n → o.term < l.epoch) : GrantedBy leaseNanos (obs ++ [o]) n l := by
  obtain ⟨pre, g, post, rfl, hnode, hlead, hterm, hdeadline, hpost⟩ := h
  refine ⟨pre, g, post ++ [o], by simp, hnode, hlead, hterm, hdeadline, fun o' ho' hn => ?_⟩
  rcases List.mem_append.mp ho' with hmem | hmem
  · exact hpost o' hmem hn
  · obtain rfl := List.mem_singleton.mp hmem
    exact hterm ▸ ho hn

/-- Every lease a node holds is at its epoch and was granted on a report of Raft. -/
theorem lease_granted (leaseNanos : ν → Nat) (obs : List (LeaderObservation ν)) (n : ν) :
    ((start leaseNanos).observeAll obs n).leaseNanos = leaseNanos n
      ∧ ∀ l, ((start leaseNanos).observeAll obs n).lease = some l →
        l.epoch = ((start leaseNanos).observeAll obs n).epoch ∧ GrantedBy leaseNanos obs n l := by
  induction obs using List.reverseRecOn with
  | nil => exact ⟨rfl, fun l hl => by cases hl⟩
  | append_singleton obs o ih =>
    rw [observeAll_append]
    show ((observeAll (start leaseNanos) obs).observe o n).leaseNanos = _ ∧ ∀ l,
      ((observeAll (start leaseNanos) obs).observe o n).lease = some l → _
        = ((observeAll (start leaseNanos) obs).observe o n).epoch ∧ _
    obtain ⟨hnanos, hlease⟩ := ih
    by_cases hn : n = o.node
    · subst hn
      rw [observe_self]
      rcases LeadershipTracker.observe_cases (observeAll (start leaseNanos) obs o.node) o.term
        o.isLeader o.now with ⟨hlt, heq⟩ |
          ⟨hle, hepoch, hnanos', ⟨-, hnone⟩ | ⟨hlead, l', hl', hl'e, hl'd⟩⟩
      · rw [heq]
        refine ⟨hnanos, fun l hl => ⟨(hlease l hl).1, (hlease l hl).2.snoc fun _ => ?_⟩⟩
        exact (hlease l hl).1 ▸ hlt
      · refine ⟨hnanos'.trans hnanos, fun l hl => ?_⟩
        rw [hnone] at hl
        cases hl
      · refine ⟨hnanos'.trans hnanos, fun l hl => ?_⟩
        obtain rfl := Option.some.inj (hl'.symm.trans hl)
        exact ⟨hl'e.trans hepoch.symm, obs, o, [], rfl, rfl, hlead, hl'e.symm, hnanos ▸ hl'd,
          by simp⟩
    · rw [observe_of_ne _ hn]
      exact ⟨hnanos, fun l hl => ⟨(hlease l hl).1, (hlease l hl).2.snoc fun h => absurd h.symm hn⟩⟩

/-- While Raft does not report the node leader of an epoch again, a lease of that epoch that has
lapsed stays lapsed. -/
theorem lapsed_stays (c : LeaderCluster ν) (obs : List (LeaderObservation ν)) {epoch at' : Nat}
    (hlapsed : (c n).epoch = epoch → ∀ l ∈ (c n).lease, l.deadline ≤ at')
    (hquiet : ∀ o ∈ obs, o.node = n → o.isLeader → o.term ≠ epoch) :
    (c.observeAll obs n).epoch = epoch → ∀ l ∈ (c.observeAll obs n).lease, l.deadline ≤ at' := by
  induction obs generalizing c with
  | nil => exact hlapsed
  | cons o obs ih =>
    refine ih (c.observe o) ?_ fun o' ho' => hquiet o' (List.mem_cons_of_mem _ ho')
    by_cases hn : n = o.node
    · subst hn
      rw [observe_self]
      rcases LeadershipTracker.observe_cases (c o.node) o.term o.isLeader o.now
        with ⟨-, heq⟩ | ⟨-, hepoch, -, ⟨-, hnone⟩ | ⟨hlead, -⟩⟩
      · rwa [heq]
      · simp [hnone]
      · exact fun h => absurd (hepoch.symm.trans h) (hquiet o List.mem_cons_self rfl hlead)
    · rwa [observe_of_ne _ hn]

/-- Under election safety, no two nodes can act as leader of one epoch at the same instant. A node
acts on a report of Raft that it leads its epoch, less than a lease ago, with nothing but stale
reports since. Once a lease has lapsed the node acts under its epoch again only after Raft reports
it leader of that epoch again. -/
theorem leaders_exclude (leaseNanos : ν → Nat) (obs : List (LeaderObservation ν))
    (hsafe : ElectionSafe obs) :
    (∀ n n' at', ((start leaseNanos).observeAll obs n).canActAsLeader at' →
        ((start leaseNanos).observeAll obs n').canActAsLeader at' →
        ((start leaseNanos).observeAll obs n).epoch = ((start leaseNanos).observeAll obs n').epoch →
          n = n')
      ∧ (∀ n at', ((start leaseNanos).observeAll obs n).canActAsLeader at' →
        ∃ pre o post, obs = pre ++ o :: post ∧ o.node = n ∧ o.isLeader
          ∧ o.term = ((start leaseNanos).observeAll obs n).epoch
          ∧ at' < saturatingAdd o.now (leaseNanos n) ∧ ∀ o' ∈ post, o'.node = n → o'.term < o.term)
      ∧ ∀ pre post n l lapse at', obs = pre ++ post →
        ((start leaseNanos).observeAll pre n).lease = some l → l.isExpired lapse → lapse ≤ at' →
        ((start leaseNanos).observeAll obs n).canActAsLeader at' →
        ((start leaseNanos).observeAll obs n).epoch = l.epoch →
          ∃ o ∈ post, o.node = n ∧ o.isLeader ∧ o.term = l.epoch := by
  have hreport : ∀ n at', ((start leaseNanos).observeAll obs n).canActAsLeader at' →
      ∃ pre o post, obs = pre ++ o :: post ∧ o.node = n ∧ o.isLeader
        ∧ o.term = ((start leaseNanos).observeAll obs n).epoch
        ∧ at' < saturatingAdd o.now (leaseNanos n)
        ∧ ∀ o' ∈ post, o'.node = n → o'.term < o.term := by
    intro n at' hact
    obtain ⟨l, hl, hepoch, hlt⟩ := LeadershipTracker.canActAsLeader_iff.mp hact
    obtain ⟨pre, o, post, hobs, hnode, hlead, hterm, hdeadline, hpost⟩ :=
      ((lease_granted leaseNanos obs n).2 l hl).2
    exact ⟨pre, o, post, hobs, hnode, hlead, hterm.trans hepoch, hdeadline ▸ hlt, hpost⟩
  refine ⟨fun n n' at' hact hact' hepoch => ?_, hreport, ?_⟩
  · -- both act on a report of the same term
    obtain ⟨pre, o, post, hobs, hnode, hlead, hterm, -⟩ := hreport n at' hact
    obtain ⟨pre', o', post', hobs', hnode', hlead', hterm', -⟩ := hreport n' at' hact'
    have hmem : o ∈ obs := hobs ▸ List.mem_append_right _ List.mem_cons_self
    have hmem' : o' ∈ obs := hobs' ▸ List.mem_append_right _ List.mem_cons_self
    rw [← hnode, ← hnode']
    exact hsafe o hmem o' hmem' hlead hlead' (hterm.trans (hepoch.trans hterm'.symm))
  · rintro pre post n l lapse at' rfl hl hexpired hle hact hepoch
    by_contra hquiet
    rw [observeAll_append] at hact hepoch
    obtain ⟨l', hl', -, hlt⟩ := LeadershipTracker.canActAsLeader_iff.mp hact
    have hdeadline : l.deadline ≤ lapse := by
      simpa [LeaderLease.isExpired, LeaderLease.isValid] using hexpired
    -- no further report of the epoch, so the lapsed lease stays
    have hstays := lapsed_stays (n := n) ((start leaseNanos).observeAll pre) post
      (fun _ l₀ hl₀ => Option.some.inj (hl.symm.trans hl₀) ▸ hdeadline)
      (fun o ho hn hlead hterm => hquiet ⟨o, ho, hn, hlead, hterm⟩) hepoch l' hl'
    omega

/-- A leader acts within its lease on the report that elected it. -/
theorem leaders_exclude_elected :
    ∃ (pre : List (LeaderObservation Bool)) (o : LeaderObservation Bool)
      (post : List (LeaderObservation Bool)),
      [⟨false, 1, true, 0⟩, ⟨true, 1, false, 3⟩] = pre ++ o :: post
      ∧ o.node = false ∧ o.isLeader ∧ o.term = 1 ∧ 5 < saturatingAdd o.now 10
      ∧ ∀ o' ∈ post, o'.node = false → o'.term < o.term :=
  (leaders_exclude (fun _ => 10) [⟨false, 1, true, 0⟩, ⟨true, 1, false, 3⟩] (by decide)).2.1 false 5
    (by decide)

/-- A leader that Raft has replaced acts next to the new one until its lease lapses, and a leader
whose lease lapsed acts again under its epoch. -/
theorem leaders_overlap :
    let c := (start fun _ : Bool => 10).observeAll [⟨false, 1, true, 0⟩, ⟨true, 2, true, 5⟩]
    let lapsed := (start fun _ : Bool => 10).observeAll [⟨false, 1, true, 0⟩]
    ElectionSafe [(⟨false, 1, true, 0⟩ : LeaderObservation Bool), ⟨true, 2, true, 5⟩]
      ∧ (c false).canActAsLeader 6 ∧ (c true).canActAsLeader 6
      ∧ ¬ (lapsed false).canActAsLeader 15
      ∧ (lapsed.observe ⟨false, 1, true, 20⟩ false).canActAsLeader 20
      ∧ (lapsed.observe ⟨false, 1, true, 20⟩ false).epoch = (lapsed false).epoch := by
  decide

end LeaderCluster

end IronBus
