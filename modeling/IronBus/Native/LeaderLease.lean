import IronBus.Native.Error

/-!
# Leader epochs and leases

A node tracks the highest Raft term it has seen as the cluster's leader epoch. While Raft reports
it leader of that term it holds a lease of bounded length on the monotonic clock, and it may act
as leader only while the lease is valid.
-/

namespace IronBus

/-- A lease on the leadership of an epoch. -/
structure LeaderLease where
  epoch : Nat
  grantedAt : Nat
  /-- The first instant at which the lease is no longer valid. -/
  deadline : Nat

namespace LeaderLease

def grant (epoch now leaseNanos : Nat) : LeaderLease := ⟨epoch, now, saturatingAdd now leaseNanos⟩

def isValid (l : LeaderLease) (now : Nat) : Bool := now < l.deadline

def isExpired (l : LeaderLease) (now : Nat) : Bool := !l.isValid now

/-- Extends a lease of the same epoch that is still valid; whether it did. -/
def renew (l : LeaderLease) (epoch now leaseNanos : Nat) : Bool × LeaderLease :=
  if l.epoch ≠ epoch ∨ l.isExpired now then (false, l)
  else (true, { l with grantedAt := now, deadline := saturatingAdd now leaseNanos })

end LeaderLease

inductive EpochObservation where
  | advanced (previous current : Nat)
  | unchanged
  | stale (current observed : Nat)
  deriving DecidableEq

/-- The leader epoch one node knows, and the lease it holds. -/
structure LeadershipTracker where
  epoch : Nat
  lease : Option LeaderLease
  leaseNanos : Nat

namespace LeadershipTracker

def new (leaseNanos : Nat) : LeadershipTracker := ⟨0, none, leaseNanos⟩

/-- Renews the held lease if it can be, and grants a new one otherwise. -/
def renewOrGrant (t : LeadershipTracker) (term now : Nat) : LeaderLease :=
  match t.lease.map fun l => l.renew term now t.leaseNanos with
  | some (true, l) => l
  | _ => .grant term now t.leaseNanos

/-- Takes in what Raft reports: its term, and whether this node leads it. -/
def observe (t : LeadershipTracker) (term : Nat) (isLeader : Bool) (now : Nat) :
    EpochObservation × LeadershipTracker :=
  if term < t.epoch then (.stale t.epoch term, t)
  else
    (if t.epoch < term then .advanced t.epoch term else .unchanged,
      { t with
        epoch := term
        lease := if isLeader then some (t.renewOrGrant term now) else none })

def canActAsLeader (t : LeadershipTracker) (now : Nat) : Bool :=
  t.lease.any fun l => l.epoch == t.epoch && l.isValid now

end LeadershipTracker

end IronBus
