import IronBus.ForStd.NatMap
import IronBus.Native.Error

/-!
# The lease table

A delivered message stays in flight for a visibility timeout; only an acknowledgement removes it,
and once the timeout has passed the next claim delivers it again. Every grant carries a fresh
generation, and a call whose token is of another generation than the current lease is fenced.
-/

namespace IronBus

structure LeaseConfig where
  visibilityNanos : Nat
  hardCapNanos : Nat

/-- What a holder shows to act on its lease. -/
structure LeaseToken where
  offset : Nat
  generation : Nat
  deriving DecidableEq

structure Lease where
  generation : Nat
  attemptStart : Nat
  deadline : Nat
  deliveries : Nat
  deriving DecidableEq

inductive Claim where
  | granted (token : LeaseToken) (deliveries : Nat)
  | inFlight
  | exhausted
  deriving DecidableEq

inductive AckOutcome where
  | acked
  | fenced
  deriving DecidableEq

inductive ExtendOutcome where
  | extended (deadline : Nat)
  | capReached
  | fenced
  deriving DecidableEq

inductive NackOutcome where
  | requeued (deadline : Nat)
  | fenced
  | exhausted
  deriving DecidableEq

/-- Saturating `u32` addition. -/
def saturatingAddU32 (a b : Nat) : Nat := min (a + b) (2 ^ 32 - 1)

structure LeaseTable where
  config : LeaseConfig
  leases : NatMap Lease
  nextGeneration : Nat
  /-- Attempt counts recovered from before a restart, until their offset is claimed. -/
  carried : NatMap Nat
  redeliveriesSinceFlush : Nat

namespace LeaseTable

def new (config : LeaseConfig) : LeaseTable where
  config := config
  leases := .empty
  nextGeneration := 0
  carried := .empty
  redeliveriesSinceFlush := 0

/-- Takes over the attempt counts a restart recovered. -/
def resumeAttempts (t : LeaseTable) (attempts : List (Nat × Nat)) : LeaseTable :=
  { t with
    carried := attempts.foldl (fun m a => if 0 < a.2 then m.insert a.1 a.2 else m) t.carried }

/-- Drops every lease and carried count below an offset. -/
def releaseBelow (t : LeaseTable) (upTo : Nat) : LeaseTable :=
  { t with
    leases := t.leases.filterKeys fun offset => decide (upTo ≤ offset)
    carried := t.carried.filterKeys fun offset => decide (upTo ≤ offset) }

/-- The lease a grant leaves, the delivery count it reports, and the table with that lease. -/
def grant (t : LeaseTable) (offset now next : Nat) : Claim × LeaseTable :=
  let generation := t.nextGeneration
  let deadline := min (saturatingAdd now t.config.visibilityNanos)
    (saturatingAdd now t.config.hardCapNanos)
  match t.leases.get offset with
  | some lease =>
    -- a redelivery: a new attempt under a fresh generation fences the holder
    let deliveries := saturatingAddU32 lease.deliveries 1
    (.granted ⟨offset, generation⟩ deliveries, { t with
      nextGeneration := next
      leases := t.leases.insert offset ⟨generation, now, deadline, deliveries⟩
      redeliveriesSinceFlush := saturatingAddU32 t.redeliveriesSinceFlush 1 })
  | none =>
    let resumed := (t.carried.get offset).elim 1 fun prior => saturatingAddU32 prior 1
    (.granted ⟨offset, generation⟩ resumed, { t with
      nextGeneration := next
      leases := t.leases.insert offset ⟨generation, now, deadline, resumed⟩
      carried := t.carried.erase offset
      redeliveriesSinceFlush :=
        if 2 ≤ resumed then saturatingAddU32 t.redeliveriesSinceFlush 1
        else t.redeliveriesSinceFlush })

/-- Claims an offset for delivery: granted when it is free or its lease has expired. -/
def claim (t : LeaseTable) (offset now : Nat) : Claim × LeaseTable :=
  if (t.leases.get offset).any fun lease => decide (now < lease.deadline) then (.inFlight, t)
  else
    match checkedAdd t.nextGeneration 1 with
    | none => (.exhausted, t)
    | some next => t.grant offset now next

/-- The lease a token owns. -/
def owned (t : LeaseTable) (token : LeaseToken) : Option Lease :=
  (t.leases.get token.offset).filter fun lease => lease.generation == token.generation

def ack (t : LeaseTable) (token : LeaseToken) : AckOutcome × LeaseTable :=
  match t.owned token with
  | some _ => (.acked, { t with leases := t.leases.erase token.offset })
  | none => (.fenced, t)

/-- Extends a lease by one visibility window, never past the hard cap of its attempt. -/
def extend (t : LeaseTable) (token : LeaseToken) (now : Nat) : ExtendOutcome × LeaseTable :=
  match t.owned token with
  | none => (.fenced, t)
  | some lease =>
    let cap := saturatingAdd lease.attemptStart t.config.hardCapNanos
    if cap ≤ now then (.capReached, t)
    else
      let deadline := min (saturatingAdd now t.config.visibilityNanos) cap
      (.extended deadline,
        { t with leases := t.leases.insert token.offset { lease with deadline := deadline } })

/-- Gives a lease the generation its run shares, as long as it has the one its claim drew. -/
def resealFromTo (t : LeaseTable) (offset drawn generation : Nat) : Bool × LeaseTable :=
  match t.owned ⟨offset, drawn⟩ with
  | some lease => (true, { t with
      leases := t.leases.insert offset { lease with generation := generation } })
  | none => (false, t)

/-- The token owns a lease that has not expired. -/
def holdsActive (t : LeaseTable) (token : LeaseToken) (now : Nat) : Bool :=
  (t.owned token).any fun lease => decide (now < lease.deadline)

/-- Requeues a message after a delay and fences its holder with a fresh generation. -/
def nack (t : LeaseTable) (token : LeaseToken) (now delayNanos : Nat) : NackOutcome × LeaseTable :=
  match t.owned token with
  | none => (.fenced, t)
  | some lease =>
    match checkedAdd t.nextGeneration 1 with
    | none => (.exhausted, t)
    | some next =>
      let deadline := saturatingAdd now delayNanos
      (.requeued deadline, { t with
        nextGeneration := next
        leases := t.leases.insert token.offset
          { lease with generation := t.nextGeneration, deadline := deadline } })

/-- Puts an expired lease off by a delay; whether there was one. -/
def deferRedelivery (t : LeaseTable) (offset now delayNanos : Nat) : Bool × LeaseTable :=
  match t.leases.get offset with
  | some lease =>
    if lease.deadline ≤ now then
      (true, { t with
        leases := t.leases.insert offset { lease with deadline := saturatingAdd now delayNanos } })
    else (false, t)
  | none => (false, t)

/-- Moves every lease's clock on. -/
def shiftDeadlines (t : LeaseTable) (delta : Nat) : LeaseTable :=
  { t with leases := t.leases.map fun lease => { lease with
      deadline := saturatingAdd lease.deadline delta
      attemptStart := saturatingAdd lease.attemptStart delta } }

/-- The offsets whose lease has expired, in ascending order. -/
def expired (t : LeaseTable) (now : Nat) : List Nat :=
  t.leases.keys.filter fun offset =>
    (t.leases.get offset).any fun lease => decide (lease.deadline ≤ now)

end LeaseTable

end IronBus
