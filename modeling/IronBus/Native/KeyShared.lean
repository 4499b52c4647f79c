import IronBus.ForStd.Assoc
import IronBus.Native.Checksum

/-!
# Key-shared routing

The router of a key-shared group: rendezvous hashing picks one live member for each key, and a key
with a record in flight is busy, so that its records go out one at a time and in order.
-/

namespace IronBus

/-- A member of a group: a live connection. -/
abbrev MemberId := Nat

inductive KeyOrdering where
  | none
  | keyShared
  deriving DecidableEq

inductive RouteDecision where
  | deliver
  | notOwner
  | keyBusy
  deriving DecidableEq

structure KeyRouter where
  /-- The live members, each once. -/
  members : List MemberId
  /-- The offset in flight for each busy key. -/
  inFlight : Assoc Bytes Nat

namespace KeyRouter

def new : KeyRouter := ⟨[], ∅⟩

/-- Adds a member; whether it is new. -/
def join (r : KeyRouter) (member : MemberId) : Bool × KeyRouter :=
  if member ∈ r.members then (false, r) else (true, { r with members := member :: r.members })

/-- Removes a member; whether it was there. -/
def leave (r : KeyRouter) (member : MemberId) : Bool × KeyRouter :=
  (decide (member ∈ r.members), { r with members := r.members.filter (· ≠ member) })

/-- Marks a key busy; the empty key never is. -/
def markInFlight (r : KeyRouter) (key : Bytes) (offset : Nat) : KeyRouter :=
  if key = [] then r else { r with inFlight := r.inFlight.insert key offset }

/-- Frees the key an offset is in flight for. -/
def clearOffset (r : KeyRouter) (offset : Nat) : KeyRouter :=
  match r.inFlight.entries.find? fun e => e.2 == offset with
  | some e => { r with inFlight := r.inFlight.erase e.1 }
  | none => r

/-- Frees the keys whose offset is below the watermark. -/
def retainAbove (r : KeyRouter) (committed : Nat) : KeyRouter :=
  { r with inFlight := r.inFlight.retain fun off => if committed ≤ off then some off else none }

variable [Checksums]

/-- The weight of a member for a key. -/
def score (member : MemberId) (key : Bytes) : Nat :=
  (Checksums.xxh3 (Bytes.ofNatLE 8 member ++ key)).toNat

/-- Whether a member's weight for a key, then its id, is at least another's. -/
def atLeast (key : Bytes) (m m' : MemberId) : Bool :=
  decide (score m' key < score m key) || (score m' key == score m key && decide (m' ≤ m))

/-- The heavier of the best member so far and the next. -/
def heavier (key : Bytes) (best : Option MemberId) (member : MemberId) : Option MemberId :=
  match best with
  | none => some member
  | some b => if atLeast key member b then some member else some b

/-- The member a key goes to. -/
def owner (r : KeyRouter) (key : Bytes) : Option MemberId := r.members.foldl (heavier key) none

/-- Whether a member may take a record. -/
def decide (r : KeyRouter) (member : MemberId) (key : Bytes) (offset : Nat) : RouteDecision :=
  if key = [] then .deliver
  else if (r.inFlight.lookup key).any (· ≠ offset) then .keyBusy
  else if r.owner key = some member then .deliver else .notOwner

end KeyRouter

end IronBus
