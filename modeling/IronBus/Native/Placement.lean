import Mathlib

/-!
# Placing the replicas of a partition

A pure policy: the replicas are spread over distinct nodes, distinct failure domains first, and the
least loaded of those that may lead becomes the leader. A batch of partitions is placed one after
another with a running tally of the leaders.
-/

namespace IronBus

namespace PlacementPolicy

structure PlacementNode where
  node : Nat
  failureDomain : Option Nat
  inIsr : Bool
  durablePrefix : Nat
  divergent : Bool
  deriving DecidableEq

/-- A node may lead if it is in sync, holds everything committed and has not diverged. -/
def PlacementNode.isEligible (n : PlacementNode) (committedHw : Nat) : Bool :=
  n.inIsr && decide (committedHw ≤ n.durablePrefix) && !n.divergent

inductive PlacementShortfall where
  | tooFewNodes (requested placed : Nat)
  | noEligibleLeader (placed : Nat)
  deriving DecidableEq

structure Placement where
  replicas : List Nat
  leader : Option Nat
  underReplicated : Option PlacementShortfall
  deriving DecidableEq

/-! ## Spreading the replicas -/

/-- A node without a label is a domain of its own. -/
inductive DomainKey where
  | labeled (domain : Nat)
  | unlabeled (node : Nat)
  deriving DecidableEq

def domainKey (n : PlacementNode) : DomainKey :=
  match n.failureDomain with
  | some d => .labeled d
  | none => .unlabeled n.node

/-- Keeps the first entry of every node id. -/
def uniqueNodes : List Nat → List PlacementNode → List PlacementNode
  | _, [] => []
  | seen, c :: rest =>
    if c.node ∈ seen then uniqueNodes seen rest else c :: uniqueNodes (c.node :: seen) rest

/-- Labeled domains first, then by node. -/
def nodeLe (a b : PlacementNode) : Bool :=
  match a.failureDomain, b.failureDomain with
  | some x, some y => x < y || (x == y && a.node ≤ b.node)
  | some _, none => true
  | none, some _ => false
  | none, none => a.node ≤ b.node

structure SpreadState where
  chosen : List Nat
  usedInDomain : DomainKey → Nat
  progressed : Bool

/-- Takes a node. -/
def SpreadState.take (s : SpreadState) (n : PlacementNode) : SpreadState where
  chosen := s.chosen ++ [n.node]
  usedInDomain := fun d => if d = domainKey n then s.usedInDomain d + 1 else s.usedInDomain d
  progressed := true

/-- One walk over the nodes: takes a node whose domain holds exactly `round` replicas. -/
def pass (r round : Nat) : List PlacementNode → SpreadState → SpreadState
  | [], s => s
  | n :: rest, s =>
    if r ≤ s.chosen.length then s
    else if n.node ∈ s.chosen then pass r round rest s
    else if s.usedInDomain (domainKey n) = round then pass r round rest (s.take n)
    else pass r round rest s

/-- Walks until the replicas are chosen; a walk that takes nothing opens the next round. -/
def spreadLoop (nodes : List PlacementNode) (r : Nat) : Nat → Nat → SpreadState → List Nat
  | 0, _, s => s.chosen
  | fuel + 1, round, s =>
    if s.chosen.length < r ∧ s.chosen.length < nodes.length then
      let s := pass r round nodes { s with progressed := false }
      let round := if s.progressed then round else round + 1
      if nodes.length < round then s.chosen else spreadLoop nodes r fuel round s
    else s.chosen

/-- Every walk takes a node or opens a round, and there are at most as many of either as nodes. -/
def spreadReplicas (candidates : List PlacementNode) (r : Nat) : List Nat :=
  let nodes := (uniqueNodes [] candidates).insertionSort (nodeLe · ·)
  spreadLoop nodes r (2 * nodes.length + 1) 0 ⟨[], fun _ => 0, false⟩

/-! ## The leader -/

/-- How many partitions each node leads. -/
abbrev LeaderLoad := Nat → Nat

/-- The entry of a node id; the last one if there are several. -/
def byId (candidates : List PlacementNode) (node : Nat) : Option PlacementNode :=
  candidates.reverse.find? fun c => c.node == node

/-- Fewer partitions led, then the lower id. -/
def loadLt (load : LeaderLoad) (a b : Nat) : Prop := load a < load b ∨ load a = load b ∧ a < b

instance (load : LeaderLoad) : DecidableRel (loadLt load) :=
  fun _ _ => inferInstanceAs (Decidable (_ ∨ _))

/-- The first least loaded node of a list. -/
def leastLoaded (load : LeaderLoad) : List Nat → Option Nat
  | [] => none
  | n :: rest => some (rest.foldl (fun best m => if loadLt load m best then m else best) n)

def chooseLeader (replicas : List Nat) (candidates : List PlacementNode) (committedHw : Nat)
    (load : LeaderLoad) : Option Nat :=
  leastLoaded load
    (replicas.filter fun node => (byId candidates node).any (·.isEligible committedHw))

/-- The leader first, the others by id. -/
def orderLeaderFirst (replicas : List Nat) (leader : Option Nat) : List Nat :=
  match leader with
  | some l =>
    if l ∈ replicas then l :: (replicas.filter (· != l)).insertionSort (· ≤ ·)
    else replicas.insertionSort (· ≤ ·)
  | none => replicas.insertionSort (· ≤ ·)

/-! ## Placing -/

def placePartition (candidates : List PlacementNode) (replicationFactor committedHw : Nat)
    (load : LeaderLoad) : Placement :=
  let r := max replicationFactor 1
  let replicas := spreadReplicas candidates r
  let leader := chooseLeader replicas candidates committedHw load
  let ordered := orderLeaderFirst replicas leader
  { replicas := ordered
    leader := leader
    underReplicated :=
      if ordered.length < r then some (.tooFewNodes r ordered.length)
      else if leader.isNone then some (.noEligibleLeader ordered.length)
      else none }

/-- Counts one more partition for its leader. -/
def bump (load : LeaderLoad) : Option Nat → LeaderLoad
  | none => load
  | some leader => Function.update load leader (load leader + 1)

/-- Places partitions in order, each on the tally the earlier ones left. -/
def placeInOrder (candidates : List PlacementNode) (replicationFactor committedHw : Nat) :
    LeaderLoad → List Nat → List (Nat × Placement)
  | _, [] => []
  | load, partition :: rest =>
    let placement := placePartition candidates replicationFactor committedHw load
    (partition, placement) :: placeInOrder candidates replicationFactor committedHw
      (bump load placement.leader) rest

/-- The placements of a batch, by partition. -/
def placePartitions (partitions : List Nat) (candidates : List PlacementNode)
    (replicationFactor committedHw : Nat) : List (Nat × Placement) :=
  placeInOrder candidates replicationFactor committedHw (fun _ => 0)
    (partitions.insertionSort (· ≤ ·)).dedup

end PlacementPolicy

end IronBus
