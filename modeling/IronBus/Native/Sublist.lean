import IronBus.ForStd.BinarySearch
import IronBus.Native.Checksum
import IronBus.Native.Subject

/-!
# The routing trie

Patterns and their targets, compiled into an arena of nodes. A literal edge is keyed by the hash of
its token, a node has at most one edge for `*`, and the targets of the patterns that end at a node,
or end there with `>`, are ranges of one table. A set of patterns whose match could fork too widely
is refused.
-/

namespace IronBus

def maxForkFrontier : Nat := 1024

inductive SublistError where
  | invalidPattern (e : SubjectError)
  | forkLimitExceeded (worstCase limit : Nat)
  deriving DecidableEq

/-- A node of the finished trie; the ranges are half-open. -/
structure SublistNode where
  literals : List (UInt64 × Nat)
  starChild : Option Nat
  terminal : Nat × Nat
  gtTerminal : Nat × Nat

def SublistNode.literalChild (node : SublistNode) (hash : UInt64) : Option Nat :=
  match node.literals.binarySearchBy fun e => compare e.1 hash with
  | .ok i => node.literals[i]?.map Prod.snd
  | .error _ => none

structure Sublist (τ : Type) where
  nodes : List SublistNode
  targets : List τ
  generation : Nat

/-! ## Building -/

/-- A node while the trie is built. -/
structure NodeScratch (τ : Type) where
  literals : List (UInt64 × Nat)
  starChild : Option Nat
  terminals : List τ
  gtTerminals : List τ

namespace NodeScratch

variable {τ : Type}

def new : NodeScratch τ := ⟨[], none, [], []⟩

def literalChild (node : NodeScratch τ) (hash : UInt64) : Option Nat :=
  (node.literals.find? fun e => e.1 == hash).map Prod.snd

end NodeScratch

namespace Sublist

variable {τ : Type}

/-- Follows a literal edge, making it if it is not there; the child and the nodes. -/
def descendLiteral (nodes : List (NodeScratch τ)) (cur : Nat) (hash : UInt64) :
    Nat × List (NodeScratch τ) :=
  match nodes[cur]?.bind fun node => node.literalChild hash with
  | some child => (child, nodes)
  | none =>
    (nodes.length, (nodes ++ [NodeScratch.new]).modify cur fun node =>
      { node with literals := node.literals ++ [(hash, nodes.length)] })

/-- Follows the `*` edge, making it if it is not there. -/
def descendStar (nodes : List (NodeScratch τ)) (cur : Nat) : Nat × List (NodeScratch τ) :=
  match nodes[cur]?.bind NodeScratch.starChild with
  | some child => (child, nodes)
  | none =>
    (nodes.length, (nodes ++ [NodeScratch.new]).modify cur fun node =>
      { node with starChild := some nodes.length })

variable [Checksums]

/-- Places a target at the end of a pattern's tokens. -/
def placeTokens (target : τ) : List Bytes → Nat → List (NodeScratch τ) → List (NodeScratch τ)
  | [], cur, nodes =>
    nodes.modify cur fun node => { node with terminals := node.terminals ++ [target] }
  | token :: rest, cur, nodes =>
    if token = [Subject.wildcardTail] then
      nodes.modify cur fun node => { node with gtTerminals := node.gtTerminals ++ [target] }
    else
      let (cur, nodes) :=
        if token = [Subject.wildcardOne] then descendStar nodes cur
        else descendLiteral nodes cur (Checksums.xxh3 token)
      placeTokens target rest cur nodes

/-- Lays a node's targets into the table. -/
def finishNode (targets : List τ) (node : NodeScratch τ) : List τ × SublistNode :=
  let terminals := targets ++ node.terminals
  let all := terminals ++ node.gtTerminals
  (all,
    { literals := node.literals.insertionSort fun a b => a.1 ≤ b.1
      starChild := node.starChild
      terminal := (targets.length, terminals.length)
      gtTerminal := (terminals.length, all.length) })

def finishNodes : List τ → List (NodeScratch τ) → List τ × List SublistNode
  | targets, [] => (targets, [])
  | targets, node :: rest =>
    let (targets, done) := finishNode targets node
    let (targets, nodes) := finishNodes targets rest
    (targets, done :: nodes)

/-- The widest frontier a match can reach below each node, from the node at `id` on. Children have
higher ids than their parents. -/
def worstCaseFrom (id : Nat) : List SublistNode → List Nat
  | [] => []
  | node :: rest =>
    let deeper := worstCaseFrom (id + 1) rest
    let below := fun child => deeper[child - (id + 1)]?.getD 0
    let bestLiteral := (node.literals.map fun e => below e.2).foldl max 0
    let star := (node.starChild.map below).getD 0
    let widest := if star > 0 ∧ bestLiteral > 0 then star + bestLiteral else max star bestLiteral
    max widest 1 :: deeper

def worstCaseFrontier (nodes : List SublistNode) : Nat := (worstCaseFrom 0 nodes).head?.getD 1

/-- Adds the patterns to the nodes, checking each one. -/
def placeEntries : List (Bytes × τ) → List (NodeScratch τ) →
    Except SublistError (List (NodeScratch τ))
  | [], nodes => .ok nodes
  | (pattern, target) :: rest, nodes =>
    match Subject.parsePattern pattern with
    | .error e => .error (.invalidPattern e)
    | .ok _ => placeEntries rest (placeTokens target (Subject.tokens pattern) 0 nodes)

/-- Compiles patterns and their targets. -/
def build (entries : List (Bytes × τ)) (generation : Nat) : Except SublistError (Sublist τ) :=
  match placeEntries entries [.new] with
  | .error e => .error e
  | .ok scratch =>
    let (targets, nodes) := finishNodes [] scratch
    let worstCase := worstCaseFrontier nodes
    if worstCase > maxForkFrontier then .error (.forkLimitExceeded worstCase maxForkFrontier)
    else .ok ⟨nodes, targets, generation⟩

/-! ## Matching -/

def collectRange (s : Sublist τ) (range : Nat × Nat) : List τ :=
  (s.targets.take range.2).drop range.1

def pushUnique (frontier : List Nat) (id : Nat) : List Nat :=
  if id ∈ frontier then frontier else frontier ++ [id]

/-- One token: the targets of `>` at every node of the frontier, and the next frontier. -/
def advance (s : Sublist τ) (hash : UInt64) : List Nat → List τ → List Nat → List τ × List Nat
  | [], out, next => (out, next)
  | id :: rest, out, next =>
    match s.nodes[id]? with
    | none => advance s hash rest out next
    | some node =>
      let next := match node.literalChild hash with
        | some child => pushUnique next child
        | none => next
      let next := match node.starChild with
        | some child => pushUnique next child
        | none => next
      advance s hash rest (out ++ s.collectRange node.gtTerminal) next

/-- Matches the tokens of a subject. -/
def matchTokens (s : Sublist τ) : List Bytes → List τ → List Nat → List τ
  | [], out, frontier =>
    out ++ frontier.flatMap fun id =>
      ((s.nodes[id]?.map fun node => s.collectRange node.terminal).getD [])
  | token :: rest, out, frontier =>
    let (out, next) := s.advance (Checksums.xxh3 token) frontier out []
    if next = [] then out else s.matchTokens rest out next

end Sublist

end IronBus
