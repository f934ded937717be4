-- SUMMARY: Building the dominator tree and the dominance frontiers of an ordered flow graph.
import SsaFlow.Dominator.Chain
import SsaFlow.Graph.Edge
import SsaFlow.Graph.DepthFirst

/-!
# Building dominator trees

The tree is built over the blocks in the order of the graph. Blocks at the end of the order that cannot
be reached stay unresolved and are left out. Children are listed by depth, then by id.

The frontier of a block holds the joins where its dominance ends: for every join, each predecessor is
followed up the tree until the immediate dominator of the join, and the blocks on the way get the join
into their frontiers. The ways of different predecessors can share their upper ends, which are walked
once.
-/

namespace SsaFlow

namespace DominatorTree

/-- Orders blocks by depth, blocks without a depth last, then by id. -/
def siblingLe (depth : BlockId → Option Nat) (a b : BlockId) : Bool :=
  match depth a, depth b with
  | some da, some db => decide (da < db ∨ (da = db ∧ a ≤ b))
  | some _, none => true
  | none, some _ => false
  | none, none => decide (a ≤ b)

/-- The tree given by the immediate dominators of the blocks in `order`, the entry first. `size` is the
number of blocks of the graph. -/
def ofParents (size : Nat) (order : List BlockId) (parents : List (BlockId × BlockId))
    (depth : BlockId → Option Nat) : DominatorTree :=
  let parent := parents.foldl (fun acc (b, p) => acc.setIfInBounds b (some p))
    (Array.replicate size none)
  let unsorted := parents.foldl (fun acc (b, p) => acc.modify p (b :: ·)) (Array.replicate size [])
  let children := unsorted.map fun bs => bs.mergeSort (siblingLe depth)
  let visits := DepthFirst.trace (fun b => children.getD b []) size (order.take 1)
  { order := order
    parent := parent
    children := children
    preorder := DepthFirst.preorder visits
    interval := DepthFirst.intervals size visits }

end DominatorTree

namespace FlowGraph

def positions (g : FlowGraph) (order : List BlockId) : Array (Option Nat) :=
  order.zipIdx.foldl (fun acc (b, i) => acc.setIfInBounds b (some i)) (Array.replicate g.size none)

def predPositions (g : FlowGraph) (order : List BlockId) : Array (List Nat) :=
  let pos := g.positions order
  (order.map fun b => (g.livePredecessors b).filterMap fun p => (pos[p]?).join).toArray

/-- Builds the dominator tree of an ordered graph. -/
def dominatorTree (g : FlowGraph) : Except InternalError DominatorTree :=
  match g.reachable, g.isOrdered with
  | some order, true =>
    let preds := g.predPositions order
    let chains := (ChainTable.resolve (fun pos => preds.getD pos []) order.length).toList
    let resolved := (chains.takeWhile Option.isSome).length
    let order' := order.toArray
    match (order.zip chains).drop resolved |>.find? fun (_, dom) => dom.isSome with
    | some (b, _) => .error (.malformed (.dominatedAfterUnresolved b (order'.getD resolved 0)))
    | none =>
      let kept := order.take resolved
      let parents := ((kept.zip chains).tail).filterMap fun (b, dom) =>
        dom.map fun pos => (b, order'.getD pos 0)
      .ok (.ofParents g.size kept parents g.depth?)
  | _, _ => .error (.passOrder "DominatorTree::build" "compute_order")

/-! ## Frontiers -/

/-- Puts a join into the frontiers of the blocks from `b` up the tree, until `stop` or past the entry. A
block that has the join already was passed from another predecessor, and so were the blocks above it.
`fuel` bounds the number of blocks; a path up the tree has no more blocks than the graph. -/
def addJoin (tree : DominatorTree) (join : BlockId) (stop : Option BlockId) :
    (fuel : Nat) → Array IdSet → BlockId → Array IdSet
  | 0, acc, _ => acc
  | fuel + 1, acc, b =>
    if some b = stop || (acc.getD b ∅).contains join then acc
    else
      let acc' := acc.modify b (·.insert join)
      match tree.idom? b with
      | none => acc'
      | some up => addJoin tree join stop fuel acc' up

/-- Puts a block into the frontiers that it belongs to. -/
def addFrontiersOf (g : FlowGraph) (tree : DominatorTree) (acc : Array IdSet) (b : BlockId) :
    Array IdSet :=
  let stop := tree.idom? b
  match (g.livePredecessors b).filter tree.contains, stop with
  | [_], some _ => acc
  | preds, _ => preds.foldl (addJoin tree b stop tree.parent.size) acc

def frontiers (g : FlowGraph) (tree : DominatorTree) : Array IdSet :=
  tree.order.foldl (g.addFrontiersOf tree) (Array.replicate g.size ∅)

/-- Builds the dominator tree and the frontiers and keeps them with the graph. -/
def computeDominance (g : FlowGraph) : FlowGraph × Except InternalError Unit :=
  match g.dominatorTree with
  | .error e => (g, .error e)
  | .ok tree =>
    ({ g with dominance := some ⟨tree, g.frontiers tree⟩, definitionSites := none }, .ok ())

def withDominance (g : FlowGraph) : Except InternalError FlowGraph := Prod.fst <$> completed g.computeDominance

theorem withDominance_def (g : FlowGraph) :
    g.withDominance =
      match g.dominatorTree with
      | .error e => .error e
      | .ok tree => .ok { g with dominance := some ⟨tree, g.frontiers tree⟩, definitionSites := none } := by
  unfold withDominance computeDominance
  cases g.dominatorTree <;> rfl

end FlowGraph

end SsaFlow
