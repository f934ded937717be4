-- SUMMARY: Pruning a flow graph: bypass empty blocks, remove unreachable ones, report dead statements.
import SsaFlow.Graph.DepthFirst
import SsaFlow.Prune.Collapse
import SsaFlow.Prune.Region

/-!
# Pruning

Pruning takes the scaffolding out of a freshly built graph. What can be reached from the entry over live
edges is found once, at the start; bypassing blocks does not change it. Then empty blocks are bypassed
and the blocks that were not reached are removed. The statements that the removed blocks held are
reported, one region for each connected piece of dead code, cut where live code stands in between.
-/

namespace SsaFlow

/-- What pruning did. -/
structure PruneReport where
  /-- Number of empty blocks that were bypassed. -/
  bypassed : Nat
  /-- Number of unreachable blocks that were removed. -/
  dropped : Nat
  /-- The spans of dead statements, by region. -/
  deadCode : List (List Span)
deriving DecidableEq

namespace FlowGraph

/-- For every block whether it can be reached from the entry over live edges. -/
def reachedFromEntry (g : FlowGraph) : Array Bool :=
  DepthFirst.reached g.targets g.size [entry]

/-- The spans of the statements that begin in reached blocks, empty spans apart. -/
def liveSpans (g : FlowGraph) (reached : Array Bool) : List Span :=
  let live := g.liveIds.filter fun b => reached.getD b false
  DeadRegion.sorted ((live.flatMap fun b => (g.block b).spans.toList).filter fun s => !s.isEmpty)

/-- Blocks joined to a block by an edge in either direction. -/
def neighbours (g : FlowGraph) (b : BlockId) : List BlockId :=
  (g.jump b).successors ++ (g.block b).preds.toList

/-- Adds the piece of a block to the pieces found, unless it is among them; `seen` marks the blocks in
them and the blocks that belong to no piece. -/
def addPiece (g : FlowGraph) : Array Bool × List (List BlockId) → BlockId →
    Array Bool × List (List BlockId)
  | (seen, found), b =>
    if seen.getD b true then (seen, found)
    else
      let (seen', visits) := DepthFirst.explore g.neighbours seen [] [.enter b 0]
      (seen', DepthFirst.preorder visits :: found)

/-- The pieces in which the given blocks hang together by edges among themselves. -/
def pieces (g : FlowGraph) (members : List BlockId) : List (List BlockId) :=
  let others := members.foldl (fun acc b => acc.setIfInBounds b false) (Array.replicate g.size true)
  (members.foldl g.addPiece (others, [])).2

/-- The dead regions of a list of unreachable blocks. -/
def deadCode (g : FlowGraph) (dead : List BlockId) (live : List Span) : List (List Span) :=
  let regions := (g.pieces dead).flatMap fun piece =>
    DeadRegion.runs live (DeadRegion.sorted (piece.flatMap fun b => (g.block b).spans.toList))
  regions.mergeSort DeadRegion.le

/-- Bypasses empty blocks, removes unreachable ones and lists the blocks that remain. What was known
about the edges is forgotten. -/
def prune (g : FlowGraph) : FlowGraph × PruneReport :=
  let g := g.forgetAnalyses
  let reached := g.reachedFromEntry
  let live := g.liveSpans reached
  let (collapsed, bypassed) := collapseAll reached g
  let dead := collapsed.liveIds.filter fun b => !reached.getD b false
  let regions := collapsed.deadCode dead live
  let pruned := dead.foldl detach collapsed
  ({ pruned with reachable := some pruned.liveIds },
    { bypassed := bypassed
      dropped := dead.length
      deadCode := regions })

end FlowGraph

end SsaFlow
