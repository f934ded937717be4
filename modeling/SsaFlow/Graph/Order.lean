-- SUMMARY: Reverse postorder and depths of the reachable blocks.
import SsaFlow.Graph.Basic
import SsaFlow.Graph.DepthFirst

/-!
# Order of blocks

The blocks are walked depth first from the entry over live edges, and the reachable blocks are listed in
reverse postorder. Blocks that the list held before and that the walk does not find keep their places at
the end of it.
-/

namespace SsaFlow.FlowGraph

/-- The live successors that are part of the graph. -/
def presentTargets (g : FlowGraph) (b : BlockId) : List BlockId :=
  (g.targets b).filter fun s => !(g.block s).removed

def walk (g : FlowGraph) : List Visit := DepthFirst.trace g.presentTargets g.size [entry]

/-- Puts the reachable blocks into reverse postorder and records their depths. -/
def computeOrder (g : FlowGraph) : FlowGraph × Except InternalError Unit :=
  match g.reachable with
  | none => (g, .error (.passOrder "compute_order" "cleanup"))
  | some old =>
    let visits := g.walk
    let depths := DepthFirst.depths g.size visits
    let missed := old.filter fun b => (depths[b]?).join.isNone
    ({ g with
        reachable := some ((DepthFirst.postorder visits).reverse ++ missed)
        depths := some depths }, .ok ())

def withOrder (g : FlowGraph) : Except InternalError FlowGraph := Prod.fst <$> completed g.computeOrder

theorem withOrder_def (g : FlowGraph) :
    g.withOrder =
      match g.reachable with
      | none => .error (.passOrder "compute_order" "cleanup")
      | some old => .ok { g with
          reachable := some ((DepthFirst.postorder g.walk).reverse ++
            old.filter fun b => ((DepthFirst.depths g.size g.walk)[b]?).join.isNone)
          depths := some (DepthFirst.depths g.size g.walk) } := by
  unfold withOrder computeOrder
  cases g.reachable <;> rfl

end SsaFlow.FlowGraph
