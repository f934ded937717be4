-- SUMMARY: Collecting definition sites and placing phis on iterated dominance frontiers.
import SsaFlow.Graph.Edge

/-!
# Phi placement

A variable with several definition sites gets a phi in every block of the iterated dominance frontier of
its sites: a join in the frontier of a site is itself a site. Blocks that dominate the declaration are no
merge points, since the variable is a new object each time its declaration is passed. Blocks that have a
phi for the variable already are left alone, so placing phis twice adds nothing the second time.

The iterated frontier is found with a worklist: a block is taken from it, the joins of its frontier get
their phis, and a join that was never on the list is put there.
-/

namespace SsaFlow

namespace FlowGraph

def gatherSites (g : FlowGraph) : DefinitionSites → List BlockId → Except InternalError DefinitionSites
  | d, [] => .ok d
  | d, b :: rest =>
    match DefinitionSites.recordAll b d (g.block b).instrs.toList with
    | .error e => .error e
    | .ok d' => g.gatherSites d' rest

/-- The definition sites in the reachable blocks. -/
def gatherDefinitionSites (g : FlowGraph) : Except InternalError DefinitionSites :=
  match g.reachable with
  | none => .error (.passOrder "DefSites::collect" "cleanup")
  | some order => g.gatherSites (.none g.numVars) order

/-- Adds an open phi for `var` to a block. -/
def addPhi (var : VarId) (g : FlowGraph) (b : BlockId) : FlowGraph :=
  let φ := Phi.ofPreds var (g.livePredecessors b)
  g.modify b fun blk => { blk with phis := blk.phis ++ [φ] }

end FlowGraph

/-- How far the placement of phis for one variable has come. -/
structure Placement where
  graph : FlowGraph
  /-- The blocks that have a phi for the variable. -/
  hasPhi : IdSet
  /-- The blocks that are on the worklist or were on it. -/
  queued : IdSet
  /-- The blocks whose frontiers are still to be gone through, the next one first. -/
  worklist : List BlockId
  /-- Number of phis placed. -/
  count : Nat

namespace Placement

variable (dom : Dominance) (var : VarId) (home : BlockId)

/-- Gives a join its phi, unless it has one or dominates the home of the variable. The join defines the
variable from now on, so its own frontier has to be gone through once. -/
def visit (s : Placement) (join : BlockId) : Placement :=
  if join ∈ s.hasPhi || dom.tree.dominates join home then s
  else
    { graph := s.graph.addPhi var join
      hasPhi := s.hasPhi.insert join
      queued := s.queued.insert join
      worklist := if join ∈ s.queued then s.worklist else join :: s.worklist
      count := s.count + 1 }

/-- Works the list off. `fuel` bounds the number of blocks taken from it; no block is put there twice. -/
def run : (fuel : Nat) → Placement → Placement
  | 0, s => s
  | fuel + 1, s =>
    match s.worklist with
    | [] => s
    | b :: rest => run fuel ((dom.frontier b).toList.foldl (visit dom var home) { s with worklist := rest })

/-- All blocks that define the variable are to be gone through, the last one first. -/
def start (g : FlowGraph) (defs : IdSet) : Placement where
  graph := g
  hasPhi := IdSet.ofList (dom.tree.order.filter fun b => ((g.block b).phiFor? var).isSome)
  queued := defs
  worklist := defs.toList.reverse
  count := 0

end Placement

namespace FlowGraph

/-- Places the phis of one variable and counts them. -/
def addPhisFor (dom : Dominance) (sites : DefinitionSites) : FlowGraph × Nat → VarId → FlowGraph × Nat
  | (g, count), var =>
    let defs := sites.blocksOf var
    if defs.size < 2 then (g, count)
    else
      let home := (sites.declaration? var).getD entry
      let placed := Placement.run dom var home (defs.size + g.size) (.start dom var g defs)
      (placed.graph, count + placed.count)

/-- Places phis for all variables and counts them. Dominance is taken out of the graph meanwhile. -/
def placePhis (g : FlowGraph) : FlowGraph × Except InternalError Nat :=
  match g.dominance with
  | none => (g, .error (.passOrder "insert_phis" "compute_dominance"))
  | some dom =>
    match g.gatherDefinitionSites with
    | .error e => (g, .error e)
    | .ok sites =>
      let (g', count) := (List.range g.numVars).foldl (addPhisFor dom sites) ({ g with dominance := none }, 0)
      ({ g' with dominance := some dom, definitionSites := some sites }, .ok count)

def withPhis (g : FlowGraph) : Except InternalError (FlowGraph × Nat) := completed g.placePhis

end FlowGraph

end SsaFlow
