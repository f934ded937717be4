-- SUMMARY: The order of blocks, dominator trees and frontiers are determined by control flow alone.
import SsaFlow.Proofs.Frontier

/-!
# Graphs with the same control flow

Two graphs have the same flow if they have the same blocks with the same targets, predecessor sets and
removals; what the blocks hold and what their jumps read may differ. Ordering and dominance analysis give
the same results for both, whatever else was known about them, and what holds of the results for one holds
for the other.
-/

namespace SsaFlow.FlowGraph

/-- The second graph has the control flow of the first. -/
structure SameFlow (g g' : FlowGraph) : Prop where
  size : g'.size = g.size
  targets : ∀ b, g'.targets b = g.targets b
  preds : ∀ b, (g'.block b).preds = (g.block b).preds
  removed : ∀ b, (g'.block b).removed = (g.block b).removed

namespace SameFlow

variable {g g' g'' : FlowGraph}

theorem trans (h : SameFlow g g') (k : SameFlow g' g'') : SameFlow g g'' where
  size := k.size.trans h.size
  targets b := (k.targets b).trans (h.targets b)
  preds b := (k.preds b).trans (h.preds b)
  removed b := (k.removed b).trans (h.removed b)

theorem of_blocks_eq (h : g'.blocks = g.blocks) : SameFlow g g' := by
  obtain ⟨blocks, _, _, _, _, _, _⟩ := g'
  cases h
  exact ⟨rfl, fun _ => rfl, fun _ => rfl, fun _ => rfl⟩

theorem edge (h : SameFlow g g') : g'.Edge = g.Edge := by
  funext a b
  unfold Edge
  rw [h.targets]

theorem liveIds (h : SameFlow g g') : g'.liveIds = g.liveIds := by
  simp only [FlowGraph.liveIds, ids, h.size, h.removed]

theorem livePredecessors (h : SameFlow g g') : g'.livePredecessors = g.livePredecessors := by
  funext b
  have hgoes : ∀ p, (g'.jump p).goesTo b = (g.jump p).goesTo b := by
    intro p
    have htargets : (g'.jump p).targets = (g.jump p).targets := h.targets p
    rw [Bool.eq_iff_iff, Jump.goesTo_iff, Jump.goesTo_iff, htargets]
  simp only [FlowGraph.livePredecessors, h.preds, h.removed, hgoes]

/-- The ordering walk depends on the control flow only. -/
theorem walk (h : SameFlow g g') : g'.walk = g.walk := by
  have hpresent : g'.presentTargets = g.presentTargets := by
    funext b
    simp only [presentTargets, h.targets, h.removed]
  unfold FlowGraph.walk
  rw [hpresent, h.size]

/-- Ordering finds the same order and the same depths. -/
theorem withOrder (h : SameFlow g g') (hlisted : g'.reachable = g.reachable) {o : FlowGraph}
    (ho : g.withOrder = .ok o) :
    g'.withOrder = .ok { g' with reachable := o.reachable, depths := o.depths } := by
  rw [withOrder_def] at ho ⊢
  rw [hlisted, h.walk, h.size]
  cases hold : g.reachable with
  | none =>
    rw [hold] at ho
    cases ho
  | some old =>
    rw [hold] at ho
    cases ho
    rfl

/-- The dominator tree depends on the control flow and the ordering only. -/
theorem dominatorTree (h : SameFlow g g') (hlisted : g'.reachable = g.reachable)
    (hdepths : g'.depths = g.depths) : g'.dominatorTree = g.dominatorTree := by
  have hpreds : g'.predPositions = g.predPositions := by
    funext order
    simp only [predPositions, positions, h.size, h.livePredecessors]
  have hdepth : g'.depth? = g.depth? := by
    funext b
    simp only [depth?, hdepths]
  simp only [FlowGraph.dominatorTree, isOrdered, hlisted, hdepths, hpreds, hdepth, h.size]

theorem frontiers (h : SameFlow g g') : g'.frontiers = g.frontiers := by
  funext tree
  have hadd : g'.addFrontiersOf tree = g.addFrontiersOf tree := by
    funext acc b
    simp only [addFrontiersOf, h.livePredecessors]
  simp only [FlowGraph.frontiers, hadd, h.size]

/-- Dominance analysis finds the same tree and the same frontiers. -/
theorem withDominance (h : SameFlow g g') (hlisted : g'.reachable = g.reachable)
    (hdepths : g'.depths = g.depths) {a : FlowGraph} (ha : g.withDominance = .ok a) :
    g'.withDominance = .ok { g' with dominance := a.dominance, definitionSites := none } := by
  rw [withDominance_def] at ha ⊢
  rw [h.dominatorTree hlisted hdepths, h.frontiers]
  cases htree : g.dominatorTree with
  | error e =>
    rw [htree] at ha
    cases ha
  | ok tree =>
    rw [htree] at ha
    cases ha
    rfl

/-- An order, a tree and frontiers that are right for one graph are right for the other. -/
theorem analysed (h : SameFlow g g') {order : List BlockId} {tree : DominatorTree} (hg : g.Analysed order tree)
    (hlinked : g'.Linked) (hlisted : g'.reachable = g.reachable) (hdepths : g'.depths = g.depths)
    (hdominance : g'.dominance = g.dominance) : g'.Analysed order tree where
  toLinked := hlinked
  listed := hlisted.trans hg.listed
  isOrdered := by
    rw [isOrdered, hdepths]
    exact hg.isOrdered
  kept_iff := by
    intro b
    rw [h.size, h.removed, h.edge]
    exact hg.kept_iff
  mem_iff := by
    rw [h.edge]
    exact hg.mem_iff
  nodup := hg.nodup
  head := hg.head
  before := by
    rw [h.edge]
    exact hg.before
  dominance := by
    rw [hdominance]
    exact hg.dominance
  exact := by
    rw [h.edge]
    exact hg.exact
  mem_frontier := by
    intro x y
    rw [h.edge, ← hg.mem_frontier, frontier, hdominance, frontier]

end SameFlow

end SsaFlow.FlowGraph
