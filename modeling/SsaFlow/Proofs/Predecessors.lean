-- SUMMARY: After any sequence of operations on a graph, failed ones included, predecessor sets agree with the jumps.
import SsaFlow.Proofs.Assembled
import SsaFlow.Proofs.Lowered
import SsaFlow.Proofs.Renaming

/-!
# Predecessor sets stay in step

A new or a lowered graph is linked. Operations that decide jumps keep both sides in step themselves;
pruning does so bypass by bypass and removal by removal. The others leave the edges alone (`SameEdges`),
also where they stop halfway: renaming changes what a block holds and what its jump reads, but not where
it goes.
-/

namespace SsaFlow

/-! ## Renaming, wherever it stops -/

namespace Renaming

variable (tree : DominatorTree) (b : BlockId)

theorem successors_jump (defs : Definitions) (j : Jump) :
    (jump tree b defs j).1.successors = j.successors := by
  unfold jump
  split
  · rfl
  · split
    · rfl
    · simp only [Jump.successors, Jump.targets_mapOperand, Jump.shadow?_mapOperand]

/-- What a block holds may be renamed in part, but its edges stay. -/
theorem edges_contents (defs : Definitions) (blk : Block) :
    (contents tree b defs blk).result.jump.successors = blk.jump.successors ∧
      (contents tree b defs blk).result.preds = blk.preds := by
  unfold contents
  simp only
  split
  · exact ⟨rfl, rfl⟩
  · split
    · exact ⟨rfl, rfl⟩
    · exact ⟨successors_jump tree b _ blk.jump, rfl⟩

end Renaming

namespace FlowGraph

/-- Renaming leaves all edges alone, also where it fails. -/
theorem sameEdges_rename (g : FlowGraph) : g.SameEdges g.rename.1 := by
  refine Renaming.rename_induction (P := g.SameEdges) ?_ ?_ (.refl g)
  · intro g' tree b defs s h
    exact h.trans (.modify g' s rfl rfl)
  · intro g' tree b defs h
    obtain ⟨hjump, hpreds⟩ := Renaming.edges_contents tree b defs (g'.block b)
    exact h.trans (.modify g' b hjump hpreds)

/-! ## The other passes -/

/-- Pruning any linked graph leaves it linked, whatever was removed from it before. -/
theorem Linked.prune {g : FlowGraph} (h : g.Linked) : g.prune.1.Linked := by
  have hcollapsed : (collapseAll g.forgetAnalyses.reachedFromEntry g.forgetAnalyses).1.Linked :=
    collapseAll_induction (fun hg hb => (hb.collapse_spec hg).1) _ (h.of_blocks_eq rfl)
  refine (foldl_detach hcollapsed fun b hb => ?_).1.of_blocks_eq rfl
  exact (mem_liveIds.mp (List.mem_filter.mp hb).1).1

theorem computeOrder_frame (g : FlowGraph) :
    ∃ reachable depths, g.computeOrder.1 = { g with reachable := reachable, depths := depths } := by
  unfold computeOrder
  split
  · exact ⟨_, _, rfl⟩
  · exact ⟨_, _, rfl⟩

theorem computeDominance_frame (g : FlowGraph) : ∃ dominance sites,
    g.computeDominance.1 = { g with dominance := dominance, definitionSites := sites } := by
  unfold computeDominance
  split
  · exact ⟨_, _, rfl⟩
  · exact ⟨_, _, rfl⟩

/-- Phi placement fails before it touches the graph, or goes through. -/
theorem placePhis_cases (g : FlowGraph) :
    (∃ e, g.placePhis = (g, .error e)) ∨ ∃ n, g.withPhis = .ok (g.placePhis.1, n) := by
  unfold withPhis placePhis
  split
  · exact .inl ⟨_, rfl⟩
  · split
    · exact .inl ⟨_, rfl⟩
    · exact .inr ⟨_, rfl⟩

/-! ## Sequences of operations -/

/-- The operations on a graph and on what is known about it. -/
inductive Operation where
  | addBlock
  | setJump (block : BlockId) (jump : Jump)
  | detach (block : BlockId)
  | prune
  | order
  | dominance
  | placePhis
  | rename
deriving DecidableEq

/-- The graph after an operation. What is refused leaves the graph as it was; a pass that fails leaves the graph
that it got to. -/
def Operation.apply (g : FlowGraph) : Operation → FlowGraph
  | .addBlock => g.addBlock
  | .setJump block jump => (g.setJump? block jump).getD g
  | .detach block => (g.detach? block).getD g
  | .prune => g.prune.1
  | .order => g.computeOrder.1
  | .dominance => g.computeDominance.1
  | .placePhis => g.placePhis.1
  | .rename => g.rename.1

def applyAll (g : FlowGraph) (ops : List Operation) : FlowGraph := ops.foldl Operation.apply g

/-- The graphs that operations start from: the open entry, or what a function is lowered to. -/
inductive Start : FlowGraph → Prop
  | new (numVars : Nat) : Start (new numVars)
  | lowered {fn : Function} {g : FlowGraph} : fn.lower = .ok g → Start g

/-- A jump that is not refused keeps the graph linked. -/
theorem Linked.setJump? {g g' : FlowGraph} (h : g.Linked) {p : BlockId} {j : Jump}
    (hset : g.setJump? p j = some g') : g'.Linked := by
  unfold FlowGraph.setJump? at hset
  split at hset
  · next hadmits =>
    cases hset
    simp only [admits, Bool.and_eq_true, decide_eq_true_eq, List.all_eq_true] at hadmits
    exact h.setJump hadmits.1 hadmits.2
  · cases hset

/-- Taking out a block that is there keeps the graph linked. -/
theorem Linked.detach? {g g' : FlowGraph} (h : g.Linked) {b : BlockId}
    (hdetach : g.detach? b = some g') : g'.Linked := by
  unfold FlowGraph.detach? at hdetach
  split at hdetach
  · next hb =>
    cases hdetach
    exact h.detach hb
  · cases hdetach

/-- Every operation keeps a graph linked, whether it succeeds or fails. -/
theorem Linked.apply {g : FlowGraph} (h : g.Linked) (op : Operation) : (op.apply g).Linked := by
  cases op with
  | addBlock => exact h.addBlock
  | setJump p j =>
    simp only [Operation.apply]
    cases hset : g.setJump? p j with
    | none => exact h
    | some g' => exact h.setJump? hset
  | detach b =>
    simp only [Operation.apply]
    cases hdetach : g.detach? b with
    | none => exact h
    | some g' => exact h.detach? hdetach
  | prune => exact h.prune
  | order =>
    obtain ⟨reachable, depths, hframe⟩ := g.computeOrder_frame
    rw [Operation.apply, hframe]
    exact h.of_blocks_eq rfl
  | dominance =>
    obtain ⟨dominance, sites, hframe⟩ := g.computeDominance_frame
    rw [Operation.apply, hframe]
    exact h.of_blocks_eq rfl
  | placePhis =>
    rw [Operation.apply]
    rcases g.placePhis_cases with ⟨e, hfails⟩ | ⟨n, hphis⟩
    · rw [hfails]
      exact h
    · exact (phisOnly_withPhis hphis).1.linked h
  | rename => exact g.sameEdges_rename.linked h

theorem Linked.applyAll {g : FlowGraph} (h : g.Linked) (ops : List Operation) :
    (g.applyAll ops).Linked := by
  induction ops generalizing g with
  | nil => exact h
  | cons op ops ih => exact ih (h.apply op)

theorem Start.linked {g : FlowGraph} (h : g.Start) : g.Linked := by
  cases h with
  | new numVars => exact linked_new numVars
  | lowered hlower => exact (Function.lowered hlower).toLinked

/-- Predecessor sets never go stale: whatever was done to a graph, successfully or not, `p` is among the
predecessors of `s` exactly if the jump of `p` names `s`, be it as a shadow. -/
theorem predecessors_exact {start : FlowGraph} (hstart : start.Start) (ops : List Operation)
    (p s : BlockId) :
    p ∈ ((start.applyAll ops).block s).preds ↔ s ∈ ((start.applyAll ops).jump p).successors :=
  (hstart.linked.applyAll ops).mem_preds_iff

/-- A jump to a block that is not there is refused, renaming fails for want of dominance, and pruning
takes out the shadow; the entry still counts as a predecessor of the shadow. -/
theorem predecessors_exact_shadow :
    0 ∈ (((new 0).applyAll [.addBlock, .addBlock, .setJump 0 (.transfer 1 2), .setJump 1 (.goto 7),
      .rename, .prune]).block 2).preds :=
  (predecessors_exact (.new 0) _ 0 2).mpr (by
    rw [show FlowGraph.jump _ 0 = .transfer 1 2 from by cbv]
    decide)

end FlowGraph

end SsaFlow
