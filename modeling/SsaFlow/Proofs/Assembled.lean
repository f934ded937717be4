-- SUMMARY: Graphs assembled step by step stay intact, and after analysis their dominance frontiers are exact.
import Mathlib
import SsaFlow.Proofs.Frontier

/-!
# Assembled graphs

A graph is assembled by adding blocks, deciding jumps and changing what blocks hold, and it may be pruned
and analysed in between. As long as removed blocks are left alone, nothing ever leads to or from one
(`Assembled.intact`), so pruning and analysing such a graph once more works as it does for a new one.
-/

namespace SsaFlow.FlowGraph

/-- Graphs that come from the open entry by adding blocks, by jumps between blocks that are there, by
changes of what a block holds, by taking out blocks that nothing leads to, and by pruning and analysis. -/
inductive Assembled : FlowGraph → Prop
  | new (numVars : Nat) : Assembled (new numVars)
  | addBlock {g : FlowGraph} : Assembled g → Assembled g.addBlock
  | setJump {g g' : FlowGraph} {p : BlockId} {j : Jump} : Assembled g →
      (∀ b ∈ p :: j.targets, (g.block b).removed = false) → g.setJump? p j = some g' → Assembled g'
  | edit {g g' : FlowGraph} {b : BlockId} {f : Block → Block} : Assembled g →
      (∀ blk, ∃ phis instrs spans, f blk = { blk with phis := phis, instrs := instrs, spans := spans }) →
      g.edit? b f = some g' → Assembled g'
  | detach {g g' : FlowGraph} {b : BlockId} : Assembled g → b ≠ entry → (∀ p, ¬ g.Edge p b) →
      g.detach? b = some g' → Assembled g'
  | prune {g : FlowGraph} : Assembled g → Assembled g.prune.1
  | withOrder {g g' : FlowGraph} : Assembled g → g.withOrder = .ok g' → Assembled g'
  | withDominance {g g' : FlowGraph} : Assembled g → g.withDominance = .ok g' → Assembled g'

/-- What is built by hand is assembled. -/
theorem Built.assembled {g : FlowGraph} (h : g.Built) : g.Assembled := by
  induction h with
  | new numVars => exact .new numVars
  | addBlock _ ih => exact ih.addBlock
  | setJump hg hset ih => exact ih.setJump (fun b _ => hg.fresh.kept b) hset
  | pushInstr _ _ hpush ih => exact ih.edit (fun _ => ⟨_, _, _, rfl⟩) hpush

/-! ## Assembled graphs are intact -/

theorem intact_new (numVars : Nat) : (new numVars).Intact := (fresh_new numVars).intact

namespace Intact

variable {g g' : FlowGraph}

/-- Being intact is a matter of the blocks alone. -/
theorem of_blocks_eq (h : g.Intact) (hblocks : g'.blocks = g.blocks) : g'.Intact := by
  obtain ⟨blocks, _, _, _, _, _, _⟩ := g'
  cases hblocks
  exact ⟨h.toLinked.of_blocks_eq rfl, h.marked, h.entryKept, h.gone, h.present⟩

/-- A new block has no edges, so it is not joined to a removed one. -/
theorem addBlock (h : g.Intact) : g.addBlock.Intact where
  toLinked := h.toLinked.addBlock
  marked := by
    rw [block_addBlock]
    exact h.marked
  entryKept := by
    rw [block_addBlock]
    exact h.entryKept
  gone := by
    intro b hb
    rw [block_addBlock] at hb
    rw [jump, block_addBlock]
    exact h.gone hb
  present := by
    intro a b he
    rw [Edge, targets, jump, block_addBlock] at he
    rw [block_addBlock]
    exact h.present he

/-- A jump between blocks that are part of the graph joins no removed block to the others. -/
theorem setJump (h : g.Intact) {p : BlockId} {j : Jump} (hp : p < g.size)
    (hj : ∀ s ∈ j.successors, s < g.size) (hkept : ∀ b ∈ p :: j.targets, (g.block b).removed = false) :
    (g.setJump p j).Intact where
  toLinked := h.toLinked.setJump hp hj
  marked := by
    rw [(SameCode.setJump g p j).isEntry]
    exact h.marked
  entryKept := by
    rw [removed_setJump]
    exact h.entryKept
  gone := by
    intro b hb
    rw [removed_setJump] at hb
    have hne : p ≠ b := by
      rintro rfl
      rw [hkept p List.mem_cons_self] at hb
      exact nomatch hb
    rw [jump_setJump, if_neg fun hc => hne hc.1]
    exact h.gone hb
  present := by
    intro a b he
    rw [removed_setJump]
    rw [Edge, targets, jump_setJump] at he
    split at he
    · exact hkept b (List.mem_cons_of_mem p he)
    · exact h.present he

/-- What a block holds does not matter. -/
theorem modify (h : g.Intact) (b : BlockId) {f : Block → Block}
    (hf : ∀ blk, ∃ phis instrs spans, f blk = { blk with phis := phis, instrs := instrs, spans := spans }) :
    (g.modify b f).Intact := by
  have hsame : ∀ c, ∃ phis instrs spans,
      (g.modify b f).block c = { g.block c with phis := phis, instrs := instrs, spans := spans } := by
    intro c
    rw [block_modify]
    split
    · exact hf _
    · exact ⟨_, _, _, rfl⟩
  have hremoved : ∀ c, ((g.modify b f).block c).removed = (g.block c).removed := by
    intro c
    obtain ⟨phis, instrs, spans, hc⟩ := hsame c
    rw [hc]
  have hjump : ∀ c, (g.modify b f).jump c = g.jump c := by
    intro c
    obtain ⟨phis, instrs, spans, hc⟩ := hsame c
    rw [jump, hc, jump]
  refine ⟨h.toLinked.modify b ?_ ?_, ?_, ?_, ?_, ?_⟩
  · intro blk
    obtain ⟨phis, instrs, spans, hblk⟩ := hf blk
    rw [hblk]
  · intro blk
    obtain ⟨phis, instrs, spans, hblk⟩ := hf blk
    rw [hblk]
  · obtain ⟨phis, instrs, spans, hc⟩ := hsame entry
    rw [hc]
    exact h.marked
  · rw [hremoved]
    exact h.entryKept
  · intro c hc
    rw [hremoved] at hc
    rw [hjump]
    exact h.gone hc
  · intro a c he
    rw [Edge, targets, hjump] at he
    rw [hremoved]
    exact h.present he

/-- A block that nothing leads to can be taken out. -/
theorem detach (h : g.Intact) {b : BlockId} (hb : b < g.size) (hentry : b ≠ entry)
    (hfree : ∀ p, ¬ g.Edge p b) : (g.detach b).Intact where
  toLinked := h.toLinked.detach hb
  marked := by
    rw [(SameCode.detach g b).isEntry]
    exact h.marked
  entryKept := by
    rw [removed_detach g hb, h.entryKept, decide_eq_false hentry]
    rfl
  gone := by
    intro c hc
    rw [removed_detach g hb, Bool.or_eq_true, decide_eq_true_eq] at hc
    rw [jump_detach]
    split
    · rfl
    · next hne => exact h.gone (hc.resolve_left hne)
  present := by
    intro a c he
    rw [Edge, targets, jump_detach] at he
    split at he
    · exact absurd he List.not_mem_nil
    · have hne : b ≠ c := by
        rintro rfl
        exact hfree a he
      rw [removed_detach g hb, decide_eq_false hne, h.present he]
      rfl

end Intact

theorem blocks_withOrder {g g' : FlowGraph} (h : g.withOrder = .ok g') : g'.blocks = g.blocks := by
  rw [withOrder_def] at h
  split at h
  · cases h
  · cases h
    rfl

theorem blocks_withDominance {g g' : FlowGraph} (h : g.withDominance = .ok g') :
    g'.blocks = g.blocks := by
  rw [withDominance_def] at h
  split at h
  · cases h
  · cases h
    rfl

/-- Dominance is found without another ordering. -/
theorem order_withDominance {g g' : FlowGraph} (h : g.withDominance = .ok g') :
    g'.reachable = g.reachable ∧ g'.depths = g.depths := by
  rw [withDominance_def] at h
  split at h
  · cases h
  · cases h
    exact ⟨rfl, rfl⟩

/-- No construction step leaves an edge to or from a removed block. -/
theorem Assembled.intact {g : FlowGraph} (h : g.Assembled) : g.Intact := by
  induction h with
  | new numVars => exact intact_new numVars
  | addBlock _ ih => exact ih.addBlock
  | @setJump g g' p j _ hkept hset ih =>
    rw [setJump?] at hset
    split at hset
    · next hadmits =>
      cases hset
      rw [admits, Bool.and_eq_true, decide_eq_true_eq, List.all_eq_true] at hadmits
      exact ih.setJump hadmits.1 (fun s hs => decide_eq_true_eq.mp (hadmits.2 s hs)) hkept
    · cases hset
  | @edit g g' b f _ hf hedit ih =>
    rw [edit?] at hedit
    split at hedit
    · cases hedit
      exact ih.modify b hf
    · cases hedit
  | @detach g g' b _ hentry hfree hdetach ih =>
    rw [detach?] at hdetach
    split at hdetach
    · next hb =>
      cases hdetach
      exact ih.detach hb hentry hfree
    · cases hdetach
  | prune _ ih => exact ih.intact_prune
  | withOrder _ hg ih => exact ih.of_blocks_eq (blocks_withOrder hg)
  | withDominance _ hg ih => exact ih.of_blocks_eq (blocks_withDominance hg)

/-! ## Analysis -/

/-- Pruning, ordering and dominance analysis of an intact graph succeed. -/
theorem Intact.analyse {g : FlowGraph} (h : g.Intact) :
    ∃ ordered g' order tree, g.prune.1.withOrder = .ok ordered ∧ ordered.withDominance = .ok g' ∧
      g'.blocks = g.prune.1.blocks ∧ g'.Analysed order tree ∧ Shrunk g g' := by
  obtain ⟨hpruned, hshrunk⟩ := h.prune
  obtain ⟨ordered, order, hordered, hblocks, hvars, hord⟩ := hpruned.withOrder
  obtain ⟨g', tree, hdominance, hblocks', hvars', hanalysed⟩ := hord.withDominance
  exact ⟨ordered, g', order, tree, hordered, hdominance, hblocks'.trans hblocks, hanalysed,
    hshrunk.of_blocks_eq (hblocks'.trans hblocks) (hvars'.trans hvars)⟩

/-- Dominance frontiers are exact: the join `y` is in the frontier of `x` if `x` dominates a predecessor
of `y` but not strictly `y` itself, by the walks of the pruned graph. -/
theorem frontier_exact {g : FlowGraph} (hg : g.Assembled) :
    ∃ ordered analysed, g.prune.1.withOrder = .ok ordered ∧ ordered.withDominance = .ok analysed ∧
      analysed.blocks = g.prune.1.blocks ∧
      ∀ x y, y ∈ analysed.frontier x ↔
        Reachable analysed.Edge entry x ∧ Reachable analysed.Edge entry y ∧
          (∃ p, analysed.Edge p y ∧ Dominates analysed.Edge entry x p) ∧
          ¬ StrictlyDominates analysed.Edge entry x y := by
  obtain ⟨ordered, analysed, order, tree, hordered, hdominance, hblocks, hanalysed, hshrunk⟩ :=
    hg.intact.analyse
  refine ⟨ordered, analysed, hordered, hdominance, hblocks, fun x y => ?_⟩
  rw [hanalysed.mem_frontier]
  constructor
  · rintro ⟨p, hp, he, hdom, hstrict⟩
    exact ⟨hdom.reachable hp, hp.step he, ⟨p, he, hdom⟩, hstrict⟩
  · rintro ⟨-, -, ⟨p, he, hdom⟩, hstrict⟩
    exact ⟨p, hshrunk.reachable_of_edge hanalysed.kept_iff he, he, hdom, hstrict⟩

/-- In a loop that goes back to the entry, both of its blocks have the entry in their frontiers. -/
theorem frontier_exact_backEdge :
    ∃ ordered analysed,
      (((new 0).addBlock.addBlock.setJump 0 (.goto 1)).setJump 1
        (.branch (.const 1) 0 2)).prune.1.withOrder = .ok ordered ∧
        ordered.withDominance = .ok analysed ∧ entry ∈ analysed.frontier entry ∧
        entry ∈ analysed.frontier 1 := by
  generalize hg : ((new 0).addBlock.addBlock.setJump 0 (.goto 1)).setJump 1 (.branch (.const 1) 0 2) = g
  have hassembled : g.Assembled := by
    rw [← hg]
    exact .setJump (.setJump (.addBlock (.addBlock (.new 0))) (by decide) (if_pos (by decide)))
      (by decide) (if_pos (by decide))
  obtain ⟨ordered, analysed, hordered, hdominance, hblocks, hfrontier⟩ := frontier_exact hassembled
  have htargets : ∀ a, analysed.targets a = g.prune.1.targets a := by
    intro a
    rw [targets, jump, block, hblocks]
    rfl
  have hgo : analysed.Edge entry 1 := by
    rw [Edge, htargets, ← hg, show FlowGraph.targets _ entry = [1] from by cbv]
    exact List.mem_cons_self
  have hback : analysed.Edge 1 entry := by
    rw [Edge, htargets, ← hg, show FlowGraph.targets _ 1 = [0, 2] from by cbv]
    exact List.mem_cons_self
  refine ⟨ordered, analysed, hordered, hdominance, ?_, ?_⟩
  · exact (hfrontier entry entry).mpr ⟨.root, .root, ⟨1, hback, .root 1⟩,
      fun h => h.1 rfl⟩
  · exact (hfrontier 1 entry).mpr ⟨Reachable.root.step hgo, .root, ⟨1, hback, .refl _⟩,
      fun h => h.1 h.2.eq_root⟩

end SsaFlow.FlowGraph
