-- SUMMARY: Pruning ends, lists the reachable blocks exactly, and accounts for every block.
import SsaFlow.Proofs.Predecessors
import SsaFlow.Proofs.Settled

/-!
# The list of reachable blocks

What pruning reaches it finds once, before it bypasses anything. That the blocks left over at the end are the
ones that can be reached then is `Intact.prune`; here the blocks are counted. Each block of the start is
bypassed, dropped or listed (`Linked.prune_counts`): a bypass takes one block out, and the blocks that are left
then fall into those that were reached and those that were not.
-/

namespace SsaFlow.FlowGraph

/-- Graphs that any history of operations and edits can lead to, whatever was removed or failed on the way.
An edit may change everything but the edges. -/
inductive Attainable : FlowGraph → Prop
  | start {g : FlowGraph} : g.Start → Attainable g
  | apply {g : FlowGraph} (op : Operation) : Attainable g → Attainable (op.apply g)
  | edit {g g' : FlowGraph} : Attainable g → g.SameEdges g' → Attainable g'

theorem Attainable.linked {g : FlowGraph} (h : g.Attainable) : g.Linked := by
  induction h with
  | start hstart => exact hstart.linked
  | apply op _ ih => exact ih.apply op
  | edit _ hsame ih => exact hsame.linked ih

theorem Attainable.applyAll {g : FlowGraph} (h : g.Attainable) (ops : List Operation) :
    (g.applyAll ops).Attainable := by
  induction ops generalizing g with
  | nil => exact h
  | cons op ops ih => exact ih (h.apply op)

/-! ## Counting blocks -/

/-- Removing blocks of the graph leaves the others in the list. -/
theorem Linked.liveIds_foldl_detach {c : FlowGraph} (h : c.Linked) (unreached : BlockId → Bool) :
    ((c.liveIds.filter unreached).foldl FlowGraph.detach c).liveIds = c.liveIds.filter fun b => !unreached b := by
  generalize hdead : c.liveIds.filter unreached = dead
  have hmem : ∀ b, b ∈ dead ↔ (b < c.size ∧ (c.block b).removed = false) ∧ unreached b = true := by
    intro b
    rw [← hdead, List.mem_filter, mem_liveIds]
  obtain ⟨-, hcode, -, hremoved⟩ := foldl_detach h fun b hb => ((hmem b).mp hb).1.1
  simp only [liveIds, ids, hcode.size, hremoved, List.filter_filter]
  refine List.filter_congr fun b hb => ?_
  cases hkept : (c.block b).removed
  · simp [hmem, List.mem_range.mp hb, hkept]
  · simp

/-- Every block is bypassed, dropped or listed. -/
theorem Linked.prune_counts {g : FlowGraph} (h : g.Linked) :
    g.prune.2.bypassed + g.prune.2.dropped + g.prune.1.liveIds.length = g.liveIds.length := by
  let reached := g.forgetAnalyses.reachedFromEntry
  let c := (collapseAll reached g.forgetAnalyses).1
  have hcollapsed : c.Linked :=
    collapseAll_induction (fun hg hb => (hb.collapse_spec hg).1) reached (h.of_blocks_eq rfl)
  have hbypassed : c.liveIds.length + g.prune.2.bypassed = g.liveIds.length :=
    length_liveIds_collapseAll reached g.forgetAnalyses
  have hlist : g.prune.1.liveIds = c.liveIds.filter fun b => !!reached.getD b false :=
    hcollapsed.liveIds_foldl_detach fun b => !reached.getD b false
  have hsplit := c.liveIds.length_eq_length_filter_add fun b => !reached.getD b false
  have hdropped : g.prune.2.dropped = (c.liveIds.filter fun b => !reached.getD b false).length := rfl
  rw [← hlist, ← hdropped] at hsplit
  omega

theorem length_liveIds_of_kept {g : FlowGraph} (h : ∀ b, b < g.size → (g.block b).removed = false) :
    g.liveIds.length = g.size := by
  have hall : g.liveIds = g.ids := by
    refine List.filter_eq_self.mpr fun b hb => ?_
    rw [h b (List.mem_range.mp hb)]
    rfl
  rw [hall, ids, List.length_range]

/-! ## The list -/

theorem pairwise_liveIds (g : FlowGraph) : g.liveIds.Pairwise (· < ·) :=
  List.pairwise_lt_range.filter _

/-- A graph from which nothing was removed is intact. -/
theorem Linked.intact {g : FlowGraph} (h : g.Linked)
    (hkept : ∀ b, b < g.size → (g.block b).removed = false)
    (hentry : (g.block entry).isEntry = true) : g.Intact where
  toLinked := h
  marked := hentry
  entryKept := hkept entry h.entry_lt
  gone := by
    intro b hb
    refine jump_of_size_le (Nat.le_of_not_lt fun hlt => ?_)
    rw [hkept b hlt] at hb
    exact nomatch hb
  present he := hkept _ (h.edge_lt he)

/-- Pruning a graph from which nothing was removed bypasses blocks until none can be bypassed, and then the
list it makes is ascending and has exactly the blocks that can be reached in the graph it leaves. All other
blocks are removed and lead nowhere, no listed block leads to one of them, and every block is bypassed,
dropped or listed. -/
theorem prune_lists_reachable {g : FlowGraph} (hg : g.Attainable)
    (hkept : ∀ b, b < g.size → (g.block b).removed = false) (hentry : (g.block entry).isEntry = true) :
    ∃ pruned report listed, g.prune = (pruned, report) ∧ pruned.reachable = some listed ∧
      (let reached := g.forgetAnalyses.reachedFromEntry
       let collapsed := (collapseAll reached g.forgetAnalyses).1
       ∀ b ∈ collapsed.liveIds, collapsed.bypass? reached b = none) ∧
      pruned.size = g.size ∧ listed.Pairwise (· < ·) ∧
      (∀ b, b ∈ listed ↔ Reachable pruned.Edge entry b) ∧
      (∀ b, b < g.size → b ∉ listed → (pruned.block b).removed = true ∧ pruned.jump b = .missing) ∧
      (∀ b ∈ listed, ∀ s ∈ pruned.targets b, (pruned.block s).removed = false) ∧
      report.bypassed + report.dropped + listed.length = g.size := by
  have hlinked := hg.linked
  obtain ⟨hpruned, hshrunk⟩ := (hlinked.intact hkept hentry).prune
  refine ⟨g.prune.1, g.prune.2, g.prune.1.liveIds, rfl, hpruned.listed,
    collapseAll_stuck _ _, hshrunk.code.size, pairwise_liveIds _, fun b => ?_,
    fun b hb hnot => ?_, fun b hb s hs => ?_, ?_⟩
  · rw [mem_liveIds, hpruned.kept_iff]
  · have hremoved : (g.prune.1.block b).removed = true := by
      rw [mem_liveIds, hshrunk.code.size] at hnot
      exact Bool.not_eq_false _ |>.mp fun hstays => hnot ⟨hb, hstays⟩
    exact ⟨hremoved, hshrunk.gone hremoved⟩
  · have hreach := hpruned.kept_iff.mp (mem_liveIds.mp hb)
    exact (hpruned.kept_iff.mpr (hreach.step hs)).2
  · rw [hlinked.prune_counts, length_liveIds_of_kept hkept]

/-- An empty block on the way to the end, and a cycle that nothing leads to. -/
def deadCycle : FlowGraph :=
  (new 0).applyAll [.addBlock, .addBlock, .addBlock, .addBlock, .setJump 0 (.goto 1), .setJump 1 (.goto 2),
    .setJump 3 (.goto 4), .setJump 4 (.branch (.const 1) 3 2)]

/-- Of five blocks one is bypassed, the two of the cycle are dropped, and two are listed. -/
theorem prune_lists_reachable_deadCycle :
    (∀ b, b ∈ [0, 2] ↔ Reachable deadCycle.prune.1.Edge entry b) ∧
      deadCycle.prune.2.bypassed + deadCycle.prune.2.dropped + [0, 2].length = 5 := by
  obtain ⟨pruned, report, listed, hprune, hlisted, -, -, -, hmem, -, -, hcount⟩ :=
    prune_lists_reachable (g := deadCycle) (.applyAll (.start (.new 0)) _) (by decide) (by decide)
  have hlist : deadCycle.prune.1.reachable = some [0, 2] := by cbv
  rw [hprune] at hlist ⊢
  obtain rfl : listed = [0, 2] := Option.some.inj (hlisted.symm.trans hlist)
  exact ⟨hmem, hcount⟩

end SsaFlow.FlowGraph
