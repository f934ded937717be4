-- SUMMARY: Every block and every variable that a pass finds in the graph is one that the graph has.
import Mathlib
import SsaFlow.Proofs.PassFrames

/-!
# Indices in range

Blocks and variables are numbers, and the passes use them as indices without asking whether there is such a block or
variable. They need not ask. What the blocks of a lowered graph name is in range, jumps, predecessors, phis and
instructions alike (`NamesInRange`), and so is what is found out about it on the way: the list of blocks, the
dominator tree and its frontiers, and the definition sites (`TablesInRange`). Both hold of the graph that each pass of
a build is given (`Lowered.stages_inRange`).
-/

namespace SsaFlow

/-! ## Versions play no part -/

@[simp] theorem Operand.varId?_unversioned (op : Operand) : op.unversioned.varId? = op.varId? := by
  cases op <;> rfl

@[simp] theorem Instr.mentions_unversioned (i : Instr) : i.unversioned.mentions = i.mentions := by
  have hvars : Operand.varId? ∘ Operand.unversioned = Operand.varId? := funext Operand.varId?_unversioned
  cases i with
  | call dst callee args =>
    simp only [mentions, reads, unversioned, mapOperands, mapDefined, operands, List.filterMap_map, hvars]
    rfl
  | param dst index | declare v => rfl
  | assign dst op | copy dst op | unary dst u op | binary dst op lhs rhs =>
    simp only [mentions, reads, unversioned, mapOperands, mapDefined, operands, List.filterMap_cons,
      Operand.varId?_unversioned]
    rfl

@[simp] theorem Jump.reads_unversioned (j : Jump) : j.unversioned.reads = j.reads := by
  cases j with
  | missing | goto | transfer => rfl
  | branch op | select op =>
    simp only [reads, unversioned, mapOperand, operand?, Option.bind_some, Operand.varId?_unversioned]
  | ret shadow value =>
    cases value <;>
      simp only [reads, unversioned, mapOperand, operand?, Option.map_some, Option.map_none, Option.bind_some,
        Option.bind_none, Operand.varId?_unversioned]

@[simp] theorem Jump.successors_unversioned (j : Jump) : j.unversioned.successors = j.successors := by
  rw [unversioned, successors, targets_mapOperand, shadow?_mapOperand, successors]

namespace FlowGraph

theorem size_unversioned (g : FlowGraph) : g.unversioned.size = g.size := Array.size_map

/-! ## What is in range -/

/-- The blocks of the graph name blocks and variables of the graph only. -/
@[mk_iff] structure NamesInRange (g : FlowGraph) : Prop where
  entry : entry < g.size
  successor : ∀ b, ∀ s ∈ (g.block b).jump.successors, s < g.size
  pred : ∀ b, ∀ p ∈ (g.block b).preds, p < g.size
  instr : ∀ b, ∀ i ∈ (g.block b).instrs, ∀ v ∈ i.mentions, v < g.numVars
  exit : ∀ b, ∀ v ∈ (g.block b).jump.reads, v < g.numVars
  phi : ∀ b, ∀ φ ∈ (g.block b).phis, φ.var < g.numVars
  slot : ∀ b, ∀ φ ∈ (g.block b).phis, ∀ slot ∈ φ.slots, slot.1 < g.size ∧ slot.2.var < g.numVars

/-- What is known about the graph is about blocks and variables of the graph only. -/
structure TablesInRange (g : FlowGraph) : Prop where
  listed : ∀ order, g.reachable = some order → ∀ b ∈ order, b < g.size
  tree : ∀ dom, g.dominance = some dom → ∀ b, b ∈ dom.tree.order ∨ b ∈ dom.tree.preorder → b < g.size
  idom : ∀ dom, g.dominance = some dom → ∀ b d, dom.tree.idom? b = some d → b < g.size ∧ d < g.size
  frontier : ∀ x y, y ∈ g.frontier x → x < g.size ∧ y < g.size
  sites : ∀ sites, g.definitionSites = some sites → ∀ v b,
    b ∈ sites.blocksOf v ∨ sites.declaration? v = some b → v < g.numVars ∧ b < g.size

/-! ## Steps -/

theorem namesInRange_unversioned {g : FlowGraph} : g.unversioned.NamesInRange ↔ g.NamesInRange := by
  simp only [namesInRange_iff, block_unversioned, size_unversioned, Block.unversioned, Phi.unversioned,
    Jump.successors_unversioned, Jump.reads_unversioned, Array.mem_map, List.mem_map, forall_exists_index, and_imp,
    forall_apply_eq_imp_iff₂, Instr.mentions_unversioned]
  rfl

/-- The tables stay in range as long as they and the sizes stay. -/
theorem TablesInRange.of_eq {g g' : FlowGraph} (h : g.TablesInRange) (hsize : g'.size = g.size)
    (hvars : g'.numVars = g.numVars) (hlisted : g'.reachable = g.reachable) (hdominance : g'.dominance = g.dominance)
    (hsites : g'.definitionSites = g.definitionSites) : g'.TablesInRange := by
  constructor
  · rw [hlisted, hsize]
    exact h.listed
  · rw [hdominance, hsize]
    exact h.tree
  · rw [hdominance, hsize]
    exact h.idom
  · simp only [FlowGraph.frontier, hdominance, hsize]
    exact h.frontier
  · rw [hsites, hvars, hsize]
    exact h.sites

/-- Renaming names no other blocks and variables, also where it stops halfway. -/
theorem NamesInRange.rename {g : FlowGraph} (h : g.NamesInRange) (hmatch : g.SlotsMatch) : g.rename.1.NamesInRange := by
  rw [← namesInRange_unversioned, hmatch.unversioned_rename, namesInRange_unversioned]
  exact h

theorem TablesInRange.rename {g : FlowGraph} (h : g.TablesInRange) : g.rename.1.TablesInRange := by
  have hsize := g.sameEdges_rename.size
  obtain ⟨blocks, hframe⟩ := g.rename_frame
  rw [hframe] at hsize ⊢
  exact h.of_eq hsize rfl rfl rfl rfl

/-- Pruning a lowered graph leaves it with fewer names. -/
theorem Lowered.namesInRange {g g' : FlowGraph} (h : g.Lowered) (hshrunk : Shrunk g g') : g'.NamesInRange where
  entry := hshrunk.entry_lt
  successor _ _ := hshrunk.succ_lt
  pred _ _ := hshrunk.pred_lt
  instr := by
    intro b i hi v hv
    rw [hshrunk.code.instrs] at hi
    rw [hshrunk.code.numVars]
    exact h.vars b i hi v hv
  exit := by
    intro b v hv
    rw [hshrunk.code.numVars]
    cases hremoved : (g'.block b).removed with
    | true =>
      have hgone : (g'.block b).jump = .missing := hshrunk.gone hremoved
      rw [hgone] at hv
      cases hv
    | false =>
      have hread : (g'.block b).jump.operand? = (g.jump b).operand? := (hshrunk.operand hremoved).1
      rw [Jump.reads, hread] at hv
      exact h.jumpVars b v hv
  phi := by
    intro b φ hφ
    rw [hshrunk.code.phis, h.noPhis] at hφ
    cases hφ
  slot := by
    intro b φ hφ
    rw [hshrunk.code.phis, h.noPhis] at hφ
    cases hφ

/-- A list of blocks is all that is known about a graph that was pruned and perhaps ordered. -/
theorem tablesInRange_of_listed {g : FlowGraph} {order : List BlockId} (hlisted : g.reachable = some order)
    (hlt : ∀ b ∈ order, b < g.size) (hdominance : g.dominance = none) (hsites : g.definitionSites = none) :
    g.TablesInRange := by
  constructor
  · intro order' hlisted'
    cases hlisted.symm.trans hlisted'
    exact hlt
  · intro dom hdom
    cases hdominance.symm.trans hdom
  · intro dom hdom
    cases hdominance.symm.trans hdom
  · intro x y hy
    rw [FlowGraph.frontier, hdominance] at hy
    exact absurd hy Std.ExtTreeSet.not_mem_empty
  · intro sites hknown
    cases hsites.symm.trans hknown

theorem tables_withOrder {g ordered : FlowGraph} (h : g.withOrder = .ok ordered) :
    ordered.dominance = g.dominance ∧ ordered.definitionSites = g.definitionSites := by
  rw [withOrder_def] at h
  split at h
  · cases h
  · cases h
    exact ⟨rfl, rfl⟩

theorem definitionSites_withDominance {g analysed : FlowGraph} (h : g.withDominance = .ok analysed) :
    analysed.definitionSites = none := by
  rw [withDominance_def] at h
  split at h
  · cases h
  · cases h
    rfl

/-- An order and dominance that are exact name blocks of the graph only. -/
theorem Analysed.tablesInRange {g : FlowGraph} {order : List BlockId} {tree : DominatorTree}
    (h : g.Analysed order tree)
    (hsites : ∀ sites, g.definitionSites = some sites → g.SitesOf sites ∧ g.VarsInRange) : g.TablesInRange := by
  obtain ⟨frontiers, hdominance⟩ := h.dominance
  refine ⟨fun order' hlisted b hb => ?_, fun dom hdom b hb => ?_, fun dom hdom b d hd => ?_,
    fun x y => h.lt_of_mem_frontier, fun sites hknown v b hb => ?_⟩
  · cases h.listed.symm.trans hlisted
    exact h.lt_of_mem hb
  · cases hdominance.symm.trans hdom
    rw [h.exact.mem_order, h.exact.mem_preorder, or_self] at hb
    exact h.reachable_lt hb
  · cases hdominance.symm.trans hdom
    obtain ⟨hb, himmediate⟩ := h.exact.idom_iff.mp hd
    exact ⟨h.reachable_lt hb, h.reachable_lt (himmediate.1.2.reachable hb)⟩
  · obtain ⟨hof, hvars⟩ := hsites sites hknown
    obtain ⟨s, rfl, hs⟩ : ∃ s, s.block = b ∧ (g.Declares v s ∨ g.Writes v s) := by
      rcases hb with hb | hb
      · exact hof.mem_blocksOf.mp hb
      · obtain ⟨s, hs, hdecl⟩ := hof.declaration.mp hb
        exact ⟨s, hs, .inl hdecl⟩
    rcases hs with ⟨hreach, hi⟩ | ⟨hreach, i, w, hi, hw, rfl⟩
    · exact ⟨hvars.lt_of_subject hreach hi rfl, h.reachable_lt hreach⟩
    · exact ⟨hvars.lt_of_subject hreach hi (Instr.subject?_eq_some.mpr (.inr ⟨w, hw, rfl⟩)), h.reachable_lt hreach⟩

/-- Placed phis are for variables of the graph, with slots for blocks of the graph. -/
theorem NamesInRange.placed {g placed : FlowGraph} {order : List BlockId} {tree : DominatorTree}
    (h : g.NamesInRange) (honly : PhisOnly g placed) (hplaced : placed.Placed order tree)
    (hmatch : placed.SlotsMatch) : placed.NamesInRange where
  entry := hplaced.entry_lt
  successor _ _ := hplaced.succ_lt
  pred _ _ := hplaced.pred_lt
  instr := by
    intro b
    rw [honly.instrs, honly.numVars]
    exact h.instr b
  exit := by
    intro b
    rw [← jump, honly.jump, honly.numVars]
    exact h.exit b
  phi _ _ := hplaced.var_lt
  slot := by
    intro b φ hφ slot hslot
    constructor
    · have hpred : slot.1 ∈ φ.preds := List.mem_map_of_mem hslot
      rw [hplaced.slots hφ] at hpred
      exact hplaced.pred_lt (Std.ExtTreeSet.mem_toList.mp (List.mem_filter.mp hpred).1)
    · rw [hmatch b φ hφ slot hslot]
      exact hplaced.var_lt hφ

/-! ## The passes of a build -/

theorem slotsMatch_of_noPhis {g : FlowGraph} (h : ∀ b, (g.block b).phis = []) : g.SlotsMatch := by
  intro b φ hφ
  rw [h] at hφ
  cases hφ

/-- The phis that are placed name a variable of the graph and blocks of it. -/
theorem Analysed.placePhis_inRange {g : FlowGraph} {order : List BlockId} {tree : DominatorTree}
    (h : g.Analysed order tree) (hvars : g.VarsInRange) (hempty : ∀ b, (g.block b).phis = [])
    (hnames : g.NamesInRange) (hsites : g.definitionSites = none) :
    g.placePhis.1.NamesInRange ∧ g.placePhis.1.TablesInRange := by
  have hmatch := slotsMatch_of_noPhis hempty
  rcases g.placePhis_cases with ⟨e, hfails⟩ | ⟨n, hphis⟩
  · rw [hfails]
    exact ⟨hnames, h.tablesInRange fun sites hknown => by cases hsites.symm.trans hknown⟩
  · obtain ⟨honly, sites, hgather, hknown⟩ := phisOnly_withPhis hphis
    rcases h.gather hvars with ⟨sites', hgather', hof⟩ | ⟨v, s, t, hfails, -⟩
    · cases hgather.symm.trans hgather'
      obtain ⟨placed, count, hphis', -, hplaced⟩ := h.withPhis hvars hempty hgather hof
      cases hphis.symm.trans hphis'
      refine ⟨hnames.placed honly hplaced (hmatch.passes .placePhis (by simp)), hplaced.tablesInRange ?_⟩
      intro sites' hsites'
      cases hknown.symm.trans hsites'
      exact ⟨honly.sitesOf hof, honly.varsInRange hvars⟩
    · cases hgather.symm.trans hfails

/-- Ordering and dominance analysis of a pruned lowered graph succeed, and whatever becomes of phi placement and
renaming, each pass is given a graph in which all blocks and variables are in range, and leaves one. -/
theorem Lowered.stages_inRange {g : FlowGraph} (h : g.Lowered) :
    g.NamesInRange ∧ ∃ ordered analysed, g.prune.1.withOrder = .ok ordered ∧
      ordered.withDominance = .ok analysed ∧
      ∀ stage ∈ [g.prune.1, ordered, analysed, analysed.placePhis.1, analysed.placePhis.1.rename.1],
        stage.NamesInRange ∧ stage.TablesInRange := by
  obtain ⟨hpruned, hshrunk⟩ := h.toFresh.prune
  obtain ⟨-, hdominance, hsites⟩ := unanalysed_prune g
  obtain ⟨ordered, order, hordered, hblocks, hnumVars, hord⟩ := hpruned.withOrder
  obtain ⟨ordered', analysed, order', tree, hordered', hdom, -, hanalysed, hshrunk', hvars, hempty⟩ :=
    h.toFresh.analyse
  cases hordered.symm.trans hordered'
  obtain ⟨hdominance', hsites'⟩ := tables_withOrder hordered
  have hnone := definitionSites_withDominance hdom
  have hnames := h.namesInRange hshrunk'
  -- phi placement may fail, and then it leaves the analysed graph
  obtain ⟨hphinames, hphitables⟩ := hanalysed.placePhis_inRange hvars hempty hnames hnone
  have hmatch : analysed.placePhis.1.SlotsMatch := (slotsMatch_of_noPhis hempty).passes .placePhis (by simp)
  refine ⟨h.namesInRange (.refl h.toFresh.intact), ordered, analysed, hordered, hdom, ?_⟩
  simp only [List.forall_mem_cons, List.not_mem_nil, false_implies, implies_true, and_true]
  refine ⟨⟨h.namesInRange hshrunk, ?_⟩, ⟨h.namesInRange (hshrunk.of_blocks_eq hblocks hnumVars), ?_⟩,
    ⟨hnames, hanalysed.tablesInRange ?_⟩, ⟨hphinames, hphitables⟩, hphinames.rename hmatch, hphitables.rename⟩
  · exact tablesInRange_of_listed hpruned.listed (fun b hb => (mem_liveIds.mp hb).1) hdominance hsites
  · exact tablesInRange_of_listed hord.listed (fun b hb => hord.lt_of_mem hb) (hdominance'.trans hdominance)
      (hsites'.trans hsites)
  · intro sites hknown
    cases hnone.symm.trans hknown

end FlowGraph

end SsaFlow
