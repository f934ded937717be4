-- SUMMARY: Running all passes once more on what they gave changes nothing.
import SsaFlow.Proofs.Outcome
import SsaFlow.Proofs.Renumbering
import SsaFlow.Proofs.Settled

/-!
# All passes once more

A build lowers a function and runs the passes from pruning to renaming. Run on their own result, every pass
finds its work done. Phis and names let no block be bypassed that could not be bypassed before, so nothing
is pruned. Control flow is as it was, so the order, the dominator tree and the frontiers are found again.
All merge points have their phis, and all places have their names.
-/

namespace SsaFlow

namespace FlowGraph

structure PassReport where
  pruned : PruneReport
  /-- Number of phis that were placed. -/
  phis : Nat
  /-- Number of definitions that were numbered. -/
  definitions : Nat
deriving DecidableEq

/-- Runs all passes on a graph, from pruning to renaming. -/
def runPasses (g : FlowGraph) : Except InternalError (FlowGraph × PassReport) := do
  let (pruned, report) := g.prune
  let ordered ← pruned.withOrder
  let analysed ← ordered.withDominance
  let (placed, phis) ← analysed.withPhis
  let (renamed, outcome) := placed.rename
  let definitions ← outcome
  return (renamed, ⟨report, phis, definitions⟩)

/-- The graphs between the passes of a run that succeeds. -/
structure Stages (g ordered analysed placed r : FlowGraph) (report : PassReport) : Prop where
  pruning : g.prune.2 = report.pruned
  ordering : g.prune.1.withOrder = .ok ordered
  dominance : ordered.withDominance = .ok analysed
  placement : analysed.withPhis = .ok (placed, report.phis)
  numbering : placed.rename = (r, .ok report.definitions)

section Stages

variable {g ordered analysed placed r : FlowGraph} {report : PassReport}

theorem Stages.runPasses (h : Stages g ordered analysed placed r report) :
    g.runPasses = .ok (r, report) := by
  simp only [FlowGraph.runPasses, bind, Except.bind, h.ordering, h.dominance, h.placement, h.numbering,
    h.pruning]
  rfl

/-- A build that succeeds has gone through all passes. -/
theorem exists_stages_of_toSsa {verify : Bool} (h : g.prune.1.toSsa verify = .ok r) :
    ∃ ordered analysed placed report, Stages g ordered analysed placed r report := by
  unfold toSsa at h
  obtain ⟨ordered, hordered, h⟩ := Except.exists_of_bind h
  obtain ⟨analysed, hanalysed, h⟩ := Except.exists_of_bind h
  obtain ⟨⟨placed, phis⟩, hplaced, h⟩ := Except.exists_of_bind h
  obtain ⟨⟨renamed, definitions⟩, hrenamed, h⟩ := Except.exists_of_bind h
  have hresult : renamed = r := by
    cases verify with
    | false => exact Except.ok.inj h
    | true =>
      obtain ⟨_, -, h⟩ := Except.exists_of_bind h
      exact Except.ok.inj h
  exact ⟨ordered, analysed, placed, ⟨g.prune.2, phis, definitions⟩, rfl, hordered, hanalysed, hplaced,
    hresult ▸ completed_eq_ok.mp hrenamed⟩

/-- Ordering and dominance analysis leave the blocks alone. -/
theorem Stages.blocks_eq (h : Stages g ordered analysed placed r report) :
    analysed.blocks = g.prune.1.blocks :=
  (blocks_withDominance h.dominance).trans (blocks_withOrder h.ordering)

/-- The passes turn a lowered graph into SSA form. -/
theorem Stages.ssaForm (h : Stages g ordered analysed placed r report) (hg : g.Lowered) :
    ∃ order tree, SsaForm r placed order tree := by
  obtain ⟨ordered', analysed', hordered, hanalysed, hcases⟩ := hg.prepare
  cases h.ordering.symm.trans hordered
  cases h.dominance.symm.trans hanalysed
  rcases hcases with ⟨v, hphis, -⟩ | ⟨-, q, count, order, tree, hphis, hq⟩
  · cases h.placement.symm.trans hphis
  · cases h.placement.symm.trans hphis
    rcases hq.rename with ⟨r', n, hrename, hnamed, hdecls⟩ | ⟨r', v, s, hrename, -⟩
    · cases h.numbering.symm.trans hrename
      exact ⟨order, tree, hq.ssaForm hnamed hdecls⟩
    · cases h.numbering.symm.trans hrename

end Stages

/-! ## Nothing to prune -/

section Bypass

variable {g g' : FlowGraph} {b target : BlockId}

theorem Bypassable.of_blocks_eq (h : g'.Bypassable b target) (hblocks : g'.blocks = g.blocks) :
    g.Bypassable b target := by
  have hblock : g'.block = g.block := by
    funext c
    rw [block, hblocks, block]
  have hjump : g'.jump = g.jump := by
    funext c
    rw [jump, hblock, jump]
  exact ⟨hblock ▸ h.unmarked, hblock ▸ h.isEmpty, hjump ▸ h.onlyTarget, h.ne, hblock ▸ hjump ▸ h.noShadow⟩

/-- A block that can be bypassed in spite of phis can be bypassed without them. -/
theorem PhisOnly.bypassable (h : PhisOnly g g') (hnone : (g.block b).phis = [])
    (hb : g'.Bypassable b target) : g.Bypassable b target := by
  obtain ⟨φs, hblock⟩ := h.block b
  refine ⟨?_, ?_, ?_, hb.ne, fun p hp => ?_⟩
  · simpa only [hblock] using hb.unmarked
  · have hempty := hb.isEmpty
    rw [hblock, Block.isEmpty, Bool.and_eq_true] at hempty
    rw [Block.isEmpty, hnone, hempty.2]
    rfl
  · rw [← h.jump]
    exact hb.onlyTarget
  · rw [← h.jump]
    exact hb.noShadow p (h.preds b ▸ hp)

/-- Names do not decide whether a block can be bypassed. -/
theorem SsaForm.bypassable {r : FlowGraph} {order : List BlockId} {tree : DominatorTree}
    (h : SsaForm r g order tree) (hb : r.Bypassable b target) : g.Bypassable b target := by
  have hjump : ∀ c, (r.jump c).onlyTarget? = (g.jump c).onlyTarget? ∧
      (r.jump c).shadow? = (g.jump c).shadow? := by
    intro c
    rw [FlowGraph.jump, h.named.block, Block.named]
    dsimp only
    split
    · exact ⟨Jump.onlyTarget?_mapOperand _ _, Jump.shadow?_mapOperand _ _⟩
    · exact ⟨rfl, rfl⟩
  have hblock := h.named.block b
  refine ⟨?_, ?_, ?_, hb.ne, fun p hp => ?_⟩
  · have hunmarked := hb.unmarked
    rw [hblock] at hunmarked
    exact hunmarked
  · have hempty := hb.isEmpty
    rw [hblock] at hempty
    simp only [Block.isEmpty, Block.named, Bool.and_eq_true, List.isEmpty_map] at hempty ⊢
    refine ⟨hempty.1, ?_⟩
    have hinstrs := hempty.2
    split at hinstrs
    · simpa using hinstrs
    · exact hinstrs
  · rw [← (hjump b).1]
    exact hb.onlyTarget
  · rw [← (hjump p).2]
    exact hb.noShadow p ((h.block_fields b).1 ▸ hp)

end Bypass

section Again

variable {g ordered analysed placed r : FlowGraph} {report : PassReport} {order : List BlockId}
  {tree : DominatorTree}

/-- The result of the passes has the control flow of the pruned graph. -/
theorem Stages.sameFlow (h : Stages g ordered analysed placed r report) (hr : SsaForm r placed order tree) :
    SameFlow g.prune.1 r :=
  ((SameFlow.of_blocks_eq h.blocks_eq).trans (phisOnly_withPhis h.placement).1.sameFlow).trans hr.sameFlow

/-- A graph in SSA form has nothing left to prune. -/
theorem Stages.prune_self (h : Stages g ordered analysed placed r report) (hg : g.Lowered)
    (hr : SsaForm r placed order tree) :
    r.prune = ({ r.forgetAnalyses with reachable := some r.liveIds }, ⟨0, 0, []⟩) := by
  have hflow := h.sameFlow hr
  have hempty : ∀ b, (analysed.block b).phis = [] := by
    intro b
    rw [block, h.blocks_eq, ← block, hg.toFresh.prune.2.code.phis]
    exact hg.noPhis b
  refine prune_eq_self hr.linked ?_ ?_
  · intro b hb hkept
    exact hr.placed.kept_iff.mp ⟨hb, hkept⟩
  · intro b target hb hpreds hbypass
    rw [hflow.edge] at hb
    rw [hflow.preds] at hpreds
    have hplaced : analysed.Bypassable b target :=
      (phisOnly_withPhis h.placement).1.bypassable (hempty b) (hr.bypassable hbypass)
    exact hg.not_bypassable hb hpreds (hplaced.of_blocks_eq h.blocks_eq)

/-! ## Nothing to place -/

theorem phisOnly_forgetSites (r : FlowGraph) : PhisOnly r { r with definitionSites := none } :=
  ⟨rfl, rfl, rfl, rfl, rfl, fun b => ⟨(r.block b).phis, rfl⟩⟩

/-- Phis are where they belong, whether definition sites are known or not. -/
theorem Placed.forgetSites (h : r.Placed order tree) :
    FlowGraph.Placed { r with definitionSites := none } order tree where
  toAnalysed := r.phisOnly_forgetSites.analysed h.toAnalysed
  once := h.once
  slots := h.slots
  var_lt := h.var_lt
  phis_nodup := h.phis_nodup
  phi_iff := h.phi_iff

/-- A graph in SSA form gets no more phis, and the definition sites that it had. -/
theorem SsaForm.withPhis_self {sites : DefinitionSites} (h : SsaForm r g order tree)
    (hgather : g.gatherDefinitionSites = .ok sites) (hsites : r.definitionSites = some sites) :
    FlowGraph.withPhis { r with definitionSites := none } = .ok (r, 0) := by
  have hplaced := h.placed.forgetSites
  have hsame : FlowGraph.gatherDefinitionSites { r with definitionSites := none } = .ok sites :=
    r.phisOnly_forgetSites.gatherDefinitionSites.trans (h.gatherDefinitionSites.trans hgather)
  rcases hplaced.gather h.renamable.instrVars with ⟨sites', hgather', hof⟩ | ⟨v, s, t, hgather', -⟩
  · cases hsame.symm.trans hgather'
    rw [hplaced.withPhis_self hsame hof, ← hsites]
  · cases hsame.symm.trans hgather'

/-! ## The second run -/

/-- What the passes have found out stands in their result. -/
theorem Stages.tables (h : Stages g ordered analysed placed r report) :
    r.reachable = ordered.reachable ∧ r.depths = ordered.depths ∧ r.dominance = analysed.dominance ∧
      ∃ sites, analysed.gatherDefinitionSites = .ok sites ∧ r.definitionSites = some sites := by
  obtain ⟨honly, sites, hgather, hsites⟩ := phisOnly_withPhis h.placement
  obtain ⟨hreachable, hdepths⟩ := order_withDominance h.dominance
  obtain ⟨blocks, hframe⟩ := placed.rename_frame
  rw [h.numbering] at hframe
  obtain rfl : r = { placed with blocks := blocks } := hframe
  exact ⟨honly.reachable.trans hreachable, honly.depths.trans hdepths, honly.dominance, sites, hgather, hsites⟩

/-- The passes find the result of a first run done. -/
theorem Stages.again (h : Stages g ordered analysed placed r report) (hg : g.Lowered) :
    Stages r { r with dominance := none, definitionSites := none } { r with definitionSites := none } r r
      ⟨⟨0, 0, []⟩, 0, report.definitions⟩ := by
  obtain ⟨order, tree, hr⟩ := h.ssaForm hg
  obtain ⟨hreachable, hdepths, hdominance, sites, hgather, hsites⟩ := h.tables
  have hflow := h.sameFlow hr
  have hpruned := h.prune_self hg hr
  refine ⟨?_, ?_, ?_, ?_, hr.rename_self h.numbering⟩
  · rw [hpruned]
  · have hsecond : SameFlow r r.prune.1 := .of_blocks_eq (by rw [hpruned]; rfl)
    have hlisted : r.prune.1.reachable = g.prune.1.reachable := by
      rw [hpruned, hg.toFresh.prune.1.listed, ← hflow.liveIds]
    rw [(hflow.trans hsecond).withOrder hlisted h.ordering, hpruned, ← hreachable, ← hdepths]
    rfl
  · have hordered : SameFlow ordered r :=
      (SameFlow.of_blocks_eq (blocks_withOrder h.ordering).symm).trans hflow
    have hsecond : SameFlow r { r with dominance := none, definitionSites := none } := .of_blocks_eq rfl
    rw [(hordered.trans hsecond).withDominance hreachable hdepths h.dominance, ← hdominance]
  · refine hr.withPhis_self ?_ hsites
    rw [(phisOnly_withPhis h.placement).1.gatherDefinitionSites]
    exact hgather

end Again

end FlowGraph

open FlowGraph

/-- Building is idempotent: on the graph that a build returns, the passes prune nothing and find no dead code,
place no phis, count the same definitions as the first time, and leave every part of the graph as it was. -/
theorem Function.build_idempotent {fn : Function} {config : BuildConfig} {queue : DiagnosticQueue}
    {r : FlowGraph} (h : (fn.build config queue).2 = .ok r) :
    ∃ g report, fn.lower = .ok g ∧ g.runPasses = .ok (r, report) ∧
      r.runPasses = .ok (r, ⟨⟨0, 0, []⟩, 0, report.definitions⟩) := by
  obtain ⟨g, hg, hrun⟩ := Function.exists_toSsa_of_build h
  obtain ⟨ordered, analysed, placed, report, hstages⟩ := exists_stages_of_toSsa hrun
  exact ⟨g, report, hg, hstages.runPasses, (hstages.again (Function.lowered hg)).runPasses⟩

/-- The function `if (a) a -= 1; else ; return a; a -= 1;`. -/
def stepOrNot : Function :=
  let span : Span := ⟨0, 1⟩
  { name := ⟨0⟩, params := [0], numVars := 1, body := 4, span := span
    exprs := #[⟨span, .var 0⟩, ⟨span, .int 1⟩, ⟨span, .assign 0 (some .sub) 1⟩]
    stmts := #[⟨span, .expr 2⟩, ⟨span, .empty⟩, ⟨span, .ifElse 0 0 (some 1)⟩, ⟨span, .ret (some 0)⟩,
      ⟨span, .block [2, 3, 0]⟩] }

/-- The first time, a block is bypassed, two are dropped, a statement is dead, and a phi is placed. -/
theorem runPasses_stepOrNot : ∃ g, stepOrNot.lower = .ok g ∧
    g.runPasses.toOption.map Prod.snd = some ⟨⟨1, 2, [[⟨0, 1⟩]]⟩, 1, 3⟩ := by
  refine Except.exists_ok_of_decide ?_
  cbv

theorem build_idempotent_stepOrNot :
    ∃ g r, stepOrNot.lower = .ok g ∧ (stepOrNot.build .standard {}).2 = .ok r ∧
      g.runPasses = .ok (r, ⟨⟨1, 2, [[⟨0, 1⟩]]⟩, 1, 3⟩) ∧ r.runPasses = .ok (r, ⟨⟨0, 0, []⟩, 0, 3⟩) := by
  obtain ⟨r, hr, -⟩ : ∃ r, (stepOrNot.build .standard {}).2 = .ok r ∧ r.size = 6 := by
    refine Except.exists_ok_of_decide ?_
    cbv
  obtain ⟨g, hg, hreport⟩ := runPasses_stepOrNot
  obtain ⟨g', report, hg', hfirst, hsecond⟩ := Function.build_idempotent hr
  obtain rfl : g' = g := Except.ok.inj (hg'.symm.trans hg)
  rw [hfirst] at hreport
  obtain rfl : report = ⟨⟨1, 2, [[⟨0, 1⟩]]⟩, 1, 3⟩ := Option.some.inj hreport
  exact ⟨g', r, hg, hr, hfirst, hsecond⟩

end SsaFlow
