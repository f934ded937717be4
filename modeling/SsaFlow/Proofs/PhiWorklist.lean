-- SUMMARY: The worklist of phi placement gives a phi to exactly the blocks that a search along frontiers finds.
import Mathlib
import SsaFlow.Graph.Reach
import SsaFlow.Proofs.SameFlow
import SsaFlow.Ssa.PhiPlacement

/-!
# The worklist of phi placement

Which blocks get a phi for a variable can be said without the worklist: those that are found from the blocks
that define it, when one goes from block to block along frontiers (`FlowGraph.phiBlocks`). The worklist finds the
same blocks, each once, and so it leaves the same graph (`FlowGraph.addPhisFor_eq`).

The blocks taken from the worklist so far and the blocks that got a phi so far are lists that the proof keeps
beside the state (`Placement.Working`). Nothing is taken twice, which bounds the number of turns, and what was
taken has all joins of its frontier done (`Placement.Closed`).
-/

namespace SsaFlow

namespace FlowGraph

/-- The graph with other data on dominance. -/
def under (d : Option Dominance) (g : FlowGraph) : FlowGraph := { g with dominance := d }

@[simp] theorem block_under (d : Option Dominance) (g : FlowGraph) : (g.under d).block = g.block := rfl

@[simp] theorem modify_under (d : Option Dominance) (g : FlowGraph) (b : BlockId) (f : Block → Block) :
    (g.under d).modify b f = (g.modify b f).under d := rfl

@[simp] theorem targets_under (d : Option Dominance) (g : FlowGraph) : (g.under d).targets = g.targets := rfl

theorem under_dominance (g : FlowGraph) : g.under g.dominance = g := rfl

/-- The joins in the frontier of a block where `var`, declared in `home`, can be merged. -/
def mergePoints (g : FlowGraph) (tree : DominatorTree) (var : VarId) (home b : BlockId) : List BlockId :=
  (g.frontier b).toList.filter fun join =>
    !((g.block join).phiFor? var).isSome && !tree.dominates join home

/-- The blocks that get a phi for `var`. -/
def phiBlocks (g : FlowGraph) (tree : DominatorTree) (sites : DefinitionSites) (var : VarId) : IdSet :=
  let defs := sites.blocksOf var
  if defs.size < 2 then ∅
  else
    let home := (sites.declaration? var).getD entry
    let merges := g.mergePoints tree var home
    let visited := DepthFirst.preorder (DepthFirst.trace merges g.size defs.toList)
    IdSet.ofList (visited.flatMap merges)

theorem mem_phiBlocks {g : FlowGraph} {tree : DominatorTree} {sites : DefinitionSites} {v : VarId} {y : BlockId} :
    y ∈ g.phiBlocks tree sites v ↔ 2 ≤ (sites.blocksOf v).size ∧
      ∃ x s, s ∈ sites.blocksOf v ∧
        DepthFirst.Leads (g.mergePoints tree v ((sites.declaration? v).getD entry)) g.size s x ∧
        y ∈ g.mergePoints tree v ((sites.declaration? v).getD entry) x := by
  rw [phiBlocks]
  by_cases hfew : (sites.blocksOf v).size < 2
  · rw [if_pos hfew]
    exact ⟨fun hy => absurd hy Std.ExtTreeSet.not_mem_empty, fun hy => absurd hy.1 (Nat.not_le_of_lt hfew)⟩
  · rw [if_neg hfew]
    simp only [IdSet.mem_ofList, List.mem_flatMap, DepthFirst.mem_preorder_trace, Std.ExtTreeSet.mem_toList]
    constructor
    · rintro ⟨x, ⟨s, hs, hl⟩, hy⟩
      exact ⟨Nat.le_of_not_lt hfew, x, s, hs, hl, hy⟩
    · rintro ⟨-, x, s, hs, hl, hy⟩
      exact ⟨x, ⟨s, hs, hl⟩, hy⟩

/-- A phi has no part in the flow of control. -/
theorem sameFlow_addPhi (v : VarId) (g : FlowGraph) (b : BlockId) : SameFlow g (g.addPhi v b) := by
  have hblock : ∀ c, ∃ phis, (g.addPhi v b).block c = { g.block c with phis := phis } := by
    intro c
    rw [addPhi, block_modify]
    split
    · exact ⟨_, rfl⟩
    · exact ⟨_, rfl⟩
  refine ⟨size_modify _ _ _, fun c => ?_, fun c => ?_, fun c => ?_⟩ <;> obtain ⟨phis, hphis⟩ := hblock c
  · rw [targets, jump, hphis]
    rfl
  · rw [hphis]
  · rw [hphis]

/-- It does not matter in which order blocks get their phis. -/
theorem addPhi_comm (v : VarId) (g : FlowGraph) (b c : BlockId) :
    (g.addPhi v b).addPhi v c = (g.addPhi v c).addPhi v b := by
  by_cases hbc : b = c
  · rw [hbc]
  · have hb := congrFun (sameFlow_addPhi v g c).livePredecessors b
    have hc := congrFun (sameFlow_addPhi v g b).livePredecessors c
    rw [addPhi, hc, addPhi, addPhi, hb, addPhi]
    unfold modify
    congr 1
    refine Array.ext_getElem? fun i => ?_
    simp only [Array.getElem?_modify]
    grind

instance (v : VarId) : RightCommutative (addPhi v) := ⟨addPhi_comm v⟩

end FlowGraph

namespace Placement

open FlowGraph

/-- Whatever the worklist does, in the end some blocks got a phi and were counted. -/
theorem exists_placed_foldl_visit (dom : Dominance) (v : VarId) (home : BlockId) (js : List BlockId) (s : Placement) :
    ∃ placed : List BlockId, (js.foldl (visit dom v home) s).graph = placed.foldl (addPhi v) s.graph ∧
      (js.foldl (visit dom v home) s).count = s.count + placed.length := by
  induction js generalizing s with
  | nil => exact ⟨[], rfl, rfl⟩
  | cons j js ih =>
    obtain ⟨placed, hgraph, hcount⟩ := ih (visit dom v home s j)
    rw [List.foldl_cons, hgraph, hcount, visit]
    split
    · exact ⟨placed, rfl, rfl⟩
    · exact ⟨j :: placed, rfl, Nat.succ_add_eq_add_succ s.count placed.length⟩

/-- A run adds phis and counts them; it does nothing else to the graph. -/
theorem exists_placed_run (dom : Dominance) (v : VarId) (home : BlockId) (fuel : Nat) (s : Placement) :
    ∃ placed : List BlockId, (run dom v home fuel s).graph = placed.foldl (addPhi v) s.graph ∧
      (run dom v home fuel s).count = s.count + placed.length := by
  induction fuel generalizing s with
  | zero => exact ⟨[], rfl, rfl⟩
  | succ fuel ih =>
    rw [run]
    split
    · exact ⟨[], rfl, rfl⟩
    · next b rest _ =>
      obtain ⟨placed, hgraph, hcount⟩ :=
        exists_placed_foldl_visit dom v home (dom.frontier b).toList { s with worklist := rest }
      obtain ⟨more, hgraph', hcount'⟩ :=
        ih ((dom.frontier b).toList.foldl (visit dom v home) { s with worklist := rest })
      refine ⟨placed ++ more, ?_, ?_⟩
      · rw [hgraph', hgraph, List.foldl_append]
      · rw [hcount', hcount, List.length_append, Nat.add_assoc]

-- What the graph says about dominance plays no part, the tree and the frontiers are arguments.

/-- The placement in the graph with other data on dominance. -/
def under (d : Option Dominance) (s : Placement) : Placement := { s with graph := s.graph.under d }

theorem visit_under (dom : Dominance) (v : VarId) (home : BlockId) (d : Option Dominance) (s : Placement) (j : BlockId) :
    visit dom v home (s.under d) j = (visit dom v home s j).under d := by
  rw [visit, visit, apply_ite (under d)]
  rfl

/-- The placement of phis does not look at the dominance kept in the graph. -/
theorem run_under (dom : Dominance) (v : VarId) (home : BlockId) (d : Option Dominance) (fuel : Nat) (s : Placement) :
    run dom v home fuel (s.under d) = (run dom v home fuel s).under d := by
  induction fuel generalizing s with
  | zero => rfl
  | succ fuel ih =>
    rw [run, run]
    cases hwork : s.worklist with
    | nil =>
      rw [under, hwork]
    | cons b rest =>
      rw [under, hwork]
      dsimp only
      rw [← ih, ← List.foldl_hom (under d) (visit_under dom v home d)]
      rfl

variable {g : FlowGraph} {dom : Dominance} {v : VarId} {home : BlockId} {defs : IdSet} {s : Placement}
  {done placed : List BlockId} {b j : BlockId}

/-- The block is found from the definition blocks along merge points. -/
def Found (g : FlowGraph) (dom : Dominance) (v : VarId) (home : BlockId) (defs : IdSet) (y : BlockId) : Prop :=
  ∃ x s, s ∈ defs ∧ DepthFirst.Leads (g.mergePoints dom.tree v home) g.size s x ∧
    y ∈ g.mergePoints dom.tree v home x

/-- What is true before every turn, where `done` has the blocks taken from the worklist and `placed` the blocks
that got a phi. -/
structure Working (g : FlowGraph) (dom : Dominance) (v : VarId) (home : BlockId) (defs : IdSet) (s : Placement)
    (done placed : List BlockId) : Prop where
  graph : s.graph = placed.foldl (addPhi v) g
  count : s.count = placed.length
  nodup : placed.Nodup
  hasPhi : ∀ {b : BlockId}, b ∈ s.hasPhi ↔ b ∈ (start dom v g defs).hasPhi ∨ b ∈ placed
  queued : ∀ {b : BlockId}, b ∈ s.queued ↔ b ∈ defs ∨ b ∈ placed
  work : ∀ {b : BlockId}, b ∈ done ++ s.worklist ↔ b ∈ s.queued
  distinct : (done ++ s.worklist).Nodup
  found : ∀ b ∈ placed, Found g dom v home defs b

/-- The joins of the blocks that were taken have their phis. -/
def Closed (g : FlowGraph) (dom : Dominance) (v : VarId) (home : BlockId) (done placed : List BlockId) : Prop :=
  ∀ b ∈ done, ∀ j ∈ g.mergePoints dom.tree v home b, j ∈ placed

/-- Frontiers are about blocks of the graph, and the phis that the graph has in them are known at the start. -/
structure Sane (g : FlowGraph) (dom : Dominance) (v : VarId) : Prop where
  dominance : g.dominance = some dom
  lt : ∀ {x y : BlockId}, y ∈ g.frontier x → x < g.size ∧ y < g.size
  hasPhi : ∀ {x y : BlockId}, y ∈ g.frontier x → ((g.block y).phiFor? v).isSome = true → y ∈ dom.tree.order

namespace Sane

theorem frontier (h : Sane g dom v) (b : BlockId) : g.frontier b = dom.frontier b := by
  rw [FlowGraph.frontier, h.dominance]

/-- The joins of a block are those in its frontier that have no phi at the start and do not dominate
the home. -/
theorem mem_mergePoints (h : Sane g dom v) (defs : IdSet) :
    j ∈ g.mergePoints dom.tree v home b ↔
      j ∈ dom.frontier b ∧ j ∉ (start dom v g defs).hasPhi ∧ ¬ dom.tree.dominates j home = true := by
  rw [mergePoints, List.mem_filter, Std.ExtTreeSet.mem_toList, ← h.frontier, start, IdSet.mem_ofList, List.mem_filter]
  refine and_congr_right fun hj => ?_
  have hknown := h.hasPhi hj
  cases hphi : ((g.block j).phiFor? v).isSome
  · simp
  · simp [hknown hphi]

/-- A join is a block of the graph, and so is the block in whose frontier it is. -/
theorem lt_of_mem_mergePoints (h : Sane g dom v) (hj : j ∈ g.mergePoints dom.tree v home b) :
    b < g.size ∧ j < g.size := by
  rw [mergePoints, List.mem_filter, Std.ExtTreeSet.mem_toList] at hj
  exact h.lt hj.1

end Sane

/-- At the start no block has been taken and no phi placed. -/
theorem Working.start (g : FlowGraph) (dom : Dominance) (v : VarId) (home : BlockId) (defs : IdSet) :
    Working g dom v home defs (start dom v g defs) [] [] := by
  refine ⟨rfl, rfl, .nil, by simp, by simp [Placement.start], ?_, ?_, nofun⟩
  · intro b
    simp [Placement.start]
  · exact List.nodup_reverse.mpr ((IdSet.pairwise_toList defs).imp Nat.ne_of_lt)

namespace Working

/-- The joins of a block that was taken are found. -/
theorem found_of_done (h : Working g dom v home defs s done placed) (hsane : Sane g dom v) (hb : b ∈ done)
    (hj : j ∈ g.mergePoints dom.tree v home b) : Found g dom v home defs j := by
  have hlt : b < g.size := (hsane.lt_of_mem_mergePoints hj).1
  rcases h.queued.mp (h.work.mp (List.mem_append_left _ hb)) with hdef | hplaced
  · exact ⟨b, b, hdef, .refl hlt, hj⟩
  · obtain ⟨x, r, hr, hl, hx⟩ := h.found b hplaced
    exact ⟨b, r, hr, .step hl hx hlt, hj⟩

/-- A join that is visited for a block has its phi afterwards, if it is a merge point. -/
theorem visit (h : Working g dom v home defs s done placed) (hsane : Sane g dom v) (hb : b ∈ done)
    (hj : j ∈ dom.frontier b) :
    ∃ placed', Working g dom v home defs (visit dom v home s j) done placed' ∧ placed ⊆ placed' ∧
      (j ∈ g.mergePoints dom.tree v home b → j ∈ placed') := by
  rw [Placement.visit]
  split
  · next hskip =>
    refine ⟨placed, h, fun _ hc => hc, fun hmerge => ?_⟩
    obtain ⟨-, hnone, hdom⟩ := (hsane.mem_mergePoints defs).mp hmerge
    rw [Bool.or_eq_true, decide_eq_true_eq, or_iff_left hdom, h.hasPhi] at hskip
    exact hskip.resolve_left hnone
  · next hplace =>
    rw [Bool.or_eq_true, decide_eq_true_eq, not_or, h.hasPhi, not_or] at hplace
    obtain ⟨⟨hnone, hnew⟩, hdom⟩ := hplace
    -- the join is not passed over, so it is a merge point
    have hmerge : j ∈ g.mergePoints dom.tree v home b :=
      (hsane.mem_mergePoints defs).mpr ⟨hj, hnone, hdom⟩
    refine ⟨placed ++ [j], ⟨?_, ?_, ?_, ?_, ?_, ?_, ?_, ?_⟩, List.subset_append_left _ _,
      fun _ => List.mem_append_right _ (List.mem_singleton_self j)⟩
    · rw [List.foldl_concat, ← h.graph]
    · rw [List.length_append, ← h.count]
      rfl
    · rw [← List.concat_eq_append, List.nodup_concat]
      exact ⟨hnew, h.nodup⟩
    · intro c
      rw [IdSet.mem_insert, h.hasPhi, List.mem_append, List.mem_singleton, or_comm, or_assoc]
    · intro c
      rw [IdSet.mem_insert, h.queued, List.mem_append, List.mem_singleton, or_comm, or_assoc]
    · intro c
      have hwork := h.work (b := c)
      rw [List.mem_append] at hwork
      split
      · next hqueued =>
        rw [List.mem_append, hwork, IdSet.mem_insert]
        exact ⟨.inr, fun hc => hc.elim (fun heq => heq ▸ hqueued) id⟩
      · rw [List.mem_append, List.mem_cons, IdSet.mem_insert, ← hwork, or_left_comm]
    · split
      · exact h.distinct
      · next hqueued =>
        rw [List.nodup_middle, List.nodup_cons]
        exact ⟨mt h.work.mp hqueued, h.distinct⟩
    · intro c hc
      rcases List.mem_append.mp hc with hc | hc
      · exact h.found c hc
      · rw [List.mem_singleton.mp hc]
        exact h.found_of_done hsane hb hmerge

/-- After the frontier of a block is gone through, the joins in it have their phis. -/
theorem foldl_visit (hsane : Sane g dom v) (hb : b ∈ done) {js : List BlockId} (hjs : ∀ j ∈ js, j ∈ dom.frontier b)
    (h : Working g dom v home defs s done placed) :
    ∃ placed', Working g dom v home defs (js.foldl (Placement.visit dom v home) s) done placed' ∧
      placed ⊆ placed' ∧ ∀ j ∈ js, j ∈ g.mergePoints dom.tree v home b → j ∈ placed' := by
  induction js generalizing s placed with
  | nil => exact ⟨placed, h, fun _ hc => hc, nofun⟩
  | cons j js ih =>
    rw [List.forall_mem_cons] at hjs
    obtain ⟨placed', hstep, hsub, hj⟩ := h.visit hsane hb hjs.1
    obtain ⟨placed'', hrest, hsub', hall⟩ := ih hjs.2 hstep
    exact ⟨placed'', hrest, List.Subset.trans hsub hsub', List.forall_mem_cons.mpr ⟨fun hmerge => hsub' (hj hmerge), hall⟩⟩

/-- No more blocks are ever put on the worklist than define the variable or are in the graph. -/
theorem length_le (h : Working g dom v home defs s done placed) (hsane : Sane g dom v) :
    done.length + s.worklist.length ≤ defs.size + g.size := by
  have hsub : done ++ s.worklist ⊆ defs.toList ++ List.range g.size := by
    intro b hb
    rw [List.mem_append, Std.ExtTreeSet.mem_toList, List.mem_range]
    refine (h.queued.mp (h.work.mp hb)).imp_right fun hplaced => ?_
    obtain ⟨x, -, -, -, hx⟩ := h.found b hplaced
    exact (hsane.lt_of_mem_mergePoints hx).2
  have hlength := (h.distinct.subperm hsub).length_le
  rwa [List.length_append, List.length_append, Std.ExtTreeSet.length_toList, List.length_range] at hlength

/-- When the worklist is empty, the blocks that got a phi are the ones that are found. -/
theorem mem_placed_iff (h : Working g dom v home defs s done placed) (hclosed : Closed g dom v home done placed)
    (hempty : s.worklist = []) {y : BlockId} : y ∈ placed ↔ Found g dom v home defs y := by
  refine ⟨h.found y, ?_⟩
  rintro ⟨x, r, hr, hl, hy⟩
  have hdone : ∀ {c}, c ∈ defs ∨ c ∈ placed → c ∈ done := by
    intro c hc
    have hwork := h.work.mpr (h.queued.mpr hc)
    rwa [hempty, List.append_nil] at hwork
  -- every block on the way was taken from the worklist
  have hx : x ∈ done := by
    clear hy
    induction hl with
    | refl _ => exact hdone (.inl hr)
    | step _ hc _ ih => exact hdone (.inr (hclosed _ ih _ hc))
  exact hclosed x hx y hy

/-- The worklist comes to its end. The induction is on the turns left, which are enough for the blocks that can
still be put there. -/
theorem run (hsane : Sane g dom v) (fuel : Nat) (h : Working g dom v home defs s done placed)
    (hclosed : Closed g dom v home done placed) (hfuel : defs.size + g.size ≤ fuel + done.length) :
    ∃ placed' : List BlockId, (run dom v home fuel s).graph = placed'.foldl (addPhi v) g ∧
      (run dom v home fuel s).count = placed'.length ∧ placed'.Nodup ∧
      ∀ y, y ∈ placed' ↔ Found g dom v home defs y := by
  induction fuel generalizing s done placed with
  | zero =>
    have hempty : s.worklist = [] := by
      have hlength := h.length_le hsane
      rw [← List.length_eq_zero_iff]
      omega
    exact ⟨placed, h.graph, h.count, h.nodup, fun y => h.mem_placed_iff hclosed hempty⟩
  | succ fuel ih =>
    rw [Placement.run]
    cases hwork : s.worklist with
    | nil => exact ⟨placed, h.graph, h.count, h.nodup, fun y => h.mem_placed_iff hclosed hwork⟩
    | cons b rest =>
      have hsplit : done ++ s.worklist = (done ++ [b]) ++ rest := by rw [hwork, List.append_assoc]; rfl
      -- the block moves from the worklist to the blocks that are done
      have htaken : Working g dom v home defs { s with worklist := rest } (done ++ [b]) placed := by
        refine ⟨h.graph, h.count, h.nodup, h.hasPhi, h.queued, ?_, hsplit ▸ h.distinct, h.found⟩
        intro c
        rw [← hsplit]
        exact h.work
      have hb : b ∈ done ++ [b] := List.mem_append_right _ (List.mem_singleton_self b)
      obtain ⟨placed', hturn, hsub, hjoins⟩ :=
        foldl_visit hsane hb (fun j hj => Std.ExtTreeSet.mem_toList.mp hj) htaken
      refine ih hturn (fun c hc j hj => ?_) ?_
      · rcases List.mem_append.mp hc with hc | hc
        · exact hsub (hclosed c hc j hj)
        · rw [List.mem_singleton.mp hc] at hj
          refine hjoins j ?_ hj
          rw [Std.ExtTreeSet.mem_toList]
          exact ((hsane.mem_mergePoints defs).mp hj).1
      · rw [List.length_append, List.length_singleton]
        omega

end Working

end Placement

namespace FlowGraph

/-- Placing the phis of a variable gives one to each block that is found, and counts them. -/
theorem addPhisFor_eq {g : FlowGraph} {dom : Dominance} {v : VarId} (h : Placement.Sane g dom v)
    (sites : DefinitionSites) (count : Nat) :
    addPhisFor dom sites (g, count) v =
      ((g.phiBlocks dom.tree sites v).toList.foldl (addPhi v) g, count + (g.phiBlocks dom.tree sites v).size) := by
  rw [addPhisFor]
  by_cases hfew : (sites.blocksOf v).size < 2
  · rw [phiBlocks, if_pos hfew, if_pos hfew]
    rfl
  · obtain ⟨placed, hgraph, hcount, hnodup, hmem⟩ :=
      (Placement.Working.start g dom v ((sites.declaration? v).getD entry) (sites.blocksOf v)).run h
        ((sites.blocksOf v).size + g.size) nofun (Nat.le_refl _)
    have hperm : placed.Perm (g.phiBlocks dom.tree sites v).toList := by
      refine (List.perm_ext_iff_of_nodup hnodup ((IdSet.pairwise_toList _).imp Nat.ne_of_lt)).mpr fun y => ?_
      rw [hmem, Std.ExtTreeSet.mem_toList, mem_phiBlocks, and_iff_right (Nat.le_of_not_lt hfew)]
      rfl
    rw [if_neg hfew]
    dsimp only
    rw [hgraph, hcount, hperm.foldl_eq, hperm.length_eq, Std.ExtTreeSet.length_toList]

/-- Whatever the graph is like, some blocks get a phi and are counted. -/
theorem exists_placed_addPhisFor (dom : Dominance) (sites : DefinitionSites) (g : FlowGraph) (count : Nat) (v : VarId) :
    ∃ placed : List BlockId, addPhisFor dom sites (g, count) v = (placed.foldl (addPhi v) g, count + placed.length) := by
  rw [addPhisFor]
  split
  · exact ⟨[], rfl⟩
  · obtain ⟨placed, hgraph, hcount⟩ := Placement.exists_placed_run dom v ((sites.declaration? v).getD entry)
      ((sites.blocksOf v).size + g.size) (.start dom v g (sites.blocksOf v))
    refine ⟨placed, ?_⟩
    dsimp only
    rw [hgraph, hcount]
    exact congrArg (fun n => (_, count + n)) (Nat.zero_add _)

/-- Placing phis gives the same ones whatever dominance the graph itself has. -/
theorem addPhisFor_under (dom : Dominance) (sites : DefinitionSites) (d : Option Dominance) (p : FlowGraph × Nat)
    (v : VarId) :
    addPhisFor dom sites (p.map (under d) id) v = (addPhisFor dom sites p v).map (under d) id := by
  obtain ⟨g, count⟩ := p
  rw [Prod.map_apply, addPhisFor, addPhisFor]
  split
  · rfl
  · have hrun := Placement.run_under dom v ((sites.declaration? v).getD entry) d
      ((sites.blocksOf v).size + g.size) (.start dom v g (sites.blocksOf v))
    exact congrArg (fun s => (s.graph, count + s.count)) hrun

theorem foldl_addPhisFor_under (dom : Dominance) (sites : DefinitionSites) (d : Option Dominance) (vs : List VarId)
    (p : FlowGraph × Nat) :
    vs.foldl (addPhisFor dom sites) (p.map (under d) id) = (vs.foldl (addPhisFor dom sites) p).map (under d) id :=
  List.foldl_hom (Prod.map (under d) id) (addPhisFor_under dom sites d)

/-- The graph with phis. That dominance is taken out of the graph meanwhile cannot be seen in it. -/
theorem withPhis_def (g : FlowGraph) :
    g.withPhis =
      match g.dominance with
      | none => .error (.passOrder "insert_phis" "compute_dominance")
      | some dom =>
        match g.gatherDefinitionSites with
        | .error e => .error e
        | .ok sites =>
          let placed := (List.range g.numVars).foldl (addPhisFor dom sites) (g, 0)
          .ok ({ placed.1 with definitionSites := some sites }, placed.2) := by
  rw [withPhis, placePhis]
  cases hdom : g.dominance with
  | none => rfl
  | some dom =>
    dsimp only
    cases g.gatherDefinitionSites with
    | error e => rfl
    | ok sites =>
      have hout := foldl_addPhisFor_under dom sites none (List.range g.numVars) (g, 0)
      have hback := foldl_addPhisFor_under dom sites g.dominance (List.range g.numVars) (g, 0)
      rw [Prod.map_apply, under_dominance] at hback
      rw [Prod.map_apply, under] at hout
      dsimp only [id] at hout hback ⊢
      rw [hout, hback, hdom]
      rfl

end FlowGraph

end SsaFlow
