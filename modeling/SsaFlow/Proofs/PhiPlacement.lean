-- SUMMARY: Phis are placed exactly on the iterated frontiers of definitions, cut where the declaration is dominated.
import Mathlib
import SsaFlow.Proofs.PhiWorklist
import SsaFlow.Proofs.Sites

/-!
# Phi placement is exact

`PhiAt` says by walks alone which blocks get a phi for a variable: those in the iterated frontier of its
declaring and writing blocks that do not dominate its home, provided that there are at least two such
blocks. Placing phis gives every such block one phi per variable, with a slot per live predecessor, and
changes nothing else.
-/

namespace SsaFlow

/-- The joins in the iterated frontier of `defs`, where joins in `cut` do not count. -/
inductive Merges {α : Type} (E : α → α → Prop) (r : α) (defs cut : α → Prop) : α → Prop
  | ofDef {x y : α} : defs x → InFrontier E r x y → ¬ cut y → Merges E r defs cut y
  | ofMerge {x y : α} : Merges E r defs cut x → InFrontier E r x y → ¬ cut y → Merges E r defs cut y

theorem Merges.not_cut {α : Type} {E : α → α → Prop} {r y : α} {defs cut : α → Prop}
    (h : Merges E r defs cut y) : ¬ cut y := by
  cases h with
  | ofDef _ _ hcut | ofMerge _ _ hcut => exact hcut

/-- Every merge point is in some frontier. -/
theorem Merges.exists_inFrontier {α : Type} {E : α → α → Prop} {r y : α} {defs cut : α → Prop}
    (h : Merges E r defs cut y) : ∃ x, InFrontier E r x y := by
  cases h with
  | ofDef _ hxy _ | ofMerge _ hxy _ => exact ⟨_, hxy⟩

namespace IdSet

theorem two_le_size_iff {s : IdSet} : 2 ≤ s.size ↔ ∃ x y, x ≠ y ∧ x ∈ s ∧ y ∈ s := by
  rw [← Std.ExtTreeSet.length_toList]
  have hsorted := pairwise_toList s
  simp only [← Std.ExtTreeSet.mem_toList (t := s)]
  constructor
  · intro hsize
    match hl : s.toList, hsize with
    | x :: y :: rest, _ =>
      rw [hl] at hsorted
      refine ⟨x, y, Nat.ne_of_lt ((List.pairwise_cons.mp hsorted).1 y List.mem_cons_self), ?_, ?_⟩
      · exact List.mem_cons_self
      · exact List.mem_cons_of_mem x List.mem_cons_self
  · rintro ⟨x, y, hne, hx, hy⟩
    match hl : s.toList with
    | [] =>
      rw [hl] at hx
      exact nomatch hx
    | [z] =>
      rw [hl] at hx hy
      exact absurd ((List.mem_singleton.mp hx).trans (List.mem_singleton.mp hy).symm) hne
    | _ :: _ :: _ => exact Nat.le_add_left 2 _

/-- An ascending list is the listing of its members. -/
theorem toList_ofList {xs : List Nat} (h : xs.Pairwise (· < ·)) : (ofList xs).toList = xs := by
  have hnodup : (ofList xs).toList.Nodup := (pairwise_toList _).imp Nat.ne_of_lt
  have hperm : (ofList xs).toList.Perm xs := by
    refine (List.perm_ext_iff_of_nodup hnodup (h.imp Nat.ne_of_lt)).mpr fun x => ?_
    rw [Std.ExtTreeSet.mem_toList, mem_ofList]
  exact hperm.eq_of_pairwise (fun a b _ _ hab hba => absurd hab (Nat.lt_asymm hba))
    (pairwise_toList _) h

end IdSet

namespace FlowGraph

/-- The block declares or writes `v`. -/
def DefBlock (g : FlowGraph) (v : VarId) (b : BlockId) : Prop :=
  ∃ s, s.block = b ∧ (g.Declares v s ∨ g.Writes v s)

/-- The block that declares `v`, or the entry if none does. -/
def Home (g : FlowGraph) (v : VarId) (b : BlockId) : Prop :=
  (∃ s, s.block = b ∧ g.Declares v s) ∨ (∀ s, ¬ g.Declares v s) ∧ b = entry

/-- The definition sites tell where a variable is declared. -/
theorem SitesOf.home_iff {g : FlowGraph} {sites : DefinitionSites} (h : g.SitesOf sites) {v : VarId}
    {b : BlockId} : g.Home v b ↔ b = (sites.declaration? v).getD entry := by
  cases hv : sites.declaration? v with
  | some c =>
    have hc := h.declaration.mp hv
    constructor
    · rintro (hb | ⟨hnone, -⟩)
      · exact Option.some.inj ((h.declaration.mpr hb).symm.trans hv)
      · obtain ⟨s, -, hs⟩ := hc
        exact absurd hs (hnone s)
    · rintro rfl
      exact .inl hc
  | none =>
    have hnone : ∀ s, ¬ g.Declares v s := fun s hs => by
      rw [h.declaration.mpr ⟨s, rfl, hs⟩] at hv
      exact nomatch hv
    constructor
    · rintro (⟨s, -, hs⟩ | ⟨-, rfl⟩)
      · exact absurd hs (hnone s)
      · rfl
    · rintro rfl
      exact .inr ⟨hnone, rfl⟩

theorem Home.reachable {g : FlowGraph} {v : VarId} {b : BlockId} (h : g.Home v b) :
    Reachable g.Edge entry b := by
  rcases h with ⟨s, rfl, hs⟩ | ⟨-, rfl⟩
  · exact hs.1
  · exact .root

/-- The block is a merge point of `v`. -/
def PhiAt (g : FlowGraph) (v : VarId) (b : BlockId) : Prop :=
  (∃ x y, x ≠ y ∧ g.DefBlock v x ∧ g.DefBlock v y) ∧
    ∃ home, g.Home v home ∧ Merges g.Edge entry (g.DefBlock v) (Dominates g.Edge entry · home) b

/-! ## Merge points of one variable -/

section MergePoints

variable {g : FlowGraph} {E : BlockId → BlockId → Prop} {tree : DominatorTree} {v : VarId} {x y : BlockId}

/-- Without phis in the graph, the joins of a block are its frontier without the blocks that
dominate the home. -/
theorem mem_mergePoints (hfrontier : ∀ {x y}, y ∈ g.frontier x ↔ InFrontier E entry x y)
    (hnone : ∀ b, (g.block b).phiFor? v = none) {home : BlockId} :
    y ∈ g.mergePoints tree v home x ↔ InFrontier E entry x y ∧ ¬ tree.dominates y home = true := by
  rw [mergePoints, List.mem_filter, Std.ExtTreeSet.mem_toList, hfrontier, hnone]
  simp

/-- What is found from the definition blocks is the iterated frontier. -/
theorem merges_iff (hfrontier : ∀ {x y}, y ∈ g.frontier x ↔ InFrontier E entry x y)
    (hlt : ∀ {b}, Reachable E entry b → b < g.size) (hnone : ∀ b, (g.block b).phiFor? v = none)
    (tree : DominatorTree) (home : BlockId) (defs : IdSet) :
    (∃ x s, s ∈ defs ∧ DepthFirst.Leads (g.mergePoints tree v home) g.size s x ∧
        y ∈ g.mergePoints tree v home x) ↔
      Merges E entry (· ∈ defs) (tree.dominates · home = true) y := by
  have hmem : ∀ {x y}, y ∈ g.mergePoints tree v home x ↔
      InFrontier E entry x y ∧ ¬ tree.dominates y home = true := mem_mergePoints hfrontier hnone
  constructor
  · rintro ⟨x, s, hs, hl, hy⟩
    -- a block on the way is a definition block or a merge point itself
    have hx : x ∈ defs ∨ Merges E entry (· ∈ defs) (tree.dominates · home = true) x := by
      clear hy
      induction hl with
      | refl _ => exact .inl hs
      | step _ hc _ ih =>
        rw [hmem] at hc
        rcases ih with hb | hb
        · exact .inr (.ofDef hb hc.1 hc.2)
        · exact .inr (.ofMerge hb hc.1 hc.2)
    rw [hmem] at hy
    rcases hx with hx | hx
    · exact .ofDef hx hy.1 hy.2
    · exact .ofMerge hx hy.1 hy.2
  · intro hy
    induction hy with
    | @ofDef x y hx hxy hnot =>
      obtain ⟨p, hp, -, hdom, -⟩ := id hxy
      exact ⟨x, x, hx, .refl (hlt (hdom.reachable hp)), hmem.mpr ⟨hxy, hnot⟩⟩
    | @ofMerge x y _ hxy hnot ih =>
      obtain ⟨w, s, hs, hl, hx⟩ := ih
      obtain ⟨p, hp, he, -⟩ := (hmem.mp hx).1
      exact ⟨x, s, hs, .step hl hx (hlt (hp.step he)), hmem.mpr ⟨hxy, hnot⟩⟩

/-- Phis belong on the iterated frontier of at least two blocks, cut where the home is dominated. A home that
cannot be reached has no place in the tree, so nothing is cut for it. -/
theorem mem_phiBlocks_iff (hexact : tree.Exact E)
    (hfrontier : ∀ {x y}, y ∈ g.frontier x ↔ InFrontier E entry x y)
    (hlt : ∀ {b}, Reachable E entry b → b < g.size) (hnone : ∀ b, (g.block b).phiFor? v = none)
    {sites : DefinitionSites} {defs isHome : BlockId → Prop} (hdefs : ∀ {b}, b ∈ sites.blocksOf v ↔ defs b)
    (hhome : ∀ {b}, isHome b ↔ b = (sites.declaration? v).getD entry) :
    y ∈ g.phiBlocks tree sites v ↔ (∃ a b, a ≠ b ∧ defs a ∧ defs b) ∧ ∃ home, isHome home ∧
      Merges E entry defs (fun z => Reachable E entry home ∧ Dominates E entry z home) y := by
  have hcut : (tree.dominates · ((sites.declaration? v).getD entry) = true) = fun z =>
      Reachable E entry ((sites.declaration? v).getD entry) ∧
        Dominates E entry z ((sites.declaration? v).getD entry) :=
    funext fun z => propext hexact.dominates_iff
  have hfound := merges_iff (y := y) hfrontier hlt hnone tree ((sites.declaration? v).getD entry) (sites.blocksOf v)
  have hsize := IdSet.two_le_size_iff (s := sites.blocksOf v)
  simp only [hcut, hdefs] at hfound hsize
  simp only [mem_phiBlocks, hdefs, hhome, exists_eq_left, ← hfound, ← hsize]

end MergePoints

theorem Analysed.mem_phiBlocks {g : FlowGraph} {order : List BlockId} {tree : DominatorTree}
    (h : g.Analysed order tree) {sites : DefinitionSites} (hsites : g.SitesOf sites) {v : VarId}
    (hnone : ∀ b, (g.block b).phiFor? v = none) {b : BlockId} :
    b ∈ g.phiBlocks tree sites v ↔ g.PhiAt v b := by
  rw [mem_phiBlocks_iff h.exact h.mem_frontier h.reachable_lt hnone hsites.mem_blocksOf hsites.home_iff]
  refine and_congr_right fun _ => exists_congr fun home => and_congr_right fun hhome => ?_
  simp only [hhome.reachable, true_and]
  rfl

/-! ## Graphs that differ in their phis -/

/-- The second graph is the first with other phis. -/
structure PhisOnly (g g' : FlowGraph) : Prop where
  size : g'.size = g.size
  numVars : g'.numVars = g.numVars
  reachable : g'.reachable = g.reachable
  depths : g'.depths = g.depths
  dominance : g'.dominance = g.dominance
  block : ∀ b, ∃ phis, g'.block b = { g.block b with phis := phis }

namespace PhisOnly

variable {g g' g'' : FlowGraph}

theorem refl (g : FlowGraph) : PhisOnly g g :=
  ⟨rfl, rfl, rfl, rfl, rfl, fun b => ⟨(g.block b).phis, rfl⟩⟩

theorem trans (h : PhisOnly g g') (k : PhisOnly g' g'') : PhisOnly g g'' where
  size := k.size.trans h.size
  numVars := k.numVars.trans h.numVars
  reachable := k.reachable.trans h.reachable
  depths := k.depths.trans h.depths
  dominance := k.dominance.trans h.dominance
  block := by
    intro b
    obtain ⟨phis, hphis⟩ := h.block b
    obtain ⟨phis', hphis'⟩ := k.block b
    exact ⟨phis', by rw [hphis', hphis]⟩

theorem jump (h : PhisOnly g g') (b : BlockId) : g'.jump b = g.jump b := by
  obtain ⟨phis, hphis⟩ := h.block b
  rw [FlowGraph.jump, hphis]
  rfl

theorem instrs (h : PhisOnly g g') (b : BlockId) : (g'.block b).instrs = (g.block b).instrs := by
  obtain ⟨phis, hphis⟩ := h.block b
  rw [hphis]

theorem preds (h : PhisOnly g g') (b : BlockId) : (g'.block b).preds = (g.block b).preds := by
  obtain ⟨phis, hphis⟩ := h.block b
  rw [hphis]

theorem removed (h : PhisOnly g g') (b : BlockId) : (g'.block b).removed = (g.block b).removed := by
  obtain ⟨phis, hphis⟩ := h.block b
  rw [hphis]

/-- Graphs that differ in phis have the same control flow. -/
theorem sameFlow (h : PhisOnly g g') : SameFlow g g' where
  size := h.size
  targets b := by rw [targets, h.jump, targets]
  preds := h.preds
  removed := h.removed

theorem edge (h : PhisOnly g g') : g'.Edge = g.Edge := h.sameFlow.edge

theorem livePredecessors (h : PhisOnly g g') (b : BlockId) :
    g'.livePredecessors b = g.livePredecessors b := congrFun h.sameFlow.livePredecessors b

theorem frontier (h : PhisOnly g g') (b : BlockId) : g'.frontier b = g.frontier b := by
  rw [FlowGraph.frontier, h.dominance, FlowGraph.frontier]

/-- Phis for other variables do not matter. -/
theorem phiBlocks (h : PhisOnly g g') {v : VarId} (hv : ∀ b, (g'.block b).phiFor? v = (g.block b).phiFor? v)
    (tree : DominatorTree) (sites : DefinitionSites) :
    g'.phiBlocks tree sites v = g.phiBlocks tree sites v := by
  have hpoints : g'.mergePoints tree v = g.mergePoints tree v := by
    funext home b
    unfold mergePoints
    simp only [h.frontier, hv]
  unfold FlowGraph.phiBlocks
  rw [hpoints, h.size]

theorem instr? (h : PhisOnly g g') (s : Site) : g'.instr? s = g.instr? s := by
  obtain ⟨b, p⟩ := s
  cases p with
  | phi | exit => rfl
  | instr k => rw [FlowGraph.instr?, h.instrs, FlowGraph.instr?]

theorem declares (h : PhisOnly g g') : g'.Declares = g.Declares := by
  funext v s
  rw [Declares, h.edge, h.instr?, Declares]

theorem writes (h : PhisOnly g g') : g'.Writes = g.Writes := by
  funext v s
  rw [Writes, h.edge, h.instr?, Writes]

theorem defBlock (h : PhisOnly g g') : g'.DefBlock = g.DefBlock := by
  funext v b
  simp only [DefBlock, h.declares, h.writes]

theorem phiAt (h : PhisOnly g g') : g'.PhiAt = g.PhiAt := by
  funext v b
  simp only [PhiAt, Home, h.defBlock, h.declares, h.edge]

theorem varsInRange (h : PhisOnly g g') (hg : g.VarsInRange) : g'.VarsInRange := by
  intro b hb i hi v hv
  rw [h.edge] at hb
  rw [h.instrs] at hi
  rw [h.numVars]
  exact hg b hb i hi v hv

/-- Phis are no definition sites. -/
theorem sitesOf (h : PhisOnly g g') {sites : DefinitionSites} (hsites : g.SitesOf sites) :
    g'.SitesOf sites := by
  constructor
  · intro v b
    rw [h.declares, h.writes]
    exact hsites.mem_blocksOf
  · intro v b
    rw [h.declares]
    exact hsites.declaration
  · intro v s t
    rw [h.declares]
    exact hsites.once

theorem gatherDefinitionSites (h : PhisOnly g g') : g'.gatherDefinitionSites = g.gatherDefinitionSites := by
  have hsame : g'.gatherSites = g.gatherSites := gatherSites_congr fun b d => by rw [h.instrs]
  unfold FlowGraph.gatherDefinitionSites
  rw [h.reachable, h.numVars, hsame]

theorem linked (h : PhisOnly g g') (hg : g.Linked) : g'.Linked :=
  SameEdges.linked ⟨h.size, fun b => by rw [h.jump], h.preds⟩ hg

theorem analysed (h : PhisOnly g g') {order : List BlockId} {tree : DominatorTree}
    (hg : g.Analysed order tree) : g'.Analysed order tree :=
  h.sameFlow.analysed hg (h.linked hg.toLinked) h.reachable h.depths h.dominance

end PhisOnly

/-! ## Adding phis -/

theorem phisOnly_addPhi (v : VarId) (g : FlowGraph) (b : BlockId) : PhisOnly g (g.addPhi v b) := by
  refine ⟨size_modify _ _ _, rfl, rfl, rfl, rfl, fun c => ?_⟩
  rw [addPhi, block_modify]
  split
  · exact ⟨_, rfl⟩
  · exact ⟨_, rfl⟩

theorem phisOnly_foldl_addPhi (v : VarId) (joins : List BlockId) (g : FlowGraph) :
    PhisOnly g (joins.foldl (addPhi v) g) := by
  induction joins generalizing g with
  | nil => exact .refl g
  | cons b joins ih => exact (phisOnly_addPhi v g b).trans (ih _)

theorem phisOnly_foldl_addPhisFor (dom : Dominance) (sites : DefinitionSites) (vs : List VarId)
    (g : FlowGraph) (count : Nat) : PhisOnly g (vs.foldl (addPhisFor dom sites) (g, count)).1 := by
  induction vs generalizing g count with
  | nil => exact .refl g
  | cons v vs ih =>
    obtain ⟨placed, hplaced⟩ := exists_placed_addPhisFor dom sites g count v
    rw [List.foldl_cons, hplaced]
    exact (phisOnly_foldl_addPhi v placed g).trans (ih _ _)

/-- Placing phis changes nothing else, and leaves the definition sites that it has gathered. -/
theorem phisOnly_withPhis {g g' : FlowGraph} {n : Nat} (h : g.withPhis = .ok (g', n)) :
    PhisOnly g g' ∧ ∃ sites, g.gatherDefinitionSites = .ok sites ∧ g'.definitionSites = some sites := by
  rw [withPhis_def] at h
  split at h
  · cases h
  · next dom _ =>
    split at h
    · cases h
    · next sites hgather =>
      cases h
      have hphis := phisOnly_foldl_addPhisFor dom sites (List.range g.numVars) g 0
      exact ⟨⟨hphis.size, hphis.numVars, hphis.reachable, hphis.depths, hphis.dominance, hphis.block⟩,
        sites, hgather, rfl⟩

def phiCount (g : FlowGraph) : Nat := ∑ b ∈ Finset.range g.size, (g.block b).phis.length

/-- An added phi is counted once. -/
theorem phiCount_addPhi (v : VarId) (g : FlowGraph) {b : BlockId} (hb : b < g.size) :
    (g.addPhi v b).phiCount = g.phiCount + 1 := by
  have hlength : ∀ c, ((g.addPhi v b).block c).phis.length =
      (g.block c).phis.length + if b = c then 1 else 0 := by
    intro c
    rw [addPhi, block_modify]
    by_cases hbc : b = c
    · subst hbc
      simp [hb]
    · simp [hbc]
  simp only [phiCount, hlength, (phisOnly_addPhi v g b).size, Finset.sum_add_distrib]
  rw [Finset.sum_ite_eq, if_pos (Finset.mem_range.mpr hb)]

/-- Every listed block gets one phi for the variable. -/
theorem foldl_addPhi (v : VarId) (g : FlowGraph) {joins : List BlockId} (hnodup : joins.Nodup)
    (hlt : ∀ b ∈ joins, b < g.size) :
    (joins.foldl (addPhi v) g).phiCount = g.phiCount + joins.length ∧
      ∀ c, ((joins.foldl (addPhi v) g).block c).phis =
        (g.block c).phis ++ if c ∈ joins then [Phi.ofPreds v (g.livePredecessors c)] else [] := by
  induction joins generalizing g with
  | nil => exact ⟨rfl, fun c => by simp⟩
  | cons b joins ih =>
    rw [List.nodup_cons] at hnodup
    have hone := phisOnly_addPhi v g b
    obtain ⟨hcount, hphis⟩ := ih (g.addPhi v b) hnodup.2 fun c hc => by
      rw [hone.size]
      exact hlt c (List.mem_cons_of_mem b hc)
    have hstep := phiCount_addPhi v g (hlt b List.mem_cons_self)
    refine ⟨?_, fun c => ?_⟩
    · rw [List.foldl_cons, hcount, hstep, List.length_cons]
      omega
    rw [List.foldl_cons, hphis c, hone.livePredecessors, addPhi, block_modify]
    by_cases hcb : b = c
    · subst hcb
      simp [hlt b List.mem_cons_self, hnodup.1]
    · simp [hcb, Ne.symm hcb]

/-- Phis go into frontiers only. -/
theorem exists_frontier_of_mem_phiBlocks {g : FlowGraph} {tree : DominatorTree} {sites : DefinitionSites} {v : VarId}
    {b : BlockId} (h : b ∈ g.phiBlocks tree sites v) : ∃ x, b ∈ g.frontier x := by
  obtain ⟨-, x, -, -, -, hb⟩ := mem_phiBlocks.mp h
  exact ⟨x, Std.ExtTreeSet.mem_toList.mp (List.mem_filter.mp hb).1⟩

/-- The phis of the variables in a list are added in the order of the list. -/
theorem foldl_addPhisFor {g : FlowGraph} {dom : Dominance} (hdom : g.dominance = some dom) (sites : DefinitionSites)
    (hlt : ∀ {x y}, y ∈ g.frontier x → x < g.size ∧ y < g.size) {vs : List VarId} (hnodup : vs.Nodup)
    (hnone : ∀ v ∈ vs, ∀ b, (g.block b).phiFor? v = none) (count : Nat) :
    (vs.foldl (addPhisFor dom sites) (g, count)).2 + g.phiCount =
        count + (vs.foldl (addPhisFor dom sites) (g, count)).1.phiCount ∧
      ∀ b, ((vs.foldl (addPhisFor dom sites) (g, count)).1.block b).phis =
        (g.block b).phis ++ (vs.filter fun v => b ∈ g.phiBlocks dom.tree sites v).map fun v =>
          Phi.ofPreds v (g.livePredecessors b) := by
  induction vs generalizing g count with
  | nil => exact ⟨rfl, fun b => by simp⟩
  | cons v vs ih =>
    rw [List.nodup_cons] at hnodup
    have hjoins : (g.phiBlocks dom.tree sites v).toList.Nodup := (IdSet.pairwise_toList _).imp Nat.ne_of_lt
    have hone := phisOnly_foldl_addPhi v (g.phiBlocks dom.tree sites v).toList g
    obtain ⟨hcount, hphis⟩ := foldl_addPhi v g hjoins fun b hb => by
      obtain ⟨x, hx⟩ := exists_frontier_of_mem_phiBlocks (Std.ExtTreeSet.mem_toList.mp hb)
      exact (hlt hx).2
    have hsane : Placement.Sane g dom v :=
      ⟨hdom, hlt, fun _ hphi => by rw [hnone v List.mem_cons_self] at hphi; cases hphi⟩
    rw [List.foldl_cons, addPhisFor_eq hsane]
    generalize (g.phiBlocks dom.tree sites v).toList.foldl (addPhi v) g = g' at hone hcount hphis
    have hlt' : ∀ {x y}, y ∈ g'.frontier x → x < g'.size ∧ y < g'.size := by
      intro x y hy
      rw [hone.frontier] at hy
      rw [hone.size]
      exact hlt hy
    have hnone' : ∀ w ∈ vs, ∀ b, (g'.block b).phiFor? w = none := by
      intro w hw b
      have hvw : v ≠ w := fun heq => hnodup.1 (heq ▸ hw)
      have hold := hnone w (List.mem_cons_of_mem v hw) b
      rw [Block.phiFor?] at hold ⊢
      rw [hphis b, List.find?_append, hold]
      split
      · simp [Phi.var, Phi.ofPreds, hvw]
      · rfl
    -- the phis of `v` do not move the merge points of the variables that follow
    have hsame : ∀ w ∈ vs, g'.phiBlocks dom.tree sites w = g.phiBlocks dom.tree sites w := by
      intro w hw
      refine hone.phiBlocks (fun c => ?_) dom.tree sites
      rw [hnone' w hw, hnone w (List.mem_cons_of_mem v hw)]
    obtain ⟨htotal, hrest⟩ := ih (hone.dominance.trans hdom) hlt' hnodup.2 hnone'
      (count + (g.phiBlocks dom.tree sites v).size)
    refine ⟨?_, fun b => ?_⟩
    · rw [hcount, Std.ExtTreeSet.length_toList] at htotal
      omega
    · refine (hrest b).trans ?_
      rw [List.filter_congr fun w hw => by rw [hsame w hw], hphis b, hone.livePredecessors, List.append_assoc]
      simp only [Std.ExtTreeSet.mem_toList, List.filter_cons, decide_eq_true_eq]
      split <;> rfl

theorem preds_ofPreds (g : FlowGraph) (v : VarId) (b : BlockId) :
    (Phi.ofPreds v (g.livePredecessors b)).preds = g.livePredecessors b := by
  have hsorted : (g.livePredecessors b).Pairwise (· < ·) := (IdSet.pairwise_toList _).filter _
  rw [Phi.ofPreds, Phi.preds, IdSet.toList_ofList hsorted, List.map_map]
  exact List.map_id'' (fun _ => rfl) _

/-! ## Graphs with their phis -/

/-- A graph in which every merge point of a variable has one phi for it, with a slot for every live
predecessor. -/
structure Placed (g : FlowGraph) (order : List BlockId) (tree : DominatorTree) : Prop
    extends g.Analysed order tree where
  once : ∀ {v : VarId} {s t : Site}, g.Declares v s → g.Declares v t → s = t
  slots : ∀ {b : BlockId} {φ : Phi}, φ ∈ (g.block b).phis → φ.preds = g.livePredecessors b
  var_lt : ∀ {b : BlockId} {φ : Phi}, φ ∈ (g.block b).phis → φ.var < g.numVars
  phis_nodup : ∀ b, ((g.block b).phis.map Phi.var).Nodup
  phi_iff : ∀ {v : VarId} {b : BlockId}, (∃ φ ∈ (g.block b).phis, φ.var = v) ↔ g.PhiAt v b

theorem PhiAt.lt {g : FlowGraph} (hvars : g.VarsInRange) {v : VarId} {b : BlockId} (h : g.PhiAt v b) :
    v < g.numVars := by
  obtain ⟨⟨x, -, -, ⟨s, -, hs⟩, -⟩, -⟩ := h
  rcases hs with ⟨hs, hi⟩ | ⟨hs, i, w, hi, hw, rfl⟩
  · exact hvars.lt_of_subject hs hi rfl
  · exact hvars.lt_of_subject hs hi (Instr.subject?_eq_some.mpr (.inr ⟨w, hw, rfl⟩))

/-- A variable has one home. -/
theorem Placed.home_unique {g : FlowGraph} {order : List BlockId} {tree : DominatorTree}
    (h : g.Placed order tree) {v : VarId} {b c : BlockId} (hb : g.Home v b) (hc : g.Home v c) : b = c := by
  rcases hb with ⟨s, rfl, hs⟩ | ⟨hnone, rfl⟩ <;> rcases hc with ⟨t, rfl, ht⟩ | ⟨hnone', rfl⟩
  · rw [h.once hs ht]
  · exact absurd hs (hnone' s)
  · exact absurd ht (hnone t)
  · rfl

/-- A block that dominates the home of a variable has no phi for it. -/
theorem Placed.not_phiAt_of_dominates {g : FlowGraph} {order : List BlockId} {tree : DominatorTree}
    (h : g.Placed order tree) {v : VarId} {b home : BlockId} (hhome : g.Home v home)
    (hdom : Dominates g.Edge entry b home) : ¬ g.PhiAt v b := by
  rintro ⟨-, home', hhome', hmerges⟩
  rw [h.home_unique hhome' hhome] at hmerges
  exact hmerges.not_cut hdom

/-- From a definition block no merge point without a phi is found. -/
theorem Placed.mergePoints_eq_nil {g : FlowGraph} {order : List BlockId} {tree : DominatorTree}
    (h : g.Placed order tree) {v : VarId} {home b : BlockId}
    (htwo : ∃ x y, x ≠ y ∧ g.DefBlock v x ∧ g.DefBlock v y) (hhome : g.Home v home) (hb : g.DefBlock v b) :
    g.mergePoints tree v home b = [] := by
  refine List.filter_eq_nil_iff.mpr fun join hjoin => ?_
  rw [Std.ExtTreeSet.mem_toList, h.mem_frontier] at hjoin
  by_cases hdom : Dominates g.Edge entry join home
  · simp [h.exact.dominates_iff.mpr ⟨hhome.reachable, hdom⟩]
  · obtain ⟨φ, hφ, hvar⟩ := h.phi_iff.mpr ⟨htwo, home, hhome, .ofDef hb hjoin hdom⟩
    have hfound : ((g.block join).phiFor? v).isSome = true :=
      List.find?_isSome.mpr ⟨φ, hφ, beq_iff_eq.mpr hvar⟩
    simp [hfound]

/-- A variable whose merge points have their phis gets no more. -/
theorem Placed.phiBlocks_eq_empty {g : FlowGraph} {order : List BlockId} {tree : DominatorTree}
    (h : g.Placed order tree) {sites : DefinitionSites} (hsites : g.SitesOf sites) (v : VarId) :
    g.phiBlocks tree sites v = ∅ := by
  refine IdSet.ext_mem fun b => ⟨fun hb => ?_, fun hb => absurd hb Std.ExtTreeSet.not_mem_empty⟩
  obtain ⟨htwo, x, s, hs, hl, hb⟩ := mem_phiBlocks.mp hb
  generalize hhome : (sites.declaration? v).getD entry = home at hl hb
  have hstop : g.mergePoints tree v home s = [] := by
    obtain ⟨y, z, hne, hy, hz⟩ := IdSet.two_le_size_iff.mp htwo
    exact h.mergePoints_eq_nil ⟨y, z, hne, hsites.mem_blocksOf.mp hy, hsites.mem_blocksOf.mp hz⟩
      (hsites.home_iff.mpr hhome.symm) (hsites.mem_blocksOf.mp hs)
  -- so the search does not leave the definition blocks
  have hstay : x = s := by
    clear hb
    induction hl with
    | refl => rfl
    | step _ hc _ ih =>
      rw [ih, hstop] at hc
      exact nomatch hc
  rw [hstay, hstop] at hb
  exact nomatch hb

/-- Placing phis where they are placed adds none. -/
theorem Placed.withPhis_self {g : FlowGraph} {order : List BlockId} {tree : DominatorTree}
    (h : g.Placed order tree) {sites : DefinitionSites} (hgather : g.gatherDefinitionSites = .ok sites)
    (hsites : g.SitesOf sites) : g.withPhis = .ok ({ g with definitionSites := some sites }, 0) := by
  obtain ⟨frontiers, hdominance⟩ := h.dominance
  have hfold : ∀ vs : List VarId, vs.foldl (addPhisFor ⟨tree, frontiers⟩ sites) (g, 0) = (g, 0) := by
    intro vs
    induction vs with
    | nil => rfl
    | cons v vs ih =>
      have hsane : Placement.Sane g ⟨tree, frontiers⟩ v :=
        ⟨hdominance, h.lt_of_mem_frontier, fun hy _ => h.exact.mem_order.mpr (h.mem_frontier.mp hy).reachable.2⟩
      rw [List.foldl_cons, addPhisFor_eq hsane, h.phiBlocks_eq_empty hsites]
      exact ih
  simp only [withPhis_def, hdominance, hgather, hfold]

/-- The open phis that belong into a block, one for each variable that merges there. -/
def phisAt (g : FlowGraph) (tree : DominatorTree) (sites : DefinitionSites) (b : BlockId) : List Phi :=
  ((List.range g.numVars).filter fun v => b ∈ g.phiBlocks tree sites v).map fun v =>
    Phi.ofPreds v (g.livePredecessors b)

section PhisAt

variable {g : FlowGraph} {tree : DominatorTree} {sites : DefinitionSites} {b : BlockId}

theorem mem_phisAt {φ : Phi} : φ ∈ g.phisAt tree sites b ↔
    ∃ v, v < g.numVars ∧ b ∈ g.phiBlocks tree sites v ∧ φ = Phi.ofPreds v (g.livePredecessors b) := by
  simp only [phisAt, List.mem_map, List.mem_filter, List.mem_range, decide_eq_true_eq]
  constructor
  · rintro ⟨v, ⟨hv, hb⟩, rfl⟩
    exact ⟨v, hv, hb, rfl⟩
  · rintro ⟨v, hv, hb, rfl⟩
    exact ⟨v, ⟨hv, hb⟩, rfl⟩

/-- A block gets a phi for the variables that merge there. -/
theorem exists_mem_phisAt {v : VarId} :
    (∃ φ ∈ g.phisAt tree sites b, φ.var = v) ↔ v < g.numVars ∧ b ∈ g.phiBlocks tree sites v := by
  constructor
  · rintro ⟨φ, hφ, rfl⟩
    obtain ⟨w, hw, hb, rfl⟩ := mem_phisAt.mp hφ
    exact ⟨hw, hb⟩
  · exact fun hv => ⟨_, mem_phisAt.mpr ⟨v, hv.1, hv.2, rfl⟩, rfl⟩

/-- No block gets two phis for a variable. -/
theorem nodup_vars_phisAt (g : FlowGraph) (tree : DominatorTree) (sites : DefinitionSites) (b : BlockId) :
    ((g.phisAt tree sites b).map Phi.var).Nodup := by
  rw [phisAt, List.map_map]
  exact (List.map_id'' (fun _ => rfl) _).symm ▸ List.nodup_range.filter _

end PhisAt

/-- Placing phis succeeds once the definition sites are known; every block gets its phis. -/
theorem withPhis_eq {g : FlowGraph} {dom : Dominance} (hdominance : g.dominance = some dom)
    (hlt : ∀ {x y}, y ∈ g.frontier x → x < g.size ∧ y < g.size) (hempty : ∀ b, (g.block b).phis = [])
    {sites : DefinitionSites} (hgather : g.gatherDefinitionSites = .ok sites) :
    ∃ g', g.withPhis = .ok (g', g'.phiCount) ∧ PhisOnly g g' ∧
      ∀ b, (g'.block b).phis = g.phisAt dom.tree sites b := by
  have honly := phisOnly_foldl_addPhisFor dom sites (List.range g.numVars) g 0
  obtain ⟨hcount, hphis⟩ := foldl_addPhisFor hdominance sites hlt (List.nodup_range (n := g.numVars))
    (fun v _ b => by rw [Block.phiFor?, hempty]; rfl) 0
  generalize hfold : (List.range g.numVars).foldl (addPhisFor dom sites) (g, 0) = result
    at honly hcount hphis
  have hnone : g.phiCount = 0 := by simp [phiCount, hempty]
  refine ⟨{ result.1 with definitionSites := some sites }, ?_,
    ⟨honly.size, honly.numVars, honly.reachable, honly.depths, honly.dominance, honly.block⟩, fun b => ?_⟩
  · rw [hnone, Nat.add_zero, Nat.zero_add] at hcount
    rw [withPhis_def, hdominance]
    dsimp only
    rw [hgather]
    dsimp only
    rw [hfold, hcount]
    rfl
  · refine (hphis b).trans ?_
    rw [hempty b]
    rfl

/-- Placing phis succeeds when no variable is declared twice, and it puts them where they belong. -/
theorem Analysed.withPhis {g : FlowGraph} {order : List BlockId} {tree : DominatorTree}
    (h : g.Analysed order tree) (hvars : g.VarsInRange) (hempty : ∀ b, (g.block b).phis = [])
    {sites : DefinitionSites} (hgather : g.gatherDefinitionSites = .ok sites)
    (hsites : g.SitesOf sites) :
    ∃ g' count, g.withPhis = .ok (g', count) ∧ PhisOnly g g' ∧ g'.Placed order tree := by
  obtain ⟨frontiers, hdominance⟩ := h.dominance
  have hmem : ∀ {v b}, b ∈ g.phiBlocks tree sites v ↔ g.PhiAt v b := fun {v b} =>
    h.mem_phiBlocks hsites fun b => by rw [Block.phiFor?, hempty]; rfl
  obtain ⟨g', hok, honly, hphis⟩ := withPhis_eq hdominance h.lt_of_mem_frontier hempty hgather
  refine ⟨g', g'.phiCount, hok, honly, honly.analysed h, (honly.sitesOf hsites).once, ?_, ?_, ?_, ?_⟩
  · intro b φ hφ
    rw [hphis] at hφ
    obtain ⟨v, -, -, rfl⟩ := mem_phisAt.mp hφ
    rw [honly.livePredecessors]
    exact g.preds_ofPreds v b
  · intro b φ hφ
    rw [hphis] at hφ
    obtain ⟨v, hv, -, rfl⟩ := mem_phisAt.mp hφ
    rw [honly.numVars]
    exact hv
  · intro b
    rw [hphis]
    exact g.nodup_vars_phisAt tree sites b
  · intro v b
    rw [honly.phiAt, hphis, exists_mem_phisAt, hmem]
    exact and_iff_right_of_imp (PhiAt.lt hvars)

end FlowGraph

end SsaFlow
