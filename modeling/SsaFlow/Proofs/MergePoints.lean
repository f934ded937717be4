-- SUMMARY: Whatever was removed before, a pruned and analysed graph gets its phis exactly where its listed code merges.
import Mathlib
import SsaFlow.Proofs.Unrewired

/-!
# Merge points of listed code

Phis are placed by what the listed blocks declare and write, and by the dominance along flows. Where removed
blocks are left alone the listed blocks are the reachable ones, and the merge points are those of `PhiAt`
(`FlowGraph.mergesIn_iff`). In other graphs a listed block may be out of reach: what it declares and writes counts
like the rest, but it has no frontier, and as a home it is dominated by no block.
-/

namespace SsaFlow

namespace FlowGraph

def DeclaredIn (g : FlowGraph) (order : List BlockId) (v : VarId) (b : BlockId) : Prop :=
  b ∈ order ∧ .declare v ∈ (g.block b).instrs

def DefinedIn (g : FlowGraph) (order : List BlockId) (v : VarId) (b : BlockId) : Prop :=
  b ∈ order ∧ ∃ i ∈ (g.block b).instrs, i.subject? = some v

/-- The listed block that declares `v`, or the entry if none does. -/
def HomeIn (g : FlowGraph) (order : List BlockId) (v : VarId) (b : BlockId) : Prop :=
  g.DeclaredIn order v b ∨ (∀ c, ¬ g.DeclaredIn order v c) ∧ b = entry

/-- The block is a merge point of `v`: it is in the iterated frontier of the listed blocks that declare or write
`v`, of which there are at least two, where blocks that dominate the home do not count. -/
def MergesIn (g : FlowGraph) (order : List BlockId) (v : VarId) (b : BlockId) : Prop :=
  (∃ x y, x ≠ y ∧ g.DefinedIn order v x ∧ g.DefinedIn order v y) ∧
    ∃ home, g.HomeIn order v home ∧ Merges g.Flows entry (g.DefinedIn order v)
      (fun y => Reachable g.Flows entry home ∧ Dominates g.Flows entry y home) b

end FlowGraph

/-! ## Sites of listed code -/

namespace DefinitionSites.Gathered

open FlowGraph

variable {g : FlowGraph} {order : List BlockId} {sites : DefinitionSites} {v : VarId} {b : BlockId}

/-- The gathered sites are the listed blocks that declare or write the variable. -/
theorem mem_blocksOf_iff (h : sites.Gathered g.numVars (g.code order))
    (hrange : ∀ p ∈ g.code order, ∀ {v}, p.2.subject? = some v → v < g.numVars) :
    b ∈ sites.blocksOf v ↔ g.DefinedIn order v b := by
  rw [h.blocks]
  constructor
  · rintro ⟨-, s, i, hi, rfl, hv⟩
    obtain ⟨hs, hi⟩ := mem_code.mp hi
    obtain ⟨b, k, rfl⟩ := exists_of_instr? hi
    exact ⟨hs, i, Array.mem_of_getElem? hi, hv⟩
  · rintro ⟨hb, i, hi, hv⟩
    obtain ⟨k, hk⟩ := Array.mem_iff_getElem?.mp hi
    have hcode : (⟨b, .instr k⟩, i) ∈ g.code order := mem_code.mpr ⟨hb, hk⟩
    exact ⟨hrange _ hcode hv, _, i, hcode, rfl, hv⟩

theorem declaration?_iff (h : sites.Gathered g.numVars (g.code order))
    (hrange : ∀ p ∈ g.code order, ∀ {v}, p.2.subject? = some v → v < g.numVars) :
    sites.declaration? v = some b ↔ g.DeclaredIn order v b := by
  rw [h.declared]
  constructor
  · rintro ⟨-, s, hs, rfl⟩
    obtain ⟨hs, hi⟩ := mem_code.mp hs
    obtain ⟨b, k, rfl⟩ := exists_of_instr? hi
    exact ⟨hs, Array.mem_of_getElem? hi⟩
  · rintro ⟨hb, hi⟩
    obtain ⟨k, hk⟩ := Array.mem_iff_getElem?.mp hi
    have hcode : (⟨b, .instr k⟩, .declare v) ∈ g.code order := mem_code.mpr ⟨hb, hk⟩
    exact ⟨hrange _ hcode rfl, _, hcode, rfl⟩

theorem homeIn_iff (h : sites.Gathered g.numVars (g.code order))
    (hrange : ∀ p ∈ g.code order, ∀ {v}, p.2.subject? = some v → v < g.numVars) :
    g.HomeIn order v b ↔ b = (sites.declaration? v).getD entry := by
  unfold HomeIn
  simp only [← h.declaration?_iff hrange]
  cases sites.declaration? v <;> simp [eq_comm]

end DefinitionSites.Gathered

/-! ## Placement -/

namespace FlowGraph

section Listed

variable {g : FlowGraph} {order : List BlockId}

/-- Code that mentions variables of the graph only declares and writes no others. -/
theorem lt_of_mem_code (hvars : ∀ b ∈ order, ∀ i ∈ (g.block b).instrs, ∀ v ∈ i.mentions, v < g.numVars) :
    ∀ p ∈ g.code order, ∀ {v}, p.2.subject? = some v → v < g.numVars := by
  rintro ⟨s, i⟩ hp v hv
  obtain ⟨hs, hi⟩ := mem_code.mp hp
  obtain ⟨b, k, rfl⟩ := exists_of_instr? hi
  refine hvars b hs i (Array.mem_of_getElem? hi) v ?_
  rw [Instr.mentions, hv]
  exact List.mem_append_left _ List.mem_cons_self

/-- The sites of listed code that declares no variable twice are found. -/
theorem exists_gathered (hlisted : g.reachable = some order) (hnodup : order.Nodup)
    (hvars : ∀ b ∈ order, ∀ i ∈ (g.block b).instrs, ∀ v ∈ i.mentions, v < g.numVars)
    (honce : ∀ v s t, s.block ∈ order → t.block ∈ order → g.instr? s = some (.declare v) →
      g.instr? t = some (.declare v) → s = t) :
    ∃ sites, g.gatherDefinitionSites = .ok sites ∧ sites.Gathered g.numVars (g.code order) := by
  refine (gather_cases hlisted hnodup (lt_of_mem_code hvars)).resolve_right ?_
  rintro ⟨v, s, t, -, hne, hs, ht⟩
  obtain ⟨hs, hi⟩ := mem_code.mp hs
  obtain ⟨ht, hj⟩ := mem_code.mp ht
  exact hne (honce v s t hs ht hi hj)

end Listed

/-- Where the list has the reachable blocks and flows are all the edges, the walks of the graph say what merges. -/
theorem mergesIn_iff {g : FlowGraph} {order : List BlockId} (hmem : ∀ {b}, b ∈ order ↔ Reachable g.Edge entry b)
    (hflows : g.Flows = g.Edge) {v : VarId} {b : BlockId} : g.MergesIn order v b ↔ g.PhiAt v b := by
  have hdeclared : ∀ {b}, g.DeclaredIn order v b ↔ ∃ s, s.block = b ∧ g.Declares v s := by
    intro b
    rw [DeclaredIn, hmem, Array.mem_iff_getElem?]
    constructor
    · rintro ⟨hb, k, hk⟩
      exact ⟨⟨b, .instr k⟩, rfl, hb, hk⟩
    · rintro ⟨s, rfl, hb, hs⟩
      obtain ⟨b, k, rfl⟩ := exists_of_instr? hs
      exact ⟨hb, k, hs⟩
  have hdefined : g.DefinedIn order v = g.DefBlock v := by
    funext b
    rw [DefinedIn, hmem]
    refine propext ⟨?_, ?_⟩
    · rintro ⟨hb, i, hi, hv⟩
      obtain ⟨k, hk⟩ := Array.mem_iff_getElem?.mp hi
      rcases Instr.subject?_eq_some.mp hv with rfl | ⟨w, hw, rfl⟩
      · exact ⟨⟨b, .instr k⟩, rfl, .inl ⟨hb, hk⟩⟩
      · exact ⟨⟨b, .instr k⟩, rfl, .inr ⟨hb, i, w, hk, hw, rfl⟩⟩
    · rintro ⟨s, rfl, ⟨hb, hs⟩ | ⟨hb, i, w, hs, hw, rfl⟩⟩
      · obtain ⟨b, k, rfl⟩ := exists_of_instr? hs
        exact ⟨hb, _, Array.mem_of_getElem? hs, rfl⟩
      · obtain ⟨b, k, rfl⟩ := exists_of_instr? hs
        exact ⟨hb, i, Array.mem_of_getElem? hs, Instr.subject?_eq_some.mpr (.inr ⟨w, hw, rfl⟩)⟩
  have hnone : (∀ b, ¬ g.DeclaredIn order v b) ↔ ∀ s, ¬ g.Declares v s := by
    simp only [hdeclared]
    constructor
    · exact fun hnone s hs => hnone s.block ⟨s, rfl, hs⟩
    · rintro hnone b ⟨s, -, hs⟩
      exact hnone s hs
  rw [MergesIn, PhiAt, hdefined, hflows]
  refine and_congr_right fun _ => exists_congr fun home => ?_
  rw [HomeIn, hdeclared, hnone]
  refine and_congr_right fun hhome => ?_
  simp only [Home.reachable hhome, true_and]

/-- Phi placement is exact in a pruned and analysed graph whose edges stayed, whatever was removed before: a block
has a phi for a variable if and only if it is a merge point of the variable, never two, and each phi has an open
slot for every live predecessor, in ascending order.

A graph in which a removed block was connected again may list blocks that flows do not reach. What such a block
declares and writes counts as a definition, while frontiers and dominance are those of the flows. If removed
blocks were left alone there are no such blocks, and the merge points are those of the walks from the entry. -/
theorem withPhis_exact {g analysed : FlowGraph} {order : List BlockId} (hg : g.Attainable)
    (hanalysed : Unrewired g.prune.1 analysed) (hdominance : analysed.dominance.isSome = true)
    (hlisted : analysed.reachable = some order) (hempty : ∀ b, (analysed.block b).phis = [])
    (hvars : ∀ b ∈ order, ∀ i ∈ (analysed.block b).instrs, ∀ v ∈ i.mentions, v < analysed.numVars)
    (honce : ∀ v s t, s.block ∈ order → t.block ∈ order → analysed.instr? s = some (.declare v) →
      analysed.instr? t = some (.declare v) → s = t) :
    ∃ placed count, analysed.withPhis = .ok (placed, count) ∧ PhisOnly analysed placed ∧
      (∀ v y, (∃ φ ∈ (placed.block y).phis, φ.var = v) ↔ analysed.MergesIn order v y) ∧
      (∀ y, ((placed.block y).phis.map Phi.var).Nodup) ∧
      (∀ y, ∀ φ ∈ (placed.block y).phis, φ.target = .unbound φ.var ∧ φ.preds.Pairwise (· < ·) ∧
        (∀ p, p ∈ φ.preds ↔ analysed.Edge p y ∧ (analysed.block p).removed = false) ∧
        ∀ slot ∈ φ.slots, slot.2 = .unbound φ.var) ∧
      count = ∑ y ∈ Finset.range placed.size, (placed.block y).phis.length ∧
      (g.Intact → (∀ b, b ∈ order ↔ Reachable analysed.Edge entry b) ∧
        ∀ v y, analysed.MergesIn order v y ↔ analysed.PhiAt v y) := by
  have hstart := hg.linked.prune
  have hfits := hg.fits hanalysed
  have hlinked := hfits.refilled.linked hstart
  have hflows := hfits.refilled.flows hstart
  obtain ⟨dom, hdom⟩ := Option.isSome_iff_exists.mp hdominance
  have hexact : dom.tree.Exact analysed.Flows := hflows ▸ hfits.exact hdom
  have hfrontier : ∀ {x y}, y ∈ analysed.frontier x ↔ InFrontier analysed.Flows entry x y := by
    rw [hflows]
    exact hfits.mem_frontier hdominance
  have hrange := lt_of_mem_code hvars
  obtain ⟨order', hlisted', hnodup, -⟩ := hfits.listed
  cases hlisted.symm.trans hlisted'
  -- no variable is declared twice, so the sites can be gathered
  obtain ⟨sites, hgather, hsites⟩ := exists_gathered hlisted hnodup hvars honce
  have hmem : ∀ {v y}, y ∈ analysed.phiBlocks dom.tree sites v ↔ analysed.MergesIn order v y := fun {v y} =>
    mem_phiBlocks_iff hexact hfrontier hlinked.lt_of_reachable_flows
      (fun b => by rw [Block.phiFor?, hempty]; rfl) (hsites.mem_blocksOf_iff hrange) (hsites.homeIn_iff hrange)
  have hlt : ∀ {x y}, y ∈ analysed.frontier x → x < analysed.size ∧ y < analysed.size := fun hy =>
    (hfrontier.mp hy).reachable.imp hlinked.lt_of_reachable_flows hlinked.lt_of_reachable_flows
  obtain ⟨placed, hok, honly, hphis⟩ := withPhis_eq hdom hlt hempty hgather
  refine ⟨placed, _, hok, honly, fun v y => ?_, fun y => ?_, fun y φ hφ => ?_, rfl, fun hintact => ?_⟩
  · rw [hphis, exists_mem_phisAt, hmem]
    refine and_iff_right_of_imp ?_
    rintro ⟨⟨x, -, -, hx, -⟩, -⟩
    exact (hsites.blocks.mp ((hsites.mem_blocksOf_iff hrange).mpr hx)).1
  · rw [hphis]
    exact analysed.nodup_vars_phisAt dom.tree sites y
  · rw [hphis] at hφ
    obtain ⟨v, -, -, rfl⟩ := mem_phisAt.mp hφ
    refine ⟨rfl, ?_, fun p => ?_, fun slot hslot => ?_⟩
    · rw [preds_ofPreds]
      exact (IdSet.pairwise_toList _).filter _
    · rw [preds_ofPreds, hlinked.mem_livePredecessors, and_comm]
    · obtain ⟨p, -, rfl⟩ := List.mem_map.mp hslot
      rfl
  · have hreached : ∀ {b}, b ∈ order ↔ Reachable analysed.Edge entry b := hfits.mem_iff_reachable hintact hlisted
    exact ⟨fun _ => hreached, fun _ _ => mergesIn_iff hreached (hfits.flows_eq_edge hintact)⟩

/-- A loop that writes a variable leads on, through a block that was taken out, to the block that declares it. -/
def strayHome : FlowGraph :=
  (new 1).applyAll [.addBlock, .addBlock, .addBlock, .setJump 0 (.goto 1), .detach 2,
    .setJump 1 (.branch (.const 1) 1 2), .setJump 2 (.goto 3), .setJump 3 (.ret 3 none)]

/-- The write in the loop and the declaration. -/
def fillStrayHome (g : FlowGraph) : FlowGraph :=
  (g.modify 1 fun b => { b with instrs := #[.assign (.unbound 0) (.const 1)] }).modify 3 fun b =>
    { b with instrs := #[.declare 0] }

/-- The declaration is out of reach, so the loop merges the variable where it goes back to. -/
theorem withPhis_exact_strayHome :
    ∃ analysed placed count, (fillStrayHome strayHome.prune.1).withOrder >>= withDominance = .ok analysed ∧
      analysed.withPhis = .ok (placed, count) ∧
      ∃ φ ∈ (placed.block 1).phis, φ.var = 0 ∧ 0 ∈ φ.preds ∧ 1 ∈ φ.preds := by
  obtain ⟨g', hg', hdominance, hlisted, hvars, hphis, hfirst, hloop, hhome, hgo, hback, hgone⟩ :
      ∃ g', (fillStrayHome strayHome.prune.1).withOrder >>= withDominance = .ok g' ∧
        g'.dominance.isSome = true ∧ g'.reachable = some [0, 1, 3] ∧
        (∀ b ∈ [0, 1, 3], ∀ i ∈ (g'.block b).instrs.toList, ∀ v ∈ i.mentions, v < g'.numVars) ∧
        (∀ b ∈ List.range g'.size, (g'.block b).phis = []) ∧ (g'.block 0).instrs = #[] ∧
        (g'.block 1).instrs = #[.assign (.unbound 0) (.const 1)] ∧ (g'.block 3).instrs = #[.declare 0] ∧
        g'.targets 0 = [1] ∧ g'.targets 1 = [1, 2] ∧
        (∀ b ∈ [0, 1, 2], (g'.block b).removed = decide (b = 2)) := by
    refine Except.exists_ok_of_decide ?_
    cbv
  obtain ⟨ordered, hordered, hanalysed⟩ := Except.exists_of_bind hg'
  have hunrewired : Unrewired strayHome.prune.1 g' := by
    refine .dominance (.order (.refill .start (.trans (.modify _ 1 ?_ ?_ ?_) (.modify _ 3 ?_ ?_ ?_)) rfl rfl rfl)
      hordered) hanalysed
    all_goals exact fun _ => rfl
  have hempty : ∀ b, (g'.block b).phis = [] := by
    intro b
    by_cases hb : b < g'.size
    · exact hphis b (List.mem_range.mpr hb)
    · rw [block_of_size_le (Nat.le_of_not_lt hb)]
  have honce : ∀ v s, s.block ∈ [0, 1, 3] → g'.instr? s = some (.declare v) → s = ⟨3, .instr 0⟩ := by
    intro v s hs hi
    obtain ⟨b, k, rfl⟩ := exists_of_instr? hi
    have hmem : .declare v ∈ (g'.block b).instrs := Array.mem_of_getElem? hi
    rw [instr?] at hi
    simp only [List.mem_cons, List.not_mem_nil, or_false] at hs
    rcases hs with rfl | rfl | rfl
    · rw [hfirst] at hmem
      exact absurd hmem (Array.not_mem_empty _)
    · rw [hloop] at hmem
      cases List.mem_singleton.mp (Array.mem_def.mp hmem)
    · rw [hhome] at hi
      obtain ⟨hk, -⟩ := Array.getElem?_eq_some_iff.mp hi
      rw [Nat.lt_one_iff.mp hk]
  obtain ⟨placed, count, hplaced, -, hmerges, -, hslots, -⟩ :=
    withPhis_exact (g := strayHome) (.applyAll (.start (.new 1)) _) hunrewired hdominance hlisted hempty
      (fun b hb i hi => hvars b hb i (Array.mem_def.mp hi))
      fun v s t hs ht hi hj => (honce v s hs hi).trans (honce v t ht hj).symm
  have henter : g'.Flows 0 1 := ⟨by rw [Edge, hgo]; decide, hgone 0 (by decide), hgone 1 (by decide)⟩
  have hagain : g'.Flows 1 1 := ⟨by rw [Edge, hback]; decide, hgone 1 (by decide), hgone 1 (by decide)⟩
  have hreach : ∀ b, Reachable g'.Flows entry b → b = 0 ∨ b = 1 := by
    rintro b ⟨l, hl⟩
    induction hl with
    | start => exact .inl rfl
    | step _ he ih =>
      obtain ⟨he, -, hkept⟩ := he
      rw [Edge] at he
      rcases ih with rfl | rfl
      · rw [hgo] at he
        exact .inr (List.mem_singleton.mp he)
      · rw [hback] at he
        refine .inr ((List.mem_cons.mp he).resolve_right fun htwo => ?_)
        rw [List.mem_singleton.mp htwo, hgone 2 (by decide)] at hkept
        cases hkept
  have hwrites : g'.DefinedIn [0, 1, 3] 0 1 := ⟨by decide, _, hloop ▸ Array.mem_singleton_self _, rfl⟩
  have hdeclares : g'.DeclaredIn [0, 1, 3] 0 3 := ⟨by decide, hhome ▸ Array.mem_singleton_self _⟩
  obtain ⟨φ, hφ, hvar⟩ := (hmerges 0 1).mpr
    ⟨⟨1, 3, by decide, hwrites, hdeclares.1, _, hdeclares.2, rfl⟩, 3, .inl hdeclares,
      .ofDef hwrites ⟨1, Reachable.root.step henter, hagain, .refl 1, StrictlyDominates.irrefl 1⟩
        fun hcut => by rcases hreach 3 hcut.1 with h | h <;> cases h⟩
  obtain ⟨-, -, hpreds, -⟩ := hslots 1 φ hφ
  exact ⟨g', placed, count, hg', hplaced, φ, hφ, hvar, (hpreds 0).mpr ⟨henter.1, henter.2.1⟩,
    (hpreds 1).mpr ⟨hagain.1, hagain.2.1⟩⟩

end FlowGraph

end SsaFlow
