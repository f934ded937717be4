-- SUMMARY: As long as the edges of a pruned graph stay, its order and its dominator tree fit it, whatever blocks hold.
import SsaFlow.Proofs.ReachableList

/-!
# Graphs whose edges stay

After pruning, a graph may be ordered and analysed, its blocks may be refilled with other code, and blocks may
be added; as long as no edge changes, what is known about the graph fits it (`Unrewired.fits`). This does not
need a graph in which removed blocks are left alone: jumps may lead to or from removed blocks, and even the
entry may be removed. What counts then are the edges between blocks that are part of the graph (`Flows`). The
order begins with the blocks that such edges reach from the entry, and the dominator tree and the frontiers are
exact for them. Where removed blocks were left alone, flows are all edges (`Fits.flows_eq_edge`) and the order
lists the reachable blocks (`Fits.mem_iff_reachable`).
-/

namespace SsaFlow.FlowGraph

/-- Control can go from `a` to `b`, and both are part of the graph. -/
def Flows (g : FlowGraph) (a b : BlockId) : Prop :=
  g.Edge a b ∧ (g.block a).removed = false ∧ (g.block b).removed = false

/-- Where removed blocks are left alone, all edges are between blocks of the graph. -/
theorem Intact.flows_eq {g : FlowGraph} (h : g.Intact) : g.Flows = g.Edge := by
  funext a b
  refine propext ⟨fun he => he.1, fun he => ⟨he, Bool.eq_false_iff.mpr fun hremoved => ?_, h.present he⟩⟩
  rw [Edge, targets, h.gone hremoved] at he
  exact absurd he List.not_mem_nil

theorem Linked.lt_of_reachable_flows {g : FlowGraph} (h : g.Linked) {b : BlockId}
    (hb : Reachable g.Flows entry b) : b < g.size := by
  obtain ⟨l, hl⟩ := hb
  cases hl with
  | start => exact h.entry_lt
  | step _ he => exact h.edge_lt he.1

/-! ## Refilling blocks -/

/-- The second graph has the edges of the first. What blocks hold and what their jumps read may differ, and
blocks without edges may have been added. -/
structure Refilled (g g' : FlowGraph) : Prop where
  size_le : g.size ≤ g'.size
  targets : ∀ b, g'.targets b = g.targets b
  shadow : ∀ b, (g'.jump b).shadow? = (g.jump b).shadow?
  preds : ∀ b, (g'.block b).preds = (g.block b).preds
  removed : ∀ {b : BlockId}, b < g.size → (g'.block b).removed = (g.block b).removed

namespace Refilled

variable {g g' g'' : FlowGraph}

theorem of_blocks_eq (h : g'.blocks = g.blocks) : Refilled g g' := by
  obtain ⟨blocks, _, _, _, _, _, _⟩ := g'
  cases h
  exact ⟨Nat.le_refl _, fun _ => rfl, fun _ => rfl, fun _ => rfl, fun _ => rfl⟩

theorem trans (h : Refilled g g') (k : Refilled g' g'') : Refilled g g'' where
  size_le := Nat.le_trans h.size_le k.size_le
  targets b := (k.targets b).trans (h.targets b)
  shadow b := (k.shadow b).trans (h.shadow b)
  preds b := (k.preds b).trans (h.preds b)
  removed hb := (k.removed (Nat.lt_of_lt_of_le hb h.size_le)).trans (h.removed hb)

/-- A change of what one block holds. -/
theorem modify (g : FlowGraph) (b : BlockId) {f : Block → Block} (hjump : ∀ blk, (f blk).jump = blk.jump)
    (hpreds : ∀ blk, (f blk).preds = blk.preds) (hremoved : ∀ blk, (f blk).removed = blk.removed) :
    Refilled g (g.modify b f) := by
  have hsame : ∀ c, (g.modify b f).jump c = g.jump c ∧ ((g.modify b f).block c).preds = (g.block c).preds ∧
      ((g.modify b f).block c).removed = (g.block c).removed := by
    intro c
    rw [FlowGraph.jump, block_modify]
    split
    · exact ⟨hjump _, hpreds _, hremoved _⟩
    · exact ⟨rfl, rfl, rfl⟩
  refine ⟨(size_modify g b f).ge, fun c => ?_, fun c => ?_, fun c => (hsame c).2.1, fun _ => (hsame _).2.2⟩
  · rw [FlowGraph.targets, (hsame c).1]
    rfl
  · rw [(hsame c).1]

theorem successors (h : Refilled g g') (b : BlockId) : (g'.jump b).successors = (g.jump b).successors := by
  have htargets : (g'.jump b).targets = (g.jump b).targets := h.targets b
  rw [Jump.successors, Jump.successors, htargets, h.shadow]

theorem edge (h : Refilled g g') : g'.Edge = g.Edge := by
  funext a b
  rw [Edge, Edge, h.targets]

/-- Refilling blocks keeps a graph linked. -/
theorem linked (h : Refilled g g') (hg : g.Linked) : g'.Linked where
  entry_lt := Nat.lt_of_lt_of_le hg.entry_lt h.size_le
  preds := by
    intro p s _ _
    rw [h.preds, h.successors]
    exact hg.mem_preds_iff
  succ_lt := by
    intro p s hs
    rw [h.successors] at hs
    exact Nat.lt_of_lt_of_le (hg.succ_lt hs) h.size_le
  pred_lt := by
    intro p s hp
    rw [h.preds] at hp
    exact Nat.lt_of_lt_of_le (hg.pred_lt hp) h.size_le

theorem flows (h : Refilled g g') (hg : g.Linked) : g'.Flows = g.Flows := by
  funext a b
  unfold Flows
  rw [h.edge]
  refine propext (and_congr_right fun he => ?_)
  rw [h.removed (lt_of_mem_successors (mem_successors_of_edge he)), h.removed (hg.edge_lt he)]

theorem mem_livePredecessors (h : Refilled g g') (hg : g.Linked) {p b : BlockId} :
    p ∈ g'.livePredecessors b ↔ p ∈ g.livePredecessors b := by
  rw [(h.linked hg).mem_livePredecessors, hg.mem_livePredecessors, h.edge]
  refine and_congr_left fun he => ?_
  rw [h.removed (lt_of_mem_successors (mem_successors_of_edge he))]

/-- A list that fits the edges still fits them. -/
theorem listing (h : Refilled g g') (hg : g.Linked) {E : BlockId → BlockId → Prop} {front rest : List BlockId}
    (hlisting : g.Listing E front rest) (hlisted : g'.reachable = g.reachable) (hdepths : g'.depths = g.depths) :
    g'.Listing E front rest where
  listed := hlisted.trans hlisting.listed
  isOrdered := by
    rw [isOrdered, hdepths]
    exact hlisting.isOrdered
  nodup := hlisting.nodup
  lt hb := Nat.lt_of_lt_of_le (hlisting.lt hb) h.size_le
  mem_iff := hlisting.mem_iff
  head := hlisting.head
  before := hlisting.before
  edge_iff ha hb := (h.mem_livePredecessors hg).trans (hlisting.edge_iff ha hb)
  apart ha hb hpred := hlisting.apart ha hb ((h.mem_livePredecessors hg).mp hpred)

end Refilled

/-! ## Ordering -/

section Ordering

variable {g : FlowGraph} {b : BlockId}

/-- A removed entry is left by no flow. -/
theorem reachable_flows_of_removed (hentry : (g.block entry).removed = true) :
    Reachable g.Flows entry b ↔ b = entry := by
  constructor
  · rintro ⟨l, hl⟩
    induction hl with
    | start => rfl
    | step _ he ih =>
      obtain ⟨-, hkept, -⟩ := he
      rw [ih, hentry] at hkept
      cases hkept
  · rintro rfl
    exact .root

/-- The ordering walk finds the entry and blocks that are part of the graph. -/
theorem kept_of_leads (hb : DepthFirst.Leads g.presentTargets g.size entry b) :
    b = entry ∨ ∃ a, g.Edge a b ∧ (g.block b).removed = false := by
  cases hb with
  | refl _ => exact .inl rfl
  | step _ hb _ => exact .inr ⟨_, mem_presentTargets.mp hb⟩

/-- If the entry is part of the graph, the ordering walk finds the blocks that flows reach. -/
theorem Linked.leads_iff_flows (h : g.Linked) (hentry : (g.block entry).removed = false) :
    DepthFirst.Leads g.presentTargets g.size entry b ↔ Reachable g.Flows entry b := by
  constructor
  · intro hl
    induction hl with
    | refl _ => exact .root
    | step hl hc _ ih =>
      obtain ⟨he, hkept⟩ := mem_presentTargets.mp hc
      rcases kept_of_leads hl with rfl | ⟨_, _, hsource⟩
      · exact ih.step ⟨he, hentry, hkept⟩
      · exact ih.step ⟨he, hsource, hkept⟩
  · rintro ⟨l, hl⟩
    induction hl with
    | start => exact .refl h.entry_lt
    | step _ he ih => exact .step ih (mem_presentTargets.mpr ⟨he.1, he.2.2⟩) (h.edge_lt he.1)

namespace Walked

variable {g' : FlowGraph} {old found missed : List BlockId}

/-- Ordering loses no block of the list: those that the walk misses come last. -/
theorem mem_append_iff (h : g.Walked old found missed) :
    b ∈ found ++ missed ↔ DepthFirst.Leads g.presentTargets g.size entry b ∨ b ∈ old := by
  rw [List.mem_append, h.mem_found, h.mem_missed]
  constructor
  · rintro (hb | hb)
    · exact .inl hb
    · exact .inr hb.1
  · intro hb
    by_cases hl : DepthFirst.Leads g.presentTargets g.size entry b
    · exact .inl hl
    · exact .inr ⟨hb.resolve_left hl, hl⟩

theorem lt (h : g.Walked old found missed) (hg : g.Linked) (hlt : ∀ {b : BlockId}, b ∈ old → b < g.size)
    (hb : b ∈ found ++ missed) : b < g.size := by
  rcases h.mem_append_iff.mp hb with hb | hb
  · rcases kept_of_leads hb with rfl | ⟨a, he, -⟩
    · exact hg.entry_lt
    · exact hg.edge_lt he
  · exact hlt hb

/-- If the entry is part of the graph, what the walk finds comes in front. -/
theorem listing_of_kept (h : g.Walked old found missed) (hg : g.Linked)
    (hlt : ∀ {b : BlockId}, b ∈ old → b < g.size)
    (hkept : ∀ {b : BlockId}, b ∈ old → b = entry ∨ (g.block b).removed = false)
    (hblocks : g'.blocks = g.blocks) (hlisted : g'.reachable = some (found ++ missed))
    (hordered : g'.isOrdered = true) (hentry : (g.block entry).removed = false) :
    g'.Listing g.Flows found missed := by
  have hsame : Refilled g g' := .of_blocks_eq hblocks
  have hpart : ∀ {b}, b ∈ found → (g.block b).removed = false := by
    intro b hb
    rcases kept_of_leads (h.mem_found.mp hb) with rfl | ⟨_, _, hb⟩
    · exact hentry
    · exact hb
  refine ⟨hlisted, hordered, h.nodup, fun hb => Nat.lt_of_lt_of_le (h.lt hg hlt hb) hsame.size_le,
    h.mem_found.trans (hg.leads_iff_flows hentry), h.head, ?_, ?_, ?_⟩
  · intro xs ys b hsplit hne
    obtain ⟨a, ha, hb⟩ := h.before hsplit hne
    obtain ⟨he, hb⟩ := mem_presentTargets.mp hb
    exact ⟨a, ha, he, hpart (hsplit ▸ List.mem_append_left (b :: ys) ha), hb⟩
  · intro a b ha hb
    rw [hsame.mem_livePredecessors hg, hg.mem_livePredecessors]
    exact ⟨fun he => ⟨he.2, he.1, hpart hb⟩, fun he => ⟨he.2.1, he.1⟩⟩
  · intro a b ha hb hab
    obtain ⟨hb, hnot⟩ := h.mem_missed.mp hb
    obtain ⟨-, he⟩ := hg.mem_livePredecessors.mp ((hsame.mem_livePredecessors hg).mp hab)
    rcases hkept hb with rfl | hb
    · exact hnot (.refl hg.entry_lt)
    · exact hnot (.step (h.mem_found.mp ha) (mem_presentTargets.mpr ⟨he, hb⟩) (hg.edge_lt he))

/-- If the entry was removed, it is alone in front. -/
theorem listing_of_removed (h : g.Walked old found missed) (hg : g.Linked)
    (hlt : ∀ {b : BlockId}, b ∈ old → b < g.size)
    (hblocks : g'.blocks = g.blocks) (hlisted : g'.reachable = some (found ++ missed))
    (hordered : g'.isOrdered = true) (hentry : (g.block entry).removed = true) :
    ∃ rest, g'.Listing g.Flows [entry] rest := by
  have hsame : Refilled g g' := .of_blocks_eq hblocks
  obtain ⟨more, hmore⟩ := h.head
  have hsplit : found ++ missed = [entry] ++ (more ++ missed) := by rw [hmore]; rfl
  -- nothing flows out of an entry that was removed
  have hout : ∀ {c : BlockId}, entry ∉ g'.livePredecessors c := by
    intro c hc
    have hkept := (hg.mem_livePredecessors.mp ((hsame.mem_livePredecessors hg).mp hc)).1
    rw [hentry] at hkept
    cases hkept
  refine ⟨more ++ missed, hsplit ▸ hlisted, hordered, hsplit ▸ h.nodup, fun hb => ?_, ?_, ⟨[], rfl⟩, ?_,
    ?_, ?_⟩
  · exact Nat.lt_of_lt_of_le (h.lt hg hlt (hsplit ▸ hb)) hsame.size_le
  · intro b
    rw [List.mem_singleton, reachable_flows_of_removed hentry]
  · intro xs ys b hxs hne
    have hb : b ∈ [entry] := hxs ▸ List.mem_append_right xs List.mem_cons_self
    exact absurd (List.mem_singleton.mp hb) hne
  · intro a b ha _
    rw [List.mem_singleton.mp ha]
    refine ⟨fun hpred => absurd hpred hout, fun he => ?_⟩
    rw [he.2.1] at hentry
    cases hentry
  · intro a b ha _
    rw [List.mem_singleton.mp ha]
    exact hout

end Walked

end Ordering

/-! ## Histories without a change of edges -/

/-- What a graph can become while its edges stay: it is ordered and analysed, and its blocks are refilled,
again and again and in any order. -/
inductive Unrewired (start : FlowGraph) : FlowGraph → Prop
  | start : Unrewired start start
  | refill {g g' : FlowGraph} : Unrewired start g → g.Refilled g' → g'.reachable = g.reachable →
      g'.depths = g.depths → g'.dominance = g.dominance → Unrewired start g'
  | order {g g' : FlowGraph} : Unrewired start g → g.withOrder = .ok g' → Unrewired start g'
  | dominance {g g' : FlowGraph} : Unrewired start g → g.withDominance = .ok g' → Unrewired start g'

/-- Dominance that is found is stored with the frontiers of its tree, and definition sites are
forgotten. -/
theorem withDominance_cases {g g' : FlowGraph} (h : g.withDominance = .ok g') :
    ∃ tree, g.dominatorTree = .ok tree ∧
      g' = { g with dominance := some ⟨tree, g.frontiers tree⟩, definitionSites := none } := by
  rw [withDominance_def] at h
  split at h
  · cases h
  · next tree htree =>
    cases h
    exact ⟨tree, htree, rfl⟩

theorem isOrdered_of_dominatorTree {g : FlowGraph} {tree : DominatorTree} (h : g.dominatorTree = .ok tree) :
    g.isOrdered = true := by
  rw [dominatorTree] at h
  split at h
  · next hordered => exact hordered
  · cases h

/-- What is known about a graph fits the edges that it has from `start`. -/
structure Fits (start g : FlowGraph) : Prop where
  refilled : start.Refilled g
  /-- The list has the blocks that were part of the graph, and perhaps the entry. -/
  listed : ∃ order, g.reachable = some order ∧ order.Nodup ∧
    (∀ {b : BlockId}, b ∈ order → b < start.size ∧ (b = entry ∨ (start.block b).removed = false)) ∧
    ∀ {b : BlockId}, b < start.size → (start.block b).removed = false → b ∈ order
  listing : g.isOrdered = true → ∃ front rest, g.Listing start.Flows front rest
  exact : ∀ {dom : Dominance}, g.dominance = some dom → dom.tree.Exact start.Flows
  mem_frontier : g.dominance.isSome = true → ∀ {x y : BlockId},
    y ∈ g.frontier x ↔ InFrontier start.Flows entry x y

namespace Fits

variable {start g g' : FlowGraph}

/-- What is known about a graph still fits when its blocks are refilled. -/
theorem refill (h : Fits start g) (hstart : start.Linked) (hg : g.Refilled g') (hlisted : g'.reachable = g.reachable)
    (hdepths : g'.depths = g.depths) (hdominance : g'.dominance = g.dominance) : Fits start g' where
  refilled := h.refilled.trans hg
  listed := by
    rw [hlisted]
    exact h.listed
  listing := by
    intro hordered
    rw [isOrdered, hdepths] at hordered
    obtain ⟨front, rest, hlisting⟩ := h.listing hordered
    exact ⟨front, rest, hg.listing (h.refilled.linked hstart) hlisting hlisted hdepths⟩
  exact := by
    rw [hdominance]
    exact h.exact
  mem_frontier := by
    rw [hdominance]
    intro hsome x y
    rw [frontier, hdominance]
    exact h.mem_frontier hsome

/-- A new ordering fits the edges, even if old blocks stay in the list. -/
theorem order (h : Fits start g) (hstart : start.Linked) (ho : g.withOrder = .ok g') : Fits start g' := by
  have hg := h.refilled.linked hstart
  obtain ⟨old, hold, hnodup, hkept, hcomplete⟩ := h.listed
  obtain ⟨found, missed, hwalked, hfound⟩ := hg.withOrder_eq hold hnodup
  cases ho.symm.trans hfound
  have hlt : ∀ {b : BlockId}, b ∈ old → b < g.size :=
    fun hb => Nat.lt_of_lt_of_le (hkept hb).1 h.refilled.size_le
  have hpart : ∀ {b : BlockId}, b ∈ old → b = entry ∨ (g.block b).removed = false := by
    intro b hb
    rw [h.refilled.removed (hkept hb).1]
    exact (hkept hb).2
  refine ⟨h.refilled.trans (.of_blocks_eq rfl), ⟨_, rfl, hwalked.nodup, ?_, ?_⟩, ?_, h.exact, h.mem_frontier⟩
  · intro b hb
    rcases hwalked.mem_append_iff.mp hb with hb | hb
    · rcases kept_of_leads hb with rfl | ⟨a, he, hb⟩
      · exact ⟨hstart.entry_lt, .inl rfl⟩
      · rw [h.refilled.edge] at he
        rw [h.refilled.removed (hstart.edge_lt he)] at hb
        exact ⟨hstart.edge_lt he, .inr hb⟩
    · exact hkept hb
  · intro b hb hremoved
    exact hwalked.mem_append_iff.mpr (.inr (hcomplete hb hremoved))
  · intro _
    rw [← h.refilled.flows hstart]
    -- if the entry was removed, then flows reach nothing else
    cases hentry : (g.block entry).removed with
    | false => exact ⟨found, missed, hwalked.listing_of_kept hg hlt hpart rfl rfl rfl hentry⟩
    | true => exact ⟨[entry], hwalked.listing_of_removed hg hlt rfl rfl rfl hentry⟩

/-- The dominance that is found fits the edges. -/
theorem dominance (h : Fits start g) (hstart : start.Linked) (hd : g.withDominance = .ok g') : Fits start g' := by
  obtain ⟨tree, htree, rfl⟩ := withDominance_cases hd
  obtain ⟨front, rest, hlisting⟩ := h.listing (isOrdered_of_dominatorTree htree)
  obtain ⟨_, hbuilt, hexact, hparent⟩ := hlisting.dominatorTree
  cases htree.symm.trans hbuilt
  have hsame : g.Refilled { g with dominance := some ⟨tree, g.frontiers tree⟩, definitionSites := none } :=
    .of_blocks_eq rfl
  refine ⟨h.refilled.trans hsame, h.listed, fun _ => ⟨front, rest, ?_⟩, ?_, fun _ => ?_⟩
  · exact hsame.listing (h.refilled.linked hstart) hlisting rfl rfl
  · intro dom hdom
    cases hdom
    exact hexact
  · exact hlisting.mem_frontiers hexact hparent

end Fits

/-- What is known about a graph fits it as long as its edges stay. -/
theorem Unrewired.fits {start g : FlowGraph} (h : Unrewired start g) (hstart : start.Linked)
    (hlisted : start.reachable = some start.liveIds) (hnew : start.Unanalysed) : Fits start g := by
  induction h with
  | start =>
    refine ⟨.of_blocks_eq rfl, ⟨_, hlisted, List.nodup_range.filter _, ?_, ?_⟩, ?_, ?_, ?_⟩
    · intro b hb
      exact (mem_liveIds.mp hb).imp_right .inr
    · intro b hb hkept
      exact mem_liveIds.mpr ⟨hb, hkept⟩
    · intro hordered
      rw [isOrdered, hnew.depths] at hordered
      cases hordered
    · rw [hnew.dominance]
      intro _ hdom
      cases hdom
    · rw [hnew.dominance]
      intro hsome
      cases hsome
  | refill _ hg hlisted hdepths hdominance ih => exact ih.refill hstart hg hlisted hdepths hdominance
  | order _ ho ih => exact ih.order hstart ho
  | dominance _ hd ih => exact ih.dominance hstart hd

/-- What is known about a pruned graph fits it as long as its edges stay. -/
theorem Attainable.fits {g g' : FlowGraph} (hg : g.Attainable) (hg' : Unrewired g.prune.1 g') :
    Fits g.prune.1 g' :=
  hg'.fits hg.linked.prune rfl g.unanalysed_prune

namespace Fits

variable {g g' : FlowGraph}

/-- Where removed blocks were left alone before pruning, flows are all the edges. -/
theorem flows_eq_edge (h : Fits g.prune.1 g') (hg : g.Intact) : g'.Flows = g'.Edge := by
  rw [h.refilled.flows hg.toLinked.prune, hg.intact_prune.flows_eq, h.refilled.edge]

/-- Where removed blocks were left alone before pruning, the list has the blocks that can be reached. -/
theorem mem_iff_reachable (h : Fits g.prune.1 g') (hg : g.Intact) {order : List BlockId}
    (hlisted : g'.reachable = some order) {b : BlockId} : b ∈ order ↔ Reachable g'.Edge entry b := by
  obtain ⟨order', hlisted', -, hkept, hcomplete⟩ := h.listed
  cases hlisted.symm.trans hlisted'
  rw [h.refilled.edge, ← hg.prune.1.kept_iff]
  constructor
  · intro hb
    obtain ⟨hlt, rfl | hb⟩ := hkept hb
    · exact ⟨hlt, hg.intact_prune.entryKept⟩
    · exact ⟨hlt, hb⟩
  · exact fun hb => hcomplete hb.1 hb.2

end Fits

/-- A loop between the entry and a block that returns the parameter. -/
def paramLoop : FlowGraph :=
  (new 2).applyAll [.addBlock, .addBlock, .addBlock, .setJump 0 (.branch (.const 1) 1 2),
    .setJump 1 (.branch (.const 1) 1 2), .setJump 2 (.ret 3 (some (.var ⟨0, 1⟩)))]

/-- The parameter and a counter that starts from it. -/
def fillParamLoop (g : FlowGraph) : FlowGraph :=
  (g.modify 0 fun b => { b with instrs := #[.param ⟨0, 1⟩ 0] }).modify 1 fun b =>
    { b with phis := [⟨⟨1, 1⟩, [(0, ⟨0, 1⟩), (1, ⟨1, 2⟩)]⟩], instrs := #[.assign ⟨1, 2⟩ (.var ⟨1, 1⟩)] }

theorem unrewired_fillParamLoop (g : FlowGraph) : Unrewired g (fillParamLoop g) := by
  refine .refill .start (.trans (.modify _ 0 ?_ ?_ ?_) (.modify _ 1 ?_ ?_ ?_)) rfl rfl rfl
  all_goals exact fun _ => rfl

end SsaFlow.FlowGraph
