-- SUMMARY: Dominance frontiers are exact: a join is in the frontiers of the blocks whose dominance ends there.
import SsaFlow.Proofs.DominatorTree

/-!
# Dominance frontiers are exact

A join is added to the blocks on the way up the tree from each of its predecessors, up to its immediate
dominator. The way may stop at a block that has the join already, because the blocks above that one have
it too; this is the invariant `Climb.closed`.
-/

namespace SsaFlow

/-- The dominance of `x` ends at `y`: it dominates a predecessor of `y`, but not strictly `y`. -/
def InFrontier {α : Type} (E : α → α → Prop) (r x y : α) : Prop :=
  ∃ p, Reachable E r p ∧ E p y ∧ Dominates E r x p ∧ ¬ StrictlyDominates E r x y

theorem InFrontier.reachable {α : Type} {E : α → α → Prop} {r x y : α} (h : InFrontier E r x y) :
    Reachable E r x ∧ Reachable E r y := by
  obtain ⟨p, hp, he, hdom, -⟩ := h
  exact ⟨hdom.reachable hp, hp.step he⟩

namespace FlowGraph

variable {E : BlockId → BlockId → Prop} {tree : DominatorTree}

/-- The block `x` is `stop` or above it. -/
def AtOrAbove (E : BlockId → BlockId → Prop) (stop : Option BlockId) (x : BlockId) : Prop :=
  ∃ s, stop = some s ∧ Dominates E entry x s

/-- The blocks below the immediate dominator are those that do not strictly dominate. -/
theorem atOrAbove_idom_iff (hexact : tree.Exact E) {x y : BlockId} (hy : Reachable E entry y) :
    AtOrAbove E (tree.idom? y) x ↔ StrictlyDominates E entry x y := by
  constructor
  · rintro ⟨s, hs, hx⟩
    exact StrictlyDominates.of_dominates hy hx (hexact.idom_iff.mp hs).2.1
  · intro hx
    have hne : y ≠ entry := by
      rintro rfl
      exact hx.1 hx.2.eq_root
    obtain ⟨s, hs⟩ := hexact.exists_idom hy hne
    exact ⟨s, hs, (hexact.idom_iff.mp hs).2.2 x hx⟩

theorem mem_getD_modify_insert {acc : Array IdSet} {b join x j : Nat} (hb : b < acc.size) :
    j ∈ (acc.modify b (·.insert join)).getD x ∅ ↔ j ∈ acc.getD x ∅ ∨ j = join ∧ x = b := by
  rw [Array.getD_eq_getD_getElem?, Array.getD_eq_getD_getElem?, Array.getElem?_modify]
  by_cases hbx : b = x
  · subst hbx
    simp only [if_true, Array.getElem?_eq_getElem hb, Option.map_some, Option.getD_some,
      IdSet.mem_insert, and_true]
    exact or_comm
  · simp [hbx, Ne.symm hbx]

@[simp] theorem size_addJoin (join : BlockId) (stop : Option BlockId) (fuel : Nat) (acc : Array IdSet)
    (b : BlockId) : (addJoin tree join stop fuel acc b).size = acc.size := by
  induction fuel generalizing acc b with
  | zero => rfl
  | succ fuel ih =>
    rw [addJoin]
    split
    · rfl
    · split
      · exact Array.size_modify
      · rw [ih, Array.size_modify]

/-- What holds when a join is taken up the tree and has come to `b`. -/
structure Climb (E : BlockId → BlockId → Prop) (join : BlockId) (stop : Option BlockId) (fuel : Nat)
    (acc : Array IdSet) (b : BlockId) : Prop where
  reachable : Reachable E entry b
  size : ∀ x, Reachable E entry x → x < acc.size
  stop_dominates : ∀ s, stop = some s → Dominates E entry s b
  /-- No more blocks are left above than steps. -/
  bound : ∃ above : List BlockId, (∀ x, Dominates E entry x b → x ∈ above) ∧ above.length ≤ fuel
  /-- What is above a block with the join has it, up to `stop`. -/
  closed : ∀ x, Dominates E entry x b → join ∈ acc.getD x ∅ →
    ∀ z, Dominates E entry z x → ¬ AtOrAbove E stop z → join ∈ acc.getD z ∅

namespace Climb

variable {join b : BlockId} {stop : Option BlockId} {fuel : Nat} {acc : Array IdSet}

/-- A climb that has come to a block has fuel for the way that is left. -/
theorem fuel_ne_zero (h : Climb E join stop fuel acc b) : fuel ≠ 0 := by
  rintro rfl
  obtain ⟨above, hmem, hlength⟩ := h.bound
  rw [List.length_eq_zero_iff.mp (Nat.le_zero.mp hlength)] at hmem
  exact List.not_mem_nil (hmem b (.refl b))

theorem not_atOrAbove (h : Climb E join stop fuel acc b) (hstop : stop ≠ some b) : ¬ AtOrAbove E stop b := by
  rintro ⟨s, rfl, hbs⟩
  have hsb := h.stop_dominates s rfl
  exact hstop (congrArg some (hsb.antisymm h.reachable hbs))

/-- One step up. -/
theorem up (h : Climb E join stop (fuel + 1) acc b) (hstop : stop ≠ some b) {up : BlockId}
    (hidom : ImmediatelyDominates E entry up b) :
    Climb E join stop fuel (acc.modify b (·.insert join)) up where
  reachable := hidom.1.2.reachable h.reachable
  size := by
    rw [Array.size_modify]
    exact h.size
  stop_dominates := by
    rintro s rfl
    refine hidom.2 s ⟨?_, h.stop_dominates s rfl⟩
    rintro rfl
    exact hstop rfl
  bound := by
    obtain ⟨above, hmem, hlength⟩ := h.bound
    refine ⟨above.erase b, fun z hz => ?_, ?_⟩
    · rw [List.mem_erase_of_ne (hidom.ne_of_dominates h.reachable hz)]
      exact hmem z (hz.trans hidom.1.2)
    · rw [List.length_erase_of_mem (hmem b (.refl b))]
      omega
  closed := by
    intro z hz hjoin w hw hnot
    rw [mem_getD_modify_insert (h.size b h.reachable)] at hjoin ⊢
    have hold := hjoin.resolve_right fun hzb => hidom.ne_of_dominates h.reachable hz hzb.2
    exact .inl (h.closed z (hz.trans hidom.1.2) hold w hw hnot)

end Climb

/-- Going up from `b` adds the join to the blocks between `b` and `stop`. -/
theorem addJoin_spec (hexact : tree.Exact E) {join : BlockId} {stop : Option BlockId} {fuel : Nat}
    {acc : Array IdSet} {b : BlockId} (h : Climb E join stop fuel acc b) {x j : BlockId} :
    j ∈ (addJoin tree join stop fuel acc b).getD x ∅ ↔
      j ∈ acc.getD x ∅ ∨ j = join ∧ Dominates E entry x b ∧ ¬ AtOrAbove E stop x := by
  induction fuel generalizing acc b with
  | zero => exact absurd rfl h.fuel_ne_zero
  | succ fuel ih =>
    rw [addJoin]
    split
    -- where the climb stops, the join is not wanted or has been put further up already
    · next hdone =>
      rw [Bool.or_eq_true, decide_eq_true_eq, Std.ExtTreeSet.contains_iff_mem] at hdone
      refine ⟨.inl, ?_⟩
      rintro (hj | ⟨rfl, hx, hnot⟩)
      · exact hj
      · rcases hdone with hstop | hjoin
        · exact absurd ⟨b, hstop.symm, hx⟩ hnot
        · exact h.closed b (.refl b) hjoin x hx hnot
    · next hdone =>
      rw [Bool.or_eq_true, decide_eq_true_eq, not_or] at hdone
      have hstop : stop ≠ some b := Ne.symm hdone.1
      have hb := h.size b h.reachable
      dsimp only
      cases hup : tree.idom? b with
      | none =>
        -- only the entry has no immediate dominator
        have hentry : b = entry := by
          refine Classical.byContradiction fun hne => ?_
          obtain ⟨d, hd⟩ := hexact.exists_idom h.reachable hne
          rw [hup] at hd
          exact nomatch hd
        rw [mem_getD_modify_insert hb]
        refine or_congr_right (and_congr_right fun _ => ?_)
        constructor
        · rintro rfl
          exact ⟨.refl x, h.not_atOrAbove hstop⟩
        · rintro ⟨hx, -⟩
          subst hentry
          exact hx.eq_root
      | some up =>
        have hidom := (hexact.idom_iff.mp hup).2
        rw [ih (h.up hstop hidom), mem_getD_modify_insert hb, hidom.dominates_iff]
        constructor
        · rintro ((hj | ⟨rfl, rfl⟩) | ⟨rfl, hx, hnot⟩)
          · exact .inl hj
          · exact .inr ⟨rfl, .inl rfl, h.not_atOrAbove hstop⟩
          · exact .inr ⟨rfl, .inr hx, hnot⟩
        · rintro (hj | ⟨rfl, rfl | hx, hnot⟩)
          · exact .inl (.inl hj)
          · exact .inl (.inr ⟨rfl, rfl⟩)
          · exact .inr ⟨rfl, hx, hnot⟩

/-! ## All joins -/

/-- The predecessors of a join are walked one after the other. -/
theorem foldl_addJoin_spec (hexact : tree.Exact E) {join : BlockId} {acc : Array IdSet}
    {preds : List BlockId} (hjoin : Reachable E entry join)
    (hsize : ∀ x, Reachable E entry x → x < acc.size) (hacc : acc.size ≤ tree.parent.size)
    (hpreds : ∀ p ∈ preds, Reachable E entry p ∧ E p join)
    (hclosed : ∀ x, join ∈ acc.getD x ∅ →
      ∀ z, Dominates E entry z x → ¬ StrictlyDominates E entry z join → join ∈ acc.getD z ∅)
    {x j : BlockId} :
    j ∈ (preds.foldl (addJoin tree join (tree.idom? join) tree.parent.size) acc).getD x ∅ ↔
      j ∈ acc.getD x ∅ ∨
        j = join ∧ (∃ p ∈ preds, Dominates E entry x p) ∧ ¬ StrictlyDominates E entry x join := by
  induction preds generalizing acc with
  | nil => simp
  | cons p preds ih =>
    obtain ⟨hp, hedge⟩ := hpreds p List.mem_cons_self
    have hstop : ∀ s, tree.idom? join = some s → Dominates E entry s p := by
      intro s hs
      exact (hexact.idom_iff.mp hs).2.1.of_edge hedge
    have hone : ∀ {x j}, j ∈ (addJoin tree join (tree.idom? join) tree.parent.size acc p).getD x ∅ ↔
        j ∈ acc.getD x ∅ ∨
          j = join ∧ Dominates E entry x p ∧ ¬ StrictlyDominates E entry x join := by
      intro x j
      -- each climb starts from frontiers that are closed upwards
      have hclimb : Climb E join (tree.idom? join) tree.parent.size acc p := by
        refine ⟨hp, hsize, hstop, ⟨List.range acc.size, fun z hz => ?_, ?_⟩, fun z _ hz w hw hnot => ?_⟩
        · exact List.mem_range.mpr (hsize z (hz.reachable hp))
        · rw [List.length_range]
          exact hacc
        · exact hclosed z hz w hw ((atOrAbove_idom_iff hexact hjoin).not.mp hnot)
      rw [addJoin_spec hexact hclimb, atOrAbove_idom_iff hexact hjoin]
    rw [List.foldl_cons, ih (by rwa [size_addJoin]) (by rwa [size_addJoin])
      (fun q hq => hpreds q (List.mem_cons_of_mem p hq)), hone]
    · constructor
      · rintro ((hj | ⟨rfl, hx, hnot⟩) | ⟨rfl, ⟨q, hq, hx⟩, hnot⟩)
        · exact .inl hj
        · exact .inr ⟨rfl, ⟨p, List.mem_cons_self, hx⟩, hnot⟩
        · exact .inr ⟨rfl, ⟨q, List.mem_cons_of_mem p hq, hx⟩, hnot⟩
      · rintro (hj | ⟨rfl, ⟨q, hq, hx⟩, hnot⟩)
        · exact .inl (.inl hj)
        · rcases List.mem_cons.mp hq with rfl | hq
          · exact .inl (.inr ⟨rfl, hx, hnot⟩)
          · exact .inr ⟨rfl, ⟨q, hq, hx⟩, hnot⟩
    · intro z hz w hw hnot
      rw [hone] at hz ⊢
      rcases hz with hz | ⟨-, hzp, -⟩
      · exact .inl (hclosed z hz w hw hnot)
      · exact .inr ⟨rfl, hw.trans hzp, hnot⟩

@[simp] theorem size_addFrontiersOf (g : FlowGraph) (acc : Array IdSet) (b : BlockId) :
    (g.addFrontiersOf tree acc b).size = acc.size := by
  have hfold : ∀ (preds : List BlockId) (stop : Option BlockId) (fuel : Nat) (acc : Array IdSet),
      (preds.foldl (addJoin tree b stop fuel) acc).size = acc.size := by
    intro preds stop fuel
    induction preds with
    | nil => exact fun _ => rfl
    | cons p preds ih =>
      intro acc
      rw [List.foldl_cons, ih, size_addJoin]
  rw [addFrontiersOf]
  split
  · rfl
  · exact hfold _ _ _ _

/-- With one predecessor, every block that dominates it dominates the join strictly. -/
theorem not_inFrontier_of_single {x y p : BlockId} (hy : Reachable E entry y) (hne : y ≠ entry)
    (hsingle : ∀ q, Reachable E entry q → E q y → q = p) : ¬ InFrontier E entry x y := by
  rintro ⟨q, hq, hedge, hx, hnot⟩
  obtain ⟨a, ha, hay, hfirst⟩ := hy.exists_first_pred hne
  obtain rfl := hsingle q hq hedge
  obtain rfl := hsingle a ha hay
  refine hnot ⟨?_, ?_⟩
  · rintro rfl
    exact hfirst hx
  · refine Dominates.of_forall_edge hne fun b hb hby => ?_
    rw [hsingle b hb hby]
    exact hx

namespace Listing

variable {g : FlowGraph} {front rest : List BlockId}

theorem reachable_lt (h : g.Listing E front rest) {b : BlockId} (hb : Reachable E entry b) : b < g.size :=
  h.lt (List.mem_append_left rest (h.mem_iff.mpr hb))

/-- The predecessors in the tree are the reachable ones. -/
theorem mem_filter_livePredecessors (h : g.Listing E front rest) (hexact : tree.Exact E) {p b : BlockId}
    (hb : Reachable E entry b) :
    p ∈ (g.livePredecessors b).filter tree.contains ↔ Reachable E entry p ∧ E p b := by
  rw [List.mem_filter, hexact.contains_iff, and_comm]
  exact and_congr_right fun hp => h.edge_iff (h.mem_iff.mpr hp) (h.mem_iff.mpr hb)

/-- A block is put into exactly those frontiers that it belongs to. -/
theorem addFrontiersOf_spec (h : g.Listing E front rest) (hexact : tree.Exact E)
    (hparent : tree.parent.size = g.size) {acc : Array IdSet} (hacc : acc.size = g.size) {b : BlockId}
    (hb : Reachable E entry b) (hnew : ∀ x, b ∉ acc.getD x ∅) {x j : BlockId} :
    j ∈ (g.addFrontiersOf tree acc b).getD x ∅ ↔ j ∈ acc.getD x ∅ ∨ j = b ∧ InFrontier E entry x b := by
  have hmem : ∀ p, p ∈ (g.livePredecessors b).filter tree.contains ↔ Reachable E entry p ∧ E p b :=
    fun p => h.mem_filter_livePredecessors hexact hb
  rw [addFrontiersOf]
  generalize (g.livePredecessors b).filter tree.contains = preds at hmem
  split
  · next p s hpreds hs =>
    have hne : b ≠ entry := by
      rintro rfl
      have hstrict := (hexact.idom_iff.mp hs).2.1
      exact hstrict.1 hstrict.2.eq_root
    have hnot : ¬ InFrontier E entry x b :=
      not_inFrontier_of_single hb hne fun q hq he => List.mem_singleton.mp ((hmem q).mpr ⟨hq, he⟩)
    exact ⟨.inl, fun hj => hj.resolve_right fun hj => hnot hj.2⟩
  · rw [foldl_addJoin_spec hexact hb (fun z hz => hacc ▸ h.reachable_lt hz) (by rw [hacc, hparent])
      (fun p hp => (hmem p).mp hp) (fun z hz => absurd hz (hnew z))]
    refine or_congr_right (and_congr_right fun _ => ?_)
    constructor
    · rintro ⟨⟨p, hp, hx⟩, hnot⟩
      exact ⟨p, ((hmem p).mp hp).1, ((hmem p).mp hp).2, hx, hnot⟩
    · rintro ⟨p, hp, he, hx, hnot⟩
      exact ⟨⟨p, (hmem p).mpr ⟨hp, he⟩, hx⟩, hnot⟩

/-- After a list of blocks, each of them is in the frontiers that it belongs to. -/
theorem foldl_addFrontiersOf_spec (h : g.Listing E front rest) (hexact : tree.Exact E)
    (hparent : tree.parent.size = g.size) {acc : Array IdSet} (hacc : acc.size = g.size)
    {bs : List BlockId} (hnodup : bs.Nodup) (hbs : ∀ b ∈ bs, Reachable E entry b)
    (hnew : ∀ b ∈ bs, ∀ x, b ∉ acc.getD x ∅) {x j : BlockId} :
    j ∈ (bs.foldl (g.addFrontiersOf tree) acc).getD x ∅ ↔
      j ∈ acc.getD x ∅ ∨ j ∈ bs ∧ InFrontier E entry x j := by
  induction bs generalizing acc with
  | nil => simp
  | cons b bs ih =>
    have hstep : ∀ {x j}, j ∈ (g.addFrontiersOf tree acc b).getD x ∅ ↔
        j ∈ acc.getD x ∅ ∨ j = b ∧ InFrontier E entry x b := fun {x j} =>
      h.addFrontiersOf_spec hexact hparent hacc (hbs b List.mem_cons_self) (hnew b List.mem_cons_self)
    rw [List.nodup_cons] at hnodup
    rw [List.foldl_cons, ih (by rw [size_addFrontiersOf, hacc]) hnodup.2
      (fun c hc => hbs c (List.mem_cons_of_mem b hc)), hstep, List.mem_cons]
    · constructor
      · rintro ((hj | ⟨rfl, hx⟩) | ⟨hj, hx⟩)
        · exact .inl hj
        · exact .inr ⟨.inl rfl, hx⟩
        · exact .inr ⟨.inr hj, hx⟩
      · rintro (hj | ⟨rfl | hj, hx⟩)
        · exact .inl (.inl hj)
        · exact .inl (.inr ⟨rfl, hx⟩)
        · exact .inr ⟨hj, hx⟩
    · intro c hc z hz
      rw [hstep] at hz
      rcases hz with hz | ⟨rfl, -⟩
      · exact hnew c (List.mem_cons_of_mem b hc) z hz
      · exact hnodup.1 hc

/-- The computed frontiers are the places where dominance ends. -/
theorem mem_frontiers (h : g.Listing E front rest) (hexact : tree.Exact E)
    (hparent : tree.parent.size = g.size) {x y : BlockId} :
    y ∈ (g.frontiers tree).getD x ∅ ↔ InFrontier E entry x y := by
  have hempty : ∀ z w : BlockId, w ∉ (Array.replicate g.size (∅ : IdSet)).getD z ∅ := by
    intro z w
    rw [Array.getD_eq_getD_getElem?, Array.getElem?_replicate]
    split <;> exact Std.ExtTreeSet.not_mem_empty
  rw [frontiers, h.foldl_addFrontiersOf_spec hexact hparent Array.size_replicate hexact.order_nodup
    (fun b hb => hexact.mem_order.mp hb) (fun b _ x => hempty x b)]
  constructor
  · rintro (hy | ⟨-, hy⟩)
    · exact absurd hy (hempty x y)
    · exact hy
  · rintro ⟨p, hp, he, hx⟩
    exact .inr ⟨hexact.mem_order.mpr (hp.step he), p, hp, he, hx⟩

end Listing

/-! ## Graphs with dominance -/

/-- An ordered graph together with its exact dominator tree and frontiers. -/
structure Analysed (g : FlowGraph) (order : List BlockId) (tree : DominatorTree) : Prop
    extends g.Ordered order where
  dominance : ∃ frontiers, g.dominance = some ⟨tree, frontiers⟩
  exact : tree.Exact g.Edge
  mem_frontier : ∀ {x y : BlockId}, y ∈ g.frontier x ↔ InFrontier g.Edge entry x y

theorem Analysed.lt_of_mem_frontier {g : FlowGraph} {order : List BlockId} {tree : DominatorTree}
    (h : g.Analysed order tree) {x y : BlockId} (hy : y ∈ g.frontier x) : x < g.size ∧ y < g.size :=
  (h.mem_frontier.mp hy).reachable.imp h.reachable_lt h.reachable_lt

/-- Dominance can be found for every ordered graph, and it is exact. -/
theorem Ordered.withDominance {g : FlowGraph} {order : List BlockId} (h : g.Ordered order) :
    ∃ g' tree, g.withDominance = .ok g' ∧ g'.blocks = g.blocks ∧ g'.numVars = g.numVars ∧
      g'.Analysed order tree := by
  obtain ⟨tree, htree, hexact, hparent⟩ := h.dominatorTree
  refine ⟨{ g with dominance := some ⟨tree, g.frontiers tree⟩, definitionSites := none }, tree, ?_, rfl,
    rfl, ?_⟩
  · rw [withDominance_def, htree]
  · exact ⟨⟨h.toLinked.of_blocks_eq rfl, h.listed, h.isOrdered, h.kept_iff, h.mem_iff, h.nodup, h.head,
      h.before⟩, ⟨_, rfl⟩, hexact, h.listing.mem_frontiers hexact hparent⟩

end FlowGraph

end SsaFlow
