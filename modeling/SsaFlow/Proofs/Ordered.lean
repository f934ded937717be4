-- SUMMARY: Ordering a pruned graph lists the reachable blocks in reverse postorder; blocks by position.
import SsaFlow.Dominator.Build
import SsaFlow.Graph.Order
import SsaFlow.Proofs.Exploration
import SsaFlow.Proofs.Pruned
import SsaFlow.Proofs.Unresolved

/-!
# Ordered graphs

In an ordered graph every block but the entry has a predecessor that is listed before it. The positions
of the blocks in the list form a graph of their own, which is the flow graph with its blocks renumbered;
the chains of dominators are found there.
-/

namespace SsaFlow

/-- Filling a table from a list of entries with different keys. -/
theorem join_getElem?_foldl_set {α : Type} {ps : List (Nat × α)} (hnodup : (ps.map Prod.fst).Nodup)
    (acc : Array (Option α)) (b : Nat) (x : α) :
    ((ps.foldl (fun acc (b, x) => acc.setIfInBounds b (some x)) acc)[b]?).join = some x ↔
      (b, x) ∈ ps ∧ b < acc.size ∨ b ∉ ps.map Prod.fst ∧ (acc[b]?).join = some x := by
  induction ps generalizing acc with
  | nil => simp
  | cons p ps ih =>
    obtain ⟨c, y⟩ := p
    rw [List.map_cons, List.nodup_cons] at hnodup
    rw [List.foldl_cons, ih hnodup.2, Array.size_setIfInBounds, Array.getElem?_setIfInBounds]
    simp only [List.map_cons, List.mem_cons, not_or, Prod.mk.injEq]
    by_cases hcb : c = b
    · subst hcb
      have hnot : (c, x) ∉ ps := fun h => hnodup.1 (List.mem_map.mpr ⟨_, h, rfl⟩)
      by_cases hlt : c < acc.size
      · simp [hnodup.1, hnot, hlt, eq_comm]
      · simp [hlt]
    · simp [hcb, Ne.symm hcb]

theorem size_foldl_set {α : Type} (ps : List (Nat × α)) (acc : Array (Option α)) :
    (ps.foldl (fun acc (b, x) => acc.setIfInBounds b (some x)) acc).size = acc.size := by
  induction ps generalizing acc with
  | nil => rfl
  | cons p ps ih => rw [List.foldl_cons, ih, Array.size_setIfInBounds]

namespace FlowGraph

/-- The list `order` has the blocks of the graph, each after one of its predecessors, the entry first. -/
structure Ordered (g : FlowGraph) (order : List BlockId) : Prop extends g.Linked where
  listed : g.reachable = some order
  isOrdered : g.isOrdered = true
  kept_iff : ∀ {b : BlockId}, b < g.size ∧ (g.block b).removed = false ↔ Reachable g.Edge entry b
  mem_iff : ∀ {b : BlockId}, b ∈ order ↔ Reachable g.Edge entry b
  nodup : order.Nodup
  head : ∃ rest, order = entry :: rest
  before : ∀ {xs ys : List BlockId} {b : BlockId}, order = xs ++ b :: ys → b ≠ entry →
    ∃ a ∈ xs, g.Edge a b

/-! ## Ordering -/

theorem mem_presentTargets {g : FlowGraph} {a b : BlockId} :
    b ∈ g.presentTargets a ↔ g.Edge a b ∧ (g.block b).removed = false := by
  rw [presentTargets, List.mem_filter, Bool.not_eq_true']
  rfl

/-- The list that ordering makes of `old`: first the blocks that the walk finds, each but the entry after a
block that leads to it, then those that it misses. -/
structure Walked (g : FlowGraph) (old found missed : List BlockId) : Prop where
  nodup : (found ++ missed).Nodup
  mem_found : ∀ {b : BlockId}, b ∈ found ↔ DepthFirst.Leads g.presentTargets g.size entry b
  mem_missed : ∀ {b : BlockId}, b ∈ missed ↔
    b ∈ old ∧ ¬ DepthFirst.Leads g.presentTargets g.size entry b
  head : ∃ more, found = entry :: more
  before : ∀ {xs ys : List BlockId} {b : BlockId}, found = xs ++ b :: ys → b ≠ entry →
    ∃ a ∈ xs, b ∈ g.presentTargets a

/-- The walk gives no depth to a block exactly if it misses the block. -/
theorem isNone_depths_walk {g : FlowGraph} {b : BlockId} :
    ((DepthFirst.depths g.size g.walk)[b]?).join.isNone = true ↔
      ¬ DepthFirst.Leads g.presentTargets g.size entry b := by
  rw [← Option.not_isSome, Bool.not_eq_true', Bool.eq_false_iff, ne_eq, DepthFirst.isSome_depths, walk,
    DepthFirst.mem_preorder_trace]
  refine not_congr ?_
  simp only [List.mem_singleton, exists_eq_left]
  refine and_iff_left_of_imp fun hl => ?_
  cases hl with
  | refl hlt | step _ _ hlt => exact hlt

/-- Ordering a linked graph changes only what is known about it. -/
theorem Linked.withOrder_eq {g : FlowGraph} (h : g.Linked) {old : List BlockId} (hold : g.reachable = some old)
    (hnodup : old.Nodup) :
    ∃ found missed, g.Walked old found missed ∧ g.withOrder = .ok { g with
      reachable := some (found ++ missed)
      depths := some (DepthFirst.depths g.size g.walk) } := by
  have hmissed : ∀ {b : BlockId}, (b ∈ old.filter fun b => ((DepthFirst.depths g.size g.walk)[b]?).join.isNone) ↔
      b ∈ old ∧ ¬ DepthFirst.Leads g.presentTargets g.size entry b := by
    intro b
    rw [List.mem_filter, isNone_depths_walk]
  refine ⟨DepthFirst.reversePostorder g.presentTargets g.size entry, _, ⟨?_, DepthFirst.mem_reversePostorder,
    hmissed, DepthFirst.reversePostorder_eq_cons h.entry_lt, DepthFirst.exists_before_reversePostorder⟩, ?_⟩
  · refine List.nodup_append.mpr ⟨DepthFirst.nodup_reversePostorder _ _, hnodup.filter _, ?_⟩
    rintro a ha _ hb rfl
    exact (hmissed.mp hb).2 (DepthFirst.mem_reversePostorder.mp ha)
  · rw [withOrder_def, hold]
    rfl

namespace Pruned

variable {g : FlowGraph}

theorem mem_presentTargets (h : g.Pruned) {a b : BlockId} (ha : Reachable g.Edge entry a) :
    b ∈ g.presentTargets a ↔ g.Edge a b := by
  rw [FlowGraph.mem_presentTargets]
  exact and_iff_left_of_imp fun he => (h.kept_iff.mpr (ha.step he)).2

/-- In a pruned graph the walk over present blocks gets wherever control can get. -/
theorem leads_present_iff (h : g.Pruned) {b : BlockId} :
    DepthFirst.Leads g.presentTargets g.size entry b ↔ Reachable g.Edge entry b := by
  constructor
  · intro hl
    induction hl with
    | refl _ => exact .root
    | step _ hm _ ih => exact ih.step ((h.mem_presentTargets ih).mp hm)
  · rintro ⟨l, hl⟩
    induction hl with
    | start => exact .refl h.entry_lt
    | step hw he ih => exact .step ih ((h.mem_presentTargets ⟨_, hw⟩).mpr he) (h.edge_lt he)

/-- Ordering a pruned graph succeeds and changes only what is known about it. -/
theorem withOrder (h : g.Pruned) :
    ∃ g' order, g.withOrder = .ok g' ∧ g'.blocks = g.blocks ∧ g'.numVars = g.numVars ∧
      g'.Ordered order := by
  obtain ⟨found, missed, hwalked, hordered⟩ := h.withOrder_eq h.listed (List.nodup_range.filter _)
  -- Every listed block is found by the walk, so nothing is left over at the end of the list.
  obtain rfl : missed = [] := by
    refine List.eq_nil_iff_forall_not_mem.mpr fun b hb => ?_
    obtain ⟨hlisted, hnot⟩ := hwalked.mem_missed.mp hb
    exact hnot (h.leads_present_iff.mpr (h.kept_iff.mp (mem_liveIds.mp hlisted)))
  rw [List.append_nil] at hordered
  have hmem : ∀ {b}, b ∈ found ↔ Reachable g.Edge entry b := by
    intro b
    rw [hwalked.mem_found, h.leads_present_iff]
  refine ⟨_, found, hordered, rfl, rfl, h.toLinked.of_blocks_eq rfl, rfl, rfl, h.kept_iff, hmem,
    List.append_nil found ▸ hwalked.nodup, hwalked.head, ?_⟩
  intro xs ys b hsplit hne
  obtain ⟨a, ha, hb⟩ := hwalked.before hsplit hne
  have hreach : Reachable g.Edge entry a := hmem.mp (hsplit ▸ List.mem_append_left (b :: ys) ha)
  exact ⟨a, ha, (h.mem_presentTargets hreach).mp hb⟩

end Pruned

/-! ## Positions -/

/-- The list `order` has the blocks that walks along `E` reach, each after one of its predecessors, the
entry first, and `preds` gives the predecessors of each position. -/
structure Sequenced (E : BlockId → BlockId → Prop) (order : List BlockId) (preds : Nat → List Nat) : Prop where
  mem_iff : ∀ {b : BlockId}, b ∈ order ↔ Reachable E entry b
  nodup : order.Nodup
  head : ∃ rest, order = entry :: rest
  before : ∀ {xs ys : List BlockId} {b : BlockId}, order = xs ++ b :: ys → b ≠ entry → ∃ a ∈ xs, E a b
  mem_preds : ∀ {p q : Nat}, p ∈ preds q ↔ ∃ a b, order[p]? = some a ∧ order[q]? = some b ∧ E a b

namespace Sequenced

variable {E : BlockId → BlockId → Prop} {order : List BlockId} {preds : Nat → List Nat}

/-- Edges between positions are edges between the blocks that stand there. -/
theorem posEdge_iff (h : Sequenced E order preds) {p q : Nat} :
    ChainTable.PosEdge preds order.length p q ↔
      ∃ a b, order[p]? = some a ∧ order[q]? = some b ∧ E a b := by
  rw [ChainTable.PosEdge, h.mem_preds]
  constructor
  · exact fun he => he.2
  · rintro ⟨a, b, hp, hq, he⟩
    exact ⟨(List.getElem?_eq_some_iff.mp hq).1, a, b, hp, hq, he⟩

/-- Every position but the first has a predecessor before it. -/
theorem forward (h : Sequenced E order preds) : ChainTable.Forward preds order.length where
  pos := by
    obtain ⟨rest, hrest⟩ := h.head
    rw [hrest]
    exact Nat.succ_pos _
  lt := by
    intro p q _ hp
    obtain ⟨a, b, hp, -⟩ := h.mem_preds.mp hp
    exact (List.getElem?_eq_some_iff.mp hp).1
  before := by
    intro q hq hlt
    have hsplit : order = order.take q ++ order[q] :: order.drop (q + 1) := by
      rw [← List.drop_eq_getElem_cons hlt, List.take_append_drop]
    have hne : order[q] ≠ entry := by
      obtain ⟨rest, hrest⟩ := h.head
      have h0 : order[0]? = some entry := by rw [hrest]; rfl
      intro heq
      exact hq ((List.getElem?_inj hlt h.nodup).mp ((List.getElem?_eq_getElem hlt).trans (by rw [heq, h0])))
    obtain ⟨a, ha, he⟩ := h.before hsplit hne
    obtain ⟨p, hp, rfl⟩ := List.mem_take_iff_getElem.mp ha
    have hplt : p < q := by omega
    refine ⟨p, h.mem_preds.mpr ⟨_, _, ?_, List.getElem?_eq_getElem hlt, he⟩, hplt⟩
    exact List.getElem?_eq_getElem (by omega)

theorem getElem?_idxOf (h : Sequenced E order preds) {b : BlockId} (hb : Reachable E entry b) :
    order[order.idxOf b]? = some b := by
  have hlt := List.idxOf_lt_length_of_mem (h.mem_iff.mpr hb)
  rw [List.getElem?_eq_getElem hlt, List.getElem_idxOf hlt]

theorem idxOf_eq (h : Sequenced E order preds) {b : BlockId} {p : Nat} (hp : order[p]? = some b) :
    order.idxOf b = p := by
  obtain ⟨hlt, rfl⟩ := List.getElem?_eq_some_iff.mp hp
  exact h.nodup.idxOf_getElem p hlt

/-- Dominance among positions is dominance among the blocks at them. -/
theorem dominates_pos_iff (h : Sequenced E order preds) {p q : Nat} {a b : BlockId}
    (hp : order[p]? = some a) (hq : order[q]? = some b) :
    Dominates (ChainTable.PosEdge preds order.length) 0 p q ↔ Dominates E entry a b := by
  have hroot : order.idxOf entry = 0 := by
    obtain ⟨rest, hrest⟩ := h.head
    exact h.idxOf_eq (by rw [hrest]; rfl)
  have hiff := @dominates_map_iff _ E entry _
    (ChainTable.PosEdge preds order.length) (fun c => order.idxOf c) (fun i => order.getD i 0)
    (fun c d hc he => h.posEdge_iff.mpr ⟨c, d, h.getElem?_idxOf hc, h.getElem?_idxOf (hc.step he), he⟩)
    (fun i j _ he => by
      obtain ⟨c, d, hi, hj, he⟩ := h.posEdge_iff.mp he
      simpa [List.getD_eq_getElem?_getD, hi, hj] using he)
    (fun c hc => by simp [List.getD_eq_getElem?_getD, h.getElem?_idxOf hc])
    (fun i hi => by
      have hlt : i < order.length := by
        obtain ⟨l, hl⟩ := hi
        cases hl with
        | start => exact List.idxOf_lt_length_of_mem (h.mem_iff.mpr .root)
        | step _ he => exact he.1
      simp only [List.getD_eq_getElem?_getD, List.getElem?_eq_getElem hlt, Option.getD_some]
      exact h.nodup.idxOf_getElem i hlt)
    a b (h.mem_iff.mp (List.mem_of_getElem? hp)) (h.mem_iff.mp (List.mem_of_getElem? hq))
  simp only [h.idxOf_eq hp, h.idxOf_eq hq, hroot] at hiff
  exact hiff

end Sequenced

/-! ## Listed graphs -/

/-- A block of a list has its place there as its position, and other blocks have none. -/
theorem positions_iff {g : FlowGraph} {order : List BlockId} (hnodup : order.Nodup) (hlt : ∀ b ∈ order, b < g.size)
    {b i : Nat} : ((g.positions order)[b]?).join = some i ↔ order[i]? = some b := by
  have hkeys : (order.zipIdx.map Prod.fst).Nodup := by
    rw [List.zipIdx_map_fst]
    exact hnodup
  rw [positions, join_getElem?_foldl_set hkeys, List.mem_zipIdx_iff_getElem?, Array.size_replicate]
  constructor
  · rintro (⟨hi, -⟩ | ⟨-, hnone⟩)
    · exact hi
    · rw [Array.getElem?_replicate] at hnone
      split at hnone <;> exact nomatch hnone
  · intro hi
    exact .inl ⟨hi, hlt b (List.mem_of_getElem? hi)⟩

/-- The predecessors of a position, as the chain table is given them. -/
def predsAt (g : FlowGraph) (order : List BlockId) (pos : Nat) : List Nat :=
  (g.predPositions order).getD pos []

/-- The blocks of an ordered graph are listed with `front` first, which has the blocks that walks along `E`
reach, each after one of its predecessors. The rest of the list is led to by none of them. -/
structure Listing (g : FlowGraph) (E : BlockId → BlockId → Prop) (front rest : List BlockId) : Prop where
  listed : g.reachable = some (front ++ rest)
  isOrdered : g.isOrdered = true
  nodup : (front ++ rest).Nodup
  lt : ∀ {b : BlockId}, b ∈ front ++ rest → b < g.size
  mem_iff : ∀ {b : BlockId}, b ∈ front ↔ Reachable E entry b
  head : ∃ more, front = entry :: more
  before : ∀ {xs ys : List BlockId} {b : BlockId}, front = xs ++ b :: ys → b ≠ entry → ∃ a ∈ xs, E a b
  edge_iff : ∀ {a b : BlockId}, a ∈ front → b ∈ front → (a ∈ g.livePredecessors b ↔ E a b)
  apart : ∀ {a b : BlockId}, a ∈ front → b ∈ rest → a ∉ g.livePredecessors b

namespace Listing

variable {g : FlowGraph} {E : BlockId → BlockId → Prop} {front rest : List BlockId}

theorem mem_predsAt (h : g.Listing E front rest) {p q : Nat} :
    p ∈ g.predsAt (front ++ rest) q ↔
      ∃ a b, (front ++ rest)[p]? = some a ∧ (front ++ rest)[q]? = some b ∧ a ∈ g.livePredecessors b := by
  have hat : g.predsAt (front ++ rest) q = (((front ++ rest)[q]?).map fun b =>
      (g.livePredecessors b).filterMap fun a => ((g.positions (front ++ rest))[a]?).join).getD [] := by
    rw [predsAt, predPositions, Array.getD_eq_getD_getElem?, List.getElem?_toArray, List.getElem?_map]
  rw [hat]
  cases hq : (front ++ rest)[q]? with
  | none => simp
  | some b =>
    simp only [Option.map_some, Option.getD_some, List.mem_filterMap, Option.some.injEq, positions_iff h.nodup fun _ => h.lt]
    constructor
    · rintro ⟨a, ha, hp⟩
      exact ⟨a, b, hp, rfl, ha⟩
    · rintro ⟨a, b, hp, rfl, ha⟩
      exact ⟨a, ha, hp⟩

/-- In the front of a listing, positions and their predecessors have the edges of the graph. -/
theorem sequenced (h : g.Listing E front rest) :
    Sequenced E front (ChainTable.below (g.predsAt (front ++ rest)) front.length) where
  mem_iff := h.mem_iff
  nodup := (List.nodup_append.mp h.nodup).1
  head := h.head
  before := h.before
  mem_preds := by
    intro p q
    rw [ChainTable.mem_below, h.mem_predsAt]
    constructor
    · rintro ⟨⟨a, b, hp, hq, ha⟩, hlt⟩
      rw [List.getElem?_append_left hlt] at hp
      have hmem := List.mem_of_getElem? hp
      by_cases hqlt : q < front.length
      · rw [List.getElem?_append_left hqlt] at hq
        exact ⟨a, b, hp, hq, (h.edge_iff hmem (List.mem_of_getElem? hq)).mp ha⟩
      · rw [List.getElem?_append_right (Nat.le_of_not_lt hqlt)] at hq
        exact absurd ha (h.apart hmem (List.mem_of_getElem? hq))
    · rintro ⟨a, b, hp, hq, he⟩
      have hplt := (List.getElem?_eq_some_iff.mp hp).1
      have hqlt := (List.getElem?_eq_some_iff.mp hq).1
      refine ⟨⟨a, b, ?_, ?_, ?_⟩, hplt⟩
      · rw [List.getElem?_append_left hplt, hp]
      · rw [List.getElem?_append_left hqlt, hq]
      · exact (h.edge_iff (List.mem_of_getElem? hp) (List.mem_of_getElem? hq)).mpr he

/-- The positions of the rest have no predecessors in front. -/
theorem above (h : g.Listing E front rest) (q : Nat) (hq : front.length ≤ q) :
    ∀ p ∈ g.predsAt (front ++ rest) q, front.length ≤ p := by
  intro p hp
  obtain ⟨a, b, hp, hb, ha⟩ := h.mem_predsAt.mp hp
  refine Nat.le_of_not_lt fun hlt => ?_
  rw [List.getElem?_append_left hlt] at hp
  rw [List.getElem?_append_right hq] at hb
  exact h.apart (List.mem_of_getElem? hp) (List.mem_of_getElem? hb) ha

end Listing

namespace Ordered

variable {g : FlowGraph} {order : List BlockId}

/-- The live predecessors of a block are the reachable blocks with an edge to it. -/
theorem mem_livePredecessors_iff (h : g.Ordered order) {p b : BlockId} :
    p ∈ g.livePredecessors b ↔ Reachable g.Edge entry p ∧ g.Edge p b := by
  rw [h.mem_livePredecessors, ← h.kept_iff]
  constructor
  · rintro ⟨hkept, he⟩
    exact ⟨⟨lt_of_mem_successors (mem_successors_of_edge he), hkept⟩, he⟩
  · rintro ⟨⟨-, hkept⟩, he⟩
    exact ⟨hkept, he⟩

theorem lt_of_mem (h : g.Ordered order) {b : BlockId} (hb : b ∈ order) : b < g.size :=
  h.reachable_lt (h.mem_iff.mp hb)

/-- All blocks are in front. -/
theorem listing (h : g.Ordered order) : g.Listing g.Edge order [] where
  listed := by
    rw [List.append_nil]
    exact h.listed
  isOrdered := h.isOrdered
  nodup := by
    rw [List.append_nil]
    exact h.nodup
  lt := by
    rw [List.append_nil]
    exact h.lt_of_mem
  mem_iff := h.mem_iff
  head := h.head
  before := h.before
  edge_iff := fun ha _ =>
    h.mem_livePredecessors_iff.trans (and_iff_right (h.mem_iff.mp ha))
  apart := fun _ hb => absurd hb List.not_mem_nil

end Ordered

end FlowGraph

end SsaFlow
