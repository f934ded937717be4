-- SUMMARY: The dominator tree of an ordered graph is exact: membership, queries, immediate dominators.
import Mathlib
import SsaFlow.Proofs.Ordered

/-!
# Dominator trees are exact

`DominatorTree.Exact` says that a tree answers every query as dominance by walks does. It is proved for
trees that are made from immediate dominators, and the chains of an ordered graph are shown to give
these.
-/

namespace SsaFlow

/-! ## Trees made from immediate dominators -/

namespace DominatorTree

/-- The tree says of the graph with edges `E` what walks from the entry say. -/
structure Exact (tree : DominatorTree) (E : BlockId → BlockId → Prop) : Prop where
  contains_iff : ∀ {b : BlockId}, tree.contains b = true ↔ Reachable E FlowGraph.entry b
  dominates_iff : ∀ {a b : BlockId}, tree.dominates a b = true ↔
    Reachable E FlowGraph.entry b ∧ Dominates E FlowGraph.entry a b
  idom_iff : ∀ {b d : BlockId}, tree.idom? b = some d ↔
    Reachable E FlowGraph.entry b ∧ ImmediatelyDominates E FlowGraph.entry d b
  exists_idom : ∀ {b : BlockId}, Reachable E FlowGraph.entry b → b ≠ FlowGraph.entry →
    ∃ d, tree.idom? b = some d
  mem_order : ∀ {b : BlockId}, b ∈ tree.order ↔ Reachable E FlowGraph.entry b
  order_nodup : tree.order.Nodup
  mem_preorder : ∀ {b : BlockId}, b ∈ tree.preorder ↔ Reachable E FlowGraph.entry b
  nodup : tree.preorder.Nodup
  /-- Every block is listed after its dominators. -/
  after : ∀ {xs ys : List BlockId} {a b : BlockId}, tree.preorder = xs ++ b :: ys →
    StrictlyDominates E FlowGraph.entry a b → a ∈ xs

/-- The table `parents` gives the immediate dominator of every block in `order` but the entry. -/
structure Parents (E : BlockId → BlockId → Prop) (size : Nat) (order : List BlockId)
    (parents : List (BlockId × BlockId)) : Prop where
  order_eq : order = FlowGraph.entry :: parents.map Prod.fst
  nodup : order.Nodup
  mem_iff : ∀ {b : BlockId}, b ∈ order ↔ Reachable E FlowGraph.entry b
  lt : ∀ {b : BlockId}, b ∈ order → b < size
  idom : ∀ {b d : BlockId}, (b, d) ∈ parents → ImmediatelyDominates E FlowGraph.entry d b

/-- The children listed for a node. -/
theorem mem_foldl_children (ps : List (Nat × Nat)) (acc : Array (List Nat)) (b d : Nat) :
    b ∈ (ps.foldl (fun acc (b, d) => acc.modify d (b :: ·)) acc).getD d [] ↔
      (b, d) ∈ ps ∧ d < acc.size ∨ b ∈ acc.getD d [] := by
  induction ps generalizing acc with
  | nil => simp
  | cons p ps ih =>
    obtain ⟨c, e⟩ := p
    rw [List.foldl_cons, ih, Array.size_modify]
    simp only [Array.getD_eq_getD_getElem?, Array.getElem?_modify, List.mem_cons, Prod.mk.injEq]
    by_cases hed : e = d
    · subst hed
      by_cases hlt : e < acc.size
      · simp [hlt]
        grind
      · simp [hlt]
    · simp [hed, Ne.symm hed]

namespace Parents

variable {E : BlockId → BlockId → Prop} {size : Nat} {order : List BlockId}
  {parents : List (BlockId × BlockId)} {depth : BlockId → Option Nat}

theorem keys_nodup (h : Parents E size order parents) : (parents.map Prod.fst).Nodup :=
  (List.nodup_cons.mp (h.order_eq ▸ h.nodup)).2

theorem reachable_of_mem (h : Parents E size order parents) {b d : BlockId} (hb : (b, d) ∈ parents) :
    Reachable E FlowGraph.entry b := by
  refine h.mem_iff.mp ?_
  rw [h.order_eq]
  exact List.mem_cons_of_mem _ (List.mem_map.mpr ⟨_, hb, rfl⟩)

theorem exists_parent (h : Parents E size order parents) {b : BlockId}
    (hb : Reachable E FlowGraph.entry b) (hne : b ≠ FlowGraph.entry) : ∃ d, (b, d) ∈ parents := by
  have hmem := h.mem_iff.mpr hb
  rw [h.order_eq, List.mem_cons] at hmem
  obtain ⟨⟨_, d⟩, hd, rfl⟩ := List.mem_map.mp (hmem.resolve_left hne)
  exact ⟨d, hd⟩

/-- The table of parents has the immediate dominators of all reachable blocks and nothing else. -/
theorem mem_parents_iff (h : Parents E size order parents) {b d : BlockId} :
    (b, d) ∈ parents ↔
      Reachable E FlowGraph.entry b ∧ ImmediatelyDominates E FlowGraph.entry d b := by
  constructor
  · exact fun hb => ⟨h.reachable_of_mem hb, h.idom hb⟩
  · rintro ⟨hb, hd⟩
    have hne : b ≠ FlowGraph.entry := by
      rintro rfl
      exact hd.1.1 hd.1.2.eq_root
    obtain ⟨e, he⟩ := h.exists_parent hb hne
    rw [hd.unique hb (h.idom he)]
    exact he

/-- The tree names the immediate dominator of a block. -/
theorem idom?_iff (h : Parents E size order parents) {b d : BlockId} :
    (ofParents size order parents depth).idom? b = some d ↔
      Reachable E FlowGraph.entry b ∧ ImmediatelyDominates E FlowGraph.entry d b := by
  rw [← h.mem_parents_iff]
  refine (join_getElem?_foldl_set h.keys_nodup (Array.replicate size none) b d).trans ?_
  rw [Array.size_replicate, Array.getElem?_replicate]
  constructor
  · rintro (⟨hb, -⟩ | ⟨-, hnone⟩)
    · exact hb
    · split at hnone <;> exact nomatch hnone
  · exact fun hb => .inl ⟨hb, h.lt (h.mem_iff.mpr (h.reachable_of_mem hb))⟩

/-- The children of a block are the blocks of which it is the parent. -/
theorem mem_childrenOf (h : Parents E size order parents) {b d : BlockId} :
    b ∈ (ofParents size order parents depth).childrenOf d ↔ (b, d) ∈ parents := by
  have hsorted : ∀ table : Array (List BlockId),
      b ∈ (table.map fun bs => bs.mergeSort (siblingLe depth)).getD d [] ↔ b ∈ table.getD d [] := by
    intro table
    rw [Array.getD_eq_getD_getElem?, Array.getD_eq_getD_getElem?, Array.getElem?_map]
    cases table[d]? with
    | none => exact Iff.rfl
    | some bs => exact List.mem_mergeSort
  rw [childrenOf, ofParents]
  dsimp only
  rw [hsorted, mem_foldl_children, Array.size_replicate, Array.getD_eq_getD_getElem?,
    Array.getElem?_replicate]
  constructor
  · rintro (⟨hb, -⟩ | hnil)
    · exact hb
    · split at hnil <;> cases hnil
  · intro hb
    have hreach := h.reachable_of_mem hb
    exact .inl ⟨hb, h.lt (h.mem_iff.mpr ((h.idom hb).1.2.reachable hreach))⟩

theorem branching (h : Parents E size order parents) :
    DepthFirst.Branching (ofParents size order parents depth).childrenOf := by
  intro a b c ha hb
  rw [h.mem_childrenOf] at ha hb
  exact (h.idom ha).unique (h.reachable_of_mem ha) (h.idom hb)

theorem entry_not_child (h : Parents E size order parents) (d : BlockId) :
    FlowGraph.entry ∉ (ofParents size order parents depth).childrenOf d := by
  rw [h.mem_childrenOf]
  intro hd
  exact (h.idom hd).1.1 (h.idom hd).1.2.eq_root

/-- Going down the tree is dominance. The induction is on the length of a walk: the immediate dominator
lies on it, further back. -/
theorem leads_iff (h : Parents E size order parents) {a b : BlockId} (ha : a < size) :
    DepthFirst.Leads (ofParents size order parents depth).childrenOf size a b ↔
      a = b ∨ Reachable E FlowGraph.entry b ∧ Dominates E FlowGraph.entry a b := by
  constructor
  · intro hl
    induction hl with
    | refl _ => exact .inl rfl
    | step _ hc _ ih =>
      rw [h.mem_childrenOf] at hc
      refine .inr ⟨h.reachable_of_mem hc, ?_⟩
      rcases ih with rfl | ⟨-, hdom⟩
      · exact (h.idom hc).1.2
      · exact hdom.trans (h.idom hc).1.2
  · rintro (rfl | ⟨⟨l, hl⟩, hdom⟩)
    · exact .refl ha
    -- the parent is passed on the way, so the walk to it is shorter
    · induction hn : l.length using Nat.strongRecOn generalizing l b with
      | _ n ih =>
        by_cases hab : a = b
        · exact hab ▸ .refl ha
        have hne : b ≠ FlowGraph.entry := by
          rintro rfl
          exact hab hdom.eq_root
        obtain ⟨d, hd⟩ := h.exists_parent ⟨l, hl⟩ hne
        obtain ⟨later, before, rfl, -, hbefore, hafter⟩ := hl.split ((h.idom hd).1.2 l hl)
        have hlater : later ≠ [] := by
          rintro rfl
          cases hafter <;> exact (h.idom hd).1.1 rfl
        have hlt : before.length < n := by
          have := List.length_pos_iff.mpr hlater
          rw [List.length_append] at hn
          omega
        have hup := ih before.length hlt ((h.idom hd).2 a ⟨hab, hdom⟩) before hbefore rfl
        exact .step hup (h.mem_childrenOf.mpr hd) (h.lt (h.mem_iff.mpr ⟨_, hl⟩))

theorem order_take_one (h : Parents E size order parents) : order.take 1 = [FlowGraph.entry] := by
  rw [h.order_eq]
  rfl

/-- The blocks of the tree are the reachable ones. -/
theorem mem_preorder (h : Parents E size order parents) {b : BlockId} :
    b ∈ (ofParents size order parents depth).preorder ↔ Reachable E FlowGraph.entry b := by
  refine DepthFirst.mem_preorder_trace.trans ?_
  rw [h.order_take_one]
  have hlt : FlowGraph.entry < size := h.lt (h.mem_iff.mpr .root)
  simp only [List.mem_singleton, exists_eq_left]
  refine (h.leads_iff hlt).trans ⟨?_, fun hb => .inr ⟨hb, .root b⟩⟩
  rintro (rfl | hb)
  · exact .root
  · exact hb.1

/-- A block of the tree stands in the preorder right before all that it strictly dominates, and its
interval says where. -/
theorem interval_spec (h : Parents E size order parents) (depth : BlockId → Option Nat) {a : BlockId}
    (ha : Reachable E FlowGraph.entry a) :
    ∃ before below later,
      (ofParents size order parents depth).preorder = before ++ a :: (below ++ later) ∧
      (ofParents size order parents depth).interval? a =
        some (before.length, before.length + below.length) ∧
      ∀ b, b ∈ below ↔ Reachable E FlowGraph.entry b ∧ StrictlyDominates E FlowGraph.entry a b := by
  have htrace : (ofParents size order parents depth).preorder = DepthFirst.preorder
      (DepthFirst.trace (ofParents size order parents depth).childrenOf size [FlowGraph.entry]) := by
    rw [← h.order_take_one]
    rfl
  have hinterval : (ofParents size order parents depth).interval = DepthFirst.intervals size
      (DepthFirst.trace (ofParents size order parents depth).childrenOf size [FlowGraph.entry]) := by
    rw [← h.order_take_one]
    rfl
  -- no block has two parents, so the numbers at and below a block follow each other
  obtain ⟨before, below, later, hsplit, hnumbers, hbelow⟩ :=
    DepthFirst.interval_trace h.branching h.entry_not_child (htrace ▸ h.mem_preorder.mpr ha)
  refine ⟨before, below, later, htrace.trans hsplit, ?_, fun b => (hbelow b).trans ?_⟩
  · rw [interval?, hinterval, hnumbers]
    rfl
  · constructor
    · rintro ⟨c, hc, hl⟩
      rw [h.mem_childrenOf] at hc
      have hreach := h.reachable_of_mem hc
      rw [h.leads_iff (h.lt (h.mem_iff.mpr hreach))] at hl
      rcases hl with rfl | ⟨hb, hdom⟩
      · exact ⟨hreach, (h.idom hc).1⟩
      · refine ⟨hb, ?_, (h.idom hc).1.2.trans hdom⟩
        rintro rfl
        exact (h.idom hc).1.1 (Dominates.antisymm hreach (h.idom hc).1.2 hdom)
    · rintro ⟨hb, hne, hdom⟩
      have hl : DepthFirst.Leads (ofParents size order parents depth).childrenOf size a b :=
        (h.leads_iff (h.lt (h.mem_iff.mpr ha))).mpr (.inr ⟨hb, hdom⟩)
      exact hl.eq_or_child.resolve_left hne

/-- A block that cannot be reached gets no interval. -/
theorem interval?_eq_none (h : Parents E size order parents) {b : BlockId}
    (hb : ¬ Reachable E FlowGraph.entry b) :
    (ofParents size order parents depth).interval? b = none := by
  have hpre : b ∉ (ofParents size order parents depth).preorder := fun hmem => hb (h.mem_preorder.mp hmem)
  have hpost : b ∉ DepthFirst.postorder (DepthFirst.trace
      (ofParents size order parents depth).childrenOf size (order.take 1)) :=
    fun hmem => hpre ((DepthFirst.perm_postorder_trace _ _).mem_iff.mpr hmem)
  have hnumbers := DepthFirst.getElem?_foldl_numberVisit hpre hpost (0, Array.replicate size none)
  rw [← DepthFirst.intervals_eq, Array.getElem?_replicate] at hnumbers
  refine (congrArg Option.join hnumbers).trans ?_
  split <;> rfl

/-- A slice of a list without repetitions holds the members whose places are in its range. -/
theorem mem_slice_iff {xs ys zs : List Nat} (hnodup : (xs ++ (ys ++ zs)).Nodup) {i b : Nat}
    (hi : (xs ++ (ys ++ zs))[i]? = some b) :
    b ∈ ys ↔ xs.length ≤ i ∧ i < xs.length + ys.length := by
  constructor
  · intro hb
    obtain ⟨j, hj, rfl⟩ := List.mem_iff_getElem.mp hb
    have hplace : (xs ++ (ys ++ zs))[xs.length + j]? = some ys[j] := by
      rw [List.getElem?_append_right (Nat.le_add_right _ _), Nat.add_sub_cancel_left,
        List.getElem?_append_left hj, List.getElem?_eq_getElem hj]
    have hlt := (List.getElem?_eq_some_iff.mp hi).1
    have hij := (List.getElem?_inj hlt hnodup).mp (hi.trans hplace.symm)
    omega
  · rintro ⟨hle, hlt⟩
    rw [List.getElem?_append_right hle, List.getElem?_append_left (by omega)] at hi
    exact List.mem_of_getElem? hi

/-- Of two members of a list without repetitions, the one that the other is later than comes first. -/
theorem mem_of_later {l xs ys before rest : List Nat} {a b : Nat} (hnodup : l.Nodup)
    (hb : l = xs ++ b :: ys) (ha : l = before ++ a :: rest) (hmem : b ∈ rest) : a ∈ xs := by
  subst ha
  have hrest := List.nodup_cons.mp (List.nodup_append.mp hnodup).2.1
  rcases List.append_eq_append_iff.mp hb with ⟨as, rfl, has⟩ | ⟨as, rfl, has⟩
  · cases as with
    | nil =>
      obtain ⟨rfl, rfl⟩ := List.cons.inj has
      exact absurd hmem hrest.1
    | cons c as =>
      obtain ⟨rfl, -⟩ := List.cons.inj has
      exact List.mem_append_right before List.mem_cons_self
  · cases as with
    | nil =>
      obtain ⟨rfl, rfl⟩ := List.cons.inj has
      exact absurd hmem hrest.1
    | cons c as =>
      obtain ⟨rfl, -⟩ := List.cons.inj has
      exact absurd rfl ((List.nodup_append.mp hnodup).2.2 b
        (List.mem_append_right xs List.mem_cons_self) b (List.mem_cons_of_mem a hmem))

/-- One interval lies in another exactly if every walk to the one block passes through the other. -/
theorem dominates_iff (h : Parents E size order parents) {a b : BlockId} :
    (ofParents size order parents depth).dominates a b = true ↔
      Reachable E FlowGraph.entry b ∧ Dominates E FlowGraph.entry a b := by
  by_cases hb : Reachable E FlowGraph.entry b
  · by_cases ha : Reachable E FlowGraph.entry a
    · obtain ⟨before, below, later, hsplit, hinterval, hbelow⟩ := h.interval_spec depth ha
      obtain ⟨before', below', later', hsplit', hinterval', -⟩ := h.interval_spec depth hb
      have hnodup : (before ++ ((a :: below) ++ later)).Nodup := by
        rw [List.cons_append, ← hsplit]
        exact DepthFirst.nodup_preorder_trace _ _ _
      have hplace : (before ++ ((a :: below) ++ later))[before'.length]? = some b := by
        rw [List.cons_append, ← hsplit, hsplit']
        simp
      -- the numbers of an interval are those of a slice of the preorder
      have hslice := mem_slice_iff hnodup hplace
      rw [List.length_cons, ← Nat.add_assoc, Nat.lt_add_one_iff] at hslice
      rw [dominates, hinterval, hinterval', decide_eq_true_eq, ← hslice, List.mem_cons, hbelow]
      constructor
      · rintro (rfl | hdom)
        · exact ⟨hb, .refl b⟩
        · exact ⟨hb, hdom.2.2⟩
      · rintro ⟨-, hdom⟩
        by_cases hab : a = b
        · exact .inl hab.symm
        · exact .inr ⟨hb, hab, hdom⟩
    · rw [dominates, h.interval?_eq_none ha]
      exact ⟨fun hfalse => (nomatch hfalse), fun hdom => absurd (hdom.2.reachable hb) ha⟩
  · rw [dominates, h.interval?_eq_none hb]
    refine ⟨fun hfalse => ?_, fun hdom => absurd hdom.1 hb⟩
    cases hia : (ofParents size order parents depth).interval? a <;> simp [hia] at hfalse

/-- Trees made from immediate dominators are exact. -/
theorem exact (h : Parents E size order parents) : (ofParents size order parents depth).Exact E where
  contains_iff := by
    intro b
    rw [contains]
    constructor
    · intro hsome
      refine Classical.byContradiction fun hb => ?_
      rw [h.interval?_eq_none hb] at hsome
      exact nomatch hsome
    · intro hb
      obtain ⟨_, _, _, -, hinterval, -⟩ := h.interval_spec depth hb
      rw [hinterval]
      rfl
  dominates_iff := h.dominates_iff
  idom_iff := h.idom?_iff
  exists_idom := by
    intro b hb hne
    obtain ⟨d, hd⟩ := h.exists_parent hb hne
    exact ⟨d, h.idom?_iff.mpr (h.mem_parents_iff.mp hd)⟩
  mem_order := h.mem_iff
  order_nodup := h.nodup
  mem_preorder := h.mem_preorder
  nodup := DepthFirst.nodup_preorder_trace _ _ _
  after := by
    intro xs ys a b hlist hdom
    have hb : Reachable E FlowGraph.entry b :=
      h.mem_preorder.mp (hlist ▸ List.mem_append_right xs List.mem_cons_self)
    obtain ⟨before, below, later, hsplit, -, hbelow⟩ := h.interval_spec depth (hdom.2.reachable hb)
    refine mem_of_later (DepthFirst.nodup_preorder_trace _ _ _) hlist hsplit ?_
    exact List.mem_append_left later ((hbelow b).mpr ⟨hb, hdom⟩)

end Parents

end DominatorTree

/-! ## The tree of an ordered graph -/

namespace FlowGraph

/-- The immediate dominators that a resolved chain table gives to the blocks of a list. -/
def parentsOf (order : List BlockId) (chains : List (Option Nat)) : List (BlockId × BlockId) :=
  ((order.zip chains).tail).filterMap fun (b, dom) => dom.map fun pos => (b, order.toArray.getD pos 0)

theorem map_fst_parentsOf {order : List BlockId} {chains : List (Option Nat)}
    (hlength : chains.length = order.length) (hsome : ∀ dom ∈ chains, dom.isSome) :
    (parentsOf order chains).map Prod.fst = order.tail := by
  have hzip : ∀ (bs : List BlockId) (doms : List (Option Nat)), doms.length = bs.length →
      (∀ dom ∈ doms, dom.isSome) → ((bs.zip doms).filterMap fun (b, dom) =>
        dom.map fun pos => (b, order.toArray.getD pos 0)).map Prod.fst = bs := by
    intro bs
    induction bs with
    | nil => exact fun _ _ _ => rfl
    | cons b bs ih =>
      intro doms hlen hdoms
      cases doms with
      | nil => exact nomatch hlen
      | cons dom doms =>
        obtain ⟨pos, rfl⟩ := Option.isSome_iff_exists.mp (hdoms dom List.mem_cons_self)
        have hrest := ih doms (Nat.succ.inj hlen) fun d hd => hdoms d (List.mem_cons_of_mem _ hd)
        exact congrArg (b :: ·) hrest
  have htail : (order.zip chains).tail = order.tail.zip chains.tail := by
    cases chains <;> cases order <;> simp
  rw [parentsOf, htail]
  refine hzip order.tail chains.tail ?_ fun dom hdom => hsome dom (List.mem_of_mem_tail hdom)
  rw [List.length_tail, List.length_tail, hlength]

theorem mem_parentsOf {order : List BlockId} {t : ChainTable} {b d : BlockId}
    (h : (b, d) ∈ parentsOf order t.toList) :
    ∃ q pos, q ≠ 0 ∧ order[q]? = some b ∧ t.up q = some pos ∧ d = order.toArray.getD pos 0 := by
  obtain ⟨⟨c, dom⟩, hmem, hmap⟩ := List.mem_filterMap.mp h
  obtain ⟨pos, rfl, heq⟩ := Option.map_eq_some_iff.mp hmap
  obtain ⟨rfl, rfl⟩ := Prod.mk.inj heq
  obtain ⟨i, hi⟩ := List.mem_iff_getElem?.mp hmem
  rw [List.getElem?_tail, List.getElem?_zip_eq_some] at hi
  refine ⟨i + 1, pos, Nat.succ_ne_zero i, hi.1, ?_, rfl⟩
  rw [ChainTable.up, ← Array.getElem?_toList, hi.2]
  rfl

namespace Sequenced

variable {E : BlockId → BlockId → Prop} {order : List BlockId} {preds : Nat → List Nat}

/-- What a settled chain table gives as the parent of a block is its immediate dominator. -/
theorem immediatelyDominates (h : Sequenced E order preds) {b d : BlockId}
    (hb : (b, d) ∈ parentsOf order (ChainTable.resolve preds order.length).toList) :
    ImmediatelyDominates E entry d b := by
  obtain ⟨q, pos, hq, hat, hup, rfl⟩ := mem_parentsOf hb
  have hlt : q < order.length := (List.getElem?_eq_some_iff.mp hat).1
  have hpos : pos < q := (ChainTable.settling_resolve h.forward).desc.lt hup hq
  have hd : order[pos]? = some (order.toArray.getD pos 0) := by
    have hpos' : pos < order.length := by omega
    simp [Array.getD_eq_getD_getElem?, hpos']
  have hdom := ChainTable.immediatelyDominates_of_up h.forward hq hlt hup
  refine ⟨⟨fun heq => ?_, (h.dominates_pos_iff hd hat).mp hdom.1.2⟩, fun x hx => ?_⟩
  · rw [heq] at hd
    exact Nat.ne_of_lt hpos ((List.getElem?_inj (by omega) h.nodup).mp (hd.trans hat.symm))
  · have hreach := hx.2.reachable (h.mem_iff.mp (List.mem_of_getElem? hat))
    have hxat := h.getElem?_idxOf hreach
    refine (h.dominates_pos_iff hxat hd).mp (hdom.2 _ ⟨fun heq => ?_, (h.dominates_pos_iff hxat hat).mpr hx.2⟩)
    rw [heq, hat] at hxat
    exact hx.1 (Option.some.inj hxat).symm

/-- Every position that walks reach is resolved. -/
theorem isSome_of_mem_chains (h : Sequenced E order preds) {dom : Option Nat}
    (hdom : dom ∈ (ChainTable.resolve preds order.length).toList) : dom.isSome := by
  obtain ⟨q, hq⟩ := List.mem_iff_getElem?.mp hdom
  have hsettled := ChainTable.settling_resolve h.forward
  rw [Array.getElem?_toList] at hq
  have hlt : q < order.length := hsettled.size ▸ (Array.getElem?_eq_some_iff.mp hq).1
  have hdone := hsettled.done q hlt
  rw [ChainTable.up, hq] at hdone
  exact hdone

theorem length_chains (h : Sequenced E order preds) :
    (ChainTable.resolve preds order.length).toList.length = order.length := by
  rw [Array.length_toList, (ChainTable.settling_resolve h.forward).size]

theorem parents (h : Sequenced E order preds) {size : Nat} (hlt : ∀ {b : BlockId}, b ∈ order → b < size) :
    DominatorTree.Parents E size order (parentsOf order (ChainTable.resolve preds order.length).toList) where
  order_eq := by
    obtain ⟨rest, hrest⟩ := h.head
    rw [map_fst_parentsOf h.length_chains fun _ => h.isSome_of_mem_chains, hrest]
    rfl
  nodup := h.nodup
  mem_iff := h.mem_iff
  lt := hlt
  idom := h.immediatelyDominates

end Sequenced

namespace Listing

variable {g : FlowGraph} {E : BlockId → BlockId → Prop} {front rest : List BlockId}

/-- The chains of the blocks in front, found from their predecessors in front. -/
def chains (g : FlowGraph) (front rest : List BlockId) : ChainTable :=
  ChainTable.resolve (ChainTable.below (g.predsAt (front ++ rest)) front.length) front.length

theorem settling_chains (h : g.Listing E front rest) :
    ChainTable.Settling (ChainTable.below (g.predsAt (front ++ rest)) front.length) front.length
      (chains g front rest) front.length :=
  ChainTable.settling_resolve h.sequenced.forward

/-- The blocks in front have the chains that they have by themselves, and the rest has none. -/
theorem toList_resolve (h : g.Listing E front rest) :
    (ChainTable.resolve (g.predsAt (front ++ rest)) (front ++ rest).length).toList =
      (chains g front rest).toList ++ List.replicate rest.length none := by
  have hle : front.length ≤ (front ++ rest).length := by simp
  have hsize : (ChainTable.resolve (g.predsAt (front ++ rest)) (front ++ rest).length).size =
      (front ++ rest).length := by
    rw [ChainTable.resolve, ChainTable.size_settle]
    simp [ChainTable.initial]
  have hsize' : (chains g front rest).size = front.length := h.settling_chains.size
  have hrest : (front ++ rest).length - front.length = rest.length := by simp
  rw [(ChainTable.prolongs_resolve h.sequenced.forward h.above hle).toList_eq, hsize, ← chains, hsize', hrest]

/-- A chain leads on to a position in front. -/
theorem lt_of_mem_chains (h : g.Listing E front rest) {pos : Nat}
    (hpos : some pos ∈ (chains g front rest).toList) : pos < front.length := by
  obtain ⟨q, hq⟩ := List.mem_iff_getElem?.mp hpos
  rw [Array.getElem?_toList] at hq
  have hup : (chains g front rest).up q = some pos := by rw [ChainTable.up, hq, Option.join_some]
  exact h.settling_chains.lt_of_up (h.settling_chains.desc.next hup)

/-- The tree is made from the blocks in front and their chains. -/
theorem dominatorTree_eq (h : g.Listing E front rest) :
    g.dominatorTree = .ok (.ofParents g.size front (parentsOf front (chains g front rest).toList) g.depth?) := by
  have hlength : (chains g front rest).toList.length = front.length := h.sequenced.length_chains
  have hsome : ∀ dom ∈ (chains g front rest).toList, dom.isSome = true :=
    fun _ => h.sequenced.isSome_of_mem_chains
  -- the blocks in front are resolved, and no block after them is
  have hresolved : (((chains g front rest).toList ++ List.replicate rest.length none).takeWhile
      Option.isSome).length = front.length := by
    rw [List.takeWhile_append_of_pos hsome, List.length_append, hlength]
    cases rest <;> rfl
  have hunresolved : (((front ++ rest).zip
      ((chains g front rest).toList ++ List.replicate rest.length none)).drop front.length).find?
        (fun (_, dom) => dom.isSome) = none := by
    have hzip : (front.zip (chains g front rest).toList).length = front.length := by
      rw [List.length_zip, hlength, Nat.min_self]
    rw [List.zip_append hlength.symm, List.drop_left' hzip, List.find?_eq_none]
    rintro ⟨b, dom⟩ hmem
    rw [List.eq_of_mem_replicate (List.of_mem_zip hmem).2]
    exact Bool.false_ne_true
  have hkept : front.zip ((chains g front rest).toList ++ List.replicate rest.length none) =
      front.zip (chains g front rest).toList := by
    have happend := @List.zip_append _ _ front [] (chains g front rest).toList
      (List.replicate rest.length none) hlength.symm
    rwa [List.append_nil, List.zip_nil_left, List.append_nil] at happend
  -- dominators stand in front too, so the list can be cut there
  have hparents : ((front.zip (chains g front rest).toList).tail.filterMap fun (b, dom) =>
      dom.map fun pos => (b, (front ++ rest).toArray.getD pos 0)) =
      parentsOf front (chains g front rest).toList := by
    refine List.filterMap_congr fun ⟨b, dom⟩ hmem => ?_
    cases dom with
    | none => rfl
    | some pos =>
      have hpos := h.lt_of_mem_chains (List.of_mem_zip (List.mem_of_mem_tail hmem)).2
      simp [Array.getD_eq_getD_getElem?, List.getElem?_append_left hpos]
  have hpreds : (fun pos => (g.predPositions (front ++ rest)).getD pos []) = g.predsAt (front ++ rest) := rfl
  rw [FlowGraph.dominatorTree, h.listed, h.isOrdered]
  dsimp only
  rw [hpreds, h.toList_resolve, hresolved, hunresolved, List.take_left' rfl, hkept, hparents]

/-- The dominator tree of a listed graph is built, and it is exact for the blocks in front. -/
theorem dominatorTree (h : g.Listing E front rest) :
    ∃ tree, g.dominatorTree = .ok tree ∧ tree.Exact E ∧ tree.parent.size = g.size := by
  have hlt : ∀ {b : BlockId}, b ∈ front → b < g.size := fun hb => h.lt (List.mem_append_left rest hb)
  refine ⟨_, h.dominatorTree_eq, (h.sequenced.parents hlt).exact, ?_⟩
  exact (size_foldl_set _ _).trans Array.size_replicate

end Listing

theorem Ordered.dominatorTree {g : FlowGraph} {order : List BlockId} (h : g.Ordered order) :
    ∃ tree, g.dominatorTree = .ok tree ∧ tree.Exact g.Edge ∧ tree.parent.size = g.size :=
  h.listing.dominatorTree

/-- The dominator tree of a graph built by hand, pruned and ordered is built, it holds the blocks that
walks from the entry reach, and it answers queries as walks do. -/
theorem dominatorTree_exact {g : FlowGraph} (hg : g.Built) :
    ∃ ordered tree, g.prune.1.withOrder = .ok ordered ∧ ordered.dominatorTree = .ok tree ∧
      (∀ b, tree.contains b = true ↔ Reachable ordered.Edge entry b) ∧
      (∀ a b, tree.dominates a b = true ↔ tree.contains a = true ∧ tree.contains b = true ∧
        Dominates ordered.Edge entry a b) ∧
      (∀ b, tree.contains b = true → b ≠ entry →
        ∃ d, tree.idom? b = some d ∧ ImmediatelyDominates ordered.Edge entry d b) ∧
      tree.idom? entry = none ∧ ∀ b, tree.contains b = false → tree.idom? b = none := by
  obtain ⟨ordered, order, hordered, -, -, hlisted⟩ := hg.fresh.prune.1.withOrder
  obtain ⟨tree, htree, hexact, -⟩ := hlisted.dominatorTree
  refine ⟨ordered, tree, hordered, htree, fun b => hexact.contains_iff, fun a b => ?_, fun b hb hne => ?_,
    ?_, fun b hb => ?_⟩
  · rw [hexact.dominates_iff, hexact.contains_iff, hexact.contains_iff]
    constructor
    · rintro ⟨hb, hdom⟩
      exact ⟨hdom.reachable hb, hb, hdom⟩
    · rintro ⟨-, hb, hdom⟩
      exact ⟨hb, hdom⟩
  · obtain ⟨d, hd⟩ := hexact.exists_idom (hexact.contains_iff.mp hb) hne
    exact ⟨d, hd, (hexact.idom_iff.mp hd).2⟩
  · refine Option.eq_none_iff_forall_ne_some.mpr fun d hd => ?_
    have hstrict := (hexact.idom_iff.mp hd).2.1
    exact hstrict.1 hstrict.2.eq_root
  · refine Option.eq_none_iff_forall_ne_some.mpr fun d hd => ?_
    rw [hexact.contains_iff.mpr (hexact.idom_iff.mp hd).1] at hb
    exact nomatch hb

/-- Two loops side by side: `0` goes to `1` and `2`, and each of them goes to itself or to `3`. -/
def twoLoops : FlowGraph :=
  (((new 0).addBlock.addBlock.addBlock.setJump 0 (.branch (.const 1) 1 2)).setJump 1 (.branch (.const 1) 1 3)).setJump 2
    (.branch (.const 1) 2 3)

/-- Pruning keeps all four blocks. The block behind the loops is dominated by the entry at once, and by neither
loop. -/
theorem dominatorTree_exact_twoLoops :
    ∃ ordered tree, twoLoops.prune.1.withOrder = .ok ordered ∧ ordered.dominatorTree = .ok tree ∧
      tree.dominates 0 3 = true ∧ tree.dominates 1 3 = false ∧ tree.idom? 3 = some 0 ∧
      ¬ Dominates ordered.Edge entry 1 3 ∧ ImmediatelyDominates ordered.Edge entry 0 3 := by
  have hbuilt : twoLoops.Built :=
    .setJump (.setJump (.setJump (.addBlock (.addBlock (.addBlock (.new 0)))) (if_pos (by decide)))
      (if_pos (by decide))) (if_pos (by decide))
  obtain ⟨ordered, tree, hordered, htree, -, hdominates, hidom, -⟩ := dominatorTree_exact hbuilt
  have hrun : ((twoLoops.prune.1.withOrder.bind dominatorTree).map fun tree =>
      (tree.contains 1, tree.contains 3, tree.dominates 0 3, tree.dominates 1 3, tree.idom? 3)) =
        .ok (true, true, true, false, some 0) := by cbv
  simp only [hordered, htree, Except.bind, Except.map, Except.ok.injEq, Prod.mk.injEq] at hrun
  obtain ⟨hone, hthree, habove, hbeside, hparent⟩ := hrun
  refine ⟨ordered, tree, hordered, htree, habove, hbeside, hparent, fun hdom => ?_, ?_⟩
  · rw [(hdominates 1 3).mpr ⟨hone, hthree, hdom⟩] at hbeside
    exact Bool.noConfusion hbeside
  · obtain ⟨d, hd, himmediate⟩ := hidom 3 hthree (by decide)
    obtain rfl : 0 = d := Option.some.inj (hparent.symm.trans hd)
    exact himmediate

end FlowGraph

end SsaFlow
