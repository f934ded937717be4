-- SUMMARY: Ordering lists dominators first, and an edge goes forward in the list unless it closes a cycle.
import Mathlib
import SsaFlow.Proofs.Ordered
import SsaFlow.Proofs.RecursiveSearch

/-!
# Reverse postorder

A depth-first search from a list of nodes is the search from the first of them followed by the search from the
others, and the search from one node is the search below it between entering and leaving it. What a search does is
therefore said once (`Searched`) and shown to be kept by these two ways of putting searches together.

Two facts follow for the order in which nodes are left, the last one first. Every node but the start was entered,
one level deeper, from a node before it. And a node leads to nodes after it or to nodes that lead back to it: when it
is left, all it leads to has been entered, and of that only the nodes on the way to it have not been left.
-/

namespace SsaFlow

namespace DepthFirst

variable {next : Nat → List Nat}

/-! ## Depths -/

namespace Found

variable {s : Found} {node depth x : Nat}

@[simp] theorem left_enter : (s.enter node depth).left = s.left := rfl

@[simp] theorem left_leave : (s.leave node).left = s.left ++ [node] := rfl

@[simp] theorem depth?_leave : (s.leave node).depth? x = s.depth? x := rfl

theorem depth?_none (bound x : Nat) : (none bound).depth? x = Option.none := by
  rw [depth?, none, Array.getElem?_replicate]
  split <;> rfl

/-- A node has not been entered if it has no depth. -/
theorem fresh_iff_depth? : s.depths[node]? = some Option.none ↔ node < s.depths.size ∧ s.depth? node = Option.none := by
  by_cases h : node < s.depths.size <;> simp [depth?, h]

theorem depth?_enter (h : node < s.depths.size) :
    (s.enter node depth).depth? x = if node = x then some depth else s.depth? x := by
  rw [depth?, enter, Array.getElem?_setIfInBounds, if_pos h]
  split <;> rfl

end Found

/-! ## What a search does -/

/-- From `s`, a search from `nodes` at the given depth gets to `t` and leaves the nodes in `new`, in that order. -/
structure Searched (next : Nat → List Nat) (depth : Nat) (nodes : List Nat) (s t : Found) (new : List Nat) : Prop where
  size : t.depths.size = s.depths.size
  left : t.left = s.left ++ new
  keeps : ∀ {x d : Nat}, s.depth? x = some d → t.depth? x = some d
  /-- Every node that is entered is left. -/
  entered : ∀ {x d : Nat}, t.depth? x = some d → s.depth? x = some d ∨ x ∈ new
  fresh : ∀ x ∈ new, s.depth? x = none
  /-- The nodes of the list have been entered. -/
  made : ∀ x ∈ nodes, x < s.depths.size → (t.depth? x).isSome
  led : ∀ x ∈ new, ∃ b ∈ nodes, Leads next s.depths.size b x
  /-- A node is entered from the list, or from a node that is left after it. -/
  parent : ∀ x ∈ new, x ∈ nodes ∧ t.depth? x = some depth ∨
    ∃ p d, [x, p].Sublist new ∧ x ∈ next p ∧ t.depth? p = some d ∧ t.depth? x = some (d + 1)
  /-- A node leads to nodes left before it, to nodes entered before the search, and to nodes that lead to it. -/
  back : ∀ u ∈ new, ∀ v ∈ next u, v < s.depths.size →
    [v, u].Sublist new ∨ (s.depth? v).isSome ∨ Leads next s.depths.size v u

/-- Two searches, one after the other. -/
theorem Searched.append {depth : Nat} {xs ys new new' : List Nat} {s t r : Found}
    (h : Searched next depth xs s t new) (k : Searched next depth ys t r new') :
    Searched next depth (xs ++ ys) s r (new ++ new') where
  size := k.size.trans h.size
  left := by rw [k.left, h.left, List.append_assoc]
  keeps hx := k.keeps (h.keeps hx)
  entered := by
    intro x d hx
    rw [List.mem_append]
    rcases k.entered hx with hx | hx
    · exact (h.entered hx).imp id .inl
    · exact .inr (.inr hx)
  fresh := by
    intro x hx
    rcases List.mem_append.mp hx with hx | hx
    · exact h.fresh x hx
    · refine Option.eq_none_iff_forall_ne_some.mpr fun d hd => ?_
      cases (k.fresh x hx).symm.trans (h.keeps hd)
  made := by
    intro x hx hlt
    rcases List.mem_append.mp hx with hx | hx
    · obtain ⟨d, hd⟩ := Option.isSome_iff_exists.mp (h.made x hx hlt)
      rw [k.keeps hd]
      rfl
    · exact k.made x hx (h.size ▸ hlt)
  led := by
    intro x hx
    rcases List.mem_append.mp hx with hx | hx
    · obtain ⟨b, hb, hl⟩ := h.led x hx
      exact ⟨b, List.mem_append_left _ hb, hl⟩
    · obtain ⟨b, hb, hl⟩ := k.led x hx
      exact ⟨b, List.mem_append_right _ hb, h.size ▸ hl⟩
  parent := by
    intro x hx
    rcases List.mem_append.mp hx with hx | hx
    · rcases h.parent x hx with ⟨hx, hd⟩ | ⟨p, d, hp, hmem, hd, hd'⟩
      · exact .inl ⟨List.mem_append_left _ hx, k.keeps hd⟩
      · exact .inr ⟨p, d, hp.trans (List.sublist_append_left _ _), hmem, k.keeps hd, k.keeps hd'⟩
    · rcases k.parent x hx with ⟨hx, hd⟩ | ⟨p, d, hp, hmem⟩
      · exact .inl ⟨List.mem_append_right _ hx, hd⟩
      · exact .inr ⟨p, d, hp.trans (List.sublist_append_right _ _), hmem⟩
  back := by
    intro u hu v hv hlt
    rcases List.mem_append.mp hu with hu | hu
    · exact (h.back u hu v hv hlt).imp (fun hsub => hsub.trans (List.sublist_append_left _ _)) id
    · rcases k.back u hu v hv (h.size ▸ hlt) with hsub | hopen | hl
      · exact .inl (hsub.trans (List.sublist_append_right _ _))
      · obtain ⟨d, hd⟩ := Option.isSome_iff_exists.mp hopen
        rcases h.entered hd with hd | hleft
        · exact .inr (.inl (hd ▸ rfl))
        · exact .inl ((List.singleton_sublist.mpr hleft).append (List.singleton_sublist.mpr hu))
      · exact .inr (.inr (h.size ▸ hl))

/-- Entering a node, the search below it, and leaving it. -/
theorem Searched.visit {depth node : Nat} {s t : Found} {new : List Nat} (h : s.depths[node]? = some none)
    (hbelow : Searched next (depth + 1) (next node) (s.enter node depth) t new) :
    Searched next depth [node] s (t.leave node) (new ++ [node]) := by
  obtain ⟨hlt, hnone⟩ := Found.fresh_iff_depth?.mp h
  have henter : ∀ x, (s.enter node depth).depth? x = if node = x then some depth else s.depth? x :=
    fun x => Found.depth?_enter hlt
  have hsize : (s.enter node depth).depths.size = s.depths.size := Array.size_setIfInBounds
  have hnode : t.depth? node = some depth := hbelow.keeps (by rw [henter, if_pos rfl])
  have hled : ∀ x ∈ new, Leads next s.depths.size node x := by
    intro x hx
    obtain ⟨b, hb, hl⟩ := hbelow.led x hx
    exact .head hlt hb (hsize ▸ hl)
  -- a node that has a depth after the search below was entered before, or it is this one, or it has been left
  have hentered : ∀ {x d : Nat}, t.depth? x = some d → s.depth? x = some d ∨ x = node ∨ x ∈ new := by
    intro x d hx
    rcases hbelow.entered hx with hx | hx
    · rw [henter] at hx
      split at hx
      · next heq => exact .inr (.inl heq.symm)
      · exact .inl hx
    · exact .inr (.inr hx)
  refine ⟨hbelow.size.trans hsize, ?_, ?_, ?_, ?_, ?_, ?_, ?_, ?_⟩
  · rw [Found.left_leave, hbelow.left, List.append_assoc, Found.left_enter]
  · intro x d hx
    refine hbelow.keeps ?_
    rw [henter, if_neg, hx]
    rintro rfl
    cases hnone.symm.trans hx
  · intro x d hx
    exact (hentered hx).imp id fun hx => by simpa [or_comm] using hx
  · intro x hx
    rcases List.mem_append.mp hx with hx | hx
    · have hfresh := hbelow.fresh x hx
      rw [henter] at hfresh
      split at hfresh
      · cases hfresh
      · exact hfresh
    · rw [List.mem_singleton.mp hx]
      exact hnone
  · intro x hx _
    rw [List.mem_singleton.mp hx, Found.depth?_leave, hnode]
    rfl
  · intro x hx
    refine ⟨node, List.mem_singleton_self node, ?_⟩
    rcases List.mem_append.mp hx with hx | hx
    · exact hled x hx
    · rw [List.mem_singleton.mp hx]
      exact .refl hlt
  · intro x hx
    rcases List.mem_append.mp hx with hx | hx
    · refine .inr ?_
      rcases hbelow.parent x hx with ⟨hmem, hd⟩ | ⟨p, d, hp, hmem⟩
      · exact ⟨node, depth, (List.singleton_sublist.mpr hx).append (List.Sublist.refl [node]), hmem, hnode, hd⟩
      · exact ⟨p, d, hp.trans (List.sublist_append_left _ _), hmem⟩
    · rw [List.mem_singleton.mp hx]
      exact .inl ⟨List.mem_singleton_self node, hnode⟩
  · intro u hu v hv hvlt
    rcases List.mem_append.mp hu with hu | hu
    · rcases hbelow.back u hu v hv (hsize ▸ hvlt) with hsub | hopen | hl
      · exact .inl (hsub.trans (List.sublist_append_left _ _))
      · rw [henter] at hopen
        split at hopen
        · next heq => exact .inr (.inr (heq ▸ hled u hu))
        · exact .inr (.inl hopen)
      · exact .inr (.inr (hsize ▸ hl))
    · obtain rfl := List.mem_singleton.mp hu
      obtain ⟨d, hd⟩ := Option.isSome_iff_exists.mp (hbelow.made v hv (hsize ▸ hvlt))
      rcases hentered hd with hd | rfl | hleft
      · exact .inr (.inl (hd ▸ rfl))
      · exact .inr (.inr (.refl hlt))
      · exact .inl ((List.singleton_sublist.mpr hleft).append (List.Sublist.refl [u]))

/-- Passing over a node that has been entered or is out of bounds. -/
theorem Searched.skip {depth node : Nat} {s : Found} (h : s.depths[node]? ≠ some none) :
    Searched next depth [node] s s [] := by
  refine ⟨rfl, (List.append_nil _).symm, id, .inl, by simp, ?_, by simp, by simp, by simp⟩
  intro x hx hlt
  rw [List.mem_singleton.mp hx] at hlt ⊢
  refine Option.isSome_iff_ne_none.mpr fun hnone => ?_
  exact h (Found.fresh_iff_depth?.mpr ⟨hlt, hnone⟩)

/-- Every search does what is said of it. -/
theorem searched (next : Nat → List Nat) (depth : Nat) (s : Found) (nodes : List Nat) :
    ∃ new, Searched next depth nodes s (search next depth s nodes).1 new := by
  fun_induction search next depth s nodes with
  | case1 depth s => exact ⟨[], rfl, (List.append_nil _).symm, id, .inl, by simp, by simp, by simp, by simp, by simp⟩
  | case2 depth s node rest h below after ihbelow ihafter =>
    obtain ⟨inner, hbelow⟩ := ihbelow
    obtain ⟨outer, hafter⟩ := ihafter
    exact ⟨_, (hbelow.visit h).append hafter⟩
  | case3 depth s node rest h ih =>
    obtain ⟨new, hafter⟩ := ih
    exact ⟨_, (Searched.skip h).append hafter⟩

/-! ## Reverse postorder -/

section FromStart

variable {bound start : Nat}

/-- The nodes that a search from one start leaves are in reverse postorder, the last one first. -/
theorem searched_start (next : Nat → List Nat) (bound start : Nat) :
    ∃ new, reversePostorder next bound start = new.reverse ∧
      Searched next 0 [start] (.none bound)
        ⟨depths bound (trace next bound [start]), postorder (trace next bound [start])⟩ new := by
  obtain ⟨new, hs⟩ := searched next 0 (.none bound) [start]
  rw [← ofTrace_trace] at hs
  refine ⟨new, ?_, hs⟩
  rw [reversePostorder]
  exact congrArg List.reverse hs.left

/-- The start has depth 0. -/
theorem depth_start (next : Nat → List Nat) (h : start < bound) :
    ((depths bound (trace next bound [start]))[start]?).join = some 0 := by
  have hlt : start < (Found.none bound).depths.size := by simpa [Found.none] using h
  have hfresh : (Found.none bound).depths[start]? = some none :=
    Found.fresh_iff_depth?.mpr ⟨hlt, Found.depth?_none bound start⟩
  obtain ⟨new, hbelow⟩ := searched next 1 ((Found.none bound).enter start 0) (next start)
  have hstart : (search next 0 (.none bound) [start]).1.depth? start = some 0 := by
    rw [search, dif_pos hfresh]
    simp only [search]
    exact hbelow.keeps (by rw [Found.depth?_enter hlt, if_pos rfl])
  rw [← ofTrace_trace] at hstart
  exact hstart

/-- Every other node is entered, one level deeper, from a node before it. -/
theorem exists_parent {x : Nat} (hx : x ∈ reversePostorder next bound start) (hne : x ≠ start) :
    ∃ p d, [p, x].Sublist (reversePostorder next bound start) ∧ x ∈ next p ∧
      ((depths bound (trace next bound [start]))[p]?).join = some d ∧
      ((depths bound (trace next bound [start]))[x]?).join = some (d + 1) := by
  obtain ⟨new, hlist, hs⟩ := searched_start next bound start
  rw [hlist] at hx ⊢
  rcases hs.parent x (List.mem_reverse.mp hx) with ⟨hstart, -⟩ | ⟨p, d, hsub, hmem, hd, hd'⟩
  · exact absurd (List.mem_singleton.mp hstart) hne
  · exact ⟨p, d, List.reverse_sublist.mpr hsub, hmem, hd, hd'⟩

/-- A node leads to nodes after it, or to nodes that lead back to it. -/
theorem after_or_leads {u v : Nat} (hu : u ∈ reversePostorder next bound start) (hv : v ∈ next u)
    (hlt : v < bound) : [u, v].Sublist (reversePostorder next bound start) ∨ Leads next bound v u := by
  obtain ⟨new, hlist, hs⟩ := searched_start next bound start
  have hsize : (Found.none bound).depths.size = bound := Array.size_replicate
  rw [hlist] at hu ⊢
  rcases hs.back u (List.mem_reverse.mp hu) v hv (hsize.symm ▸ hlt) with hsub | hopen | hl
  · exact .inl (List.reverse_sublist.mpr hsub)
  · rw [Found.depth?_none] at hopen
    cases hopen
  · exact .inr (hsize ▸ hl)

end FromStart

end DepthFirst

/-! ## Ordered graphs -/

/-- In a list without repetitions, what stands before has the smaller position. -/
theorem idxOf_lt_idxOf_of_sublist {l : List Nat} {a b : Nat} (hnodup : l.Nodup) (h : [a, b].Sublist l) :
    l.idxOf a < l.idxOf b := by
  induction l with
  | nil => cases h
  | cons x l ih =>
    rw [List.nodup_cons] at hnodup
    cases h with
    | cons _ h =>
      have hne : ∀ c ∈ [a, b], x ≠ c := by
        rintro c hc rfl
        exact hnodup.1 (h.subset hc)
      rw [List.idxOf_cons_ne _ (hne a (by simp)), List.idxOf_cons_ne _ (hne b (by simp))]
      exact Nat.succ_lt_succ (ih hnodup.2 h)
    | cons_cons _ h =>
      have hne : a ≠ b := by
        rintro rfl
        exact hnodup.1 (List.singleton_sublist.mp h)
      rw [List.idxOf_cons_self, List.idxOf_cons_ne _ hne]
      exact Nat.succ_pos _

namespace FlowGraph

/-- The search follows live edges. -/
theorem reachable_of_leads_present {g : FlowGraph} {a b : BlockId} (h : DepthFirst.Leads g.presentTargets g.size a b) :
    Reachable g.Edge a b := by
  induction h with
  | refl _ => exact .root
  | step _ hm _ ih => exact ih.step (mem_presentTargets.mp hm).1

/-- Ordering a pruned graph lists its blocks in reverse postorder; none is left over. -/
theorem Pruned.withOrder_eq {g : FlowGraph} (h : g.Pruned) : g.withOrder = .ok { g with
    reachable := some (DepthFirst.reversePostorder g.presentTargets g.size entry)
    depths := some (DepthFirst.depths g.size g.walk) } := by
  have hmissed : (g.liveIds.filter fun b => ((DepthFirst.depths g.size g.walk)[b]?).join.isNone) = [] := by
    refine List.filter_eq_nil_iff.mpr fun b hb => ?_
    rw [isNone_depths_walk, not_not, h.leads_present_iff]
    exact h.kept_iff.mp (mem_liveIds.mp hb)
  rw [withOrder_def, h.listed]
  simp only [hmissed, List.append_nil]
  rfl

/-- A block is reached by a walk through blocks that are listed before it. -/
theorem Ordered.exists_walk {g : FlowGraph} {order : List BlockId} (h : g.Ordered order) {xs ys : List BlockId}
    {b : BlockId} (hsplit : order = xs ++ b :: ys) : ∃ l, Walk g.Edge entry (b :: l) b ∧ l ⊆ xs := by
  generalize hn : xs.length = n
  induction n using Nat.strongRecOn generalizing xs ys b with
  | ind n ih =>
    by_cases hb : b = entry
    · subst hb
      exact ⟨[], .start, List.nil_subset _⟩
    · obtain ⟨a, ha, he⟩ := h.before hsplit hb
      obtain ⟨before, between, rfl⟩ := List.append_of_mem ha
      obtain ⟨l, hl, hsub⟩ := ih before.length (by simp at hn; omega)
        (by rw [hsplit, List.append_assoc, List.cons_append]) rfl
      refine ⟨a :: l, .step hl he, List.cons_subset.mpr ⟨ha, fun c hc => ?_⟩⟩
      exact List.mem_append_left _ (hsub hc)

/-- The strict dominators of a block are listed before it. -/
theorem Ordered.dominator_before {g : FlowGraph} {order : List BlockId} (h : g.Ordered order) {a b : BlockId}
    (hb : b ∈ order) (hdom : StrictlyDominates g.Edge entry a b) : [a, b].Sublist order := by
  obtain ⟨xs, ys, hsplit⟩ := List.append_of_mem hb
  obtain ⟨l, hl, hsub⟩ := h.exists_walk hsplit
  have ha : a ∈ xs := hsub (List.mem_of_ne_of_mem hdom.1 (hdom.2 _ hl))
  rw [hsplit]
  exact (List.singleton_sublist.mpr ha).append (List.singleton_sublist.mpr List.mem_cons_self)

/-- Whatever indices blocks had before, ordering gives each listed block the index of its place, and the others have
none afterwards. -/
theorem Linked.orderIndices_iff {g ordered : FlowGraph} {old order : List BlockId} (h : g.Linked)
    (hold : g.reachable = some old) (hnodup : old.Nodup) (hlt : ∀ b ∈ old, b < g.size)
    (hok : g.withOrder = .ok ordered) (hlisted : ordered.reachable = some order) {b i : Nat} :
    (ordered.orderIndices[b]?).join = some i ↔ order[i]? = some b := by
  obtain ⟨found, missed, hwalked, heq⟩ := h.withOrder_eq hold hnodup
  cases heq.symm.trans hok
  cases hlisted
  refine positions_iff hwalked.nodup fun c hc => ?_
  rcases List.mem_append.mp hc with hc | hc
  · cases hwalked.mem_found.mp hc with
    | refl hlt | step _ _ hlt => exact hlt
  · exact hlt c (hwalked.mem_missed.mp hc).1

/-- Ordering a second time leaves the graph as it is: the walk finds the same blocks and misses the same. -/
theorem withOrder_again {g ordered : FlowGraph} (hok : g.withOrder = .ok ordered) :
    ordered.withOrder = .ok ordered := by
  rw [withOrder_def] at hok
  cases hlisted : g.reachable with
  | none =>
    rw [hlisted] at hok
    cases hok
  | some old =>
    rw [hlisted] at hok
    cases hok
    have hfound : ((DepthFirst.postorder g.walk).reverse.filter fun b =>
        ((DepthFirst.depths g.size g.walk)[b]?).join.isNone) = [] := by
      refine List.filter_eq_nil_iff.mpr fun b hb => ?_
      rw [isNone_depths_walk, not_not]
      exact DepthFirst.mem_reversePostorder.mp hb
    -- The walk does not look at the list, so it is the same the second time.
    have hwalk : ∀ listed depths, walk { g with reachable := listed, depths := depths } = g.walk :=
      fun _ _ => rfl
    have hsize : ∀ listed depths, size { g with reachable := listed, depths := depths } = g.size :=
      fun _ _ => rfl
    rw [withOrder_def]
    simp only [hwalk, hsize, List.filter_append, hfound, List.nil_append, List.filter_filter, Bool.and_self]

/-- The list has the blocks that are part of the graph. -/
theorem Ordered.perm_liveIds {g : FlowGraph} {order : List BlockId} (h : g.Ordered order) : order.Perm g.liveIds := by
  refine (List.perm_ext_iff_of_nodup h.nodup (List.nodup_range.filter _)).mpr fun b => ?_
  exact h.mem_iff.trans (h.kept_iff.symm.trans mem_liveIds.symm)

/-- Ordering a graph that was built by hand and just pruned succeeds. It lists the same blocks again, the entry first,
and gives each the index of its place; ordering once more changes nothing. Every block but the entry lies one level below a block that leads to it and is
listed before it; all strict dominators of a block are listed before it; and an edge that does not go forward in the
list closes a cycle. -/
theorem withOrder_reversePostorder {g : FlowGraph} (hg : g.Built) :
    ∃ old order ordered, g.prune.1.reachable = some old ∧ g.prune.1.withOrder = .ok ordered ∧
      ordered.blocks = g.prune.1.blocks ∧ ordered.reachable = some order ∧
      order.Perm old ∧ order.head? = some entry ∧
      (∀ (b : BlockId) (i : Nat), (ordered.orderIndices[b]?).join = some i ↔ order[i]? = some b) ∧
      ordered.withOrder = .ok ordered ∧ ordered.depth? entry = some 0 ∧
      (∀ b ∈ order, b ≠ entry → ∃ p d, order.idxOf p < order.idxOf b ∧ ordered.Edge p b ∧
        ordered.depth? p = some d ∧ ordered.depth? b = some (d + 1)) ∧
      (∀ a b, b ∈ order → StrictlyDominates ordered.Edge entry a b → order.idxOf a < order.idxOf b) ∧
      ∀ u v, ordered.Edge u v → order.idxOf v ≤ order.idxOf u → Reachable ordered.Edge v u := by
  obtain ⟨hpruned, hshrunk⟩ := hg.fresh.prune
  generalize g.prune.1 = pruned at hpruned hshrunk
  obtain ⟨ordered, order, hok, hblocks, -, hordered⟩ := hpruned.withOrder
  cases hpruned.withOrder_eq.symm.trans hok
  have horder : DepthFirst.reversePostorder pruned.presentTargets pruned.size entry = order :=
    Option.some.inj hordered.listed
  have hindices : ∀ b i, ((FlowGraph.orderIndices _)[b]?).join = some i ↔ order[i]? = some b := fun b i =>
    hpruned.toLinked.orderIndices_iff hpruned.listed (List.nodup_range.filter _)
      (fun b hb => (mem_liveIds.mp hb).1) hok hordered.listed
  refine ⟨_, order, _, hpruned.listed, hok, rfl, hordered.listed, hordered.perm_liveIds, ?_,
    hindices, withOrder_again hok, DepthFirst.depth_start _ hpruned.entry_lt, ?_,
    fun a b hb hdom => idxOf_lt_idxOf_of_sublist hordered.nodup (hordered.dominator_before hb hdom), ?_⟩
  · obtain ⟨rest, rfl⟩ := hordered.head
    rfl
  · intro b hb hne
    obtain ⟨p, d, hsub, hmem, hd⟩ := DepthFirst.exists_parent (horder ▸ hb) hne
    rw [horder] at hsub
    exact ⟨p, d, idxOf_lt_idxOf_of_sublist hordered.nodup hsub, (mem_presentTargets.mp hmem).1, hd⟩
  · intro u v he hle
    have hu : Reachable pruned.Edge entry u := hshrunk.reachable_of_edge hpruned.kept_iff he
    have hback := DepthFirst.after_or_leads (horder ▸ hordered.mem_iff.mpr hu)
      ((hpruned.mem_presentTargets hu).mpr he) (hpruned.edge_lt he)
    rw [horder] at hback
    rcases hback with hsub | hl
    · exact absurd (idxOf_lt_idxOf_of_sublist hordered.nodup hsub) (Nat.not_lt_of_le hle)
    · exact reachable_of_leads_present hl

/-- Two ways into a loop: `0` goes to `1` and `2`, both of them go to `3`, and `3` goes back to `1`. -/
def twoWays : FlowGraph :=
  (((((new 0).addBlock.addBlock.addBlock.addBlock.setJump 0 (.branch (.const 1) 1 2)).setJump 1
    (.branch (.const 1) 3 4)).setJump 2 (.branch (.const 1) 3 4)).setJump 3 (.branch (.const 1) 1 4)).setJump 4
    (.ret 4 none)

theorem withOrder_reversePostorder_twoWays :
    ∃ ordered, twoWays.prune.1.withOrder = .ok ordered ∧ ordered.reachable = some [0, 2, 1, 3, 4] ∧
      ordered.depth? 3 = some 2 ∧ Reachable ordered.Edge 1 3 := by
  have hbuilt : twoWays.Built :=
    .setJump (.setJump (.setJump (.setJump (.setJump (.addBlock (.addBlock (.addBlock (.addBlock (.new 0)))))
      (if_pos (by decide))) (if_pos (by decide))) (if_pos (by decide))) (if_pos (by decide))) (if_pos (by decide))
  obtain ⟨old, order, ordered, -, hok, hblocks, hlisted, -, -, -, -, -, -, -, hback⟩ :=
    withOrder_reversePostorder hbuilt
  have hrun : (twoWays.prune.1.withOrder.map fun g => (g.reachable, g.depth? 3)) =
      .ok (some [0, 2, 1, 3, 4], some 2) := by cbv
  rw [hok, Except.map, Except.ok.injEq, Prod.mk.injEq] at hrun
  obtain rfl : order = [0, 2, 1, 3, 4] := Option.some.inj (hlisted.symm.trans hrun.1)
  have hedge : ordered.Edge 3 1 := by
    rw [Edge, targets, jump, block, hblocks, show (twoWays.prune.1.blocks.getD 3 {}).jump.targets = [1, 4] from by cbv]
    exact List.mem_cons_self
  exact ⟨ordered, hok, hlisted, hrun.2, hback 3 1 hedge (by decide)⟩

end FlowGraph

end SsaFlow
