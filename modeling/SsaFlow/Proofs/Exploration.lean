-- SUMMARY: How the visits of a depth-first exploration nest: postorder, depths and preorder intervals.
import SsaFlow.Graph.Reach

/-!
# The shape of an exploration

An exploration of several pending visits is the exploration of the first ones followed by that of the
others, and what it adds to its trace does not depend on what the trace held before. So the visits made
between entering a node and leaving it are those of the exploration of its neighbours.

Two facts are read off this shape. In the order in which nodes are left, the latest first, every node has
a neighbour of an earlier one in front of it. And in a tree the nodes entered before a node is left are
the nodes below it, which makes preorder intervals exact.
-/

namespace SsaFlow.DepthFirst

variable {next : Nat → List Nat}

/-! ## Explorations in parts -/

/-- Pending visits are made one after the other. -/
theorem explore_append (seen : Array Bool) (trace xs ys : List Visit) :
    explore next seen trace (xs ++ ys) =
      explore next (explore next seen trace xs).1 (explore next seen trace xs).2 ys := by
  fun_induction explore next seen trace xs with
  | case1 => rfl
  | case2 seen trace node pending ih => rw [List.cons_append, explore, ih]
  | case3 seen trace node depth pending h hseen ih =>
    rw [List.cons_append, explore, dif_pos h, if_pos hseen, ← ih]
    simp only [List.append_assoc, List.cons_append]
  | case4 seen trace node depth pending h hseen ih =>
    rw [List.cons_append, explore, dif_pos h, if_neg hseen, ih]
  | case5 seen trace node depth pending h ih => rw [List.cons_append, explore, dif_neg h, ih]

/-- What was in the trace before stays behind what is added. -/
theorem explore_trace_append (seen : Array Bool) (trace old pending : List Visit) :
    explore next seen (trace ++ old) pending =
      ((explore next seen trace pending).1, (explore next seen trace pending).2 ++ old) := by
  fun_induction explore next seen trace pending with
  | case1 => rw [explore]
  | case2 seen trace node pending ih => rw [explore, ← List.cons_append, ih]
  | case3 seen trace node depth pending h hseen ih =>
    rw [explore, dif_pos h, if_pos hseen, ← List.cons_append, ih]
  | case4 seen trace node depth pending h hseen ih => rw [explore, dif_pos h, if_neg hseen, ih]
  | case5 seen trace node depth pending h ih => rw [explore, dif_neg h, ih]

/-- An exploration looks at the neighbours of nodes only that were not marked at the start. -/
theorem explore_congr {next' : Nat → List Nat} {seen : Array Bool} {trace pending : List Visit}
    (h : ∀ x : Nat, seen[x]? ≠ some true → next x = next' x) :
    explore next seen trace pending = explore next' seen trace pending := by
  fun_induction explore next seen trace pending with
  | case1 => rw [explore]
  | case2 seen trace node pending ih => rw [ih h, explore]
  | case3 seen trace node depth pending hlt hseen ih =>
    have hnode : next node = next' node := by
      refine h node ?_
      rw [Array.getElem?_eq_getElem hlt, hseen]
      simp
    have hrest : ∀ x : Nat, (seen.set node true)[x]? ≠ some true → next x = next' x := by
      intro x hx
      exact h x fun hs => hx ((marked_set hlt).mpr (.inr hs))
    rw [ih hrest, explore, dif_pos hlt, if_pos hseen, hnode]
  | case4 seen trace node depth pending hlt hseen ih =>
    rw [ih h, explore, dif_pos hlt, if_neg hseen]
  | case5 seen trace node depth pending hlt ih => rw [ih h, explore, dif_neg hlt]

/-- The visits between entering a node and leaving it are those of exploring its neighbours. -/
theorem explore_neighbours (seen : Array Bool) (node depth : Nat) (trace pending : List Visit) :
    explore next seen (.enter node depth :: trace)
        ((next node).map (.enter · (depth + 1)) ++ .leave node :: pending) =
      explore next (explore next seen [] ((next node).map (.enter · (depth + 1)))).1
        (.leave node :: (explore next seen [] ((next node).map (.enter · (depth + 1)))).2 ++
          .enter node depth :: trace)
        pending := by
  rw [explore_append, show Visit.enter node depth :: trace = [] ++ .enter node depth :: trace from rfl,
    explore_trace_append, explore]
  rfl

/-! ## Postorder -/

@[simp] theorem postorder_nil : postorder [] = [] := rfl

@[simp] theorem postorder_enter (node depth : Nat) (visits : List Visit) :
    postorder (.enter node depth :: visits) = postorder visits := rfl

@[simp] theorem postorder_leave (node : Nat) (visits : List Visit) :
    postorder (.leave node :: visits) = node :: postorder visits := rfl

@[simp] theorem postorder_append (xs ys : List Visit) :
    postorder (xs ++ ys) = postorder xs ++ postorder ys := by
  simp [postorder]

@[simp] theorem postorder_map_enter (nodes : List Nat) (depth : Nat) :
    postorder (nodes.map (.enter · depth)) = [] := by
  induction nodes with
  | nil => rfl
  | cons node nodes ih => exact ih

@[simp] theorem preorder_nil : preorder [] = [] := rfl

@[simp] theorem preorder_enter (node depth : Nat) (visits : List Visit) :
    preorder (.enter node depth :: visits) = node :: preorder visits := rfl

@[simp] theorem preorder_leave (node : Nat) (visits : List Visit) :
    preorder (.leave node :: visits) = preorder visits := rfl

theorem preorder_reverse (visits : List Visit) :
    preorder visits.reverse = (preorder visits).reverse := by
  rw [preorder, List.filterMap_reverse]
  rfl

/-- Every node that is entered is left once. -/
theorem preorder_perm_postorder {seen : Array Bool} {trace pending : List Visit}
    (h : (preorder trace).Perm (postorder trace ++ postorder pending)) :
    (preorder (explore next seen trace pending).2).Perm
      (postorder (explore next seen trace pending).2) := by
  fun_induction explore next seen trace pending with
  | case1 seen trace => simpa using h
  | case2 seen trace node pending ih =>
    refine ih (h.trans ?_)
    simp
  | case3 seen trace node depth pending hlt hseen ih =>
    refine ih ?_
    simpa using (h.cons node).trans List.perm_middle.symm
  | case4 seen trace node depth pending hlt hseen ih => exact ih (by simpa using h)
  | case5 seen trace node depth pending hlt ih => exact ih (by simpa using h)

/-- A trace leaves each node that it enters, once. -/
theorem perm_postorder_trace (bound : Nat) (starts : List Nat) :
    (preorder (trace next bound starts)).Perm (postorder (trace next bound starts)) := by
  have h := @preorder_perm_postorder next (Array.replicate bound false) []
    (starts.map (.enter · 0)) (by simp)
  rw [trace, preorder, postorder, List.filterMap_reverse, List.filterMap_reverse]
  exact (List.reverse_perm _).trans (h.trans (List.reverse_perm _).symm)

/-! ## Reverse postorder -/

/-- Every pending visit concerns a start or a neighbour of a node that is left after it. -/
def Hung (next : Nat → List Nat) (starts : List Nat) : List Visit → Prop
  | [] => True
  | .enter v _ :: rest | .leave v :: rest =>
    (v ∈ starts ∨ ∃ u ∈ postorder rest, v ∈ next u) ∧ Hung next starts rest

/-- Every node of a list is a start or a neighbour of a node that stands before it or in `front`. -/
def Led (next : Nat → List Nat) (starts : List Nat) : (front : List Nat) → List Nat → Prop
  | _, [] => True
  | front, v :: rest => (v ∈ starts ∨ ∃ u ∈ front, v ∈ next u) ∧ Led next starts (v :: front) rest

theorem Led.mono {starts front front' nodes : List Nat} (hsub : front ⊆ front')
    (h : Led next starts front nodes) : Led next starts front' nodes := by
  induction nodes generalizing front front' with
  | nil => trivial
  | cons v rest ih =>
    refine ⟨h.1.imp id fun ⟨u, hu, hv⟩ => ⟨u, hsub hu, hv⟩, ih (List.cons_subset_cons v hsub) h.2⟩

/-- A node in such a list is a start or a neighbour of one that stands before it. -/
theorem Led.exists_before {starts front xs ys : List Nat} {v : Nat}
    (h : Led next starts front (xs ++ v :: ys)) :
    v ∈ starts ∨ ∃ u, (u ∈ front ∨ u ∈ xs) ∧ v ∈ next u := by
  induction xs generalizing front with
  | nil => exact h.1.imp id fun ⟨u, hu, hv⟩ => ⟨u, .inl hu, hv⟩
  | cons x xs ih =>
    refine (ih h.2).imp id fun ⟨u, hu, hv⟩ => ⟨u, ?_, hv⟩
    rcases hu with hu | hu
    · rcases List.mem_cons.mp hu with rfl | hu
      · exact .inr List.mem_cons_self
      · exact .inl hu
    · exact .inr (List.mem_cons_of_mem _ hu)

theorem hung_neighbours {starts : List Nat} {node depth : Nat} {pending : List Visit}
    (hnode : node ∈ starts ∨ ∃ u ∈ postorder pending, node ∈ next u)
    (h : Hung next starts pending) {nodes : List Nat} (hsub : nodes ⊆ next node) :
    Hung next starts (nodes.map (.enter · depth) ++ .leave node :: pending) := by
  induction nodes with
  | nil => exact ⟨hnode, h⟩
  | cons v nodes ih =>
    obtain ⟨hv, hrest⟩ := List.cons_subset.mp hsub
    exact ⟨.inr ⟨node, by simp, hv⟩, ih hrest⟩

/-- In the order of leaving, read backwards, every node is a start or comes after one that leads to
it. -/
theorem led_explore {starts : List Nat} {seen : Array Bool} {trace pending : List Visit}
    (hpending : Hung next starts pending)
    (htrace : Led next starts (postorder pending) (postorder trace)) :
    Led next starts [] (postorder (explore next seen trace pending).2) := by
  fun_induction explore next seen trace pending with
  | case1 seen trace => exact htrace
  | case2 seen trace node pending ih => exact ih hpending.2 ⟨hpending.1, htrace⟩
  | case3 seen trace node depth pending hlt hseen ih =>
    refine ih (hung_neighbours hpending.1 hpending.2 (List.Subset.refl _)) ?_
    rw [postorder_append, postorder_map_enter, postorder_leave, List.nil_append, postorder_enter]
    exact htrace.mono (List.subset_cons_self _ _)
  | case4 seen trace node depth pending hlt hseen ih => exact ih hpending.2 htrace
  | case5 seen trace node depth pending hlt ih => exact ih hpending.2 htrace

theorem hung_starts (starts : List Nat) {nodes : List Nat} (hsub : nodes ⊆ starts) (depth : Nat) :
    Hung next starts (nodes.map (.enter · depth)) := by
  induction nodes with
  | nil => trivial
  | cons v nodes ih =>
    obtain ⟨hv, hrest⟩ := List.cons_subset.mp hsub
    exact ⟨.inl hv, ih hrest⟩

/-- The nodes that a start leads to, the last one left first. -/
def reversePostorder (next : Nat → List Nat) (bound start : Nat) : List Nat :=
  (postorder (trace next bound [start])).reverse

theorem reversePostorder_eq (bound start : Nat) :
    reversePostorder next bound start =
      postorder (explore next (Array.replicate bound false) [] [.enter start 0]).2 := by
  rw [reversePostorder, trace, postorder, List.filterMap_reverse, List.reverse_reverse]
  rfl

theorem mem_reversePostorder {bound start b : Nat} :
    b ∈ reversePostorder next bound start ↔ Leads next bound start b := by
  rw [reversePostorder, List.mem_reverse, ← (perm_postorder_trace bound [start]).mem_iff,
    mem_preorder_trace]
  simp

theorem nodup_reversePostorder (bound start : Nat) : (reversePostorder next bound start).Nodup := by
  rw [reversePostorder, (List.reverse_perm _).nodup_iff,
    ← (perm_postorder_trace bound [start]).nodup_iff]
  exact nodup_preorder_trace next bound [start]

/-- The start comes first. -/
theorem reversePostorder_eq_cons {bound start : Nat} (h : start < bound) :
    ∃ rest, reversePostorder next bound start = start :: rest := by
  have hlt : start < (Array.replicate bound false).size := by simpa using h
  have hseen : (Array.replicate bound false)[start] = false := by simp
  rw [reversePostorder_eq, explore, dif_pos hlt, if_pos hseen, explore_neighbours, explore]
  exact ⟨_, rfl⟩

/-- Every other node is a neighbour of a node before it. -/
theorem exists_before_reversePostorder {bound start v : Nat} {xs ys : List Nat}
    (h : reversePostorder next bound start = xs ++ v :: ys) (hne : v ≠ start) :
    ∃ u ∈ xs, v ∈ next u := by
  have hled := @led_explore next [start] (Array.replicate bound false) [] [.enter start 0]
    (hung_starts [start] (List.Subset.refl _) 0) trivial
  rw [← reversePostorder_eq, h] at hled
  rcases hled.exists_before with hv | ⟨u, hu | hu, hv⟩
  · exact absurd (List.mem_singleton.mp hv) hne
  · exact absurd hu List.not_mem_nil
  · exact ⟨u, hu, hv⟩

/-! ## Depths -/

/-- The nodes that have a depth are those which are entered. -/
theorem isSome_foldl_depths {visits : List Visit} {acc : Array (Option Nat)} {b : Nat} :
    ((visits.foldl (fun acc visit =>
        match visit with
        | .enter node depth => acc.setIfInBounds node (some depth)
        | .leave _ => acc) acc)[b]?).join.isSome ↔
      (acc[b]?).join.isSome ∨ b ∈ preorder visits ∧ b < acc.size := by
  induction visits generalizing acc with
  | nil => simp
  | cons v visits ih =>
    cases v with
    | leave node => exact ih
    | enter node depth =>
      rw [List.foldl_cons, ih, Array.size_setIfInBounds, Array.getElem?_setIfInBounds, preorder_enter,
        List.mem_cons]
      by_cases hb : node = b
      · subst hb
        by_cases hlt : node < acc.size <;> simp [hlt]
      · simp [hb, Ne.symm hb]

/-- The nodes that have a depth are the nodes that were entered. -/
theorem isSome_depths {bound : Nat} {visits : List Visit} {b : Nat} :
    ((depths bound visits)[b]?).join.isSome ↔ b ∈ preorder visits ∧ b < bound := by
  refine (@isSome_foldl_depths visits (Array.replicate bound none) b).trans ?_
  rw [Array.size_replicate, Array.getElem?_replicate]
  refine or_iff_right ?_
  split <;> simp

/-! ## Explorations of trees -/

/-- No node is a neighbour of two nodes. -/
def Branching (next : Nat → List Nat) : Prop :=
  ∀ {a b c : Nat}, c ∈ next a → c ∈ next b → a = b

theorem Leads.eq_or_child {bound a b : Nat} (h : Leads next bound a b) :
    a = b ∨ ∃ c ∈ next a, Leads next bound c b := by
  induction h with
  | refl _ => exact .inl rfl
  | step _ hm hlt ih =>
    rcases ih with rfl | ⟨c, hc, hl⟩
    · exact .inr ⟨_, hm, .refl hlt⟩
    · exact .inr ⟨c, hc, .step hl hm hlt⟩

/-- The nodes whose parent is marked, if they have one: the marked nodes and the pending ones. -/
structure Rooted (next : Nat → List Nat) (seen : Array Bool) (pending : List Visit) : Prop where
  ofSeen : ∀ {a b : Nat}, seen[b]? = some true → b ∈ next a → seen[a]? = some true
  ofPending : ∀ {a b : Nat}, b ∈ preorder pending → b ∈ next a → seen[a]? = some true

/-- A node that is entered makes its neighbours pending, of which it is the only parent. -/
theorem Rooted.enter (hb : Branching next) {seen : Array Bool} {node depth : Nat}
    {pending : List Visit} (h : Rooted next seen (.enter node depth :: pending))
    (hlt : node < seen.size) :
    Rooted next (seen.set node true)
      ((next node).map (.enter · (depth + 1)) ++ .leave node :: pending) where
  ofSeen := by
    intro a b hmarked hchild
    rw [marked_set hlt] at hmarked ⊢
    rcases hmarked with rfl | hmarked
    · exact .inr (h.ofPending (by simp) hchild)
    · exact .inr (h.ofSeen hmarked hchild)
  ofPending := by
    intro a b hmem hchild
    rw [preorder_append, preorder_map_enter, preorder_leave, List.mem_append] at hmem
    rw [marked_set hlt]
    rcases hmem with hmem | hmem
    · exact .inl (hb hchild hmem)
    · exact .inr (h.ofPending (List.mem_cons_of_mem _ hmem) hchild)

/-- Below a node that is not marked no node is marked. -/
theorem Rooted.unseen_of_leads {seen : Array Bool} {pending : List Visit}
    (h : Rooted next seen pending) {bound a b : Nat} (ha : seen[a]? ≠ some true)
    (hl : Leads next bound a b) : seen[b]? ≠ some true := by
  induction hl with
  | refl _ => exact ha
  | step _ hm _ ih => exact fun hs => ih (h.ofSeen hs hm)

/-- Exploring the neighbours of a node enters exactly the nodes below it, if they are all unmarked. -/
theorem mem_preorder_neighbours {seen : Array Bool} {node : Nat} (depth : Nat)
    (hfresh : ∀ b, (∃ c ∈ next node, Leads next seen.size c b) → seen[b]? ≠ some true) {b : Nat} :
    b ∈ preorder (explore next seen [] ((next node).map (.enter · depth))).2 ↔
      ∃ c ∈ next node, Leads next seen.size c b := by
  have hnew := (@preorder_explore next seen [] ((next node).map (.enter · depth)) .nil
    (fun _ h => nomatch h)).2 b
  simp only [preorder_nil, List.not_mem_nil, false_or] at hnew
  refine hnew.trans ?_
  clear hnew
  constructor
  · rintro ⟨hmarked, hold⟩
    rcases leads_of_explore hmarked with h | ⟨c, hc, hl⟩
    · exact absurd h hold
    · rw [preorder_map_enter] at hc
      exact ⟨c, hc, hl⟩
  · rintro ⟨c, hc, hl⟩
    refine ⟨?_, hfresh b ⟨c, hc, hl⟩⟩
    -- The neighbours of marked nodes do not matter, so they may be left out.
    have hcongr : explore next seen [] ((next node).map (.enter · depth)) =
        explore (fun x => if seen[x]? = some true then [] else next x) seen []
          ((next node).map (.enter · depth)) := by
      refine explore_congr fun x hx => ?_
      rw [if_neg hx]
    obtain ⟨hmade, hclosed⟩ :=
      @explore_closed (fun x => if seen[x]? = some true then [] else next x) seen []
        ((next node).map (.enter · depth)) (by
          intro x hx y hy
          rw [if_pos hx] at hy
          exact absurd hy List.not_mem_nil)
    rw [← hcongr] at hmade hclosed
    rw [preorder_map_enter] at hmade
    induction hl with
    | refl hlt => exact hmade c hc hlt
    | @step x y hx hy hlt ih =>
      have hunseen := hfresh _ ⟨c, hc, hx⟩
      exact hclosed _ ih _ (by rwa [if_neg hunseen]) hlt

/-- In a tree a node that is not marked yet when it is entered does not lie below itself. -/
theorem Rooted.not_leads_self {seen : Array Bool} {node depth : Nat} {pending : List Visit}
    (h : Rooted next seen (.enter node depth :: pending)) (hfresh : seen[node]? ≠ some true)
    {bound c b : Nat} (hc : c ∈ next node) (hl : Leads next bound c b) : b ≠ node := by
  rintro rfl
  have hbelow : ∀ {x y : Nat}, x ∈ next b → Leads next bound x y → seen[y]? ≠ some true := by
    intro x y hx hxy
    induction hxy with
    | refl _ => exact fun hs => hfresh (h.ofSeen hs hx)
    | step _ hm _ ih => exact fun hs => ih (h.ofSeen hs hm)
  cases hl with
  | refl _ => exact hfresh (h.ofPending (by simp) hc)
  | step hx hm _ => exact hbelow hc hx (h.ofPending (by simp) hm)

/-- In a tree the nodes entered between entering a node and leaving it are the nodes below it. -/
theorem nested_explore (hb : Branching next) {seen : Array Bool} {trace pending : List Visit}
    (h : Rooted next seen pending) {a : Nat}
    (ha : a ∈ preorder (explore next seen trace pending).2) (hnew : a ∉ preorder trace) :
    ∃ later inner depth earlier, (explore next seen trace pending).2 =
        later ++ .leave a :: (inner ++ .enter a depth :: earlier) ∧
      ∀ b, b ∈ preorder inner ↔ ∃ c ∈ next a, Leads next seen.size c b := by
  fun_induction explore next seen trace pending with
  | case1 seen trace => exact absurd ha hnew
  | case2 seen trace node pending ih => exact ih ⟨h.ofSeen, h.ofPending⟩ ha hnew
  | case3 seen trace node depth pending hlt hseen ih =>
    have hfresh : seen[node]? ≠ some true := by
      rw [Array.getElem?_eq_getElem hlt, hseen]
      simp
    by_cases hnode : a = node
    · subst hnode
      -- in a forest, nothing below a node that is not marked can be marked
      have hinner : ∀ b, (∃ c ∈ next a, Leads next (seen.set a true).size c b) →
          (seen.set a true)[b]? ≠ some true := by
        rintro b ⟨c, hc, hl⟩ hmarked
        rw [Array.size_set] at hl
        rcases (marked_set hlt).mp hmarked with rfl | hmarked
        · exact h.not_leads_self hfresh hc hl rfl
        · exact h.unseen_of_leads hfresh (hl.head hlt hc) hmarked
      rw [explore_neighbours]
      generalize hr : explore next (seen.set a true) [] ((next a).map (.enter · (depth + 1))) = r
      have hmem := fun b => @mem_preorder_neighbours next (seen.set a true) a (depth + 1) hinner b
      rw [hr, Array.size_set] at hmem
      have hsplit :=
        @explore_trace_append next r.1 [] (.leave a :: r.2 ++ .enter a depth :: trace) pending
      rw [List.nil_append] at hsplit
      rw [hsplit]
      exact ⟨_, r.2, depth, trace, rfl, hmem⟩
    · have := ih (h.enter hb hlt) ha (by simp [hnode, hnew])
      rwa [Array.size_set] at this
  | case4 seen trace node depth pending hlt hseen ih =>
    exact ih ⟨h.ofSeen, fun hm => h.ofPending (List.mem_cons_of_mem _ hm)⟩ ha hnew
  | case5 seen trace node depth pending hlt ih =>
    exact ih ⟨h.ofSeen, fun hm => h.ofPending (List.mem_cons_of_mem _ hm)⟩ ha hnew

/-! ## Preorder intervals -/

/-- Takes one visit into the count of nodes entered and the intervals so far. -/
def numberVisit : Nat × Array (Option (Nat × Nat)) → Visit → Nat × Array (Option (Nat × Nat))
  | (count, acc), .enter node _ => (count + 1, acc.setIfInBounds node (some (count, count)))
  | (count, acc), .leave node =>
    (count, acc.modify node (Option.map fun (first, _) => (first, count - 1)))

theorem intervals_eq (bound : Nat) (visits : List Visit) :
    intervals bound visits = (visits.foldl numberVisit (0, Array.replicate bound none)).2 := by
  rw [intervals]
  congr 2
  funext s v
  cases v <;> rfl

/-- The count goes up by one for each node that is entered. -/
theorem count_foldl_numberVisit (visits : List Visit) (s : Nat × Array (Option (Nat × Nat))) :
    (visits.foldl numberVisit s).1 = s.1 + (preorder visits).length := by
  induction visits generalizing s with
  | nil => rfl
  | cons v visits ih =>
    cases v with
    | enter node depth =>
      rw [List.foldl_cons, ih, preorder_enter, List.length_cons, numberVisit]
      dsimp only
      omega
    | leave node => rw [List.foldl_cons, ih, preorder_leave, numberVisit]

theorem size_foldl_numberVisit (visits : List Visit) (s : Nat × Array (Option (Nat × Nat))) :
    (visits.foldl numberVisit s).2.size = s.2.size := by
  induction visits generalizing s with
  | nil => rfl
  | cons v visits ih => cases v <;> rw [List.foldl_cons, ih, numberVisit] <;> simp

/-- Visits of other nodes leave the interval of a node alone. -/
theorem getElem?_foldl_numberVisit {visits : List Visit} {a : Nat} (hpre : a ∉ preorder visits)
    (hpost : a ∉ postorder visits) (s : Nat × Array (Option (Nat × Nat))) :
    (visits.foldl numberVisit s).2[a]? = s.2[a]? := by
  induction visits generalizing s with
  | nil => rfl
  | cons v visits ih =>
    cases v with
    | enter node depth =>
      obtain ⟨hne, hpre⟩ := not_or.mp (fun h => hpre (List.mem_cons.mpr h))
      rw [List.foldl_cons, ih hpre hpost, numberVisit, Array.getElem?_setIfInBounds_ne (Ne.symm hne)]
    | leave node =>
      obtain ⟨hne, hpost⟩ := not_or.mp (fun h => hpost (List.mem_cons.mpr h))
      rw [List.foldl_cons, ih hpre hpost, numberVisit, Array.getElem?_modify, if_neg (Ne.symm hne)]

/-- A node's interval starts with its own number and spans the nodes entered before it is left. -/
theorem getElem?_intervals {bound a depth : Nat} {earlier inner later : List Visit} (ha : a < bound)
    (hpre : (preorder (earlier ++ .enter a depth :: (inner ++ .leave a :: later))).Nodup)
    (hpost : (postorder (earlier ++ .enter a depth :: (inner ++ .leave a :: later))).Nodup) :
    (intervals bound (earlier ++ .enter a depth :: (inner ++ .leave a :: later)))[a]? =
      some (some ((preorder earlier).length,
        (preorder earlier).length + (preorder inner).length)) := by
  simp only [preorder_append, preorder_enter, preorder_leave] at hpre
  simp only [postorder_append, postorder_enter, postorder_leave] at hpost
  have hpre' := (List.nodup_cons.mp (List.nodup_append.mp hpre).2.1).1
  have hpost' := List.perm_middle.nodup_iff.mp (List.nodup_append.mp hpost).2.1
  rw [List.mem_append, not_or] at hpre'
  rw [List.nodup_cons, List.mem_append, not_or] at hpost'
  rw [intervals_eq, List.foldl_append, List.foldl_cons, List.foldl_append, List.foldl_cons]
  rw [getElem?_foldl_numberVisit hpre'.2 hpost'.1.2]
  have hcount := count_foldl_numberVisit earlier (0, Array.replicate bound none)
  have hsize := size_foldl_numberVisit earlier (0, Array.replicate bound none)
  generalize earlier.foldl numberVisit (0, Array.replicate bound none) = s at hcount hsize
  obtain ⟨count, acc⟩ := s
  have hcount' := count_foldl_numberVisit inner (numberVisit (count, acc) (.enter a depth))
  have hframe := getElem?_foldl_numberVisit hpre'.1 hpost'.1.1 (numberVisit (count, acc) (.enter a depth))
  generalize inner.foldl numberVisit (numberVisit (count, acc) (.enter a depth)) = s' at hcount' hframe
  obtain ⟨count', acc'⟩ := s'
  simp only [numberVisit, Array.size_replicate] at hcount hsize hcount' hframe ⊢
  rw [Array.getElem?_modify, if_pos rfl, hframe, Array.getElem?_setIfInBounds_self, if_pos (by omega)]
  simp only [Option.map_some, Option.some.injEq, Prod.mk.injEq]
  omega

/-- In a tree explored from its root the interval of a node spans exactly the numbers of the nodes
below it. -/
theorem interval_trace (hb : Branching next) {bound root : Nat} (hroot : ∀ x, root ∉ next x) {a : Nat}
    (ha : a ∈ preorder (trace next bound [root])) :
    ∃ before below after, preorder (trace next bound [root]) = before ++ a :: (below ++ after) ∧
      (intervals bound (trace next bound [root]))[a]? =
        some (some (before.length, before.length + below.length)) ∧
      ∀ b, b ∈ below ↔ ∃ c ∈ next a, Leads next bound c b := by
  have hlt : a < bound := by
    obtain ⟨s, -, hl⟩ := mem_preorder_trace.mp ha
    cases hl with
    | refl h => exact h
    | step _ _ h => exact h
  have hnodup := nodup_preorder_trace next bound [root]
  have hnodup' := (perm_postorder_trace bound [root]).nodup_iff.mp hnodup
  have hrooted : Rooted next (Array.replicate bound false) [.enter root 0] := by
    constructor
    · intro x y hy
      rw [Array.getElem?_replicate] at hy
      split at hy <;> simp at hy
    · intro x y hy hchild
      obtain rfl : y = root := by simpa using hy
      exact absurd hchild (hroot x)
  have ha' : a ∈ preorder (explore next (Array.replicate bound false) [] [.enter root 0]).2 := by
    rwa [trace, preorder_reverse, List.mem_reverse] at ha
  -- the visits between entering and leaving a node are those of the nodes below it
  obtain ⟨later, inner, depth, earlier, heq, hmem⟩ :=
    nested_explore hb hrooted ha' (by simp)
  have htrace : trace next bound [root] =
      earlier.reverse ++ .enter a depth :: (inner.reverse ++ .leave a :: later.reverse) := by
    rw [trace, List.map_singleton, heq]
    simp
  rw [htrace] at hnodup hnodup' ⊢
  refine ⟨preorder earlier.reverse, preorder inner.reverse, preorder later.reverse, ?_, ?_, ?_⟩
  · simp [preorder_append]
  · exact getElem?_intervals hlt hnodup hnodup'
  · intro b
    rw [preorder_reverse, List.mem_reverse, hmem b, Array.size_replicate]

end SsaFlow.DepthFirst
