-- SUMMARY: The dead regions are the connected components of the unreachable blocks, cut at live statements only.
import Mathlib
import SsaFlow.Proofs.DeadRegions
import SsaFlow.Proofs.Exploration
import SsaFlow.Proofs.ReachableList

/-!
# Dead regions as cut components

Pruning reports one list of regions for each piece in which the unreachable blocks hang together. Here the
pieces are shown to be the connected components of the unreachable blocks (`Components`), under the edges
that the graph had before any block was bypassed: a bypass takes out a reached block and sends jumps to
a reached one, so no edge between two unreached blocks comes or goes (`SparesUnreached`). The regions of a
component are its statements in source order, cut exactly where a live statement stands between a run and
the statement after it (`DeadRegion.CutAtLive`).
-/

namespace List

variable {α : Type} [BEq α] [LawfulBEq α] {r : α → α → Prop}

/-- Equal elements of an ordered list are next to each other, so taking out repetitions leaves no two. -/
theorem nodup_eraseReps_cons (hanti : ∀ x y, r x y → r y x → x = y) {a : α} {as : List α}
    (h : (a :: as).Pairwise r) : (a :: as).eraseReps.Nodup := by
  induction as generalizing a with
  | nil => exact nodup_singleton a
  | cons b as ih =>
    obtain ⟨hhead, htail⟩ := pairwise_cons.mp h
    rw [eraseReps_cons_cons]
    split
    · exact ih (h.sublist ((sublist_cons_self b as).cons_cons a))
    · next hab =>
      refine nodup_cons.mpr ⟨fun ha => hab (beq_iff_eq.mpr ?_), ih htail⟩
      rcases mem_cons.mp (mem_eraseReps_cons.mp ha) with rfl | ha
      · rfl
      · exact hanti a b (hhead b mem_cons_self) ((pairwise_cons.mp htail).1 a ha)

end List

namespace SsaFlow

/-! ## Cutting a list of statements -/

namespace DeadRegion

variable {live run rest : List Span} {stop : Nat}

theorem nodup_sorted (spans : List Span) : (sorted spans).Nodup := by
  have hsort : (spans.mergeSort Span.le).Pairwise fun x y => x.le y = true :=
    List.pairwise_mergeSort (fun x y z => @Span.le_trans x y z) Span.le_total spans
  rw [sorted]
  cases hspans : spans.mergeSort Span.le with
  | nil => exact List.nodup_nil
  | cons s rest => exact List.nodup_eraseReps_cons (fun _ _ => Span.le_antisymm) (hspans ▸ hsort)

/-- Distinct spans in source order. -/
def Ascending (spans : List Span) : Prop := spans.Pairwise fun x y => x.le y = true ∧ x ≠ y

theorem ascending_sorted (spans : List Span) : Ascending (sorted spans) :=
  (pairwise_sorted spans).and (nodup_sorted spans)

/-- Something live comes after every statement of a run and ends before the next statement begins. -/
def Parted (live run : List Span) (next : Span) : Prop :=
  ∃ l ∈ live, (∀ x ∈ run, x.stop ≤ l.start) ∧ l.stop ≤ next.start

/-- The runs are the spans cut up where something live stands between a run and the span after it, and
nowhere else. -/
structure CutAtLive (live spans : List Span) (runs : List (List Span)) : Prop where
  flatten : runs.flatten = spans
  unbroken : ∀ R ∈ runs, Unbroken live R
  parted : runs.IsChain fun R R' => ∀ s ∈ R'.head?, Parted live R s

/-- The run at hand goes on in the first of the runs that are made. -/
theorem exists_extend_eq_cons (run rest : List Span) (stop : Nat) :
    ∃ more later, extend live run stop rest = (run.reverse ++ more) :: later := by
  induction rest generalizing run stop with
  | nil => exact ⟨[], [], by rw [extend, List.append_nil]⟩
  | cons s rest ih =>
    rw [extend]
    split
    · exact ⟨[], _, by rw [List.append_nil]⟩
    · obtain ⟨more, later, heq⟩ := ih (s :: run) (max stop s.stop)
      refine ⟨s :: more, later, ?_⟩
      rw [heq, List.reverse_cons, List.append_assoc, List.singleton_append]

/-- Cutting a list of spans into runs loses none and keeps the order. -/
theorem flatten_extend (run rest : List Span) (stop : Nat) :
    (extend live run stop rest).flatten = run.reverse ++ rest := by
  induction rest generalizing run stop with
  | nil => simp [extend]
  | cons s rest ih =>
    rw [extend]
    split
    · rw [List.flatten_cons, ih, List.reverse_singleton, List.singleton_append]
    · rw [ih, List.reverse_cons, List.append_assoc, List.singleton_append]

/-- Between one run and the next there is something live. -/
theorem isChain_extend (hstop : ∀ n, stop ≤ n → ∀ x ∈ run, x.stop ≤ n) :
    (extend live run stop rest).IsChain fun R R' => ∀ s ∈ R'.head?, Parted live R s := by
  induction rest generalizing run stop with
  | nil => exact .singleton _
  | cons s rest ih =>
    rw [extend]
    split
    · next hint =>
      obtain ⟨l, hl, hbetween⟩ := List.any_eq_true.mp hint
      obtain ⟨hbefore, hafter⟩ := of_decide_eq_true hbetween
      have hparted : Parted live run.reverse s :=
        ⟨l, hl, fun x hx => hstop _ hbefore x (List.mem_reverse.mp hx), hafter⟩
      have hchain := @ih [s] s.stop fun n hn => List.forall_mem_singleton.mpr hn
      -- the next run begins with `s`
      obtain ⟨more, later, heq⟩ := @exists_extend_eq_cons live [s] rest s.stop
      rw [heq] at hchain ⊢
      refine List.isChain_cons_cons.mpr ⟨fun t ht => ?_, hchain⟩
      obtain rfl : s = t := Option.some.inj ht
      exact hparted
    · refine ih fun n hn => List.forall_mem_cons.mpr ?_
      exact ⟨(le_max_right _ _).trans hn, hstop n ((le_max_left _ _).trans hn)⟩

/-- The runs are cut where something live comes between, and nowhere else. -/
theorem cutAtLive_runs (live spans : List Span) : CutAtLive live spans (runs live spans) where
  flatten := by
    cases spans with
    | nil => rfl
    | cons s rest => exact flatten_extend [s] rest s.stop
  unbroken _ hR := (runs_spec hR).1
  parted := by
    cases spans with
    | nil => exact .nil
    | cons s rest => exact isChain_extend fun n hn => List.forall_mem_singleton.mpr hn

end DeadRegion

/-! ## Components -/

namespace DepthFirst

/-- A step between nodes that are below the bound and not marked. -/
def Unmarked (next : Nat → List Nat) (seen : Array Bool) (x y : Nat) : Prop :=
  seen[x]? = some false ∧ seen[y]? = some false ∧ y ∈ next x

theorem getElem?_eq_false {seen : Array Bool} {x : Nat} (hx : x < seen.size) (hunseen : seen[x]? ≠ some true) :
    seen[x]? = some false := by
  rw [Array.getElem?_eq_getElem hx] at hunseen ⊢
  rw [Option.some.injEq, Bool.eq_false_iff]
  exact fun hseen => hunseen (congrArg some hseen)

theorem Leads.lt {next : Nat → List Nat} {bound a b : Nat} (h : Leads next bound a b) : b < bound := by
  cases h <;> assumption

/-- A path that does not go on from marked nodes ends with the first one that it meets. -/
theorem Leads.unmarked {next : Nat → List Nat} {seen : Array Bool} {a c : Nat}
    (h : Leads (fun x => if seen[x]? = some true then [] else next x) seen.size a c) :
    seen[c]? = some true ∨ Relation.ReflTransGen (Unmarked next seen) a c := by
  induction h with
  | refl => exact .inr .refl
  | @step x y hx hy hlt ih =>
    split at hy
    · cases hy
    · next hunseen =>
      by_cases hseen : seen[y]? = some true
      · exact .inl hseen
      · have hpath := ih.resolve_left hunseen
        exact .inr (hpath.tail ⟨getElem?_eq_false hx.lt hunseen, getElem?_eq_false hlt hseen, hy⟩)

/-- An exploration does not go on from the nodes that were marked before, so it adds marks to exactly the
nodes that are connected to its start by unmarked ones. -/
theorem marked_explore_iff {next : Nat → List Nat} {seen : Array Bool} {b c : Nat} (hb : seen[b]? = some false) :
    (explore next seen [] [.enter b 0]).1[c]? = some true ↔
      seen[c]? = some true ∨ Relation.ReflTransGen (Unmarked next seen) b c := by
  -- marked nodes are not left by any step, so their neighbours make no difference
  have hcongr : explore next seen [] [.enter b 0] =
      explore (fun x => if seen[x]? = some true then [] else next x) seen [] [.enter b 0] := by
    refine explore_congr fun x hx => ?_
    rw [if_neg hx]
  rw [hcongr]
  constructor
  · intro hc
    rcases leads_of_explore hc with hc | ⟨a, ha, hl⟩
    · exact .inl hc
    · obtain rfl : a = b := List.mem_singleton.mp ha
      exact hl.unmarked
  · rintro (hc | hc)
    · exact explore_keeps hc
    · obtain ⟨hmade, hclosed⟩ :=
        @explore_closed (fun x => if seen[x]? = some true then [] else next x) seen [] [.enter b 0] (by
          intro x hx y hy
          rw [if_pos hx] at hy
          exact absurd hy List.not_mem_nil)
      induction hc with
      | refl => exact hmade b List.mem_cons_self (Array.getElem?_eq_some_iff.mp hb).1
      | tail _ hstep ih =>
        obtain ⟨hx, hy, hmem⟩ := hstep
        refine hclosed _ ih _ ?_ (Array.getElem?_eq_some_iff.mp hy).1
        rw [if_neg (by rw [hx]; decide)]
        exact hmem

end DepthFirst

/-- The lists are the classes in which the members are connected, one list for each class. -/
structure Components (member : Nat → Prop) (link : Nat → Nat → Prop) (parts : List (List Nat)) : Prop where
  component : ∀ C ∈ parts, ∃ a, member a ∧ ∀ c, c ∈ C ↔ Relation.ReflTransGen link a c
  disjoint : parts.Pairwise List.Disjoint
  covers : ∀ c, member c → ∃ C ∈ parts, c ∈ C

namespace FlowGraph

variable {g : FlowGraph} {members : List BlockId} {st : Array Bool × List (List BlockId)}

/-- Two of the members are joined by an edge. -/
def Joined (g : FlowGraph) (members : List BlockId) (x y : BlockId) : Prop :=
  x ∈ members ∧ y ∈ members ∧ y ∈ g.neighbours x

theorem Linked.mem_neighbours (h : g.Linked) {x y : BlockId} :
    y ∈ g.neighbours x ↔ y ∈ (g.jump x).successors ∨ x ∈ (g.jump y).successors := by
  rw [neighbours, List.mem_append, Std.ExtTreeSet.mem_toList, h.mem_preds_iff]

theorem Linked.joined_symm (h : g.Linked) {x y : BlockId} (hxy : g.Joined members x y) : g.Joined members y x := by
  obtain ⟨hx, hy, hmem⟩ := hxy
  exact ⟨hy, hx, h.mem_neighbours.mpr (h.mem_neighbours.mp hmem).symm⟩

/-- What is known while the pieces are collected: the pieces found are classes of connected members, and
the members outside of them are the blocks without a mark. -/
structure Collected (g : FlowGraph) (members : List BlockId) (st : Array Bool × List (List BlockId)) : Prop where
  unmarked_iff : ∀ c, st.1[c]? = some false ↔ c ∈ members ∧ ∀ C ∈ st.2, c ∉ C
  component : ∀ C ∈ st.2, ∃ a ∈ members, ∀ c, c ∈ C ↔ Relation.ReflTransGen (g.Joined members) a c
  disjoint : st.2.Pairwise List.Disjoint

/-- No edge leads from a piece that was found to a member outside of it. -/
theorem Collected.unmarked_of_joined (h : Collected g members st) (hg : g.Linked) {x y : BlockId}
    (hx : st.1[x]? = some false) (hxy : g.Joined members x y) : DepthFirst.Unmarked g.neighbours st.1 x y := by
  refine ⟨hx, (h.unmarked_iff y).mpr ⟨hxy.2.1, fun C hC hy => ?_⟩, hxy.2.2⟩
  obtain ⟨a, -, hmem⟩ := h.component C hC
  exact ((h.unmarked_iff x).mp hx).2 C hC ((hmem x).mpr (((hmem y).mp hy).tail (hg.joined_symm hxy)))

theorem Collected.unmarked_of_connected (h : Collected g members st) (hg : g.Linked) {b c : BlockId}
    (hb : st.1[b]? = some false) (hc : Relation.ReflTransGen (g.Joined members) b c) :
    st.1[c]? = some false := by
  induction hc with
  | refl => exact hb
  | tail _ hxy ih => exact (h.unmarked_of_joined hg ih hxy).2.1

/-- Among unmarked blocks the whole class of a block is connected to it. -/
theorem Collected.connected_iff (h : Collected g members st) (hg : g.Linked) {b c : BlockId}
    (hb : st.1[b]? = some false) :
    Relation.ReflTransGen (DepthFirst.Unmarked g.neighbours st.1) b c ↔
      Relation.ReflTransGen (g.Joined members) b c := by
  constructor
  · refine Relation.ReflTransGen.mono (fun x y hxy => ?_) b c
    exact ⟨((h.unmarked_iff x).mp hxy.1).1, ((h.unmarked_iff y).mp hxy.2.1).1, hxy.2.2⟩
  · intro hc
    induction hc with
    | refl => exact .refl
    | tail hx hxy ih => exact ih.tail (h.unmarked_of_joined hg (h.unmarked_of_connected hg hb hx) hxy)

/-- The exploration from an unmarked member enters its class and marks what it enters. -/
theorem Collected.explore (h : Collected g members st) (hg : g.Linked) {b : BlockId}
    (hb : st.1[b]? = some false) :
    (∀ c, c ∈ DepthFirst.preorder (DepthFirst.explore g.neighbours st.1 [] [.enter b 0]).2 ↔
      Relation.ReflTransGen (g.Joined members) b c) ∧
    ∀ c, (DepthFirst.explore g.neighbours st.1 [] [.enter b 0]).1[c]? = some false ↔
      st.1[c]? = some false ∧ ¬ Relation.ReflTransGen (g.Joined members) b c := by
  have hmarked : ∀ c, (DepthFirst.explore g.neighbours st.1 [] [.enter b 0]).1[c]? = some true ↔
      st.1[c]? = some true ∨ Relation.ReflTransGen (g.Joined members) b c := by
    intro c
    rw [DepthFirst.marked_explore_iff hb, h.connected_iff hg hb]
  -- the nodes that are entered are the ones that get their mark
  have hentered := (@DepthFirst.preorder_explore g.neighbours st.1 [] [.enter b 0] .nil
    (fun _ h => absurd h List.not_mem_nil)).2
  have hsize := DepthFirst.size_explore g.neighbours st.1 [] [.enter b 0]
  refine ⟨fun c => ?_, fun c => ⟨fun hc => ?_, fun hc => ?_⟩⟩
  · rw [hentered c, hmarked]
    constructor
    · rintro (hc | ⟨hc | hc, hnot⟩)
      · cases hc
      · exact absurd hc hnot
      · exact hc
    · intro hc
      refine .inr ⟨.inr hc, ?_⟩
      rw [h.unmarked_of_connected hg hb hc]
      decide
  · have hnot : ¬ (st.1[c]? = some true ∨ Relation.ReflTransGen (g.Joined members) b c) := by
      rw [← hmarked, hc]
      decide
    have hlt := (Array.getElem?_eq_some_iff.mp hc).1
    rw [hsize] at hlt
    exact ⟨DepthFirst.getElem?_eq_false hlt fun hseen => hnot (.inl hseen), fun hpath => hnot (.inr hpath)⟩
  · obtain ⟨hc, hnot⟩ := hc
    refine DepthFirst.getElem?_eq_false ?_ fun hseen => ?_
    · rw [hsize]
      exact (Array.getElem?_eq_some_iff.mp hc).1
    · rcases (hmarked c).mp hseen with hseen | hpath
      · rw [hc] at hseen
        cases hseen
      · exact hnot hpath

/-- Handling a member adds its class, unless it is among the pieces. -/
theorem Collected.addPiece (h : Collected g members st) (hg : g.Linked) {b : BlockId} (hb : b ∈ members) :
    Collected g members (g.addPiece st b) ∧ (∃ C ∈ (g.addPiece st b).2, b ∈ C) ∧ st.2 ⊆ (g.addPiece st b).2 := by
  obtain ⟨seen, found⟩ := st
  rw [FlowGraph.addPiece]
  split
  · next hseen =>
    refine ⟨h, ?_, List.Subset.refl _⟩
    -- a marked member is in a piece already
    have hmarked : seen[b]? ≠ some false := by
      intro hfalse
      rw [Array.getD_eq_getD_getElem?, hfalse] at hseen
      cases hseen
    rw [ne_eq, h.unmarked_iff b] at hmarked
    exact Classical.byContradiction fun hnone => hmarked ⟨hb, fun C hC hbC => hnone ⟨C, hC, hbC⟩⟩
  · next hunseen =>
    have hb' : seen[b]? = some false := by
      rw [Array.getD_eq_getD_getElem?] at hunseen
      cases hval : seen[b]? with
      | none => exact absurd (by rw [hval]; rfl) hunseen
      | some mark =>
        rw [hval, Option.getD_some, Bool.not_eq_true] at hunseen
        rw [hunseen]
    -- the class of the block is a new piece, apart from the others
    obtain ⟨hclass, hmarks⟩ := h.explore hg hb'
    refine ⟨⟨fun c => ?_, ?_, ?_⟩, ⟨_, List.mem_cons_self, (hclass b).mpr .refl⟩, List.subset_cons_self _ _⟩
    · dsimp only at hmarks hclass ⊢
      rw [hmarks, h.unmarked_iff, List.forall_mem_cons, hclass]
      exact and_assoc.trans (and_congr_right fun _ => and_comm)
    · refine List.forall_mem_cons.mpr ⟨⟨b, hb, hclass⟩, h.component⟩
    · refine List.pairwise_cons.mpr ⟨fun C hC c hc hcC => ?_, h.disjoint⟩
      have hunmarked := h.unmarked_of_connected hg hb' ((hclass c).mp hc)
      exact ((h.unmarked_iff c).mp hunmarked).2 C hC hcC

/-- After a list of blocks, every one of them is in a piece, and no piece is lost. -/
theorem Collected.foldl_addPiece (h : Collected g members st) (hg : g.Linked) {bs : List BlockId}
    (hbs : bs ⊆ members) :
    Collected g members (bs.foldl g.addPiece st) ∧ (∀ b ∈ bs, ∃ C ∈ (bs.foldl g.addPiece st).2, b ∈ C) ∧
      st.2 ⊆ (bs.foldl g.addPiece st).2 := by
  induction bs generalizing st with
  | nil => exact ⟨h, fun _ hb => absurd hb List.not_mem_nil, List.Subset.refl _⟩
  | cons b bs ih =>
    obtain ⟨hb, hbs⟩ := List.cons_subset.mp hbs
    obtain ⟨hstep, ⟨C, hC, hbC⟩, hsub⟩ := h.addPiece hg hb
    obtain ⟨hrun, hcovers, hsub'⟩ := ih hstep hbs
    exact ⟨hrun, List.forall_mem_cons.mpr ⟨⟨C, hsub' hC, hbC⟩, hcovers⟩, List.Subset.trans hsub hsub'⟩

/-- At the start exactly the members have no mark. -/
theorem unmarked_start {seen : Array Bool} {bs : List BlockId} (hbs : ∀ b ∈ bs, b < seen.size) (c : BlockId) :
    (bs.foldl (fun acc b => acc.setIfInBounds b false) seen)[c]? = some false ↔
      c ∈ bs ∨ seen[c]? = some false := by
  induction bs generalizing seen with
  | nil => simp
  | cons b bs ih =>
    obtain ⟨hb, hbs⟩ := List.forall_mem_cons.mp hbs
    rw [List.foldl_cons, ih (by rwa [Array.size_setIfInBounds]), Array.getElem?_setIfInBounds, List.mem_cons]
    by_cases hbc : b = c
    · subst hbc
      simp [hb]
    · simp [hbc, Ne.symm hbc]

/-- The pieces of a list of blocks are the classes in which they hang together. -/
theorem Linked.components_pieces (hg : g.Linked) (hlt : ∀ b ∈ members, b < g.size) :
    Components (· ∈ members) (g.Joined members) (g.pieces members) := by
  have hstart : Collected g members
      (members.foldl (fun acc b => acc.setIfInBounds b false) (Array.replicate g.size true), []) := by
    refine ⟨fun c => ?_, fun _ hC => absurd hC List.not_mem_nil, .nil⟩
    rw [unmarked_start (by simpa using hlt), Array.getElem?_replicate]
    constructor
    · rintro (hc | hc)
      · exact ⟨hc, fun _ hC => absurd hC List.not_mem_nil⟩
      · split at hc <;> cases hc
    · exact fun hc => .inl hc.1
  obtain ⟨hrun, hcovers, -⟩ := hstart.foldl_addPiece hg (List.Subset.refl members)
  exact ⟨hrun.component, hrun.disjoint, hcovers⟩

/-! ## Unreached blocks -/

/-- A block that cannot be reached from the entry. -/
def Unreached (g : FlowGraph) (b : BlockId) : Prop := b < g.size ∧ ¬ Reachable g.Edge entry b

/-- Two unreached blocks with an edge between them, in whichever direction and possible or not. -/
def DeadLink (g : FlowGraph) (a b : BlockId) : Prop :=
  g.Unreached a ∧ g.Unreached b ∧ (b ∈ (g.jump a).successors ∨ a ∈ (g.jump b).successors)

/-- The second graph has the unreached blocks of the first, with the edges among them, and no edge leads to
them from a reached block. -/
structure SparesUnreached (reached : Array Bool) (g g' : FlowGraph) : Prop where
  linked : g'.Linked
  size : g'.size = g.size
  closed : ∀ {a b : BlockId}, reached.getD a false = true → g'.Edge a b → reached.getD b false = true
  successors : ∀ {a b : BlockId}, reached.getD a false = false → reached.getD b false = false →
    (b ∈ (g'.jump a).successors ↔ b ∈ (g.jump a).successors)
  removed : ∀ {a : BlockId}, reached.getD a false = false → (g'.block a).removed = (g.block a).removed

/-- A bypass moves edges between reached blocks only. -/
theorem SparesUnreached.collapse {reached : Array Bool} {g' : FlowGraph} {b target : BlockId}
    (h : SparesUnreached reached g g') (hb : reached.getD b false = true) (hbypass : g'.Bypassable b target) :
    SparesUnreached reached g (g'.collapse b target) := by
  obtain ⟨hlinked, hcode, hjump, hremoved⟩ := hbypass.collapse_spec h.linked
  have htarget : reached.getD target false = true := h.closed hb hbypass.edge
  have hne : ∀ {a x}, reached.getD a false = false → reached.getD x false = true → a ≠ x := by
    rintro a _ ha hx rfl
    rw [ha] at hx
    cases hx
  refine ⟨hlinked, hcode.size.trans h.size, fun {a c} ha he => ?_, fun {a c} ha hc => ?_, fun {a} ha => ?_⟩
  · by_cases hab : a = b
    · rw [Edge, FlowGraph.targets, hjump, if_pos hab] at he
      cases he
    · rw [Edge, FlowGraph.targets, hbypass.jump_collapse h.linked hab, Jump.mem_targets_redirect] at he
      rcases he with ⟨he, -⟩ | ⟨-, rfl⟩
      · exact h.closed ha he
      · exact htarget
  · rw [hbypass.jump_collapse h.linked (hne ha hb), ← h.successors ha hc, Jump.mem_successors,
      Jump.mem_successors, Jump.shadow?_redirect, Jump.mem_targets_redirect]
    simp only [ne_eq, hne hc hb, hne hc htarget, not_false_eq_true, and_true, and_false, or_false]
  · rw [hremoved, h.removed ha, decide_eq_false (hne ha hb).symm, Bool.false_or]

theorem Linked.sparesUnreached_collapseAll (h : g.Linked) :
    SparesUnreached g.reachedFromEntry g (collapseAll g.reachedFromEntry g).1 := by
  refine collapseAll_reached (fun hg hb hbypass => hg.collapse hb hbypass)
    ⟨h, rfl, fun ha he => ?_, fun _ _ => .rfl, fun _ => rfl⟩
  rw [reachedFromEntry_iff h] at ha ⊢
  exact ha.step he

/-- The live spans that are found are all those which cover anything. -/
theorem mem_liveSpans_iff (h : g.Linked) (hkept : ∀ b, b < g.size → (g.block b).removed = false) {l : Span} :
    l ∈ g.liveSpans g.reachedFromEntry ↔ g.LiveSpan l ∧ l.isEmpty = false := by
  rw [liveSpans, DeadRegion.mem_sorted, List.mem_filter, List.mem_flatMap, Bool.not_eq_true']
  refine and_congr_left fun _ => ?_
  constructor
  · rintro ⟨b, hb, hl⟩
    obtain ⟨-, hreached⟩ := List.mem_filter.mp hb
    exact ⟨b, (reachedFromEntry_iff h).mp hreached, Array.mem_toList_iff.mp hl⟩
  · rintro ⟨b, hb, hl⟩
    have hlt : b < g.size := h.reachable_lt hb
    refine ⟨b, List.mem_filter.mpr ⟨mem_liveIds.mpr ⟨hlt, hkept b hlt⟩, ?_⟩, Array.mem_toList_iff.mpr hl⟩
    exact (reachedFromEntry_iff h).mpr hb

/-- The pieces that pruning reports on are the components of the unreached blocks. -/
theorem Linked.components_dead (h : g.Linked) (hkept : ∀ b, b < g.size → (g.block b).removed = false) :
    let collapsed := (collapseAll g.reachedFromEntry g).1
    Components g.Unreached g.DeadLink
      (collapsed.pieces (collapsed.liveIds.filter fun b => !g.reachedFromEntry.getD b false)) := by
  intro collapsed
  have hspares := h.sparesUnreached_collapseAll
  generalize hdead : collapsed.liveIds.filter (fun b => !g.reachedFromEntry.getD b false) = dead
  have hunreached : ∀ {b}, g.Unreached b → g.reachedFromEntry.getD b false = false := fun hb =>
    Bool.eq_false_iff.mpr fun hreached => hb.2 ((reachedFromEntry_iff h).mp hreached)
  have hmem : ∀ b, b ∈ dead ↔ g.Unreached b := by
    intro b
    rw [← hdead, List.mem_filter, mem_liveIds, hspares.size, Bool.not_eq_true', Unreached,
      ← reachedFromEntry_iff h, Bool.not_eq_true]
    constructor
    · rintro ⟨⟨hlt, -⟩, hb⟩
      exact ⟨hlt, hb⟩
    · rintro ⟨hlt, hb⟩
      exact ⟨⟨hlt, (hspares.removed hb).trans (hkept b hlt)⟩, hb⟩
  have hjoined : collapsed.Joined dead = g.DeadLink := by
    funext a b
    refine propext ?_
    rw [Joined, DeadLink, hmem, hmem, hspares.linked.mem_neighbours]
    refine and_congr_right fun ha => and_congr_right fun hb => ?_
    rw [hspares.successors (hunreached ha) (hunreached hb), hspares.successors (hunreached hb) (hunreached ha)]
  have hcomponents := @Linked.components_pieces collapsed dead hspares.linked fun b hb => by
    rw [hspares.size]
    exact ((hmem b).mp hb).1
  rw [hjoined, funext fun b => propext (hmem b)] at hcomponents
  exact hcomponents

/-- The regions that pruning a graph reports, their final order apart, are found component by component among
the unreached blocks: the distinct spans of the statements that begin in the component, in source order, cut
where a statement that begins in a reached block stands between a run and the next span, and nowhere else. No
region is empty, and every span of an unreached block is in one. -/
theorem prune_reports_components (hg : g.Attainable) (hkept : ∀ b, b < g.size → (g.block b).removed = false) :
    ∃ live parts regions,
      (∀ l, l ∈ live ↔ g.LiveSpan l ∧ l.isEmpty = false) ∧
      Components g.Unreached g.DeadLink parts ∧
      (∀ C ∈ parts, ∃ spans, DeadRegion.Ascending spans ∧ (∀ x, x ∈ spans ↔ ∃ b ∈ C, x ∈ (g.block b).spans) ∧
        DeadRegion.CutAtLive live spans (regions C)) ∧
      g.prune.2.deadCode.Perm (parts.flatMap regions) ∧
      (∀ R ∈ g.prune.2.deadCode, R ≠ []) ∧
      ∀ b, g.Unreached b → ∀ x ∈ (g.block b).spans, ∃ R ∈ g.prune.2.deadCode, x ∈ R := by
  have hlinked : g.forgetAnalyses.Linked := hg.linked.of_blocks_eq rfl
  -- only reached blocks are bypassed, so the dead ones keep their edges and their spans
  let collapsed := (collapseAll g.reachedFromEntry g.forgetAnalyses).1
  let live := g.liveSpans g.reachedFromEntry
  let parts := collapsed.pieces (collapsed.liveIds.filter fun b => !g.reachedFromEntry.getD b false)
  let spans (C : List BlockId) := DeadRegion.sorted (C.flatMap fun b => (collapsed.block b).spans.toList)
  have hparts : Components g.Unreached g.DeadLink parts := hlinked.components_dead hkept
  have hspans : ∀ C x, x ∈ spans C ↔ ∃ b ∈ C, x ∈ (g.block b).spans := by
    intro C x
    simp only [spans, DeadRegion.mem_sorted, List.mem_flatMap, Array.mem_toList_iff]
    refine exists_congr fun b => and_congr_right fun _ => ?_
    rw [spans_collapseAll]
    rfl
  have hcut : ∀ C, DeadRegion.CutAtLive live (spans C) (DeadRegion.runs live (spans C)) :=
    fun C => DeadRegion.cutAtLive_runs live (spans C)
  have hperm : g.prune.2.deadCode.Perm (parts.flatMap fun C => DeadRegion.runs live (spans C)) :=
    List.mergeSort_perm _ _
  refine ⟨live, parts, fun C => DeadRegion.runs live (spans C), fun l => mem_liveSpans_iff hg.linked hkept, hparts,
    fun C _ => ⟨spans C, DeadRegion.ascending_sorted _, hspans C, hcut C⟩, hperm,
    fun R hR => (deadCode_spec hR).1.ne_nil, fun b hb x hx => ?_⟩
  obtain ⟨C, hC, hbC⟩ := hparts.covers b hb
  have hx' : x ∈ (DeadRegion.runs live (spans C)).flatten := by
    rw [(hcut C).flatten]
    exact (hspans C x).mpr ⟨b, hbC, hx⟩
  obtain ⟨R, hR, hxR⟩ := List.mem_flatten.mp hx'
  exact ⟨R, hperm.mem_iff.mpr (List.mem_flatMap.mpr ⟨C, hC, hR⟩), hxR⟩

/-- Records in a block that a statement begins there. -/
def withSpan (g : FlowGraph) (b : BlockId) (span : Span) : FlowGraph :=
  g.modify b fun blk => { blk with spans := blk.spans.push span }

theorem Attainable.withSpan (hg : g.Attainable) (b : BlockId) (span : Span) : (g.withSpan b span).Attainable :=
  hg.edit (.modify g b rfl rfl)

/-- Three blocks behind a return, the last of them joined to the first by an impossible edge only, and one
block apart. -/
def scattered : FlowGraph :=
  let shape := (new 0).applyAll [.addBlock, .addBlock, .addBlock, .addBlock, .setJump 0 (.ret 1 none),
    .setJump 1 (.transfer 2 3)]
  ((((shape.withSpan 0 ⟨10, 12⟩).withSpan 1 ⟨0, 5⟩).withSpan 3 ⟨20, 22⟩).withSpan 2 ⟨14, 20⟩).withSpan 4 ⟨30, 31⟩

/-- The live statement between the first and the second dead one cuts the component of three blocks. -/
theorem prune_reports_components_scattered :
    (∀ b, b < scattered.size → (scattered.block b).removed = false) ∧
      ∃ live parts regions, ⟨10, 12⟩ ∈ live ∧ Components scattered.Unreached scattered.DeadLink parts ∧
        [[⟨0, 5⟩], [⟨14, 20⟩, ⟨20, 22⟩], [⟨30, 31⟩]].Perm (parts.flatMap regions) ∧
        ∀ C ∈ parts, ∃ spans, DeadRegion.CutAtLive live spans (regions C) := by
  have hshape := Attainable.applyAll (.start (.new 0)) [.addBlock, .addBlock, .addBlock, .addBlock,
    .setJump 0 (.ret 1 none), .setJump 1 (.transfer 2 3)]
  have hg : scattered.Attainable :=
    ((((hshape.withSpan 0 _).withSpan 1 _).withSpan 3 _).withSpan 2 _).withSpan 4 _
  have hkept : ∀ b, b < scattered.size → (scattered.block b).removed = false := by decide
  have hregions : scattered.prune.2.deadCode = [[⟨0, 5⟩], [⟨14, 20⟩, ⟨20, 22⟩], [⟨30, 31⟩]] := by cbv
  have hspan : ⟨10, 12⟩ ∈ (scattered.block entry).spans := by
    rw [← Array.mem_toList_iff]
    decide
  obtain ⟨live, parts, regions, hlive, hparts, hcut, hperm, -⟩ := prune_reports_components hg hkept
  rw [hregions] at hperm
  refine ⟨hkept, live, parts, regions, (hlive _).mpr ⟨⟨entry, .root, hspan⟩, rfl⟩, hparts, hperm, ?_⟩
  intro C hC
  obtain ⟨spans, -, -, hC⟩ := hcut C hC
  exact ⟨spans, hC⟩

end FlowGraph

end SsaFlow
