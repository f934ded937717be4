-- SUMMARY: The label on a dead region covers a live statement only if one of the region encloses it or lies in it.
import Mathlib
import SsaFlow.Diagnostic.Basic
import SsaFlow.Proofs.Pruned
import SsaFlow.Proofs.SourceSpans

/-!
# What the label on dead code covers

The statements of a region are a run of dead statements in source order, cut where a live statement stands
between two of them (`DeadRegion.Unbroken`). A live statement that stands apart from all of them is
therefore before all of them or after all of them (`Unbroken.oneSide`), and the label over the region does
not cover it.

The cut looks at live statements that stand between dead ones, and at no others. Where a `goto` leads into
a dead loop, the live statement lies in a dead one. And where a live statement encloses the last statements
of a run but not the first, the label over the run covers it as well. These are the two ways in which the
label gets to cover live code.
-/

namespace List

variable {α : Type}

theorem eraseRepsBy_loop_eq (r : α → α → Bool) (a : α) (as acc : List α) :
    eraseRepsBy.loop r a as acc = acc.reverse ++ eraseRepsBy.loop r a as [] := by
  induction as generalizing a acc with
  | nil => simp [eraseRepsBy.loop]
  | cons b as ih =>
    rw [eraseRepsBy.loop, eraseRepsBy.loop]
    cases r a b with
    | true => exact ih a acc
    | false =>
      dsimp only
      rw [ih b (a :: acc), ih b [a]]
      simp

variable [BEq α]

theorem eraseReps_cons_cons (a b : α) (as : List α) :
    (a :: b :: as).eraseReps = if a == b then (a :: as).eraseReps else a :: (b :: as).eraseReps := by
  rw [eraseReps, eraseRepsBy, eraseRepsBy.loop]
  cases hab : a == b with
  | true => simp [eraseReps, eraseRepsBy]
  | false => simp [eraseReps, eraseRepsBy, eraseRepsBy_loop_eq _ b as [a]]

theorem eraseReps_cons_sublist (a : α) (as : List α) : (a :: as).eraseReps <+ a :: as := by
  induction as generalizing a with
  | nil => exact .refl _
  | cons b as ih =>
    rw [eraseReps_cons_cons]
    split
    · exact (ih a).trans ((sublist_cons_self b as).cons_cons a)
    · exact (ih b).cons_cons a

theorem mem_eraseReps_cons [LawfulBEq α] {x a : α} {as : List α} : x ∈ (a :: as).eraseReps ↔ x ∈ a :: as := by
  induction as generalizing a with
  | nil => rfl
  | cons b as ih =>
    rw [eraseReps_cons_cons]
    split
    · next hab =>
      rw [ih, eq_of_beq hab]
      simp
    · rw [mem_cons, ih, ← mem_cons]

end List

namespace SsaFlow

namespace DeadRegion

variable {live run rest R : List Span} {l x : Span} {stop : Nat}

/-! ## Runs -/

theorem sorted_sublist (spans : List Span) : (sorted spans).Sublist (spans.mergeSort Span.le) := by
  rw [sorted]
  cases spans.mergeSort Span.le with
  | nil => exact .refl _
  | cons s rest => exact List.eraseReps_cons_sublist s rest

theorem mem_sorted {spans : List Span} : x ∈ sorted spans ↔ x ∈ spans := by
  refine Iff.trans ?_ (List.mem_mergeSort (l := spans) : x ∈ spans.mergeSort Span.le ↔ x ∈ spans)
  rw [sorted]
  cases spans.mergeSort Span.le with
  | nil => rfl
  | cons s rest => exact List.mem_eraseReps_cons

theorem pairwise_sorted (spans : List Span) : (sorted spans).Pairwise fun x y => x.le y = true := by
  have hsort : (spans.mergeSort Span.le).Pairwise fun x y => x.le y = true :=
    List.pairwise_mergeSort (fun x y z => @Span.le_trans x y z) Span.le_total spans
  exact hsort.sublist (sorted_sublist spans)

/-- A run of statements between which no live one stands: whatever is live and comes after all statements
of a part of the run does not end before the next one begins. -/
inductive Unbroken (live : List Span) : List Span → Prop
  | single (s : Span) : Unbroken live [s]
  | snoc {run : List Span} {s : Span} (h : Unbroken live run)
      (gap : ∀ l ∈ live, (∀ x ∈ run, x.stop ≤ l.start) → ¬ l.stop ≤ s.start) : Unbroken live (run ++ [s])

theorem Unbroken.ne_nil (h : Unbroken live R) : R ≠ [] := by
  cases h <;> simp

/-- Nothing live comes between the statements of a run, which keep their order. -/
theorem extend_spec (hrun : Unbroken live run.reverse)
    (hstop : ∀ n, (∀ x ∈ run, x.stop ≤ n) → stop ≤ n) (hR : R ∈ extend live run stop rest) :
    Unbroken live R ∧ R.Sublist (run.reverse ++ rest) := by
  induction rest generalizing run stop with
  | nil =>
    rw [extend, List.mem_singleton] at hR
    subst hR
    exact ⟨hrun, List.sublist_append_left _ _⟩
  | cons s rest ih =>
    rw [extend] at hR
    split at hR
    · rcases List.mem_cons.mp hR with rfl | hR
      · exact ⟨hrun, List.sublist_append_left _ _⟩
      · obtain ⟨hunbroken, hsub⟩ := ih (.single s) (fun n hn => hn s List.mem_cons_self) hR
        exact ⟨hunbroken, hsub.trans (List.sublist_append_right _ _)⟩
    · next hint =>
      -- a live span between the run and the next span would have ended the run
      have hgap : ∀ l ∈ live, (∀ x ∈ run.reverse, x.stop ≤ l.start) → ¬ l.stop ≤ s.start := by
        intro l hl hbefore hafter
        refine hint (List.any_eq_true.mpr ⟨l, hl, decide_eq_true ⟨hstop _ fun x hx => ?_, hafter⟩⟩)
        exact hbefore x (List.mem_reverse.mpr hx)
      have hstop' : ∀ n, (∀ x ∈ s :: run, x.stop ≤ n) → max stop s.stop ≤ n := by
        intro n hn
        obtain ⟨hs, hrun⟩ := List.forall_mem_cons.mp hn
        exact Nat.max_le.mpr ⟨hstop n hrun, hs⟩
      have hrun' : Unbroken live (s :: run).reverse := by
        rw [List.reverse_cons]
        exact .snoc hrun hgap
      obtain ⟨hunbroken, hsub⟩ := ih hrun' hstop' hR
      refine ⟨hunbroken, ?_⟩
      rwa [List.reverse_cons, List.append_assoc, List.singleton_append] at hsub

/-- Every run is unbroken and keeps to the order of the spans that are cut up. -/
theorem runs_spec {spans : List Span} (hR : R ∈ runs live spans) : Unbroken live R ∧ R.Sublist spans := by
  cases spans with
  | nil => exact nomatch hR
  | cons s rest => exact extend_spec (.single s) (fun n hn => hn s List.mem_cons_self) hR

/-- A live span that stands apart from the statements of a run is after all of them or before all of them. -/
theorem Unbroken.oneSide (h : Unbroken live R) (hsorted : R.Pairwise fun x y => x.le y = true) (hl : l ∈ live)
    (hapart : ∀ x ∈ R, x.Apart l) : (∀ x ∈ R, x.stop ≤ l.start) ∨ ∀ x ∈ R, l.stop ≤ x.start := by
  induction h with
  | single s => exact (hapart s List.mem_cons_self).imp List.forall_mem_singleton.mpr List.forall_mem_singleton.mpr
  | @snoc run s hrun gap ih =>
    obtain ⟨hsorted, -, hle⟩ := List.pairwise_append.mp hsorted
    obtain ⟨hrunApart, hs⟩ := List.forall_mem_append.mp hapart
    simp only [List.forall_mem_append, List.forall_mem_singleton] at hs ⊢
    rcases ih hsorted hrunApart with hbefore | hafter
    · rcases hs with hs | hs
      · exact .inl ⟨hbefore, hs⟩
      · exact absurd hs (gap l hl hbefore)
    · -- the run has a statement, and `s` does not begin before it
      obtain ⟨x, hx⟩ := List.exists_mem_of_ne_nil run hrun.ne_nil
      have hxs := Span.le_iff.mp (hle x hx s List.mem_cons_self)
      have := hafter x hx
      exact .inr ⟨hafter, by omega⟩

end DeadRegion

/-! ## The label over a region -/

namespace Diagnostic

variable {R : List Span}

/-- What holds of the union of two spans if it holds of one of them holds of the union of many. -/
theorem cover_iff {P : Span → Prop} (hmerge : ∀ s t, P (s.merge t) ↔ P s ∨ P t) (hR : R ≠ []) :
    P (cover R) ↔ ∃ x ∈ R, P x := by
  obtain ⟨s, rest, rfl⟩ := List.exists_cons_of_ne_nil hR
  rw [cover]
  clear hR
  induction rest generalizing s with
  | nil => simp
  | cons t rest ih =>
    rw [List.foldl_cons, ih (s.merge t)]
    simp [hmerge, or_assoc]

theorem cover_contains_iff {l : Span} (hR : R ≠ []) :
    (cover R).Contains l ↔ (∃ x ∈ R, x.start ≤ l.start) ∧ ∃ x ∈ R, l.stop ≤ x.stop :=
  and_congr (cover_iff (P := fun x => x.start ≤ l.start) (fun _ _ => min_le_iff) hR)
    (cover_iff (P := fun x => l.stop ≤ x.stop) (fun _ _ => le_max_iff) hR)

/-- The label over a region as a whole is its only primary label. -/
theorem primary_label {label : Label} (h : label ∈ (unreachableCode R).labels) (hp : label.isPrimary = true) :
    label.span = cover R := by
  rcases List.mem_cons.mp h with rfl | h
  · rfl
  · split at h
    · exact nomatch h
    · obtain ⟨x, -, rfl⟩ := List.mem_map.mp h
      exact nomatch hp

end Diagnostic

/-! ## Regions of a pruned graph -/

namespace FlowGraph

variable {g : FlowGraph} {R : List Span} {l : Span}

theorem spans_detach (g : FlowGraph) (b c : BlockId) : ((g.detach b).block c).spans = (g.block c).spans := by
  rw [detach, ← g.spans_setJump b c .missing]
  exact spans_modify _ b c fun _ => rfl

theorem spans_collapse (g : FlowGraph) (b target c : BlockId) :
    ((g.collapse b target).block c).spans = (g.block c).spans := by
  rw [collapse, spans_detach]
  refine List.foldlRecOn (motive := fun g' : FlowGraph => (g'.block c).spans = (g.block c).spans) _ _ rfl ?_
  intro g' ih p _
  rw [spans_setJump]
  exact ih

theorem spans_collapseAll (reached : Array Bool) (g : FlowGraph) (c : BlockId) :
    ((collapseAll reached g).1.block c).spans = (g.block c).spans :=
  collapseAll_induction (P := fun g' => (g'.block c).spans = (g.block c).spans)
    (fun h _ => (spans_collapse _ _ _ c).trans h) reached rfl

/-- The span of a statement that begins in a block that can be reached. -/
def LiveSpan (g : FlowGraph) (l : Span) : Prop := ∃ b, Reachable g.Edge entry b ∧ l ∈ (g.block b).spans

/-- Every live statement that covers anything is known when dead code is reported. -/
theorem Fresh.mem_liveSpans (h : g.Fresh) (hl : g.LiveSpan l) (hne : l.isEmpty = false) :
    l ∈ g.liveSpans g.reachedFromEntry := by
  obtain ⟨b, hb, hl⟩ := hl
  refine DeadRegion.mem_sorted.mpr (List.mem_filter.mpr ⟨List.mem_flatMap.mpr ⟨b, ?_, ?_⟩, ?_⟩)
  · refine List.mem_filter.mpr ⟨mem_liveIds.mpr ⟨h.reachable_lt hb, h.kept b⟩, ?_⟩
    exact (reachedFromEntry_iff h.toLinked).mpr hb
  · exact Array.mem_toList_iff.mpr hl
  · rw [hne]
    rfl

/-- A region is an unbroken run, in source order, of statements that begin somewhere in the graph. -/
theorem deadCode_spec (hR : R ∈ g.prune.2.deadCode) :
    DeadRegion.Unbroken (g.liveSpans g.reachedFromEntry) R ∧ R.Pairwise (fun x y => x.le y = true) ∧
      ∀ x ∈ R, ∃ b, x ∈ (g.block b).spans := by
  obtain ⟨piece, -, hR⟩ := List.mem_flatMap.mp (List.mem_mergeSort.mp hR)
  obtain ⟨hunbroken, hsub⟩ := DeadRegion.runs_spec hR
  refine ⟨hunbroken, (DeadRegion.pairwise_sorted _).sublist hsub, fun x hx => ?_⟩
  obtain ⟨b, -, hx⟩ := List.mem_flatMap.mp (DeadRegion.mem_sorted.mp (hsub.subset hx))
  rw [Array.mem_toList_iff, spans_collapseAll] at hx
  exact ⟨b, hx⟩

end FlowGraph

/-- Where statements nest, a live statement that the label over a region covers lies in a statement of the
region or encloses one. -/
theorem Function.related_of_cover_contains {fn : Function} {g : FlowGraph} (hnested : fn.tree.Nested)
    (hlower : fn.lower = .ok g) {R : List Span} (hR : R ∈ g.prune.2.deadCode) {l : Span} (hl : g.LiveSpan l)
    (hcover : (Diagnostic.cover R).Contains l) : ∃ x ∈ R, x.Contains l ∨ l.Contains x := by
  refine Classical.byContradiction fun hnone => ?_
  obtain ⟨hunbroken, hsorted, hmem⟩ := FlowGraph.deadCode_spec hR
  obtain ⟨stmt, hstmt, rfl⟩ : ∃ stmt ∈ fn.tree.nodes, stmt.span = l :=
    hl.elim fun _ hb => Function.lower_spans hlower hb.2
  have hne := hnested.nonempty stmt hstmt
  have hapart : ∀ x ∈ R, x.Apart stmt.span := by
    intro x hx
    obtain ⟨c, hxc⟩ := hmem x hx
    obtain ⟨dead, hdead, rfl⟩ := Function.lower_spans hlower hxc
    rcases hnested.laminar hdead hstmt with hapart | hrelated
    · exact hapart
    · exact absurd ⟨_, hx, hrelated⟩ hnone
  have hlive := (Function.lowered hlower).mem_liveSpans hl hne
  rw [Span.isEmpty_eq_false] at hne
  obtain ⟨⟨x, hx, hstart⟩, y, hy, hstop⟩ := (Diagnostic.cover_contains_iff hunbroken.ne_nil).mp hcover
  rcases hunbroken.oneSide hsorted hlive hapart with hbefore | hafter
  · exact absurd (hbefore y hy) (by omega)
  · exact absurd (hafter x hx) (by omega)

/-- The primary label on a dead region covers a live statement exactly where the statement lies in one of the
region, or where it encloses one of them while the region begins no later and ends no earlier. -/
theorem Function.dead_label_covers_iff {fn : Function} {g : FlowGraph} (hnested : fn.tree.Nested)
    (hlower : fn.lower = .ok g) {R : List Span} (hR : R ∈ g.prune.2.deadCode) {label : Label}
    (hlabel : label ∈ (Diagnostic.unreachableCode R).labels) (hprimary : label.isPrimary = true) {l : Span}
    (hl : g.LiveSpan l) :
    label.span.Contains l ↔ (∃ x ∈ R, x.Contains l) ∨
      ((∃ x ∈ R, l.Contains x) ∧ (∃ x ∈ R, x.start ≤ l.start) ∧ ∃ x ∈ R, l.stop ≤ x.stop) := by
  have hcovers := @Diagnostic.cover_contains_iff R l (FlowGraph.deadCode_spec hR).1.ne_nil
  rw [Diagnostic.primary_label hlabel hprimary]
  constructor
  · intro hcover
    obtain ⟨x, hx, hin | hout⟩ := Function.related_of_cover_contains hnested hlower hR hl hcover
    · exact .inl ⟨x, hx, hin⟩
    · exact .inr ⟨⟨x, hx, hout⟩, hcovers.mp hcover⟩
  · rintro (⟨x, hx, hin⟩ | ⟨-, hends⟩)
    · exact hcovers.mpr ⟨⟨x, hx, hin.1⟩, x, hx, hin.2⟩
    · exact hcovers.mpr hends

/-- The function `goto M; goto N; M: switch (x) N: x;`. -/
def labelInSwitch : Function where
  name := ⟨0⟩
  params := [0]
  numVars := 1
  body := 6
  span := ⟨0, 30⟩
  exprs := #[⟨⟨23, 24⟩, .var 0⟩]
  stmts := #[⟨⟨0, 6⟩, .goto ⟨1⟩⟩, ⟨⟨7, 13⟩, .goto ⟨2⟩⟩, ⟨⟨28, 30⟩, .expr 0⟩, ⟨⟨25, 30⟩, .label ⟨2⟩ 2⟩,
    ⟨⟨17, 30⟩, .switch 0 3⟩, ⟨⟨14, 30⟩, .label ⟨1⟩ 4⟩, ⟨⟨0, 30⟩, .block [0, 1, 5]⟩]

/-- The function `goto L; while (x) L: x;`. -/
def labelInLoop : Function where
  name := ⟨0⟩
  params := [0]
  numVars := 1
  body := 4
  span := ⟨0, 24⟩
  exprs := #[⟨⟨13, 14⟩, .var 0⟩]
  stmts := #[⟨⟨0, 6⟩, .goto ⟨1⟩⟩, ⟨⟨20, 22⟩, .expr 0⟩, ⟨⟨17, 22⟩, .label ⟨1⟩ 1⟩, ⟨⟨7, 23⟩, .whileLoop 0 2⟩,
    ⟨⟨0, 24⟩, .block [0, 3]⟩]

theorem lower_labelInSwitch : ∃ g, labelInSwitch.lower = .ok g ∧ g.LiveSpan ⟨17, 30⟩ ∧
    [⟨7, 13⟩, ⟨28, 30⟩] ∈ g.prune.2.deadCode := by
  obtain ⟨g, hlower, hedge, hspan, hregion⟩ : ∃ g, labelInSwitch.lower = .ok g ∧
      1 ∈ g.targets FlowGraph.entry ∧ ⟨17, 30⟩ ∈ (g.block 1).spans ∧
      [⟨7, 13⟩, ⟨28, 30⟩] ∈ g.prune.2.deadCode := by
    refine Except.exists_ok_of_decide ?_
    cbv
  exact ⟨g, hlower, ⟨1, Reachable.root.step hedge, hspan⟩, hregion⟩

theorem lower_labelInLoop : ∃ g, labelInLoop.lower = .ok g ∧ g.LiveSpan ⟨20, 22⟩ ∧
    [⟨7, 23⟩] ∈ g.prune.2.deadCode := by
  obtain ⟨g, hlower, hedge, hspan, hregion⟩ : ∃ g, labelInLoop.lower = .ok g ∧
      1 ∈ g.targets FlowGraph.entry ∧ ⟨20, 22⟩ ∈ (g.block 1).spans ∧ [⟨7, 23⟩] ∈ g.prune.2.deadCode := by
    refine Except.exists_ok_of_decide ?_
    cbv
  exact ⟨g, hlower, ⟨1, Reachable.root.step hedge, hspan⟩, hregion⟩

/-- The `switch` is live. It encloses the last statement of the region but not the first. -/
theorem dead_label_covers_iff_labelInSwitch :
    ∃ g, labelInSwitch.lower = .ok g ∧ labelInSwitch.tree.Nested ∧
      [⟨7, 13⟩, ⟨28, 30⟩] ∈ g.prune.2.deadCode ∧ g.LiveSpan ⟨17, 30⟩ ∧ Span.Contains ⟨7, 30⟩ ⟨17, 30⟩ := by
  obtain ⟨g, hlower, hl, hregion⟩ := lower_labelInSwitch
  have hnested : labelInSwitch.tree.Nested := by decide
  refine ⟨g, hlower, hnested, hregion, hl, ?_⟩
  refine (Function.dead_label_covers_iff hnested hlower hregion List.mem_cons_self rfl hl).mpr (.inr ?_)
  decide

/-- No primary label on a dead region covers a live statement. -/
def FlowGraph.LabelsSpareLiveCode (g : FlowGraph) : Prop :=
  ∀ R ∈ g.prune.2.deadCode, ∀ label ∈ (Diagnostic.unreachableCode R).labels, label.isPrimary = true →
    ∀ l, g.LiveSpan l → ¬ label.span.Contains l

/-- Every statement of the table is a part of one statement at most, and the body is a part of none. -/
def Function.UsesStmtsOnce (fn : Function) : Prop :=
  (fn.body :: fn.stmts.toList.flatMap fun node => node.kind.parts).Nodup

instance (fn : Function) : Decidable fn.UsesStmtsOnce := inferInstanceAs (Decidable (List.Nodup _))

/-- Labels can cover live code where a jump leads into a live statement that encloses the end of the region,
and where it leads into a dead one. -/
theorem not_labelsSpareLiveCode :
    (labelInSwitch.UsesStmtsOnce ∧ labelInSwitch.tree.Nested ∧
      ∃ g, labelInSwitch.lower = .ok g ∧ ¬ g.LabelsSpareLiveCode) ∧
    (labelInLoop.UsesStmtsOnce ∧ labelInLoop.tree.Nested ∧
      ∃ g, labelInLoop.lower = .ok g ∧ ¬ g.LabelsSpareLiveCode) := by
  constructor
  · obtain ⟨g, hlower, hl, hregion⟩ := lower_labelInSwitch
    refine ⟨by decide, by decide, g, hlower, fun hspare => ?_⟩
    exact hspare _ hregion _ List.mem_cons_self rfl _ hl (by decide)
  · obtain ⟨g, hlower, hl, hregion⟩ := lower_labelInLoop
    refine ⟨by decide, by decide, g, hlower, fun hspare => ?_⟩
    exact hspare _ hregion _ List.mem_cons_self rfl _ hl (by decide)

end SsaFlow
