-- SUMMARY: Pruning leaves nothing to prune: no block that can be bypassed and no block that is not reached.
import SsaFlow.Proofs.Lowered
import SsaFlow.Proofs.Pruned

/-!
# Settled graphs

Bypassing ends with a round that bypasses nothing, and such a round has tried every block, so no block can
be bypassed any more (`collapseAll_stuck`). Removing the unreachable blocks afterwards could let a bypass
happen only where such a block had a reachable block as its shadow. Lowered graphs have no such shadows
(`Unshadowed`), and bypassing makes none.
-/

namespace SsaFlow

namespace FlowGraph

/-! ## The end of bypassing -/

/-- Trying blocks in turn counts a bypass, or none of them can be bypassed. -/
theorem foldl_tryCollapse (reached : Array Bool) (bs : List BlockId) (g : FlowGraph) (count : Nat) :
    count < (bs.foldl (tryCollapse reached) (g, count)).2 ∨
      bs.foldl (tryCollapse reached) (g, count) = (g, count) ∧ ∀ b ∈ bs, g.bypass? reached b = none := by
  induction bs generalizing g count with
  | nil => exact .inr ⟨rfl, nofun⟩
  | cons b bs ih =>
    rw [List.foldl_cons, tryCollapse]
    cases hb : g.bypass? reached b with
    | none =>
      rcases ih g count with hlt | ⟨hsame, hnone⟩
      · exact .inl hlt
      · exact .inr ⟨hsame, List.forall_mem_cons.mpr ⟨hb, hnone⟩⟩
    | some target =>
      refine .inl ?_
      rcases ih (g.collapse b target) (count + 1) with hlt | ⟨hsame, -⟩
      · exact Nat.lt_of_succ_lt hlt
      · dsimp only
        rw [hsame]
        exact Nat.lt_succ_self count

/-- When bypassing ends, no block can be bypassed. -/
theorem collapseAll_stuck (reached : Array Bool) (g : FlowGraph) :
    ∀ b ∈ (collapseAll reached g).1.liveIds, (collapseAll reached g).1.bypass? reached b = none := by
  fun_induction FlowGraph.collapseAll reached g with
  | case1 g round hzero =>
    obtain ⟨hsame, hnone⟩ := (foldl_tryCollapse reached g.liveIds g 0).resolve_left (Nat.not_lt_of_le (Nat.le_of_eq hzero))
    have hround : round = (g, 0) := hsame
    rw [hround]
    exact hnone
  | case2 g round _ rest ih => exact ih

/-- Where no block can be bypassed, nothing is. -/
theorem collapseAll_eq_self {reached : Array Bool} {g : FlowGraph}
    (h : ∀ b ∈ g.liveIds, g.bypass? reached b = none) : collapseAll reached g = (g, 0) := by
  have hfold : ∀ bs : List BlockId, (∀ b ∈ bs, g.bypass? reached b = none) →
      bs.foldl (tryCollapse reached) (g, 0) = (g, 0) := by
    intro bs hbs
    induction bs with
    | nil => rfl
    | cons b bs ih =>
      rw [List.forall_mem_cons] at hbs
      rw [List.foldl_cons, tryCollapse, hbs.1]
      exact ih hbs.2
  have hround : collapseRound reached g = (g, 0) := hfold g.liveIds h
  unfold collapseAll
  rw [hround]
  rfl

/-! ## Shadows -/

/-- Control goes to no shadow. -/
def Unshadowed (g : FlowGraph) : Prop := ∀ p t q, g.Edge p t → (g.jump q).shadow? ≠ some t

/-- After a bypass, control still goes to no shadow. -/
theorem Unshadowed.collapse {g : FlowGraph} (h : g.Unshadowed) (hg : g.Linked) {b target : BlockId}
    (hb : g.Bypassable b target) : (g.collapse b target).Unshadowed := by
  intro p t q he hs
  obtain ⟨-, -, hjump, -⟩ := hb.collapse_spec hg
  have hold : (g.jump q).shadow? = some t := by
    rw [hjump] at hs
    split at hs
    · exact nomatch hs
    · split at hs
      · rwa [Jump.shadow?_redirect] at hs
      · exact hs
  obtain ⟨-, -, he | ⟨-, rfl⟩⟩ := ((hb.bypasses hg).edge p t).mp he
  · exact h p t q he hold
  · exact h b t q hb.edge hold

theorem Unshadowed.collapseAll {g : FlowGraph} (h : g.Unshadowed) (hg : g.Linked) (reached : Array Bool) :
    (FlowGraph.collapseAll reached g).1.Unshadowed :=
  (collapseAll_induction (P := fun g => g.Linked ∧ g.Unshadowed)
    (fun hg hb => ⟨(hb.collapse_spec hg.1).1, hg.2.collapse hg.1 hb⟩) reached ⟨hg, h⟩).2

/-! ## Pruning once more -/

/-- Where every block is reached and none can be bypassed, pruning only renews the list of blocks. -/
theorem prune_eq_self {g : FlowGraph} (h : g.Linked)
    (hkept : ∀ b, b < g.size → (g.block b).removed = false → Reachable g.Edge entry b)
    (hstuck : ∀ b target, Reachable g.Edge entry b → (∃ p, p ∈ (g.block b).preds) →
      ¬ g.Bypassable b target) :
    g.prune = ({ g.forgetAnalyses with reachable := some g.liveIds }, ⟨0, 0, []⟩) := by
  have hreached : ∀ b, g.forgetAnalyses.reachedFromEntry.getD b false = true ↔ Reachable g.Edge entry b :=
    fun b => reachedFromEntry_iff (h.of_blocks_eq rfl)
  have hcollapsed : collapseAll g.forgetAnalyses.reachedFromEntry g.forgetAnalyses = (g.forgetAnalyses, 0) := by
    refine collapseAll_eq_self fun b _ => Option.eq_none_iff_forall_ne_some.mpr fun target hb => ?_
    obtain ⟨hb, -, hpreds, hbypass⟩ := bypass?_eq_some.mp hb
    refine hstuck b target ((hreached b).mp hb) hpreds ?_
    exact ⟨hbypass.unmarked, hbypass.isEmpty, hbypass.onlyTarget, hbypass.ne, hbypass.noShadow⟩
  have hdead : (g.forgetAnalyses.liveIds.filter fun b =>
      !g.forgetAnalyses.reachedFromEntry.getD b false) = [] := by
    rw [List.filter_eq_nil_iff]
    intro b hb
    obtain ⟨hlt, hb⟩ := mem_liveIds.mp hb
    rw [(hreached b).mpr (hkept b hlt hb)]
    exact Bool.false_ne_true
  have hregions : ∀ live, g.forgetAnalyses.deadCode [] live = [] := fun live => by simp [deadCode, pieces]
  unfold prune
  simp only [hcollapsed, hdead, hregions, List.length_nil, List.foldl_nil]
  rfl

/-- A block that pruning keeps stands as it stood when bypassing ended, except that it may have lost
predecessors. -/
theorem Intact.prune_kept {g : FlowGraph} (h : g.Intact) :
    ∃ c, c = (collapseAll g.forgetAnalyses.reachedFromEntry g.forgetAnalyses).1 ∧ Shrunk g c ∧
      ∀ b, Reachable g.prune.1.Edge entry b → (c.block b).removed = false ∧ c.jump b = g.prune.1.jump b ∧
        ∀ p ∈ (g.prune.1.block b).preds, p ∈ (c.block b).preds := by
  obtain ⟨hpruned, hshrunk⟩ := h.prune
  obtain ⟨c, dead, hc, hcollapsed, hdead, hprune⟩ := h.prune_eq
  obtain ⟨-, -, hjump, hremoved⟩ := foldl_detach hcollapsed.toLinked fun b hb => ((hdead b).mp hb).1.1
  have hjump' : ∀ d, g.prune.1.jump d = if d ∈ dead then .missing else c.jump d := by
    intro d
    rw [hprune]
    exact hjump d
  refine ⟨c, hc, hcollapsed, fun b hb => ⟨?_, ?_, fun p hp => ?_⟩⟩
  · have hremoved' : (g.prune.1.block b).removed = (decide (b ∈ dead) || (c.block b).removed) := by
      rw [hprune]
      exact hremoved b
    rw [(hpruned.kept_iff.mpr hb).2, eq_comm, Bool.or_eq_false_iff] at hremoved'
    exact hremoved'.2
  · have hstays : b ∉ dead := fun hd => ((hdead b).mp hd).2 (hshrunk.reachable_iff.mp hb).1
    rw [hjump', if_neg hstays]
  · rw [hpruned.mem_preds_iff, hjump'] at hp
    split at hp
    · exact nomatch hp
    · exact hcollapsed.mem_preds_iff.mpr hp

/-- What pruning leaves of a lowered graph cannot be bypassed. -/
theorem Lowered.not_bypassable {g : FlowGraph} (h : g.Lowered) {b target : BlockId}
    (hb : Reachable g.prune.1.Edge entry b) (hpreds : ∃ p, p ∈ (g.prune.1.block b).preds) :
    ¬ g.prune.1.Bypassable b target := by
  intro hbypass
  obtain ⟨-, hshrunk⟩ := h.toFresh.prune
  obtain ⟨c, hc, hcollapsed, hsame⟩ := h.toFresh.intact.prune_kept
  obtain ⟨hkept, hjump, hsubset⟩ := hsame b hb
  have hlinked : g.forgetAnalyses.Linked := h.toLinked.of_blocks_eq rfl
  have hunshadowed : c.Unshadowed := by
    have hstart : g.forgetAnalyses.Unshadowed := fun _ _ q he => (h.apart.landing he).noShadow q
    rw [hc]
    exact hstart.collapseAll hlinked _
  have hreach : Reachable c.Edge entry b :=
    hcollapsed.reachable_iff.mpr ⟨(hshrunk.reachable_iff.mp hb).1, hkept⟩
  obtain ⟨a, ha⟩ : ∃ a, c.Edge a b := by
    obtain ⟨l, hl⟩ := hreach
    cases hl with
    | start =>
      have hmarked := hbypass.unmarked
      rw [hshrunk.code.isEntry, h.marked] at hmarked
      exact nomatch hmarked
    | step _ he => exact ⟨_, he⟩
  -- the block could have been bypassed when bypassing ended
  have hstuck : c.Bypassable b target := by
    refine ⟨?_, ?_, ?_, hbypass.ne, fun p _ => hunshadowed a b p ha⟩
    · rw [hcollapsed.code.isEntry, ← hshrunk.code.isEntry]
      exact hbypass.unmarked
    · rw [hcollapsed.code.isEmpty, ← hshrunk.code.isEmpty]
      exact hbypass.isEmpty
    · rw [hjump]
      exact hbypass.onlyTarget
  have hnone := collapseAll_stuck g.forgetAnalyses.reachedFromEntry g.forgetAnalyses b
  rw [← hc] at hnone
  refine absurd (hnone (mem_liveIds.mpr ⟨hcollapsed.reachable_lt hreach, hkept⟩)) ?_
  obtain ⟨p, hp⟩ := hpreds
  rw [bypass?_eq_some.mpr ⟨(reachedFromEntry_iff hlinked).mpr (hshrunk.reachable_iff.mp hb).1, hkept,
    ⟨p, hsubset p hp⟩, hstuck⟩]
  exact Option.some_ne_none target

end FlowGraph

end SsaFlow
