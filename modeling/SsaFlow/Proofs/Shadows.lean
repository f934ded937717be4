-- SUMMARY: Shadows stay away from live code, so that the slots of phis are the predecessors of their block.
import SsaFlow.Proofs.Outcome
import SsaFlow.Proofs.Settled

/-!
# Shadows and live code

The shadow of a jump counts the jump's block among its predecessors although control never goes there. In a
lowered graph this concerns dead blocks only: the entry is no shadow, and no jump goes to one. Pruning makes
no new shadows, so what is left of the predecessors of a reachable block are the reachable blocks that go to
it, and a phi has a slot for each of them.
-/

namespace SsaFlow

namespace FlowGraph

variable {g : FlowGraph} {p b : BlockId}

/-! ## Lowered graphs -/

theorem Lowered.not_mem_preds_entry (h : g.Lowered) (p : BlockId) : p ∉ (g.block entry).preds := by
  intro hp
  rcases Jump.mem_successors.mp (h.mem_preds_iff.mp hp) with he | hs
  · exact (h.apart.landing he).ne_entry rfl
  · exact h.apart.entry p hs

/-- What can be reached is no shadow. -/
theorem Lowered.shadow?_ne_of_reachable (h : g.Lowered) (hb : Reachable g.Edge entry b) (p : BlockId) :
    (g.jump p).shadow? ≠ some b := by
  obtain ⟨l, hl⟩ := hb
  cases hl with
  | start => exact h.apart.entry p
  | step _ he => exact (h.apart.landing he).noShadow p

/-! ## Pruning -/

theorem Bypassable.shadow?_of_collapse {target q t : BlockId} (h : g.Bypassable b target) (hg : g.Linked)
    (hs : ((g.collapse b target).jump q).shadow? = some t) : (g.jump q).shadow? = some t := by
  obtain ⟨-, -, hjump, -⟩ := h.collapse_spec hg
  by_cases hq : q = b
  · rw [hjump, if_pos hq] at hs
    exact nomatch hs
  · rwa [h.jump_collapse hg hq, Jump.shadow?_redirect] at hs

/-- Bypassing makes no shadows. -/
theorem Linked.shadow?_of_collapseAll (h : g.Linked) {reached : Array Bool} {q t : BlockId}
    (hs : ((collapseAll reached g).1.jump q).shadow? = some t) : (g.jump q).shadow? = some t := by
  have hkeep : (collapseAll reached g).1.Linked ∧
      ∀ q t, ((collapseAll reached g).1.jump q).shadow? = some t → (g.jump q).shadow? = some t := by
    refine collapseAll_induction
      (P := fun c => c.Linked ∧ ∀ q t, (c.jump q).shadow? = some t → (g.jump q).shadow? = some t)
      (fun hc hb => ⟨(hb.collapse_spec hc.1).1, fun q t hs => ?_⟩) reached ⟨h, fun _ _ hs => hs⟩
    exact hc.2 q t (hb.shadow?_of_collapse hc.1 hs)
  exact hkeep.2 q t hs

/-- Pruning makes no shadows. -/
theorem Intact.shadow?_of_prune (h : g.Intact) {q t : BlockId}
    (hs : (g.prune.1.jump q).shadow? = some t) : (g.jump q).shadow? = some t := by
  obtain ⟨c, dead, hc, hcollapsed, hdead, hprune⟩ := h.prune_eq
  obtain ⟨-, -, hjump, -⟩ := foldl_detach hcollapsed.toLinked fun b hb => ((hdead b).mp hb).1.1
  have hjump' : g.prune.1.jump q = if q ∈ dead then .missing else c.jump q := by
    rw [hprune]
    exact hjump q
  rw [hjump'] at hs
  split at hs
  · exact nomatch hs
  · rw [hc] at hs
    exact (h.toLinked.of_blocks_eq rfl : g.forgetAnalyses.Linked).shadow?_of_collapseAll hs

/-- After pruning, the predecessors of a reachable block are reachable and go to it. -/
theorem Lowered.edge_of_mem_preds_prune (h : g.Lowered) (hb : Reachable g.prune.1.Edge entry b)
    (hp : p ∈ (g.prune.1.block b).preds) : Reachable g.prune.1.Edge entry p ∧ g.prune.1.Edge p b := by
  obtain ⟨hpruned, hshrunk⟩ := h.toFresh.prune
  have he : g.prune.1.Edge p b := by
    refine (Jump.mem_successors.mp (hpruned.mem_preds_iff.mp hp)).resolve_right fun hs => ?_
    have hreach : Reachable g.Edge entry b := (hshrunk.reachable_iff.mp hb).1
    exact h.shadow?_ne_of_reachable hreach p (h.toFresh.intact.shadow?_of_prune hs)
  exact ⟨hshrunk.reachable_of_edge hpruned.kept_iff he, he⟩

/-! ## Phis -/

theorem PhiAt.reachable {v : VarId} (h : g.PhiAt v b) : Reachable g.Edge entry b := by
  obtain ⟨-, home, -, hmerges⟩ := h
  obtain ⟨x, a, ha, he, -⟩ := hmerges.exists_inFrontier
  exact ha.step he

/-- Where all predecessors of a block are reachable and go to it, none of them is left out. -/
theorem Ordered.livePredecessors_eq {order : List BlockId} (h : g.Ordered order)
    (hpreds : ∀ p ∈ (g.block b).preds, Reachable g.Edge entry p ∧ g.Edge p b) :
    g.livePredecessors b = (g.block b).preds.toList := by
  refine List.filter_eq_self.mpr fun p hp => ?_
  obtain ⟨hreach, he⟩ := hpreds p (Std.ExtTreeSet.mem_toList.mp hp)
  rw [(h.kept_iff.mpr hreach).2, Jump.goesTo_iff.mpr he]
  rfl

/-- Phis are placed in reachable blocks, with a slot for each predecessor. -/
theorem Lowered.phi_preds (h : g.Lowered) {q : FlowGraph} {order : List BlockId} {tree : DominatorTree}
    (hq : Prepared g q order tree) {φ : Phi} (hφ : φ ∈ (q.block b).phis) :
    φ.preds = (q.block b).preds.toList := by
  have hreach : Reachable q.Edge entry b := (hq.phi_iff.mp ⟨φ, hφ, rfl⟩).reachable
  rw [hq.slots hφ]
  refine hq.toOrdered.livePredecessors_eq fun p hp => ?_
  rw [hq.mem_preds_iff, hq.jump, ← h.toFresh.prune.1.mem_preds_iff] at hp
  rw [hq.edge] at hreach ⊢
  exact h.edge_of_mem_preds_prune hreach hp

end FlowGraph

open FlowGraph

/-- Shadows never touch live code. In a lowered graph the entry has no predecessor and no jump goes to a
shadow; once the graph is pruned, the predecessors of a reachable block are reachable and go to it; and
wherever phis can be placed then, the slots of each of them are all the predecessors of its block. -/
theorem Function.lower_shadows_apart {fn : Function} {g : FlowGraph} (hg : fn.lower = .ok g) :
    (∀ p, p ∉ (g.block entry).preds) ∧
      (∀ p q b, (g.jump p).shadow? = some b → ¬ g.Edge q b) ∧
      (∀ b, Reachable g.prune.1.Edge entry b → ∀ p ∈ (g.prune.1.block b).preds,
        Reachable g.prune.1.Edge entry p ∧ g.prune.1.Edge p b) ∧
      ∃ ordered analysed, g.prune.1.withOrder = .ok ordered ∧ ordered.withDominance = .ok analysed ∧
        ∀ placed count, analysed.withPhis = .ok (placed, count) →
          ∀ b, ∀ φ ∈ (placed.block b).phis, φ.preds = (placed.block b).preds.toList := by
  have h : g.Lowered := Function.lowered hg
  refine ⟨h.not_mem_preds_entry, fun p q b hs he => (h.apart.landing he).noShadow p hs,
    fun b hb p hp => h.edge_of_mem_preds_prune hb hp, ?_⟩
  obtain ⟨ordered, analysed, hordered, hdominance, hphis⟩ := h.prepare
  refine ⟨ordered, analysed, hordered, hdominance, fun placed count hplaced b φ hφ => ?_⟩
  rcases hphis with ⟨v, herror, -⟩ | ⟨-, q, n, order, tree, hok, hq⟩
  · exact nomatch herror.symm.trans hplaced
  · cases hok.symm.trans hplaced
    exact h.phi_preds hq hφ

/-- The function `while (a) { a = 1; continue; a = 2; }`. -/
def continueEarly : Function :=
  let span : Span := ⟨0, 1⟩
  { name := ⟨0⟩, params := [0], numVars := 1, body := 4, span := span
    exprs := #[⟨span, .var 0⟩, ⟨span, .int 1⟩, ⟨span, .assign 0 none 1⟩, ⟨span, .int 2⟩,
      ⟨span, .assign 0 none 3⟩]
    stmts := #[⟨span, .expr 2⟩, ⟨span, .continueLoop⟩, ⟨span, .expr 4⟩, ⟨span, .block [0, 1, 2]⟩,
      ⟨span, .whileLoop 0 3⟩] }

/-- The code after `continue` is in the shadow 4, which is a predecessor of the loop's header 1 until the
graph is pruned. The phi of the header has slots for the entry and for the loop's body. -/
theorem lower_shadows_apart_continueEarly :
    ∃ g ordered analysed placed count, continueEarly.lower = .ok g ∧
      ((g.jump 2).shadow? = some 4 ∧ ¬ g.Edge 2 4) ∧ (g.block 1).preds.toList = [0, 2, 4] ∧
      (Reachable g.prune.1.Edge entry 1 ∧ ∀ p ∈ (g.prune.1.block 1).preds, g.prune.1.Edge p 1) ∧
      g.prune.1.withOrder = .ok ordered ∧ ordered.withDominance = .ok analysed ∧
      analysed.withPhis = .ok (placed, count) ∧ (placed.block 1).preds.toList = [0, 2] ∧
      ∃ φ ∈ (placed.block 1).phis, φ.preds = [0, 2] := by
  have h : ∃ g, continueEarly.lower = .ok g ∧ (g.jump 2).shadow? = some 4 ∧
      (g.block 1).preds.toList = [0, 2, 4] ∧ g.prune.1.targets entry = [1] ∧
      (g.prune.1.withOrder >>= withDominance >>= withPhis).toOption.map
        (fun r => ((r.1.block 1).preds.toList, (r.1.block 1).phis.length)) = some ([0, 2], 1) := by
    refine Except.exists_ok_of_decide ?_
    cbv
  obtain ⟨g, hg, hshadow, hpreds, hentry, hrun⟩ := h
  obtain ⟨-, hnot, hlive, ordered, analysed, hordered, hdominance, hslots⟩ := Function.lower_shadows_apart hg
  have hheader : Reachable g.prune.1.Edge entry 1 := Reachable.root.step (by
    rw [Edge, hentry]
    exact List.mem_singleton_self 1)
  simp only [hordered, bind, Except.bind, hdominance] at hrun
  obtain ⟨⟨placed, count⟩, hplaced⟩ : ∃ r, analysed.withPhis = .ok r := by
    cases hphis : analysed.withPhis with
    | error e =>
      rw [hphis] at hrun
      cases hrun
    | ok r => exact ⟨r, rfl⟩
  rw [hplaced] at hrun
  obtain ⟨hpreds', hphis⟩ := Prod.mk.inj (Option.some.inj hrun)
  refine ⟨g, ordered, analysed, placed, count, hg, ⟨hshadow, hnot 2 2 4 hshadow⟩, hpreds,
    ⟨hheader, fun p hp => (hlive 1 hheader p hp).2⟩, hordered, hdominance, hplaced, hpreds', ?_⟩
  obtain ⟨φ, hφ⟩ := List.length_eq_one_iff.mp hphis
  have hmem : φ ∈ (placed.block 1).phis := hφ ▸ List.mem_singleton_self φ
  exact ⟨φ, hmem, (hslots placed count hplaced 1 φ hmem).trans hpreds'⟩

end SsaFlow
