-- SUMMARY: Pruning keeps exactly the reachable blocks that were not bypassed, with their code and dominance.
import SsaFlow.Proofs.Linked
import SsaFlow.Prune.Basic

/-!
# Pruning

Every bypassed block is a contraction of the graph (`Bypasses`), and the blocks removed at the end are
not reached by any walk. So a pruned graph has the walks of the graph that it was made from, without
the bypassed blocks, which are empty. `Shrunk` is what each step keeps.
-/

namespace SsaFlow

/-! ## Redirected jumps -/

namespace Jump

/-- A redirected jump goes to `dst` where it went to `src`. -/
theorem mem_targets_redirect {src dst b : BlockId} {j : Jump} :
    b ∈ (j.redirect src dst).targets ↔ b ∈ j.targets ∧ b ≠ src ∨ src ∈ j.targets ∧ b = dst := by
  have hswap : ∀ t, b = redirect.swap src dst t ↔ b = t ∧ b ≠ src ∨ src = t ∧ b = dst := by
    intro t
    rw [redirect.swap]
    by_cases ht : t = src
    · subst ht
      simp
    · rw [if_neg ht]
      grind
  rw [← goesTo_iff, ← goesTo_iff, ← goesTo_iff]
  cases j with
  | missing | ret _ _ => simp [redirect, goesTo]
  | goto t | transfer t _ => simp [redirect, goesTo, hswap]
  | branch c t e =>
    simp only [redirect, goesTo, Bool.or_eq_true, beq_iff_eq, hswap]
    grind
  | select v options d =>
    simp only [redirect, goesTo, Bool.or_eq_true, List.any_map, List.any_eq_true, Function.comp_apply,
      beq_iff_eq, hswap]
    grind

@[simp] theorem shadow?_redirect (src dst : BlockId) (j : Jump) :
    (j.redirect src dst).shadow? = j.shadow? := by
  cases j <;> rfl

@[simp] theorem operand?_redirect (src dst : BlockId) (j : Jump) :
    (j.redirect src dst).operand? = j.operand? := by
  cases j <;> rfl

@[simp] theorem isMissing_redirect (src dst : BlockId) (j : Jump) :
    (j.redirect src dst).isMissing = j.isMissing := by
  cases j <;> rfl

/-- Jumps that do not go to `src` stay as they are. -/
theorem redirect_of_not_mem {src : BlockId} (dst : BlockId) {j : Jump} (h : src ∉ j.targets) :
    j.redirect src dst = j := by
  have hswap : ∀ {t}, t ≠ src → redirect.swap src dst t = t := fun ht => if_neg ht
  rw [← goesTo_iff] at h
  cases j with
  | missing | ret _ _ => rfl
  | goto t | transfer t _ =>
    rw [redirect, hswap]
    rintro rfl
    simp [goesTo] at h
  | branch cond t e =>
    simp only [goesTo, Bool.or_eq_true, beq_iff_eq, not_or] at h
    rw [redirect, hswap (Ne.symm h.1), hswap (Ne.symm h.2)]
  | select value options default =>
    simp only [goesTo, Bool.or_eq_true, List.any_eq_true, beq_iff_eq, not_or, not_exists, not_and] at h
    have hoptions : options.map (fun o => (o.1, redirect.swap src dst o.2)) = options := by
      refine (List.map_congr_left fun o ho => ?_).trans (List.map_id options)
      rw [hswap (Ne.symm (h.1 o ho))]
      rfl
    rw [redirect, hswap (Ne.symm h.2), hoptions]

theorem lt_of_mem_successors_redirect {src dst n s : Nat} {j : Jump} (hdst : dst < n)
    (hj : ∀ s ∈ j.successors, s < n) (hs : s ∈ (j.redirect src dst).successors) : s < n := by
  rcases mem_successors.mp hs with ht | hshadow
  · rcases mem_targets_redirect.mp ht with ⟨ht, -⟩ | ⟨-, rfl⟩
    · exact hj s (mem_successors.mpr (.inl ht))
    · exact hdst
  · rw [shadow?_redirect] at hshadow
    exact hj s (mem_successors.mpr (.inr hshadow))

theorem targets_of_onlyTarget? {j : Jump} {t : BlockId} (h : j.onlyTarget? = some t) :
    j.targets = [t] := by
  cases j with
  | goto u | transfer u _ =>
    rw [onlyTarget?, Option.some.injEq] at h
    rw [targets, h]
  | missing | branch _ _ _ | ret _ _ | select _ _ _ => cases h

end Jump

namespace FlowGraph

/-! ## Graphs with the same code -/

/-- The second graph has the contents of the first; jumps and removals may differ. -/
structure SameCode (g g' : FlowGraph) : Prop where
  size : g'.size = g.size
  numVars : g'.numVars = g.numVars
  isEntry : ∀ b, (g'.block b).isEntry = (g.block b).isEntry
  phis : ∀ b, (g'.block b).phis = (g.block b).phis
  instrs : ∀ b, (g'.block b).instrs = (g.block b).instrs

namespace SameCode

variable {g g' g'' : FlowGraph}

theorem refl (g : FlowGraph) : SameCode g g := ⟨rfl, rfl, fun _ => rfl, fun _ => rfl, fun _ => rfl⟩

theorem trans (h : SameCode g g') (k : SameCode g' g'') : SameCode g g'' where
  size := k.size.trans h.size
  numVars := k.numVars.trans h.numVars
  isEntry b := (k.isEntry b).trans (h.isEntry b)
  phis b := (k.phis b).trans (h.phis b)
  instrs b := (k.instrs b).trans (h.instrs b)

theorem isEmpty (h : SameCode g g') (b : BlockId) : (g'.block b).isEmpty = (g.block b).isEmpty := by
  rw [Block.isEmpty, h.phis, h.instrs, Block.isEmpty]

theorem setJump (g : FlowGraph) (p : BlockId) (j : Jump) : SameCode g (g.setJump p j) := by
  refine ⟨size_setJump g p j, numVars_setJump g p j, ?_, ?_, ?_⟩ <;>
  · intro b
    obtain ⟨preds, hblock, -⟩ := g.block_setJump p j b
    rw [hblock]

theorem detach (g : FlowGraph) (b : BlockId) : SameCode g (g.detach b) := by
  refine (setJump g b .missing).trans ⟨size_modify _ _ _, rfl, ?_, ?_, ?_⟩ <;>
  · intro c
    rw [FlowGraph.detach, block_modify]
    split <;> rfl

end SameCode

theorem jump_detach (g : FlowGraph) (b c : BlockId) :
    (g.detach b).jump c = if b = c then .missing else g.jump c := by
  have hjump : (g.detach b).jump c = (g.setJump b .missing).jump c := by
    rw [detach, jump, block_modify]
    split <;> rfl
  rw [hjump, jump_setJump]
  by_cases hbc : b = c
  · by_cases hc : c < g.size
    · rw [if_pos ⟨hbc, hc⟩, if_pos hbc]
    · rw [if_neg (fun h => hc h.2), if_pos hbc, jump_of_size_le (Nat.le_of_not_lt hc)]
  · rw [if_neg (fun h => hbc h.1), if_neg hbc]

theorem removed_detach (g : FlowGraph) {b c : BlockId} (hb : b < g.size) :
    ((g.detach b).block c).removed = (decide (b = c) || (g.block c).removed) := by
  rw [detach, block_modify, size_setJump]
  by_cases hbc : b = c
  · subst hbc
    simp [hb]
  · simp [hbc, removed_setJump]

/-- Changing the jumps of several blocks, each once. -/
theorem foldl_setJump (f : Jump → Jump) {g : FlowGraph} (hg : g.Linked) {ps : List BlockId}
    (hnodup : ps.Nodup) (hps : ∀ p ∈ ps, p < g.size)
    (hf : ∀ p ∈ ps, ∀ s ∈ (f (g.jump p)).successors, s < g.size) :
    (ps.foldl (fun g p => g.setJump p (f (g.jump p))) g).Linked ∧
      SameCode g (ps.foldl (fun g p => g.setJump p (f (g.jump p))) g) ∧
      (∀ c, (ps.foldl (fun g p => g.setJump p (f (g.jump p))) g).jump c =
        if c ∈ ps then f (g.jump c) else g.jump c) ∧
      ∀ c, ((ps.foldl (fun g p => g.setJump p (f (g.jump p))) g).block c).removed =
        (g.block c).removed := by
  induction ps generalizing g with
  | nil => exact ⟨hg, .refl g, fun c => by simp, fun c => rfl⟩
  | cons p ps ih =>
    have hp : p < g.size := hps p List.mem_cons_self
    have hnot : p ∉ ps := (List.nodup_cons.mp hnodup).1
    have hother : ∀ c, c ≠ p → (g.setJump p (f (g.jump p))).jump c = g.jump c := by
      intro c hc
      rw [jump_setJump, if_neg (fun h => hc h.1.symm)]
    have hstep := hg.setJump hp (hf p List.mem_cons_self)
    obtain ⟨hlinked, hcode, hjump, hremoved⟩ := ih hstep (List.nodup_cons.mp hnodup).2
      (fun q hq => by
        rw [size_setJump]
        exact hps q (List.mem_cons_of_mem p hq))
      (fun q hq => by
        rw [size_setJump, hother q (fun h => hnot (h ▸ hq))]
        exact hf q (List.mem_cons_of_mem p hq))
    refine ⟨hlinked, (SameCode.setJump g p _).trans hcode, fun c => ?_, fun c => ?_⟩
    · rw [List.foldl_cons, hjump c]
      by_cases hcp : c = p
      · subst hcp
        rw [if_neg hnot, jump_setJump, if_pos ⟨rfl, hp⟩, if_pos List.mem_cons_self]
      · rw [hother c hcp]
        simp only [List.mem_cons, hcp, false_or]
    · rw [List.foldl_cons, hremoved c, removed_setJump]

/-- Removing several blocks. -/
theorem foldl_detach {g : FlowGraph} (hg : g.Linked) {bs : List BlockId}
    (hbs : ∀ b ∈ bs, b < g.size) :
    (bs.foldl detach g).Linked ∧ SameCode g (bs.foldl detach g) ∧
      (∀ c, (bs.foldl detach g).jump c = if c ∈ bs then .missing else g.jump c) ∧
      ∀ c, ((bs.foldl detach g).block c).removed = (decide (c ∈ bs) || (g.block c).removed) := by
  induction bs generalizing g with
  | nil => exact ⟨hg, .refl g, fun c => by simp, fun c => by simp⟩
  | cons b bs ih =>
    have hb : b < g.size := hbs b List.mem_cons_self
    have hsize := (SameCode.detach g b).size
    obtain ⟨hlinked, hcode, hjump, hremoved⟩ := ih (hg.detach hb) fun c hc => by
      rw [hsize]
      exact hbs c (List.mem_cons_of_mem b hc)
    refine ⟨hlinked, (SameCode.detach g b).trans hcode, fun c => ?_, fun c => ?_⟩
    · rw [List.foldl_cons, hjump c, jump_detach]
      by_cases hc : c ∈ bs
      · simp [hc]
      · by_cases hcb : c = b
        · simp [hcb]
        · simp [hc, hcb, Ne.symm hcb]
    · rw [List.foldl_cons, hremoved c, removed_detach g hb]
      by_cases hcb : c = b
      · simp [hcb]
      · simp [hcb, Ne.symm hcb]

/-! ## Bypassing one block -/

/-- What a block that can be bypassed is like. -/
structure Bypassable (g : FlowGraph) (b target : BlockId) : Prop where
  unmarked : (g.block b).isEntry = false
  isEmpty : (g.block b).isEmpty = true
  onlyTarget : (g.jump b).onlyTarget? = some target
  ne : target ≠ b
  noShadow : ∀ p ∈ (g.block b).preds, (g.jump p).shadow? ≠ some b

/-- When a block is bypassed: it is a reached block of the graph with a predecessor. -/
theorem bypass?_eq_some {g : FlowGraph} {reached : Array Bool} {b target : BlockId} :
    g.bypass? reached b = some target ↔
      reached.getD b false = true ∧ (g.block b).removed = false ∧ (∃ p, p ∈ (g.block b).preds) ∧
        g.Bypassable b target := by
  have hpreds : (g.block b).preds.isEmpty = false ↔ ∃ p, p ∈ (g.block b).preds := by
    rw [Std.ExtTreeSet.isEmpty_eq_false_iff, Std.ExtTreeSet.eq_empty_iff_forall_not_mem,
      Classical.not_forall_not]
  constructor
  · intro h
    rw [bypass?] at h
    split at h
    · next hcond =>
      simp only [Bool.and_eq_true, Bool.not_eq_true', hpreds] at hcond
      obtain ⟨⟨⟨⟨hreached, hkept⟩, hunmarked⟩, hempty⟩, hsome⟩ := hcond
      split at h
      · exact nomatch h
      · next t ht =>
        split at h
        · exact nomatch h
        · next hfree =>
          cases h
          simp only [Bool.or_eq_true, decide_eq_true_eq, List.any_eq_true, not_or, not_exists,
            not_and] at hfree
          refine ⟨hreached, hkept, hsome, hunmarked, hempty, ht, hfree.1, fun p hp hs => ?_⟩
          refine hfree.2 p (Std.ExtTreeSet.mem_toList.mpr hp) ?_
          rw [Jump.isShadow, hs, beq_self_eq_true]
    · exact nomatch h
  · rintro ⟨hreached, hkept, hsome, hb⟩
    have hfree : ¬ (target = b || (g.block b).preds.toList.any fun p => (g.jump p).isShadow b) = true := by
      simp only [Bool.or_eq_true, decide_eq_true_eq, List.any_eq_true, not_or, not_exists, not_and]
      refine ⟨hb.ne, fun p hp hs => ?_⟩
      exact hb.noShadow p (Std.ExtTreeSet.mem_toList.mp hp) (beq_iff_eq.mp hs)
    have honly : (g.block b).jump.onlyTarget? = some target := hb.onlyTarget
    unfold bypass?
    simp only [hreached, hkept, hb.unmarked, hb.isEmpty, hpreds.mpr hsome, Bool.not_false, Bool.and_self,
      if_true, honly]
    exact if_neg hfree

namespace Bypassable

variable {g : FlowGraph} {b target : BlockId}

theorem targets (h : g.Bypassable b target) : g.targets b = [target] :=
  Jump.targets_of_onlyTarget? h.onlyTarget

theorem edge (h : g.Bypassable b target) : g.Edge b target := by
  rw [Edge, h.targets]
  exact List.mem_singleton_self target

/-- The blocks that name a block that can be bypassed have it as a target. -/
theorem mem_preds_iff (h : g.Bypassable b target) (hg : g.Linked) {p : BlockId} :
    p ∈ (g.block b).preds ↔ g.Edge p b := by
  constructor
  · intro hp
    rcases Jump.mem_successors.mp (hg.mem_preds_iff.mp hp) with he | hshadow
    · exact he
    · exact absurd hshadow (h.noShadow p hp)
  · exact fun he => hg.mem_preds_iff.mpr (mem_successors_of_edge he)

/-- Bypassing changes jumps only: those to the block go to its target, and its own jump is gone. -/
theorem collapse_spec (h : g.Bypassable b target) (hg : g.Linked) :
    (g.collapse b target).Linked ∧ SameCode g (g.collapse b target) ∧
      (∀ c, (g.collapse b target).jump c = if c = b then .missing else
        if g.Edge c b then (g.jump c).redirect b target else g.jump c) ∧
      ∀ c, ((g.collapse b target).block c).removed = (decide (b = c) || (g.block c).removed) := by
  have hb : b < g.size := lt_of_mem_successors (mem_successors_of_edge h.edge)
  have hnodup : (g.block b).preds.toList.Nodup := (IdSet.pairwise_toList _).imp Nat.ne_of_lt
  have hmem : ∀ p, p ∈ (g.block b).preds.toList ↔ g.Edge p b := by
    intro p
    rw [Std.ExtTreeSet.mem_toList, h.mem_preds_iff hg]
  obtain ⟨hlinked, hcode, hjump, hremoved⟩ := foldl_setJump (Jump.redirect b target) hg hnodup
    (fun p hp => lt_of_mem_successors (mem_successors_of_edge ((hmem p).mp hp)))
    (fun p _ s hs => Jump.lt_of_mem_successors_redirect (hg.edge_lt h.edge) (fun _ => hg.succ_lt) hs)
  have hb' := hcode.size ▸ hb
  refine ⟨hlinked.detach hb', hcode.trans (.detach _ b), fun c => ?_, fun c => ?_⟩
  · rw [collapse, jump_detach, hjump c]
    simp only [hmem, eq_comm]
  · rw [collapse, removed_detach _ hb', hremoved c]

/-- After a bypass, the other jumps go to the target where they went to the bypassed block. -/
theorem jump_collapse (h : g.Bypassable b target) (hg : g.Linked) {c : BlockId} (hc : c ≠ b) :
    (g.collapse b target).jump c = (g.jump c).redirect b target := by
  obtain ⟨-, -, hjump, -⟩ := h.collapse_spec hg
  rw [hjump, if_neg hc]
  split
  · rfl
  · next he => exact (Jump.redirect_of_not_mem target he).symm

/-- Bypassing a block takes its node out of all walks. -/
theorem bypasses (h : g.Bypassable b target) (hg : g.Linked) :
    Bypasses g.Edge (g.collapse b target).Edge b target where
  ne := h.ne.symm
  out c := by
    rw [Edge, h.targets, List.mem_singleton]
  edge a c := by
    obtain ⟨-, -, hjump, -⟩ := h.collapse_spec hg
    rw [Edge, FlowGraph.targets, hjump a]
    by_cases hab : a = b
    · simp [hab, Jump.targets]
    · rw [if_neg hab]
      by_cases he : g.Edge a b
      · rw [if_pos he, Jump.mem_targets_redirect]
        constructor
        · rintro (⟨hc, hne⟩ | ⟨-, rfl⟩)
          · exact ⟨hab, hne, .inl hc⟩
          · exact ⟨hab, h.ne, .inr ⟨he, rfl⟩⟩
        · rintro ⟨-, hne, hc | ⟨-, rfl⟩⟩
          · exact .inl ⟨hc, hne⟩
          · exact .inr ⟨he, rfl⟩
      · rw [if_neg he]
        constructor
        · intro hc
          exact ⟨hab, fun hcb => he (hcb ▸ hc), .inl hc⟩
        · rintro ⟨-, -, hc | ⟨hc, -⟩⟩
          · exact hc
          · exact absurd hc he

end Bypassable

section Reached

variable {P : FlowGraph → Prop} {reached : Array Bool}
  (hstep : ∀ {g : FlowGraph} {b target : BlockId}, P g → reached.getD b false = true → g.Bypassable b target →
    P (g.collapse b target))
include hstep

/-- What every bypass of a reached block keeps, trying blocks in turn keeps. -/
theorem foldl_tryCollapse_reached (bs : List BlockId) {g : FlowGraph} (h : P g) (count : Nat) :
    P (bs.foldl (tryCollapse reached) (g, count)).1 := by
  induction bs generalizing g count with
  | nil => exact h
  | cons b bs ih =>
    rw [List.foldl_cons, tryCollapse]
    split
    · exact ih h count
    · next target htarget =>
      obtain ⟨hreached, -, -, hb⟩ := bypass?_eq_some.mp htarget
      exact ih (hstep h hreached hb) (count + 1)

/-- What every bypass of a reached block keeps, all of them keep. -/
theorem collapseAll_reached {g : FlowGraph} (h : P g) : P (collapseAll reached g).1 := by
  fun_induction FlowGraph.collapseAll reached g with
  | case1 g _ _ => exact foldl_tryCollapse_reached hstep g.liveIds h 0
  | case2 g _ _ _ ih => exact ih (foldl_tryCollapse_reached hstep g.liveIds h 0)

end Reached

section Induction

variable {P : FlowGraph → Prop}
  (hstep : ∀ {g : FlowGraph} {b target : BlockId}, P g → g.Bypassable b target → P (g.collapse b target))
  (reached : Array Bool)
include hstep

/-- What every bypass keeps, all of them keep. -/
theorem collapseAll_induction {g : FlowGraph} (h : P g) : P (collapseAll reached g).1 :=
  collapseAll_reached (fun hg _ hb => hstep hg hb) h

end Induction

/-! ## What pruning keeps -/

/-- A linked graph in which nothing leads to or from a removed block. -/
structure Intact (g : FlowGraph) : Prop extends g.Linked where
  marked : (g.block entry).isEntry = true
  entryKept : (g.block entry).removed = false
  gone : ∀ {b : BlockId}, (g.block b).removed = true → g.jump b = .missing
  present : ∀ {a b : BlockId}, g.Edge a b → (g.block b).removed = false

theorem Fresh.intact {g : FlowGraph} (h : g.Fresh) : g.Intact where
  toLinked := h.toLinked
  marked := h.marked
  entryKept := h.kept entry
  gone hb := absurd hb (by simp [h.kept])
  present _ := h.kept _

theorem Intact.kept_of_reachable {g : FlowGraph} (h : g.Intact) {b : BlockId}
    (hb : Reachable g.Edge entry b) : (g.block b).removed = false := by
  obtain ⟨l, hl⟩ := hb
  cases hl with
  | start => exact h.entryKept
  | step _ he => exact h.present he

/-- The graph `g` came from `start` by bypassing empty blocks and removing unreachable ones. -/
structure Shrunk (start g : FlowGraph) : Prop extends g.Linked where
  code : SameCode start g
  /-- Nothing leaves a removed block. -/
  gone : ∀ {b : BlockId}, (g.block b).removed = true → g.jump b = .missing
  /-- Blocks that stay read the same value at the end. -/
  operand : ∀ {b : BlockId}, (g.block b).removed = false →
    (g.jump b).operand? = (start.jump b).operand? ∧ (g.jump b).isMissing = (start.jump b).isMissing
  empty : ∀ {b : BlockId}, Reachable start.Edge entry b → (g.block b).removed = true →
    (start.block b).isEmpty = true
  reachable_iff : ∀ {b : BlockId}, Reachable g.Edge entry b ↔
    Reachable start.Edge entry b ∧ (g.block b).removed = false
  dominates_iff : ∀ {a b : BlockId}, (g.block a).removed = false → (g.block b).removed = false →
    (Dominates g.Edge entry a b ↔ Dominates start.Edge entry a b)

namespace Shrunk

variable {start g : FlowGraph}

theorem refl (h : start.Intact) : Shrunk start start where
  toLinked := h.toLinked
  code := .refl start
  gone := h.gone
  operand _ := ⟨rfl, rfl⟩
  empty hr hb := absurd hb (by simp [h.kept_of_reachable hr])
  reachable_iff := ⟨fun hb => ⟨hb, h.kept_of_reachable hb⟩, fun hb => hb.1⟩
  dominates_iff _ _ := Iff.rfl

theorem of_blocks_eq (h : Shrunk start g) {g' : FlowGraph} (hblocks : g'.blocks = g.blocks)
    (hvars : g'.numVars = g.numVars) : Shrunk start g' := by
  obtain ⟨blocks, numVars, _, _, _, _, _⟩ := g'
  cases hblocks
  cases hvars
  exact ⟨h.toLinked.of_blocks_eq rfl, ⟨h.code.size, h.code.numVars, h.code.isEntry, h.code.phis,
    h.code.instrs⟩, h.gone, h.operand, h.empty, h.reachable_iff, h.dominates_iff⟩

/-- A bypass keeps what can be reached and what dominates what, among the blocks that stay. -/
theorem collapse (h : Shrunk start g) (hmarked : (start.block entry).isEntry = true)
    {b target : BlockId} (hb : g.Bypassable b target) : Shrunk start (g.collapse b target) := by
  obtain ⟨hlinked, hcode, hjump, hremoved⟩ := hb.collapse_spec h.toLinked
  have hbypass := hb.bypasses h.toLinked
  -- the entry is marked and so never bypassed
  have hentry : entry ≠ b := by
    rintro rfl
    have := hb.unmarked
    rw [h.code.isEntry, hmarked] at this
    exact nomatch this
  have hstays : ∀ {c}, ((g.collapse b target).block c).removed = false →
      c ≠ b ∧ (g.block c).removed = false := by
    intro c hc
    rw [hremoved, Bool.or_eq_false_iff, decide_eq_false_iff_not] at hc
    exact ⟨Ne.symm hc.1, hc.2⟩
  refine ⟨hlinked, h.code.trans hcode, ?_, ?_, ?_, ?_, ?_⟩
  · intro c hc
    rw [hjump]
    split
    · rfl
    · next hcb =>
      rw [hremoved, Bool.or_eq_true, decide_eq_true_eq] at hc
      have hgone := h.gone (hc.resolve_left (Ne.symm hcb))
      split
      · rw [hgone]
        rfl
      · exact hgone
  · intro c hc
    obtain ⟨hcb, hkept⟩ := hstays hc
    rw [hjump, if_neg hcb, ← (h.operand hkept).1, ← (h.operand hkept).2]
    split
    · exact ⟨Jump.operand?_redirect _ _ _, Jump.isMissing_redirect _ _ _⟩
    · exact ⟨rfl, rfl⟩
  · intro c hreach hc
    rw [hremoved, Bool.or_eq_true, decide_eq_true_eq] at hc
    rcases hc with rfl | hc
    · rw [← h.code.isEmpty]
      exact hb.isEmpty
    · exact h.empty hreach hc
  · intro c
    rw [hbypass.reachable_iff hentry, h.reachable_iff, hremoved, Bool.or_eq_false_iff,
      decide_eq_false_iff_not]
    exact ⟨fun ⟨⟨hr, hk⟩, hne⟩ => ⟨hr, Ne.symm hne, hk⟩, fun ⟨hr, hne, hk⟩ => ⟨⟨hr, hk⟩, Ne.symm hne⟩⟩
  · intro a c ha hc
    obtain ⟨hab, ha⟩ := hstays ha
    obtain ⟨hcb, hc⟩ := hstays hc
    rw [hbypass.dominates_iff hentry hab hcb, h.dominates_iff ha hc]

theorem collapseAll (h : Shrunk start g) (hmarked : (start.block entry).isEntry = true)
    (reached : Array Bool) : Shrunk start (collapseAll reached g).1 :=
  collapseAll_induction (fun h hb => h.collapse hmarked hb) reached h

/-- Blocks that no walk reaches can be removed. -/
theorem foldl_detach (h : Shrunk start g) {dead : List BlockId}
    (hdead : ∀ b ∈ dead, b < g.size ∧ ¬ Reachable start.Edge entry b) :
    Shrunk start (dead.foldl detach g) := by
  obtain ⟨hlinked, hcode, hjump, hremoved⟩ :=
    FlowGraph.foldl_detach h.toLinked fun b hb => (hdead b hb).1
  have hle : ∀ a c, (dead.foldl detach g).Edge a c → g.Edge a c := by
    intro a c he
    rw [Edge, targets, hjump] at he
    split at he
    · exact absurd he (by simp [Jump.targets])
    · exact he
  -- edges out of reachable blocks stay
  have hreached : ∀ a c, Reachable g.Edge entry a → (g.Edge a c ↔ (dead.foldl detach g).Edge a c) := by
    intro a c ha
    have hnot : a ∉ dead := fun hd => (hdead a hd).2 (h.reachable_iff.mp ha).1
    rw [Edge, Edge, targets, targets, hjump, if_neg hnot]
  have hreached' : ∀ a c, Reachable (dead.foldl detach g).Edge entry a →
      ((dead.foldl detach g).Edge a c ↔ g.Edge a c) := by
    rintro a c ⟨l, hl⟩
    exact (hreached a c ⟨l, hl.mono hle⟩).symm
  have hstays : ∀ {c}, ((dead.foldl detach g).block c).removed = false →
      c ∉ dead ∧ (g.block c).removed = false := by
    intro c hc
    rw [hremoved, Bool.or_eq_false_iff, decide_eq_false_iff_not] at hc
    exact hc
  refine ⟨hlinked, h.code.trans hcode, ?_, ?_, ?_, ?_, ?_⟩
  · intro c hc
    rw [hjump]
    split
    · rfl
    · next hnot =>
      rw [hremoved, Bool.or_eq_true, decide_eq_true_eq] at hc
      exact h.gone (hc.resolve_left hnot)
  · intro c hc
    obtain ⟨hnot, hkept⟩ := hstays hc
    rw [hjump, if_neg hnot]
    exact h.operand hkept
  · intro c hreach hc
    rw [hremoved, Bool.or_eq_true, decide_eq_true_eq] at hc
    exact h.empty hreach (hc.resolve_left fun hd => (hdead c hd).2 hreach)
  · intro c
    rw [← reachable_congr hreached hreached', h.reachable_iff, hremoved, Bool.or_eq_false_iff,
      decide_eq_false_iff_not]
    constructor
    · rintro ⟨hr, hk⟩
      exact ⟨hr, fun hd => (hdead c hd).2 hr, hk⟩
    · rintro ⟨hr, -, hk⟩
      exact ⟨hr, hk⟩
  · intro a c ha hc
    rw [← dominates_congr hreached hreached']
    exact h.dominates_iff (hstays ha).2 (hstays hc).2

end Shrunk

/-! ## Pruned graphs -/

/-- The walk over live edges finds what can be reached. -/
theorem reachedFromEntry_iff {g : FlowGraph} (h : g.Linked) {b : BlockId} :
    g.reachedFromEntry.getD b false = true ↔ Reachable g.Edge entry b := by
  rw [Array.getD_eq_getD_getElem?, ← h.leads_iff]
  have hreached := @DepthFirst.reached_iff g.targets g.size [entry] b
  simp only [List.mem_singleton, exists_eq_left] at hreached
  rw [← hreached, ← reachedFromEntry]
  cases g.reachedFromEntry[b]? <;> simp

/-- A graph whose blocks are the ones that can be reached, which it lists. -/
structure Pruned (g : FlowGraph) : Prop extends g.Linked where
  kept_iff : ∀ {b : BlockId}, b < g.size ∧ (g.block b).removed = false ↔ Reachable g.Edge entry b
  listed : g.reachable = some g.liveIds

/-- Pruning bypasses blocks, and then it takes out what no walk reaches. -/
theorem Intact.prune_eq {g : FlowGraph} (h : g.Intact) :
    ∃ (c : FlowGraph) (dead : List BlockId),
      c = (FlowGraph.collapseAll g.forgetAnalyses.reachedFromEntry g.forgetAnalyses).1 ∧ Shrunk g c ∧
      (∀ b, b ∈ dead ↔ (b < c.size ∧ (c.block b).removed = false) ∧ ¬ Reachable g.Edge entry b) ∧
      g.prune.1 = { dead.foldl FlowGraph.detach c with
        reachable := some (dead.foldl FlowGraph.detach c).liveIds } := by
  have hreached : ∀ b, g.forgetAnalyses.reachedFromEntry.getD b false = true ↔
      Reachable g.Edge entry b := fun b => reachedFromEntry_iff (h.toLinked.of_blocks_eq rfl)
  have hstart : Shrunk g g.forgetAnalyses := (Shrunk.refl h).of_blocks_eq rfl rfl
  refine ⟨_, _, rfl, hstart.collapseAll h.marked _, fun b => ?_, rfl⟩
  rw [List.mem_filter, mem_liveIds, Bool.not_eq_true', ← hreached b, Bool.not_eq_true]

/-- Pruning leaves the blocks that can be reached, and shrinks the graph to them. -/
theorem Intact.prune {g : FlowGraph} (h : g.Intact) : g.prune.1.Pruned ∧ Shrunk g g.prune.1 := by
  obtain ⟨c, dead, -, hcollapsed, hdead, hprune⟩ := h.prune_eq
  have hshrunk := hcollapsed.foldl_detach fun b hb =>
    ⟨((hdead b).mp hb).1.1, ((hdead b).mp hb).2⟩
  rw [hprune]
  refine ⟨⟨hshrunk.toLinked.of_blocks_eq rfl, ?_, rfl⟩, hshrunk.of_blocks_eq rfl rfl⟩
  -- what is left was reached, or it would have been in the list of dead blocks
  intro b
  refine Iff.trans ?_ hshrunk.reachable_iff.symm
  constructor
  · rintro ⟨hlt, hkept⟩
    refine ⟨?_, hkept⟩
    refine Classical.byContradiction fun hnot => ?_
    obtain ⟨-, hcode, -, hremoved⟩ := foldl_detach hcollapsed.toLinked fun b hb => ((hdead b).mp hb).1.1
    have hsome := (hremoved b).symm.trans hkept
    rw [Bool.or_eq_false_iff, decide_eq_false_iff_not] at hsome
    exact hsome.1 ((hdead b).mpr ⟨⟨hcode.size ▸ hlt, hsome.2⟩, hnot⟩)
  · rintro ⟨hr, hkept⟩
    exact ⟨hshrunk.reachable_lt (hshrunk.reachable_iff.mpr ⟨hr, hkept⟩), hkept⟩

theorem Fresh.prune {g : FlowGraph} (h : g.Fresh) : g.prune.1.Pruned ∧ Shrunk g g.prune.1 :=
  h.intact.prune

/-- Where the blocks that stay are the ones that can be reached, edges lead from such blocks only. -/
theorem Shrunk.reachable_of_edge {start g : FlowGraph} (h : Shrunk start g)
    (hkept : ∀ {b : BlockId}, b < g.size ∧ (g.block b).removed = false ↔ Reachable g.Edge entry b)
    {a b : BlockId} (he : g.Edge a b) : Reachable g.Edge entry a := by
  refine hkept.mp ⟨lt_of_mem_successors (mem_successors_of_edge he), ?_⟩
  refine Bool.eq_false_iff.mpr fun hremoved => ?_
  rw [Edge, targets, h.gone hremoved] at he
  exact absurd he List.not_mem_nil

/-- In a pruned graph nothing leads to or from a block that pruning took out. -/
theorem Intact.intact_prune {g : FlowGraph} (h : g.Intact) : g.prune.1.Intact := by
  obtain ⟨hpruned, hshrunk⟩ := h.prune
  refine ⟨hpruned.toLinked, ?_, (hpruned.kept_iff.mpr .root).2, hshrunk.gone, fun he => ?_⟩
  · rw [hshrunk.code.isEntry]
    exact h.marked
  · exact (hpruned.kept_iff.mpr ((hshrunk.reachable_of_edge hpruned.kept_iff he).step he)).2

/-! ## What is known afterwards -/

/-- Neither an order nor dominance nor definition sites are known. -/
structure Unanalysed (g : FlowGraph) : Prop where
  depths : g.depths = none
  dominance : g.dominance = none
  definitionSites : g.definitionSites = none

namespace Unanalysed

variable {g : FlowGraph}

theorem modify (h : g.Unanalysed) (b : BlockId) (f : Block → Block) : (g.modify b f).Unanalysed :=
  ⟨h.depths, h.dominance, h.definitionSites⟩

theorem setJump (h : g.Unanalysed) (p : BlockId) (j : Jump) : (g.setJump p j).Unanalysed := by
  rw [FlowGraph.setJump, linkFrom, unlinkFrom]
  refine List.foldlRecOn _ _ ?_ fun _ ih s _ => ih.modify s _
  exact List.foldlRecOn _ _ (h.modify p _) fun _ ih s _ => ih.modify s _

theorem detach (h : g.Unanalysed) (b : BlockId) : (g.detach b).Unanalysed :=
  (h.setJump b .missing).modify b _

theorem collapse (h : g.Unanalysed) (b target : BlockId) : (g.collapse b target).Unanalysed := by
  rw [FlowGraph.collapse]
  exact (List.foldlRecOn (motive := Unanalysed) _ _ h fun _ ih p _ => ih.setJump p _).detach b

theorem foldl_detach (h : g.Unanalysed) (dead : List BlockId) : (dead.foldl FlowGraph.detach g).Unanalysed :=
  List.foldlRecOn _ _ h fun _ ih b _ => ih.detach b

end Unanalysed

/-- Pruning forgets what was known about the edges. -/
theorem unanalysed_prune (g : FlowGraph) : g.prune.1.Unanalysed := by
  have hcollapsed : (collapseAll g.forgetAnalyses.reachedFromEntry g.forgetAnalyses).1.Unanalysed :=
    collapseAll_induction (fun h _ => h.collapse _ _) _ ⟨rfl, rfl, rfl⟩
  obtain ⟨hdepths, hdominance, hsites⟩ := hcollapsed.foldl_detach
    ((collapseAll g.forgetAnalyses.reachedFromEntry g.forgetAnalyses).1.liveIds.filter fun b =>
      !g.forgetAnalyses.reachedFromEntry.getD b false)
  exact ⟨hdepths, hdominance, hsites⟩

end FlowGraph

end SsaFlow
