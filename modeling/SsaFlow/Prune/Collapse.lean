-- SUMMARY: Bypassing empty blocks that always continue to one other block.
import SsaFlow.Graph.Edge

/-!
# Collapsing empty blocks

An empty block that always continues to one other block can be bypassed: its predecessors jump to the
target directly, and the block is removed. Blocks are tried in ascending order, and the rounds go on as
long as a round bypasses a block. They come to an end because every bypass takes a block out of the graph.
-/

namespace SsaFlow.FlowGraph

/-- Where a block can be bypassed to. It has to be a reached, empty block other than the entry that
always continues to some other block, and it must not take in the code after an always-taken jump. -/
def bypass? (g : FlowGraph) (reached : Array Bool) (b : BlockId) : Option BlockId :=
  let blk := g.block b
  if reached.getD b false && !blk.removed && !blk.isEntry && blk.isEmpty && !blk.preds.isEmpty then
    match blk.jump.onlyTarget? with
    | none => none
    | some target =>
      if target = b || blk.preds.toList.any fun p => (g.jump p).isShadow b then none else some target
  else
    none

/-- Sends the predecessors of a block to `target` and removes the block. -/
def collapse (g : FlowGraph) (b target : BlockId) : FlowGraph :=
  let g' := (g.block b).preds.toList.foldl (fun g p => g.setJump p ((g.jump p).redirect b target)) g
  g'.detach b

/-- Bypasses a block if that is possible, and counts it. -/
def tryCollapse (reached : Array Bool) : FlowGraph × Nat → BlockId → FlowGraph × Nat
  | (g, count), b =>
    match g.bypass? reached b with
    | none => (g, count)
    | some target => (g.collapse b target, count + 1)

/-- Tries every block once. -/
def collapseRound (reached : Array Bool) (g : FlowGraph) : FlowGraph × Nat :=
  g.liveIds.foldl (tryCollapse reached) (g, 0)

/-! ## Rounds come to an end -/

/-- Only a block of the graph can be bypassed. -/
theorem lt_of_bypass? {g : FlowGraph} {reached : Array Bool} {b target : BlockId}
    (h : g.bypass? reached b = some target) : b < g.size ∧ (g.block b).removed = false := by
  unfold bypass? at h
  dsimp only at h
  split at h
  · next hcan =>
    simp only [Bool.and_eq_true, Bool.not_eq_true'] at hcan
    refine ⟨Nat.lt_of_not_le fun hle => ?_, hcan.1.1.1.2⟩
    rw [block_of_size_le hle] at hcan
    exact absurd hcan.2 (by decide)
  · cases h

theorem liveIds_setJump (g : FlowGraph) (p : BlockId) (j : Jump) : (g.setJump p j).liveIds = g.liveIds := by
  unfold liveIds ids
  rw [size_setJump]
  refine List.filter_congr fun c _ => ?_
  obtain ⟨preds, hblock, -⟩ := block_setJump g p j c
  rw [hblock]

/-- A bypass takes out one block. -/
theorem liveIds_collapse (g : FlowGraph) (b target : BlockId) :
    (g.collapse b target).liveIds = g.liveIds.filter fun c => !decide (b = c) := by
  have hredirected : ∀ (ps : List BlockId) (g' : FlowGraph), (ps.foldl (fun g p =>
      g.setJump p ((g.jump p).redirect b target)) g').liveIds = g'.liveIds := by
    intro ps
    induction ps with
    | nil => exact fun _ => rfl
    | cons p ps ih => exact fun g' => (ih _).trans (liveIds_setJump _ _ _)
  unfold collapse detach
  dsimp only
  rw [← hredirected (g.block b).preds.toList g]
  generalize (g.block b).preds.toList.foldl (fun g p => g.setJump p ((g.jump p).redirect b target)) g = g'
  rw [← liveIds_setJump g' b .missing]
  generalize g'.setJump b .missing = g''
  unfold liveIds ids
  rw [size_modify, List.filter_filter]
  refine List.filter_congr fun c hc => ?_
  rw [block_modify]
  by_cases hbc : b = c
  · simp [hbc, List.mem_range.mp hc]
  · simp [hbc]

/-- A bypass takes one block out. -/
theorem length_liveIds_collapse {g : FlowGraph} {reached : Array Bool} {b target : BlockId}
    (h : g.bypass? reached b = some target) :
    (g.collapse b target).liveIds.length + 1 = g.liveIds.length := by
  have hmem : b ∈ g.liveIds := mem_liveIds.mpr (lt_of_bypass? h)
  have hnodup : g.liveIds.Nodup := List.nodup_range.filter _
  have herase : (g.liveIds.filter fun c => !decide (b = c)) = g.liveIds.erase b := by
    rw [hnodup.erase_eq_filter]
    refine List.filter_congr fun c _ => ?_
    by_cases hbc : b = c <;> simp [hbc, bne, Ne.symm]
  rw [liveIds_collapse, herase, List.length_erase_of_mem hmem]
  exact Nat.sub_add_cancel (List.length_pos_of_mem hmem)

/-- The count goes up as the blocks of the graph go down. -/
theorem length_liveIds_foldl_tryCollapse (reached : Array Bool) (bs : List BlockId) (g : FlowGraph) (count : Nat) :
    (bs.foldl (tryCollapse reached) (g, count)).1.liveIds.length +
        (bs.foldl (tryCollapse reached) (g, count)).2 = g.liveIds.length + count := by
  induction bs generalizing g count with
  | nil => rfl
  | cons b bs ih =>
    rw [List.foldl_cons, tryCollapse]
    split
    · exact ih g count
    · next target htarget =>
      rw [ih, ← length_liveIds_collapse htarget]
      omega

theorem length_liveIds_collapseRound (reached : Array Bool) (g : FlowGraph) :
    (collapseRound reached g).1.liveIds.length + (collapseRound reached g).2 = g.liveIds.length :=
  length_liveIds_foldl_tryCollapse reached g.liveIds g 0

/-- Bypasses blocks round by round until a round bypasses none, and counts them. -/
def collapseAll (reached : Array Bool) (g : FlowGraph) : FlowGraph × Nat :=
  let round := collapseRound reached g
  if round.2 = 0 then round
  else
    let rest := collapseAll reached round.1
    (rest.1, round.2 + rest.2)
termination_by g.liveIds.length
decreasing_by
  have hcount : round.1.liveIds.length + round.2 = g.liveIds.length := length_liveIds_collapseRound reached g
  change round.1.liveIds.length < g.liveIds.length
  omega

/-- The number of bypassed blocks is the number of blocks that the graph has lost. -/
theorem length_liveIds_collapseAll (reached : Array Bool) (g : FlowGraph) :
    (collapseAll reached g).1.liveIds.length + (collapseAll reached g).2 = g.liveIds.length := by
  fun_induction collapseAll reached g with
  | case1 g round _ => exact length_liveIds_collapseRound reached g
  | case2 g round _ rest ih =>
    have hcount : round.1.liveIds.length + round.2 = g.liveIds.length := length_liveIds_collapseRound reached g
    have hrest : rest.1.liveIds.length + rest.2 = round.1.liveIds.length := ih
    dsimp only
    omega

end SsaFlow.FlowGraph
