-- SUMMARY: What lowering does to the graph, step by step.
import Mathlib
import SsaFlow.Lowering.Statement

/-!
# Steps of lowering

Whatever is lowered, the graph grows by a few kinds of steps only: a block is made, an open block gets its
jump, an expression is computed at the end of a block, an instruction that needs no temporary is added,
the begin of a statement is noted, and labels are kept track of. What a jump or such an instruction reads
has been computed in the same block (`Computed`). Code that is there stays where it is, and so does a jump.
-/

namespace SsaFlow

theorem FlowGraph.jump_modify (g : FlowGraph) (b c : BlockId) {f : Block → Block}
    (hf : ∀ blk, (f blk).jump = blk.jump) : (g.modify b f).jump c = g.jump c := by
  rw [jump, block_modify]
  split
  · exact hf _
  · rfl

namespace LoweringState

variable {s s' : LoweringState} {b : BlockId} {op : Operand}

/-- The operand is the value of an expression whose code stands in the block. -/
def Computed (s : LoweringState) (b : BlockId) (op : Operand) : Prop :=
  ∃ e numVars temps r, Expr.flatten numVars temps e = .ok r ∧ r.value = op ∧
    r.instrs.toList <:+: (s.graph.block b).instrs.toList

/-- One step of lowering. -/
inductive Step : LoweringState → LoweringState → Prop
  | addBlock {s : LoweringState} : Step s { s with graph := s.graph.addBlock }
  | close {s : LoweringState} {b : BlockId} {j : Jump} (isOpen : (s.graph.jump b).isMissing = true)
      (operand : ∀ op, j.operand? = some op → s.Computed b op) :
      Step s { s with graph := s.graph.setJump b j }
  | compute {s : LoweringState} {b : BlockId} {e : Expr} {r : Flattened Operand}
      (lt : b < s.graph.size) (flatten : e.flatten s.graph.numVars s.temps = .ok r) :
      Step s { s with
        graph := s.graph.modify b fun blk => { blk with instrs := blk.instrs ++ r.instrs }
        temps := r.temps }
  | write {s : LoweringState} {b : BlockId} {i : Instr} (noTemp : i.temp? = none)
      (operands : ∀ op ∈ i.operands, s.Computed b op) :
      Step s { s with graph := s.graph.modify b fun blk => { blk with instrs := blk.instrs ++ #[i] } }
  | note {s : LoweringState} {b : BlockId} {span : Span} :
      Step s { s with graph := s.graph.modify b fun blk => { blk with spans := blk.spans.push span } }
  | relabel {s : LoweringState} {labels : List (Name × BlockId)} {defined : List Name} :
      Step s { s with labels := labels, defined := defined }

/-- Any number of steps of lowering. -/
abbrev Steps : LoweringState → LoweringState → Prop := Relation.ReflTransGen Step

/-! ## Code stays where it is -/

theorem instrs_setJump (g : FlowGraph) (b c : BlockId) (j : Jump) :
    ((g.setJump b j).block c).instrs = (g.block c).instrs := by
  obtain ⟨preds, hblock, -⟩ := g.block_setJump b j c
  rw [hblock]

theorem instrs_append (g : FlowGraph) (b c : BlockId) (instrs : Array Instr) :
    ((g.modify b fun blk => { blk with instrs := blk.instrs ++ instrs }).block c).instrs.toList =
      (g.block c).instrs.toList ++ if b = c ∧ c < g.size then instrs.toList else [] := by
  rw [FlowGraph.block_modify]
  split
  · exact Array.toList_append
  · exact (List.append_nil _).symm

theorem instrs_note (g : FlowGraph) (b c : BlockId) (span : Span) :
    ((g.modify b fun blk => { blk with spans := blk.spans.push span }).block c).instrs =
      (g.block c).instrs := by
  rw [FlowGraph.block_modify]
  split <;> rfl

/-- No step takes an instruction back. -/
theorem Step.code_prefix (h : Step s s') (b : BlockId) :
    (s.graph.block b).instrs.toList <+: (s'.graph.block b).instrs.toList := by
  cases h with
  | addBlock => exact (s.graph.block_addBlock b).symm ▸ List.prefix_rfl
  | close => exact (instrs_setJump s.graph _ b _).symm ▸ List.prefix_rfl
  | compute | write =>
    rw [instrs_append]
    exact List.prefix_append _ _
  | note => exact (instrs_note s.graph _ b _).symm ▸ List.prefix_rfl
  | relabel => exact List.prefix_rfl

theorem Steps.code_prefix (h : Steps s s') (b : BlockId) :
    (s.graph.block b).instrs.toList <+: (s'.graph.block b).instrs.toList := by
  induction h with
  | refl => exact List.prefix_rfl
  | tail _ hstep ih => exact ih.trans (hstep.code_prefix b)

/-- What was computed in a block stays available there. -/
theorem Computed.mono (h : s.Computed b op) (hsteps : Steps s s') : s'.Computed b op := by
  obtain ⟨e, numVars, temps, r, hflatten, hvalue, hcode⟩ := h
  exact ⟨e, numVars, temps, r, hflatten, hvalue, hcode.trans (hsteps.code_prefix b).isInfix⟩

/-- A closed block keeps its jump. -/
theorem Step.jump_of_closed (h : Step s s') (hb : (s.graph.jump b).isMissing = false) :
    s'.graph.jump b = s.graph.jump b := by
  cases h with
  | addBlock => exact s.graph.jump_addBlock b
  | close isOpen _ =>
    refine (FlowGraph.jump_setJump _ _ _ _).trans (if_neg fun hc => ?_)
    rw [← hc.1, isOpen] at hb
    exact nomatch hb
  | compute | write | note => exact s.graph.jump_modify _ b fun _ => rfl
  | relabel => rfl

/-- A jump stays once it is set. -/
theorem Steps.jump_of_closed (h : Steps s s') (hb : (s.graph.jump b).isMissing = false) :
    s'.graph.jump b = s.graph.jump b := by
  induction h with
  | refl => rfl
  | tail _ hstep ih => exact (hstep.jump_of_closed (ih.symm ▸ hb)).trans ih

end LoweringState

end SsaFlow
