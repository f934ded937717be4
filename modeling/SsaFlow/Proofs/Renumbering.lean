-- SUMMARY: Renaming a graph in SSA form gives every use and every definition the name that it has.
import SsaFlow.Proofs.SsaForm

/-!
# Renaming a renamed graph

Names keep the variables of the places they are given to, so naming code twice is the same as naming it
once. The definitions of a graph in SSA form stand where they stood before, in the same order, so the graph
is ready to be renamed again and every place gets its name back.
-/

namespace SsaFlow

open FlowGraph

/-! ## Named code -/

section NamedTwice

variable {N : Naming} (huse : ∀ v s, (N.use v s).var = v) (hwrite : ∀ v s, (N.write v s).var = v)

section Uses

include huse

theorem Operand.named_named (s : Site) (op : Operand) : (op.named N s).named N s = op.named N s := by
  cases op with
  | const | temp => rfl
  | var x => simp only [Operand.named, Operand.mapVar, huse]

theorem Operand.varId?_named (s : Site) (op : Operand) : (op.named N s).varId? = op.varId? := by
  cases op with
  | const | temp => rfl
  | var x => exact congrArg some (huse x.var s)

theorem Jump.named_named (s : Site) (j : Jump) : (j.named N s).named N s = j.named N s := by
  cases j with
  | missing | goto | transfer => rfl
  | branch | select => simp only [Jump.named, Jump.mapOperand, Operand.named_named huse]
  | ret shadow value => cases value <;> simp [Jump.named, Jump.mapOperand, Operand.named_named huse]

theorem Jump.reads_named (s : Site) (j : Jump) : (j.named N s).reads = j.reads := by
  cases j with
  | missing | goto | transfer => rfl
  | branch cond | select cond => simp [Jump.reads, Jump.named, Jump.mapOperand, Jump.operand?,
      Operand.varId?_named huse]
  | ret shadow value =>
    cases value <;> simp [Jump.reads, Jump.named, Jump.mapOperand, Jump.operand?, Operand.varId?_named huse]

theorem Instr.reads_named (s : Site) (i : Instr) : (i.named N s).reads = i.reads := by
  simp only [Instr.reads, Instr.operands_named, List.filterMap_map, Function.comp_def,
    Operand.varId?_named huse]

end Uses

include hwrite in
theorem Instr.subject?_named (s : Site) (i : Instr) : (i.named N s).subject? = i.subject? := by
  cases i with
  | param dst | assign dst => exact congrArg some (hwrite dst.var s)
  | declare | copy | unary | binary | call => rfl

include hwrite in
/-- Definition sites do not depend on names. -/
theorem DefinitionSites.record_named (d : DefinitionSites) (b : BlockId) (s : Site) (i : Instr) :
    d.record b (i.named N s) = d.record b i := by
  cases i with
  | param dst | assign dst =>
    simp only [Instr.named, Instr.mapOperands, Instr.mapDefined, DefinitionSites.record, hwrite]
  | declare | copy | unary | binary | call => rfl

theorem DefinitionSites.recordAll_mapIdx {b : BlockId} {f : Nat → Instr → Instr}
    (hf : ∀ d k i, DefinitionSites.record d b (f k i) = d.record b i) (d : DefinitionSites) (is : List Instr) :
    DefinitionSites.recordAll b d (is.mapIdx f) = DefinitionSites.recordAll b d is := by
  induction is generalizing d f with
  | nil => rfl
  | cons i is ih =>
    rw [List.mapIdx_cons, DefinitionSites.recordAll, hf, DefinitionSites.recordAll]
    cases d.record b i with
    | error e => rfl
    | ok d' => exact ih (fun d k i => hf d (k + 1) i) d'

include hwrite in
/-- Naming a phi again changes nothing. -/
theorem Phi.named_named (entered left : List BlockId) (b : BlockId) (φ : Phi) :
    (φ.named N entered left b).named N entered left b = φ.named N entered left b := by
  have hvar : (φ.named N entered left b).var = φ.var := var_named N entered left hwrite
  rw [Phi.named, hvar]
  unfold Phi.named
  simp only [List.map_map, Function.comp_def]
  congr 1
  · split <;> rfl
  · refine List.map_congr_left fun slot _ => ?_
    split <;> rfl

include huse hwrite

theorem Instr.named_named (s : Site) (i : Instr) : (i.named N s).named N s = i.named N s := by
  cases i with
  | param | declare | assign | copy | unary | binary =>
    simp only [Instr.named, Instr.mapOperands, Instr.mapDefined, Operand.named_named huse, hwrite]
  | call => simp [Instr.named, Instr.mapOperands, Instr.mapDefined, Operand.named_named huse]

theorem Instr.mentions_named (s : Site) (i : Instr) : (i.named N s).mentions = i.mentions := by
  rw [Instr.mentions, Instr.subject?_named hwrite, Instr.reads_named huse, Instr.mentions]

/-- A block that has its names keeps them. -/
theorem Block.named_named (entered left : List BlockId) (b : BlockId) (blk : Block) :
    (blk.named N entered left b).named N entered left b = blk.named N entered left b := by
  have hphis : ∀ φ : Phi, (φ.named N entered left b).named N entered left b = φ.named N entered left b :=
    fun φ => Phi.named_named hwrite entered left b φ
  by_cases hb : b ∈ entered
  · simp only [Block.named, if_pos hb, List.map_map, Function.comp_def, hphis, Array.mapIdx_mapIdx,
      Instr.named_named huse hwrite, Jump.named_named huse]
  · simp only [Block.named, if_neg hb, List.map_map, Function.comp_def, hphis]

end NamedTwice

namespace FlowGraph

/-! ## What renaming leaves alone -/

theorem blocks_eq_of_block {g g' : FlowGraph} (hsize : g'.size = g.size)
    (hblock : ∀ b, g'.block b = g.block b) : g'.blocks = g.blocks := by
  refine Array.ext hsize fun b hb hb' => ?_
  have heq := hblock b
  simpa [block, hb, hb'] using heq

namespace SsaForm

variable {r g : FlowGraph} {order : List BlockId} {tree : DominatorTree}

theorem linked (h : SsaForm r g order tree) : r.Linked :=
  SameEdges.linked ⟨h.named.size, h.successors, h.sameFlow.preds⟩ h.toLinked

theorem phiAt (h : SsaForm r g order tree) : r.PhiAt = g.PhiAt := by
  funext v b
  unfold PhiAt
  rw [h.defBlock, h.home, h.edge]

/-- A graph in SSA form still has its phis where they belong. -/
theorem placed (h : SsaForm r g order tree) : r.Placed order tree where
  toAnalysed := h.sameFlow.analysed h.toAnalysed h.linked h.named.reachable h.named.depths h.named.dominance
  once := by
    rw [h.declares]
    exact h.once
  slots := by
    intro b φ hφ
    rw [h.livePredecessors]
    exact (h.phi_named_props h.named).2.2 φ hφ
  var_lt := by
    intro b φ hφ
    rw [h.named.numVars]
    exact (h.phi_named_props h.named).1 φ hφ
  phis_nodup b := (h.phi_named_props h.named).2.1
  phi_iff := by
    intro v b
    rw [h.phiAt, ← h.phi_iff, (h.block_fields b).2.2]
    simp only [List.mem_map, exists_exists_and_eq_and, var_named _ _ _ (g.write_naming_var tree)]

/-- A graph in SSA form can be renamed again. -/
theorem renamable (h : SsaForm r g order tree) : r.Renamable order tree where
  toPlaced := h.placed
  instrVars := by
    intro b hb i hi v hv
    rw [h.edge] at hb
    rw [h.named.numVars]
    obtain ⟨k, hk⟩ := Array.mem_iff_getElem?.mp hi
    have hinstr : r.instr? ⟨b, .instr k⟩ = some i := hk
    rw [h.instr? hb] at hinstr
    obtain ⟨j, hj, rfl⟩ := Option.map_eq_some_iff.mp hinstr
    rw [Instr.mentions_named (g.use_naming_var tree) (g.write_naming_var tree)] at hv
    exact h.instrVars b hb j (Array.mem_of_getElem? hj) v hv
  jumpVars := by
    intro b hb v hv
    rw [h.edge] at hb
    rw [h.jump hb, Jump.reads_named (g.use_naming_var tree)] at hv
    rw [h.named.numVars]
    exact h.jumpVars b hb v hv

/-- The definition sites are the same. -/
theorem gatherDefinitionSites (h : SsaForm r g order tree) :
    r.gatherDefinitionSites = g.gatherDefinitionSites := by
  have hrecord : ∀ b d, DefinitionSites.recordAll b d (r.block b).instrs.toList =
      DefinitionSites.recordAll b d (g.block b).instrs.toList := by
    intro b d
    rw [h.named.block, Block.named]
    dsimp only
    split
    · rw [Array.toList_mapIdx]
      exact DefinitionSites.recordAll_mapIdx
        (fun d k i => DefinitionSites.record_named (g.write_naming_var tree) d b _ i) d _
    · rfl
  unfold FlowGraph.gatherDefinitionSites
  rw [h.named.reachable, h.named.numVars, gatherSites_congr hrecord]

/-! ## The same names -/

theorem sitesOf_allDefs (h : SsaForm r g order tree) (v : VarId) :
    Definitions.sitesOf v (r.allDefs tree) = Definitions.sitesOf v (g.allDefs tree) := by
  unfold Definitions.sitesOf
  rw [allDefs, h.flatMap_definitionsIn, List.filter_map, List.map_map]
  simp only [Function.comp_def, write_naming_var]

theorem naming (h : SsaForm r g order tree) : r.naming tree = g.naming tree := by
  unfold FlowGraph.naming Definitions.naming Definitions.useName Definitions.defName
  simp only [h.sitesOf_allDefs]

theorem named_self (h : SsaForm r g order tree) {r' : FlowGraph}
    (hr' : Named r (r.naming tree) tree.preorder tree.preorder r') : r'.blocks = r.blocks := by
  refine blocks_eq_of_block hr'.size fun b => ?_
  rw [hr'.block, h.naming, h.named.block]
  exact Block.named_named (g.use_naming_var tree) (g.write_naming_var tree) _ _ b _

/-- Renaming a graph in SSA form changes nothing and counts the same definitions. -/
theorem rename_self (h : SsaForm r g order tree) {n : Nat} (hrename : g.rename = (r, .ok n)) :
    r.rename = (r, .ok n) := by
  rcases h.renamable.rename with ⟨r', m, hrename', hnamed, -⟩ | ⟨r', v, s, -, hs, hversion⟩
  · have hgraph : r' = r := by
      obtain ⟨blocks, hframe⟩ := r.rename_frame
      rw [hrename'] at hframe
      obtain rfl : r' = { r with blocks := blocks } := hframe
      rw [show blocks = r.blocks from h.named_self hnamed]
    have hcount : m = n := by
      obtain ⟨defs, htracks, rfl⟩ := h.toRenamable.count_of_rename hrename
      obtain ⟨defs', htracks', rfl⟩ := h.renamable.count_of_rename hrename'
      rw [htracks'.ext (h.named.numVars ▸ htracks) h.sitesOf_allDefs]
    rw [hrename', hgraph, hcount]
  · refine absurd ?_ hversion
    rw [h.declares] at hs
    rw [h.naming]
    exact (h.version_use_eq_zero_iff hs.1).mpr fun t ht => h.undefined ht hs

end SsaForm

end FlowGraph

end SsaFlow
