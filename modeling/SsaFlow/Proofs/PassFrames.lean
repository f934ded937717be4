-- SUMMARY: Each pass changes only what it is there to change, also where it fails or stops halfway.
import Mathlib
import SsaFlow.Proofs.Predecessors

/-!
# What passes leave alone

Ordering, dominance and phi placement fail before they touch the graph or replace whole parts of it, so what they
leave alone can be read off the record that they return. Renaming works in place and may stop anywhere. It changes version numbers and
nothing else: with all versions erased (`FlowGraph.unversioned`), each of its steps leaves the graph as it was,
provided that the slots of a phi hold the variable that the phi merges (`FlowGraph.SlotsMatch`). That condition
does not depend on versions, so it outlives the steps.
-/

namespace SsaFlow

/-! ## Erasing versions -/

/-- The variable with its version erased. -/
def VersionedVar.unversioned (v : VersionedVar) : VersionedVar := .unbound v.var

def Operand.unversioned (op : Operand) : Operand := op.mapVar VersionedVar.unversioned

def Instr.unversioned (i : Instr) : Instr :=
  (i.mapOperands Operand.unversioned).mapDefined VersionedVar.unversioned

def Jump.unversioned (j : Jump) : Jump := j.mapOperand Operand.unversioned

def Phi.unversioned (φ : Phi) : Phi where
  target := φ.target.unversioned
  slots := φ.slots.map fun slot => (slot.1, slot.2.unversioned)

def Block.unversioned (blk : Block) : Block :=
  { blk with
    phis := blk.phis.map Phi.unversioned
    instrs := blk.instrs.map Instr.unversioned
    jump := blk.jump.unversioned }

/-- The graph with all versions erased; all else is kept. -/
def FlowGraph.unversioned (g : FlowGraph) : FlowGraph :=
  { g with blocks := g.blocks.map Block.unversioned }

theorem VersionedVar.unversioned_eq {v w : VersionedVar} (h : v.var = w.var) : v.unversioned = w.unversioned :=
  congrArg unbound h

namespace FlowGraph

theorem block_unversioned (g : FlowGraph) (b : BlockId) : g.unversioned.block b = (g.block b).unversioned := by
  by_cases hb : b < g.blocks.size
  · simp [block, unversioned, hb]
  · simp [block, unversioned, hb, Block.unversioned, Jump.unversioned, Jump.mapOperand]

/-- A change of a block that is in its versions only is one of the graph in its versions only. -/
theorem unversioned_modify {g : FlowGraph} {b : BlockId} {f : Block → Block}
    (h : (f (g.block b)).unversioned = (g.block b).unversioned) : (g.modify b f).unversioned = g.unversioned := by
  unfold unversioned modify
  congr 1
  refine Array.ext (by simp) fun c hc _ => ?_
  rw [Array.size_map, Array.size_modify] at hc
  rw [Array.getElem_map, Array.getElem_map, Array.getElem_modify]
  split
  · next hbc =>
    subst hbc
    simpa [block, hc] using h
  · rfl

end FlowGraph

/-! ## Slots of phis -/

/-- Every slot holds the variable that the phi merges. -/
def Phi.SlotsMatch (φ : Phi) : Prop := ∀ slot ∈ φ.slots, slot.2.var = φ.var

def FlowGraph.SlotsMatch (g : FlowGraph) : Prop := ∀ b, ∀ φ ∈ (g.block b).phis, φ.SlotsMatch

theorem Phi.slotsMatch_unversioned {φ : Phi} : φ.unversioned.SlotsMatch ↔ φ.SlotsMatch := by
  unfold SlotsMatch unversioned
  rw [List.forall_mem_map]
  rfl

theorem Phi.slotsMatch_ofPreds (v : VarId) (preds : List BlockId) : (Phi.ofPreds v preds).SlotsMatch := by
  intro slot hslot
  obtain ⟨p, -, rfl⟩ := List.mem_map.mp hslot
  rfl

/-- Binding a slot to a version of the variable of the phi changes a version only. -/
theorem Phi.unversioned_bind? {φ ψ : Phi} {pred : BlockId} {value : VersionedVar} (h : φ.SlotsMatch)
    (hvar : value.var = φ.var) (hbind : φ.bind? pred value = some ψ) : ψ.unversioned = φ.unversioned := by
  unfold bind? at hbind
  split at hbind
  · cases hbind
    simp only [unversioned, List.map_map, Phi.mk.injEq, true_and]
    refine List.map_congr_left fun slot hslot => ?_
    simp only [Function.comp_apply]
    split
    · rw [VersionedVar.unversioned_eq (hvar.trans (h slot hslot).symm)]
    · rfl
  · cases hbind

instance (φ : Phi) : Decidable φ.SlotsMatch :=
  inferInstanceAs (Decidable (∀ slot ∈ φ.slots, slot.2.var = φ.var))

namespace FlowGraph

theorem slotsMatch_iff {g : FlowGraph} :
    g.SlotsMatch ↔ ∀ φ ∈ g.blocks.toList.flatMap Block.phis, φ.SlotsMatch := by
  simp only [List.forall_mem_flatMap]
  constructor
  · intro h blk hblk
    obtain ⟨b, hb, rfl⟩ := List.mem_iff_getElem.mp hblk
    have hphis := h b
    rw [Array.length_toList] at hb
    simpa [block, hb] using hphis
  · intro h b φ hφ
    by_cases hb : b < g.size
    · refine h (g.block b) ?_ φ hφ
      simp only [block, Array.getD, size] at hb ⊢
      rw [dif_pos hb]
      exact Array.getElem_mem_toList hb
    · rw [block_of_size_le (Nat.le_of_not_lt hb)] at hφ
      cases hφ

instance (g : FlowGraph) : Decidable g.SlotsMatch := decidable_of_iff _ slotsMatch_iff.symm

/-- Whether slots match does not depend on versions. -/
theorem SlotsMatch.of_unversioned {g g' : FlowGraph} (h : g.SlotsMatch) (hsame : g'.unversioned = g.unversioned) :
    g'.SlotsMatch := by
  intro b φ hφ
  have hblock : (g'.block b).unversioned = (g.block b).unversioned := by
    rw [← block_unversioned, hsame, block_unversioned]
  have hphis : (g'.block b).phis.map Phi.unversioned = (g.block b).phis.map Phi.unversioned :=
    congrArg Block.phis hblock
  have hmem : φ.unversioned ∈ (g.block b).phis.map Phi.unversioned := hphis ▸ List.mem_map_of_mem hφ
  obtain ⟨ψ, hψ, heq⟩ := List.mem_map.mp hmem
  rw [← Phi.slotsMatch_unversioned, ← heq, Phi.slotsMatch_unversioned]
  exact h b ψ hψ

theorem SlotsMatch.of_blocks_eq {g g' : FlowGraph} (h : g.SlotsMatch) (hblocks : g'.blocks = g.blocks) :
    g'.SlotsMatch := by
  intro b
  rw [block, hblocks]
  exact h b

end FlowGraph

/-! ## Steps of renaming -/

theorem Definitions.var_of_define {ds ds' : Definitions} {v : VarId} {s : Site} {x : VersionedVar}
    (h : ds.define v s = .ok (x, ds')) : x.var = v := by
  unfold define at h
  split at h
  · cases h
  · cases h
    rfl

theorem Definitions.var_of_lookup {ds : Definitions} {tree : DominatorTree} {v : VarId} {s : Site}
    {x : VersionedVar} (h : ds.lookup tree v s = .ok x) : x.var = v := by
  unfold lookup at h
  split at h
  · cases h
  · split at h <;> cases h <;> rfl

/-- Binding an operand changes its version only. -/
theorem Definitions.unversioned_of_resolve {ds : Definitions} {tree : DominatorTree} {s : Site} {op op' : Operand}
    (h : ds.resolve tree s op = .ok op') : op'.unversioned = op.unversioned := by
  cases op with
  | const c | temp t =>
    cases h
    rfl
  | var v =>
    rw [resolve] at h
    split at h
    · cases h
    · next hlookup =>
      cases h
      exact congrArg Operand.var (VersionedVar.unversioned_eq (var_of_lookup hlookup))

/-- If replacing operands changes versions only, then so does replacing those of an instruction. -/
theorem Instr.unversioned_replaceOperands {ε : Type} {f : Operand → Except ε Operand}
    (hf : ∀ {op op'}, f op = .ok op' → op'.unversioned = op.unversioned) (i : Instr) :
    (i.replaceOperands f).1.unversioned = i.unversioned := by
  cases i with
  | param _ _ | declare _ => rfl
  | assign _ op | copy _ op | unary _ _ op =>
    rw [replaceOperands]
    split
    · next hop => simp only [unversioned, mapOperands, mapDefined, hf hop]
    · rfl
  | binary _ _ lhs rhs =>
    rw [replaceOperands]
    split
    · rfl
    · next hlhs =>
      split
      · simp only [unversioned, mapOperands, mapDefined, hf hlhs]
      · next hrhs => simp only [unversioned, mapOperands, mapDefined, hf hlhs, hf hrhs]
  | call _ _ args =>
    have hargs : (replaceUntil f args).1.map Operand.unversioned = args.map Operand.unversioned :=
      map_replaceUntil fun _ _ {_} h => hf h
    simp only [replaceOperands, unversioned, mapOperands, mapDefined, hargs]

namespace Renaming

variable (tree : DominatorTree) (b : BlockId)

theorem unversioned_phis (defs : Definitions) (seen : List VarId) (φs : List Phi) :
    (phis b defs seen φs).result.map Phi.unversioned = φs.map Phi.unversioned := by
  induction φs generalizing defs seen with
  | nil => rfl
  | cons φ φs ih =>
    rw [phis]
    split
    · rfl
    · split
      · rfl
      · next hdefine =>
        have hvar := VersionedVar.unversioned_eq (Definitions.var_of_define hdefine)
        simp only [List.map_cons, ih, Phi.unversioned, hvar]

theorem unversioned_write (defs : Definitions) (s : Site) (i : Instr) :
    (write tree b defs s i).result.unversioned = i.unversioned := by
  cases i with
  | declare v =>
    rw [write]
    split <;> rfl
  | param dst _ | assign dst _ =>
    rw [write]
    split
    · rfl
    · next hdefine =>
      have hvar := VersionedVar.unversioned_eq (Definitions.var_of_define hdefine)
      simp only [Instr.unversioned, Instr.mapOperands, Instr.mapDefined, hvar]
  | copy _ _ | unary _ _ _ | binary _ _ _ _ | call _ _ _ => rfl

theorem unversioned_instr (defs : Definitions) (k : Nat) (i : Instr) :
    (instr tree b defs k i).result.unversioned = i.unversioned := by
  have hreads := i.unversioned_replaceOperands (f := defs.resolve tree ⟨b, .instr k⟩)
    Definitions.unversioned_of_resolve
  unfold instr
  dsimp only
  generalize i.replaceOperands (defs.resolve tree ⟨b, .instr k⟩) = r at hreads ⊢
  obtain ⟨i', stop⟩ := r
  cases stop with
  | some e => exact hreads
  | none => exact (unversioned_write tree b defs _ i').trans hreads

/-- Renaming instructions changes versions only, however far it gets. -/
theorem unversioned_instrs (defs : Definitions) (front : Array Instr) (is : List Instr) :
    (instrs tree b defs front is).result.toList.map Instr.unversioned =
      (front.toList ++ is).map Instr.unversioned := by
  induction is generalizing defs front with
  | nil => simp [instrs]
  | cons i is ih =>
    have hfirst := unversioned_instr tree b defs front.size i
    rw [instrs]
    generalize instr tree b defs front.size i = r at hfirst ⊢
    obtain ⟨i', defs', stop⟩ := r
    dsimp only at hfirst
    cases stop with
    | some e => simp [hfirst]
    | none =>
      dsimp only
      rw [ih]
      simp [hfirst]

/-- Renaming a jump changes versions only. -/
theorem unversioned_jump (defs : Definitions) (j : Jump) : (jump tree b defs j).1.unversioned = j.unversioned := by
  unfold jump
  split
  · rfl
  · next op hop =>
    split
    · rfl
    · next op' hresolve =>
      have hread := Definitions.unversioned_of_resolve hresolve
      cases j with
      | missing | goto | transfer => cases hop
      | branch | select =>
        cases hop
        simp only [Jump.unversioned, Jump.mapOperand, hread]
      | ret shadow value =>
        obtain rfl : value = some op := hop
        simp only [Jump.unversioned, Jump.mapOperand, Option.map_some, hread]

/-- Renaming what a block holds changes versions only, wherever it stops. -/
theorem unversioned_contents (defs : Definitions) (blk : Block) :
    (contents tree b defs blk).result.unversioned = blk.unversioned := by
  have hphis := unversioned_phis b defs [] blk.phis
  have hinstrs : ∀ defs', (instrs tree b defs' #[] blk.instrs.toList).result.map Instr.unversioned =
      blk.instrs.map Instr.unversioned := by
    intro defs'
    have hlist := unversioned_instrs tree b defs' #[] blk.instrs.toList
    exact Array.toList_inj.mp (by simpa using hlist)
  have hjump := fun defs' => unversioned_jump tree b defs' blk.jump
  unfold contents
  dsimp only
  split
  · simp only [Block.unversioned, hphis]
  · split
    · simp only [Block.unversioned, hphis, hinstrs]
    · simp only [Block.unversioned, hphis, hinstrs, hjump]

/-- Binding the slots of a block in a successor changes versions only. -/
theorem unversioned_slots (defs : Definitions) (s : BlockId) {φs : List Phi} (h : ∀ φ ∈ φs, φ.SlotsMatch) :
    (slots tree b defs s φs).1.map Phi.unversioned = φs.map Phi.unversioned := by
  refine map_replaceUntil fun φ hφ {ψ} hψ => ?_
  split at hψ
  · cases hψ
  · next hlookup =>
    split at hψ
    · cases hψ
    · next hbind =>
      cases hψ
      exact Phi.unversioned_bind? (h φ hφ) (Definitions.var_of_lookup hlookup) hbind

end Renaming

namespace FlowGraph

/-- Renaming changes versions only, also where it stops halfway. -/
theorem SlotsMatch.unversioned_rename {g : FlowGraph} (h : g.SlotsMatch) :
    g.rename.1.unversioned = g.unversioned := by
  refine Renaming.rename_induction (P := fun g' => g'.unversioned = g.unversioned) ?_ ?_ rfl
  · intro g' tree b defs s hsame
    refine (unversioned_modify ?_).trans hsame
    simp only [Block.unversioned, Renaming.unversioned_slots tree b defs s (h.of_unversioned hsame s)]
  · intro g' tree b defs hsame
    exact (unversioned_modify (Renaming.unversioned_contents tree b defs _)).trans hsame

/-! ## Placing phis -/

/-- The second graph is the first one with open phis appended to its blocks. -/
structure PhisAppended (g g' : FlowGraph) : Prop where
  frame : ∃ blocks, g' = { g with blocks := blocks }
  size : g'.size = g.size
  block : ∀ b, ∃ added, g'.block b = { g.block b with phis := (g.block b).phis ++ added } ∧
    ∀ φ ∈ added, ∃ v, φ = .ofPreds v (g.livePredecessors b)

namespace PhisAppended

variable {g g' g'' : FlowGraph}

theorem refl (g : FlowGraph) : PhisAppended g g :=
  ⟨⟨g.blocks, rfl⟩, rfl, fun b => ⟨[], by simp⟩⟩

theorem phisOnly (h : PhisAppended g g') : PhisOnly g g' := by
  obtain ⟨⟨blocks, rfl⟩, hsize, hblock⟩ := h
  refine ⟨hsize, rfl, rfl, rfl, rfl, fun b => ?_⟩
  obtain ⟨added, hadded, -⟩ := hblock b
  exact ⟨_, hadded⟩

theorem trans (h : PhisAppended g g') (k : PhisAppended g' g'') : PhisAppended g g'' where
  frame := by
    obtain ⟨blocks, rfl⟩ := h.frame
    obtain ⟨blocks', rfl⟩ := k.frame
    exact ⟨blocks', rfl⟩
  size := k.size.trans h.size
  block := by
    intro b
    obtain ⟨added, hblock, hopen⟩ := h.block b
    obtain ⟨added', hblock', hopen'⟩ := k.block b
    refine ⟨added ++ added', by rw [hblock', hblock, List.append_assoc], fun φ hφ => ?_⟩
    rw [h.phisOnly.livePredecessors] at hopen'
    exact (List.mem_append.mp hφ).elim (hopen φ) (hopen' φ)

theorem addPhi (v : VarId) (g : FlowGraph) (b : BlockId) : PhisAppended g (g.addPhi v b) := by
  refine ⟨⟨_, rfl⟩, size_modify _ _ _, fun c => ?_⟩
  rw [FlowGraph.addPhi, block_modify]
  split
  · next hc =>
    obtain ⟨rfl, -⟩ := hc
    exact ⟨_, rfl, fun φ hφ => ⟨v, List.mem_singleton.mp hφ⟩⟩
  · exact ⟨[], by simp⟩

theorem foldl_addPhi (v : VarId) (joins : List BlockId) (g : FlowGraph) :
    PhisAppended g (joins.foldl (FlowGraph.addPhi v) g) := by
  induction joins generalizing g with
  | nil => exact .refl g
  | cons b joins ih => exact (addPhi v g b).trans (ih _)

theorem foldl_addPhisFor (dom : Dominance) (sites : DefinitionSites) (vs : List VarId) (g : FlowGraph)
    (count : Nat) : PhisAppended g (vs.foldl (addPhisFor dom sites) (g, count)).1 := by
  induction vs generalizing g count with
  | nil => exact .refl g
  | cons v vs ih =>
    obtain ⟨placed, hplaced⟩ := exists_placed_addPhisFor dom sites g count v
    rw [List.foldl_cons, hplaced]
    exact (foldl_addPhi v placed g).trans (ih _ _)

/-- Appended phis are open, so their slots hold the variable that they merge. -/
theorem slotsMatch (h : PhisAppended g g') (hg : g.SlotsMatch) : g'.SlotsMatch := by
  intro b φ hφ
  obtain ⟨added, hblock, hopen⟩ := h.block b
  rw [hblock] at hφ
  rcases List.mem_append.mp hφ with hold | hnew
  · exact hg b φ hold
  · obtain ⟨v, rfl⟩ := hopen φ hnew
    exact Phi.slotsMatch_ofPreds v _

end PhisAppended

/-- Placing phis appends open phis, notes the definition sites and changes nothing else. -/
theorem withPhis_frame {g g' : FlowGraph} {n : Nat} (h : g.withPhis = .ok (g', n)) :
    ∃ placed sites, PhisAppended g placed ∧ g' = { placed with definitionSites := some sites } := by
  rw [withPhis_def] at h
  split at h
  · cases h
  · next dom _ =>
    split at h
    · cases h
    · next sites _ =>
      cases h
      exact ⟨_, sites, .foldl_addPhisFor dom sites (List.range g.numVars) g 0, rfl⟩

/-! ## The other passes -/

/-- Phi placement that fails changes nothing, and otherwise open phis are appended and the definition sites are
set. -/
theorem placePhis_frame (g : FlowGraph) :
    ∃ placed sites, PhisAppended g placed ∧ g.placePhis.1 = { placed with definitionSites := sites } := by
  rcases g.placePhis_cases with ⟨e, hfails⟩ | ⟨n, hphis⟩
  · rw [hfails]
    exact ⟨g, g.definitionSites, .refl g, rfl⟩
  · obtain ⟨placed, sites, happended, hresult⟩ := withPhis_frame hphis
    exact ⟨placed, some sites, happended, hresult⟩

/-- After each pass, slots still hold the variables of their phis. -/
theorem SlotsMatch.passes {g : FlowGraph} (h : g.SlotsMatch) :
    ∀ op ∈ [Operation.order, .dominance, .placePhis, .rename], (op.apply g).SlotsMatch := by
  simp only [List.forall_mem_cons, List.not_mem_nil, false_implies, implies_true, and_true, Operation.apply]
  refine ⟨?_, ?_, ?_, h.of_unversioned h.unversioned_rename⟩
  · obtain ⟨reachable, depths, hframe⟩ := g.computeOrder_frame
    rw [hframe]
    exact h.of_blocks_eq rfl
  · obtain ⟨dominance, sites, hframe⟩ := g.computeDominance_frame
    rw [hframe]
    exact h.of_blocks_eq rfl
  · obtain ⟨placed, sites, happended, hframe⟩ := g.placePhis_frame
    rw [hframe]
    exact (happended.slotsMatch h).of_blocks_eq rfl

/-- Ordering, dominance and phi placement that fail leave the whole graph as it was. -/
theorem eq_self_of_error (g : FlowGraph) (e : InternalError) :
    (g.computeOrder.2 = .error e → g.computeOrder.1 = g) ∧
      (g.computeDominance.2 = .error e → g.computeDominance.1 = g) ∧
      (g.placePhis.2 = .error e → g.placePhis.1 = g) := by
  refine ⟨fun herror => ?_, fun herror => ?_, fun herror => ?_⟩
  · unfold computeOrder at herror ⊢
    split at herror
    · rfl
    · cases herror
  · unfold computeDominance at herror ⊢
    split at herror
    · rfl
    · cases herror
  · rcases g.placePhis_cases with ⟨_, hfails⟩ | ⟨n, hphis⟩
    · rw [hfails]
    · rw [completed_eq_ok.mp hphis] at herror
      cases herror

/-- No pass does more than it is there for, whether it succeeds or fails. Ordering replaces the list of reachable
blocks and the depths. Dominance replaces the tree with its frontiers and the definition sites. Phi placement
appends open phis and sets the definition sites. Renaming changes versions only, so that the graph without
versions is the same, its dominator tree included, even where it stops halfway; the other three leave the whole
graph as it was when they fail. Slots keep the variables of their phis, so all this holds for the next pass too. -/
theorem passes_frame {g : FlowGraph} (h : g.SlotsMatch) :
    (∃ reachable depths, g.computeOrder.1 = { g with reachable := reachable, depths := depths }) ∧
    (∃ dominance sites, g.computeDominance.1 = { g with dominance := dominance, definitionSites := sites }) ∧
    (∃ placed sites, PhisAppended g placed ∧ g.placePhis.1 = { placed with definitionSites := sites }) ∧
    (g.rename.1.unversioned = g.unversioned ∧ g.rename.1.dominance = g.dominance) ∧
    (∀ e, (g.computeOrder.2 = .error e → g.computeOrder.1 = g) ∧
      (g.computeDominance.2 = .error e → g.computeDominance.1 = g) ∧
      (g.placePhis.2 = .error e → g.placePhis.1 = g)) ∧
    ∀ op ∈ [Operation.order, .dominance, .placePhis, .rename], (op.apply g).SlotsMatch := by
  refine ⟨g.computeOrder_frame, g.computeDominance_frame, g.placePhis_frame, ⟨h.unversioned_rename, ?_⟩,
    g.eq_self_of_error, h.passes⟩
  have hkept : g.rename.1.unversioned.dominance = g.unversioned.dominance := by rw [h.unversioned_rename]
  exact hkept

/-- A loop with a phi, and behind it a copy of a variable that the graph does not have. -/
def strayRead : FlowGraph :=
  applyAll
    { blocks := #[
        { isEntry := true, instrs := #[.param ⟨0, 0⟩ 0], jump := .goto 1 },
        { instrs := #[.assign ⟨0, 0⟩ (.var ⟨0, 0⟩)], jump := .branch (.var ⟨0, 0⟩) 1 2, preds := .ofList [0, 1] },
        { instrs := #[.assign ⟨0, 0⟩ (.const 4), .copy 0 (.var ⟨1, 0⟩)], jump := .ret 3 none,
          preds := .ofList [1] },
        { preds := .ofList [2] }]
      numVars := 1
      numTemps := 1 }
    [.prune, .order, .dominance, .placePhis]

/-- Renaming stops at the copy, after it has renamed two blocks, a slot and the assignment before the copy. -/
theorem passes_frame_strayRead :
    strayRead.rename.2 = .error (.unknownVariable 1) ∧
      (strayRead.rename.1.block 1).phis = [⟨⟨0, 2⟩, [(0, ⟨0, 1⟩), (1, ⟨0, 3⟩)]⟩] ∧
      strayRead.rename.1.unversioned = strayRead.unversioned := by
  have hstop : strayRead.rename.2 = .error (.unknownVariable 1) := by cbv
  have hphis : (strayRead.rename.1.block 1).phis = [⟨⟨0, 2⟩, [(0, ⟨0, 1⟩), (1, ⟨0, 3⟩)]⟩] := by cbv
  have hmatch : strayRead.SlotsMatch := by
    rw [slotsMatch_iff, show strayRead.blocks.toList.flatMap Block.phis =
      [⟨⟨0, 0⟩, [(0, ⟨0, 0⟩), (1, ⟨0, 0⟩)]⟩] from by cbv]
    decide
  exact ⟨hstop, hphis, (passes_frame hmatch).2.2.2.1.1⟩

end FlowGraph

end SsaFlow
