-- SUMMARY: Flow graphs whose edges are consistent, how they are built, and what their live edges reach.
import SsaFlow.Graph.Edit
import SsaFlow.Graph.Reach
import SsaFlow.Proofs.Walk

/-!
# Linked graphs

A graph is linked if its predecessor sets agree with its jumps and all jumps stay within the graph. Every
way of building a graph by hand keeps it linked, and in a linked graph the live edges can be read off the
jumps or off the predecessor sets alike.
-/

namespace SsaFlow

/-! ## Variables of instructions -/

def Operand.varId? (op : Operand) : Option VarId := op.var?.map VersionedVar.var

def Instr.subject? : Instr → Option VarId
  | .declare var => some var
  | i => i.defined?.map VersionedVar.var

theorem Instr.subject?_eq_some {i : Instr} {v : VarId} :
    i.subject? = some v ↔ i = .declare v ∨ ∃ w, i.defined? = some w ∧ w.var = v := by
  cases i <;> simp [subject?, defined?]

/-- The variables that an instruction reads, in evaluation order. -/
def Instr.reads (i : Instr) : List VarId := i.operands.filterMap Operand.varId?

def Instr.mentions (i : Instr) : List VarId := i.subject?.toList ++ i.reads

def Jump.reads (j : Jump) : List VarId := (j.operand?.bind Operand.varId?).toList

namespace FlowGraph

/-- Control can go from `a` to `b`. -/
def Edge (g : FlowGraph) (a b : BlockId) : Prop := b ∈ g.targets a

instance (g : FlowGraph) (a b : BlockId) : Decidable (g.Edge a b) :=
  inferInstanceAs (Decidable (b ∈ g.targets a))

/-- Predecessor sets agree with the jumps, and jumps name blocks of the graph. -/
structure Linked (g : FlowGraph) : Prop where
  entry_lt : entry < g.size
  preds : g.PredsInStep
  succ_lt : ∀ {p s : BlockId}, s ∈ (g.jump p).successors → s < g.size
  pred_lt : ∀ {p s : BlockId}, p ∈ (g.block s).preds → p < g.size

/-- Graphs made from the open entry by adding blocks, deciding jumps, and adding instructions on
variables of the graph. -/
inductive Built : FlowGraph → Prop
  | new (numVars : Nat) : Built (new numVars)
  | addBlock {g : FlowGraph} : Built g → Built g.addBlock
  | setJump {g g' : FlowGraph} {p : BlockId} {j : Jump} : Built g → g.setJump? p j = some g' → Built g'
  | pushInstr {g g' : FlowGraph} {b : BlockId} {i : Instr} : Built g →
      (∀ v ∈ i.mentions, v < g.numVars) → g.pushInstr? b i = some g' → Built g'

/-! ## Live edges -/

theorem jump_of_size_le {g : FlowGraph} {b : BlockId} (h : g.size ≤ b) : g.jump b = .missing := by
  rw [jump, block_of_size_le h]

theorem mem_successors_of_edge {g : FlowGraph} {a b : BlockId} (h : g.Edge a b) :
    b ∈ (g.jump a).successors := Jump.mem_successors.mpr (.inl h)

theorem lt_of_mem_successors {g : FlowGraph} {a b : BlockId} (h : b ∈ (g.jump a).successors) :
    a < g.size := by
  refine Nat.lt_of_not_le fun hle => ?_
  rw [jump_of_size_le hle] at h
  simp [Jump.successors, Jump.targets, Jump.shadow?] at h

namespace Linked

variable {g : FlowGraph}

theorem edge_lt (h : g.Linked) {a b : BlockId} (he : g.Edge a b) : b < g.size :=
  h.succ_lt (mem_successors_of_edge he)

/-- In a linked graph the predecessor sets can be read off the jumps. -/
theorem mem_preds_iff (h : g.Linked) {p s : BlockId} :
    p ∈ (g.block s).preds ↔ s ∈ (g.jump p).successors := by
  constructor
  · intro hp
    have hs : s < g.size := by
      refine Nat.lt_of_not_le fun hle => ?_
      rw [block_of_size_le hle] at hp
      exact absurd hp Std.ExtTreeSet.not_mem_empty
    exact (h.preds p s (h.pred_lt hp) hs).mp hp
  · intro hs
    exact (h.preds p s (lt_of_mem_successors hs) (h.succ_lt hs)).mpr hs

/-- A live predecessor is a block of the graph from which control can come. -/
theorem mem_livePredecessors (h : g.Linked) {p b : BlockId} :
    p ∈ g.livePredecessors b ↔ (g.block p).removed = false ∧ g.Edge p b := by
  rw [livePredecessors, List.mem_filter, Std.ExtTreeSet.mem_toList, h.mem_preds_iff]
  rw [Bool.and_eq_true, Bool.not_eq_true', Jump.goesTo_iff]
  constructor
  · rintro ⟨-, hremoved, he⟩
    exact ⟨hremoved, he⟩
  · rintro ⟨hremoved, he⟩
    exact ⟨mem_successors_of_edge he, hremoved, he⟩

/-- Being linked is a matter of the blocks alone. -/
theorem of_blocks_eq (h : g.Linked) {g' : FlowGraph} (hblocks : g'.blocks = g.blocks) : g'.Linked := by
  obtain ⟨blocks, _, _, _, _, _, _⟩ := g'
  cases hblocks
  exact ⟨h.entry_lt, h.preds, h.succ_lt, h.pred_lt⟩

theorem reachable_lt (h : g.Linked) {b : BlockId} (hb : Reachable g.Edge entry b) : b < g.size := by
  obtain ⟨l, hl⟩ := hb
  cases hl with
  | start => exact h.entry_lt
  | step _ he => exact h.edge_lt he

/-- The exploration over jumps reaches what walks along live edges reach. -/
theorem leads_iff (h : g.Linked) {b : BlockId} :
    DepthFirst.Leads g.targets g.size entry b ↔ Reachable g.Edge entry b := by
  constructor
  · intro hl
    induction hl with
    | refl _ => exact .root
    | step _ hm _ ih => exact ih.step hm
  · rintro ⟨l, hl⟩
    induction hl with
    | start => exact .refl h.entry_lt
    | step _ he ih => exact .step ih he (h.edge_lt he)

end Linked

/-! ## Building keeps graphs linked -/

theorem linked_new (numVars : Nat) : (new numVars).Linked where
  entry_lt := Nat.zero_lt_one
  preds := predsInStep_new numVars
  succ_lt := by
    intro p s hs
    obtain rfl : p = 0 := Nat.lt_one_iff.mp (lt_of_mem_successors hs)
    simp [new, block, jump, Jump.successors, Jump.targets, Jump.shadow?] at hs
  pred_lt := by
    intro p s hp
    rcases Nat.eq_zero_or_pos s with rfl | hs
    · simp [new, block] at hp
    · rw [block_of_size_le (show (new numVars).size ≤ s from hs)] at hp
      exact absurd hp Std.ExtTreeSet.not_mem_empty

theorem Linked.addBlock {g : FlowGraph} (h : g.Linked) : g.addBlock.Linked where
  entry_lt := by
    rw [size_addBlock]
    exact Nat.lt_succ_of_lt h.entry_lt
  preds := by
    intro p s _ _
    rw [jump, block_addBlock, block_addBlock]
    exact h.mem_preds_iff
  succ_lt := by
    intro p s hs
    rw [jump, block_addBlock] at hs
    rw [size_addBlock]
    exact Nat.lt_succ_of_lt (h.succ_lt hs)
  pred_lt := by
    intro p s hp
    rw [block_addBlock] at hp
    rw [size_addBlock]
    exact Nat.lt_succ_of_lt (h.pred_lt hp)

theorem numVars_linkFrom (p : BlockId) (g : FlowGraph) (ss : List BlockId) :
    (linkFrom p g ss).numVars = g.numVars := by
  induction ss generalizing g with
  | nil => rfl
  | cons s ss ih => exact ih _

theorem numVars_unlinkFrom (p : BlockId) (g : FlowGraph) (ss : List BlockId) :
    (unlinkFrom p g ss).numVars = g.numVars := by
  induction ss generalizing g with
  | nil => rfl
  | cons s ss ih => exact ih _

@[simp] theorem numVars_setJump (g : FlowGraph) (p : BlockId) (j : Jump) :
    (g.setJump p j).numVars = g.numVars := by
  rw [setJump, numVars_linkFrom, numVars_unlinkFrom]
  rfl

/-- Another jump keeps a graph linked, if it names blocks of the graph. -/
theorem Linked.setJump {g : FlowGraph} (h : g.Linked) {p : BlockId} {j : Jump} (hp : p < g.size)
    (hj : ∀ s ∈ j.successors, s < g.size) : (g.setJump p j).Linked where
  entry_lt := by
    rw [size_setJump]
    exact h.entry_lt
  preds := h.preds.setJump p j
  succ_lt := by
    intro q s hs
    rw [jump_setJump] at hs
    rw [size_setJump]
    split at hs
    · exact hj s hs
    · exact h.succ_lt hs
  pred_lt := by
    intro q s hq
    obtain ⟨preds, hblock, hmem⟩ := g.block_setJump p j s
    rw [hblock] at hq
    rw [size_setJump]
    rcases (hmem q).mp hq with ⟨hq, -⟩ | ⟨rfl, -⟩
    · exact h.pred_lt hq
    · exact hp

/-- Changes of a block that leave its edges alone. -/
theorem Linked.modify {g : FlowGraph} (h : g.Linked) (b : BlockId) {f : Block → Block}
    (hjump : ∀ blk, (f blk).jump.successors = blk.jump.successors)
    (hpreds : ∀ blk, (f blk).preds = blk.preds) : (g.modify b f).Linked where
  entry_lt := by
    rw [size_modify]
    exact h.entry_lt
  preds := h.preds.modify b hjump hpreds
  succ_lt := by
    intro p s hs
    rw [size_modify]
    rw [jump, block_modify] at hs
    split at hs
    · rw [hjump] at hs
      exact h.succ_lt hs
    · exact h.succ_lt hs
  pred_lt := by
    intro p s hp
    rw [size_modify]
    rw [block_modify] at hp
    split at hp
    · rw [hpreds] at hp
      exact h.pred_lt hp
    · exact h.pred_lt hp

theorem Linked.detach {g : FlowGraph} (h : g.Linked) {b : BlockId} (hb : b < g.size) :
    (g.detach b).Linked :=
  (h.setJump hb (by simp [Jump.successors, Jump.targets, Jump.shadow?])).modify b
    (fun _ => rfl) (fun _ => rfl)

/-! ## Graphs with the same edges -/

/-- The second graph has the blocks of the first, with the same successors and predecessors. -/
structure SameEdges (g g' : FlowGraph) : Prop where
  size : g'.size = g.size
  successors : ∀ b, (g'.jump b).successors = (g.jump b).successors
  preds : ∀ b, (g'.block b).preds = (g.block b).preds

namespace SameEdges

variable {g g' g'' : FlowGraph}

theorem refl (g : FlowGraph) : SameEdges g g := ⟨rfl, fun _ => rfl, fun _ => rfl⟩

theorem trans (h : SameEdges g g') (k : SameEdges g' g'') : SameEdges g g'' where
  size := k.size.trans h.size
  successors b := (k.successors b).trans (h.successors b)
  preds b := (k.preds b).trans (h.preds b)

/-- A change of one block that leaves its own edges alone. -/
theorem modify (g : FlowGraph) (b : BlockId) {f : Block → Block}
    (hjump : (f (g.block b)).jump.successors = (g.jump b).successors)
    (hpreds : (f (g.block b)).preds = (g.block b).preds) : SameEdges g (g.modify b f) := by
  refine ⟨size_modify g b f, fun c => ?_, fun c => ?_⟩
  · unfold FlowGraph.jump
    rw [block_modify]
    split
    · next h =>
      rw [← h.1]
      exact hjump
    · rfl
  · rw [block_modify]
    split
    · next h =>
      rw [← h.1]
      exact hpreds
    · rfl

/-- Whether a graph is linked depends on its edges only. -/
theorem linked (h : SameEdges g g') (hg : g.Linked) : g'.Linked where
  entry_lt := by
    rw [h.size]
    exact hg.entry_lt
  preds := by
    intro p s _ _
    rw [h.preds, h.successors]
    exact hg.mem_preds_iff
  succ_lt := by
    intro p s hs
    rw [h.successors] at hs
    rw [h.size]
    exact hg.succ_lt hs
  pred_lt := by
    intro p s hp
    rw [h.preds] at hp
    rw [h.size]
    exact hg.pred_lt hp

end SameEdges

/-! ## Graphs that nothing has been taken out of -/

/-- A linked graph without removed blocks and without phis, whose instructions keep to the variables of
the graph. -/
structure Fresh (g : FlowGraph) : Prop extends g.Linked where
  marked : (g.block entry).isEntry = true
  kept : ∀ b, (g.block b).removed = false
  noPhis : ∀ b, (g.block b).phis = []
  vars : ∀ b, ∀ i ∈ (g.block b).instrs, ∀ v ∈ i.mentions, v < g.numVars

theorem fresh_new (numVars : Nat) : (new numVars).Fresh where
  toLinked := linked_new numVars
  marked := rfl
  kept := by
    intro b
    rcases Nat.eq_zero_or_pos b with rfl | hb
    · rfl
    · rw [block_of_size_le (show (new numVars).size ≤ b from hb)]
  noPhis := by
    intro b
    rcases Nat.eq_zero_or_pos b with rfl | hb
    · rfl
    · rw [block_of_size_le (show (new numVars).size ≤ b from hb)]
  vars := by
    intro b i hi
    rcases Nat.eq_zero_or_pos b with rfl | hb
    · simp [new, block] at hi
    · rw [block_of_size_le (show (new numVars).size ≤ b from hb)] at hi
      simp at hi

namespace Fresh

variable {g : FlowGraph}

theorem addBlock (h : g.Fresh) : g.addBlock.Fresh where
  toLinked := h.toLinked.addBlock
  marked := by
    rw [block_addBlock]
    exact h.marked
  kept := by
    intro b
    rw [block_addBlock]
    exact h.kept b
  noPhis := by
    intro b
    rw [block_addBlock]
    exact h.noPhis b
  vars := by
    intro b
    rw [block_addBlock]
    exact h.vars b

theorem setJump (h : g.Fresh) {p : BlockId} {j : Jump} (hp : p < g.size)
    (hj : ∀ s ∈ j.successors, s < g.size) : (g.setJump p j).Fresh where
  toLinked := h.toLinked.setJump hp hj
  marked := by
    obtain ⟨preds, hblock, -⟩ := g.block_setJump p j entry
    rw [hblock]
    exact h.marked
  kept := by
    intro b
    rw [removed_setJump]
    exact h.kept b
  noPhis := by
    intro b
    obtain ⟨preds, hblock, -⟩ := g.block_setJump p j b
    rw [hblock]
    exact h.noPhis b
  vars := by
    intro b
    obtain ⟨preds, hblock, -⟩ := g.block_setJump p j b
    rw [hblock, numVars_setJump]
    exact h.vars b

/-- Changes of a block that add nothing but instructions on the variables of the graph. -/
theorem modify (h : g.Fresh) (b : BlockId) {f : Block → Block}
    (hf : ∀ blk, (f blk).jump = blk.jump ∧ (f blk).preds = blk.preds ∧ (f blk).isEntry = blk.isEntry ∧
      (f blk).removed = blk.removed ∧ (f blk).phis = blk.phis)
    (hvars : ∀ blk, ∀ i ∈ (f blk).instrs, i ∈ blk.instrs ∨ ∀ v ∈ i.mentions, v < g.numVars) :
    (g.modify b f).Fresh where
  toLinked := h.toLinked.modify b (fun blk => by rw [(hf blk).1]) fun blk => (hf blk).2.1
  marked := by
    rw [block_modify]
    split
    · exact (hf _).2.2.1.trans h.marked
    · exact h.marked
  kept := by
    intro c
    rw [block_modify]
    split
    · exact (hf _).2.2.2.1.trans (h.kept c)
    · exact h.kept c
  noPhis := by
    intro c
    rw [block_modify]
    split
    · exact (hf _).2.2.2.2.trans (h.noPhis c)
    · exact h.noPhis c
  vars := by
    intro c i hi
    rw [block_modify] at hi
    split at hi
    · rcases hvars _ i hi with hold | hnew
      · exact h.vars c i hold
      · exact hnew
    · exact h.vars c i hi

end Fresh

/-- What a graph built by hand is like. -/
theorem Built.fresh {g : FlowGraph} (h : g.Built) : g.Fresh := by
  induction h with
  | new numVars => exact fresh_new numVars
  | addBlock _ ih => exact ih.addBlock
  | @setJump g g' p j _ hset ih =>
    rw [setJump?] at hset
    split at hset
    · next hadmits =>
      cases hset
      rw [admits, Bool.and_eq_true, decide_eq_true_eq, List.all_eq_true] at hadmits
      refine ih.setJump hadmits.1 fun s hs => ?_
      exact decide_eq_true_eq.mp (hadmits.2 s hs)
    · exact nomatch hset
  | @pushInstr g g' b i _ hvars hpush ih =>
    rw [pushInstr?, edit?] at hpush
    split at hpush
    · cases hpush
      refine ih.modify b (fun _ => ⟨rfl, rfl, rfl, rfl, rfl⟩) fun blk k hk => ?_
      rcases Array.mem_push.mp hk with hk | rfl
      · exact .inl hk
      · exact .inr hvars
    · exact nomatch hpush

end FlowGraph

end SsaFlow
