-- SUMMARY: Changing the jumps of a flow graph, with predecessor sets kept in step.
import SsaFlow.Graph.Basic

/-!
# Edges

A block keeps the set of blocks whose jumps name it. `FlowGraph.setJump` is the one way to change a jump;
it takes the block out of the predecessors of the old successors and puts it into those of the new ones.
`PredsInStep` says that predecessor sets and jumps agree, and `PredsInStep.setJump` that they still agree
after a change.
-/

namespace SsaFlow.FlowGraph

/-- Adds `p` to the predecessors of every block in the list. -/
def linkFrom (p : BlockId) (g : FlowGraph) (targets : List BlockId) : FlowGraph :=
  targets.foldl (fun g s => g.modify s fun b => { b with preds := b.preds.insert p }) g

/-- Takes `p` out of the predecessors of every block in the list. -/
def unlinkFrom (p : BlockId) (g : FlowGraph) (targets : List BlockId) : FlowGraph :=
  targets.foldl (fun g s => g.modify s fun b => { b with preds := b.preds.erase p }) g

/-- Gives block `p` another jump. -/
def setJump (g : FlowGraph) (p : BlockId) (j : Jump) : FlowGraph :=
  let old := (g.jump p).successors
  linkFrom p (unlinkFrom p (g.modify p fun b => { b with jump := j }) old) j.successors

/-- Whether the block and every block that the jump names exist. -/
def admits (g : FlowGraph) (p : BlockId) (j : Jump) : Bool :=
  decide (p < g.size) && j.successors.all fun s => decide (s < g.size)

/-- Cuts the edges out of a block and takes it out of the graph. -/
def detach (g : FlowGraph) (b : BlockId) : FlowGraph :=
  (g.setJump b .missing).modify b fun blk => { blk with removed := true }

/-- The predecessors of a block that are part of the graph and from which control can come. -/
def livePredecessors (g : FlowGraph) (b : BlockId) : List BlockId :=
  (g.block b).preds.toList.filter fun p => !(g.block p).removed && (g.jump p).goesTo b

/-! ## What a change of jump does -/

@[simp] theorem linkFrom_nil (p : BlockId) (g : FlowGraph) : linkFrom p g [] = g := rfl

@[simp] theorem linkFrom_cons (p : BlockId) (g : FlowGraph) (s : BlockId) (ss : List BlockId) :
    linkFrom p g (s :: ss) =
      linkFrom p (g.modify s fun b => { b with preds := b.preds.insert p }) ss := rfl

@[simp] theorem unlinkFrom_nil (p : BlockId) (g : FlowGraph) : unlinkFrom p g [] = g := rfl

@[simp] theorem unlinkFrom_cons (p : BlockId) (g : FlowGraph) (s : BlockId) (ss : List BlockId) :
    unlinkFrom p g (s :: ss) =
      unlinkFrom p (g.modify s fun b => { b with preds := b.preds.erase p }) ss := rfl

@[simp] theorem size_linkFrom (p : BlockId) (g : FlowGraph) (ss : List BlockId) :
    (linkFrom p g ss).size = g.size := by
  induction ss generalizing g with
  | nil => rfl
  | cons s ss ih => rw [linkFrom_cons, ih, size_modify]

@[simp] theorem size_unlinkFrom (p : BlockId) (g : FlowGraph) (ss : List BlockId) :
    (unlinkFrom p g ss).size = g.size := by
  induction ss generalizing g with
  | nil => rfl
  | cons s ss ih => rw [unlinkFrom_cons, ih, size_modify]

/-- Linking changes predecessor sets only. -/
theorem block_linkFrom (p : BlockId) (g : FlowGraph) (ss : List BlockId) (c : BlockId) :
    ∃ preds, (linkFrom p g ss).block c = { g.block c with preds := preds } ∧
      ∀ q, q ∈ preds ↔ q ∈ (g.block c).preds ∨ (q = p ∧ c ∈ ss ∧ c < g.size) := by
  induction ss generalizing g with
  | nil => exact ⟨(g.block c).preds, rfl, by simp⟩
  | cons s ss ih =>
    obtain ⟨preds, hblock, hmem⟩ := ih (g.modify s fun b => { b with preds := b.preds.insert p })
    rw [linkFrom_cons, hblock, block_modify]
    refine ⟨preds, ?_, fun q => ?_⟩
    · split <;> rfl
    · rw [hmem q, block_modify, size_modify]
      by_cases hs : s = c ∧ c < g.size
      · obtain ⟨rfl, hlt⟩ := hs
        simp only [hlt, and_self, if_true, IdSet.mem_insert, List.mem_cons, true_or, and_true]
        constructor
        · rintro ((h | h) | h)
          · exact .inr h
          · exact .inl h
          · exact .inr h.1
        · rintro (h | h)
          · exact .inl (.inr h)
          · exact .inl (.inl h)
      · rw [if_neg hs]
        constructor
        · rintro (h | ⟨hq, hc, hlt⟩)
          · exact .inl h
          · exact .inr ⟨hq, List.mem_cons_of_mem _ hc, hlt⟩
        · rintro (h | ⟨hq, hc, hlt⟩)
          · exact .inl h
          · rcases List.mem_cons.mp hc with rfl | hc
            · exact absurd ⟨rfl, hlt⟩ hs
            · exact .inr ⟨hq, hc, hlt⟩

/-- Unlinking changes predecessor sets only. -/
theorem block_unlinkFrom (p : BlockId) (g : FlowGraph) (ss : List BlockId) (c : BlockId) :
    ∃ preds, (unlinkFrom p g ss).block c = { g.block c with preds := preds } ∧
      ∀ q, q ∈ preds ↔ q ∈ (g.block c).preds ∧ ¬(q = p ∧ c ∈ ss ∧ c < g.size) := by
  induction ss generalizing g with
  | nil => exact ⟨(g.block c).preds, rfl, by simp⟩
  | cons s ss ih =>
    obtain ⟨preds, hblock, hmem⟩ := ih (g.modify s fun b => { b with preds := b.preds.erase p })
    rw [unlinkFrom_cons, hblock, block_modify]
    refine ⟨preds, ?_, fun q => ?_⟩
    · split <;> rfl
    · rw [hmem q, block_modify, size_modify]
      by_cases hs : s = c ∧ c < g.size
      · obtain ⟨rfl, hlt⟩ := hs
        simp only [hlt, and_self, if_true, IdSet.mem_erase, List.mem_cons, true_or, and_true]
        constructor
        · rintro ⟨⟨h, hne⟩, -⟩
          exact ⟨h, hne⟩
        · rintro ⟨h, hne⟩
          exact ⟨⟨h, hne⟩, fun hq => hne hq.1⟩
      · rw [if_neg hs]
        constructor
        · rintro ⟨h, hnot⟩
          refine ⟨h, fun ⟨hq, hc, hlt⟩ => ?_⟩
          rcases List.mem_cons.mp hc with rfl | hc
          · exact hs ⟨rfl, hlt⟩
          · exact hnot ⟨hq, hc, hlt⟩
        · rintro ⟨h, hnot⟩
          exact ⟨h, fun ⟨hq, hc, hlt⟩ => hnot ⟨hq, List.mem_cons_of_mem _ hc, hlt⟩⟩

@[simp] theorem size_setJump (g : FlowGraph) (p : BlockId) (j : Jump) :
    (g.setJump p j).size = g.size := by
  simp [setJump]

/-- A change of jump leaves everything but the jump and the predecessor sets as it is. -/
theorem block_setJump (g : FlowGraph) (p : BlockId) (j : Jump) (c : BlockId) :
    ∃ preds, (g.setJump p j).block c =
        { g.block c with jump := if p = c ∧ c < g.size then j else g.jump c, preds := preds } ∧
      ∀ q, q ∈ preds ↔
        (q ∈ (g.block c).preds ∧ ¬(q = p ∧ c ∈ (g.jump p).successors ∧ c < g.size)) ∨
          (q = p ∧ c ∈ j.successors ∧ c < g.size) := by
  obtain ⟨ps, hps, mps⟩ := block_unlinkFrom p (g.modify p fun b => { b with jump := j })
    (g.jump p).successors c
  obtain ⟨qs, hqs, mqs⟩ := block_linkFrom p
    (unlinkFrom p (g.modify p fun b => { b with jump := j }) (g.jump p).successors) j.successors c
  refine ⟨qs, ?_, fun q => ?_⟩
  · rw [setJump, hqs, hps, block_modify]
    split <;> rfl
  · have hpreds : ((g.modify p fun b => { b with jump := j }).block c).preds = (g.block c).preds := by
      rw [block_modify]
      split <;> rfl
    rw [mqs q, hps]
    simp only [mps q, hpreds, size_unlinkFrom, size_modify]

theorem jump_setJump (g : FlowGraph) (p : BlockId) (j : Jump) (c : BlockId) :
    (g.setJump p j).jump c = if p = c ∧ c < g.size then j else g.jump c := by
  obtain ⟨preds, hblock, -⟩ := g.block_setJump p j c
  rw [jump, hblock]

theorem removed_setJump (g : FlowGraph) (p : BlockId) (j : Jump) (c : BlockId) :
    ((g.setJump p j).block c).removed = (g.block c).removed := by
  obtain ⟨preds, hblock, -⟩ := g.block_setJump p j c
  rw [hblock]

/-! ## Agreement of jumps and predecessor sets -/

/-- The predecessors of every block are the blocks whose jumps name it. -/
def PredsInStep (g : FlowGraph) : Prop :=
  ∀ p s, p < g.size → s < g.size → (p ∈ (g.block s).preds ↔ s ∈ (g.jump p).successors)

/-- Another jump moves its block out of the old predecessor sets and into the new ones. -/
theorem PredsInStep.setJump {g : FlowGraph} (h : g.PredsInStep) (p : BlockId) (j : Jump) :
    (g.setJump p j).PredsInStep := by
  intro q s hq hs
  rw [size_setJump] at hq hs
  obtain ⟨preds, hblock, hmem⟩ := g.block_setJump p j s
  rw [hblock, jump_setJump]
  simp only [hmem q, hs, and_true]
  by_cases hqp : p = q
  · subst hqp
    rw [if_pos ⟨rfl, hq⟩]
    constructor
    · rintro (⟨hold, hnot⟩ | ⟨-, hnew⟩)
      · exact absurd ⟨rfl, (h p s hq hs).mp hold⟩ hnot
      · exact hnew
    · exact fun hnew => .inr ⟨rfl, hnew⟩
  · rw [if_neg (fun hc => hqp hc.1), ← h q s hq hs]
    constructor
    · rintro (⟨hold, -⟩ | ⟨hne, -⟩)
      · exact hold
      · exact absurd hne.symm hqp
    · exact fun hold => .inl ⟨hold, fun hc => hqp hc.1.symm⟩

/-- A change that leaves jumps and predecessor sets alone keeps them in step. -/
theorem PredsInStep.modify {g : FlowGraph} (h : g.PredsInStep) (b : BlockId) {f : Block → Block}
    (hjump : ∀ blk, (f blk).jump.successors = blk.jump.successors)
    (hpreds : ∀ blk, (f blk).preds = blk.preds) : (g.modify b f).PredsInStep := by
  intro p s hp hs
  rw [size_modify] at hp hs
  have hj : ((g.modify b f).jump p).successors = (g.jump p).successors := by
    rw [jump, jump, block_modify]
    split
    · exact hjump _
    · rfl
  have hq : ((g.modify b f).block s).preds = (g.block s).preds := by
    rw [block_modify]
    split
    · exact hpreds _
    · rfl
  rw [hj, hq]
  exact h p s hp hs

theorem PredsInStep.detach {g : FlowGraph} (h : g.PredsInStep) (b : BlockId) :
    (g.detach b).PredsInStep :=
  (h.setJump b .missing).modify b (fun _ => rfl) (fun _ => rfl)

theorem predsInStep_new (numVars : Nat) : (new numVars).PredsInStep := by
  intro p s hp hs
  have hsize : (new numVars).size = 1 := rfl
  obtain rfl : p = 0 := by omega
  obtain rfl : s = 0 := by omega
  simp [new, block, jump, Jump.successors, Jump.targets, Jump.shadow?]

end SsaFlow.FlowGraph
