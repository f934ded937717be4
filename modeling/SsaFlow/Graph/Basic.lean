-- SUMMARY: Flow graphs: their blocks, and what has been found out about them.
import SsaFlow.Dominator.Tree
import SsaFlow.Graph.Block
import SsaFlow.Ssa.DefinitionSites

/-!
# Flow graphs

A flow graph is the list of its blocks, of which block 0 is the entry. Blocks are never taken out of the
list; a block that is no longer part of the graph is marked as removed. Edges are changed by
`FlowGraph.setJump` only (see `SsaFlow.Graph.Edge`).

What has been found out about the graph is kept next to the blocks: the reachable blocks, the depths of
the ordering, dominance, and the definition sites. A block id that is out of range stands for a blank
block when it is read and is left alone when it is written.

A pass changes a graph in place and may stop with an error, so it gives back the graph as it leaves it
together with its answer. A graph that a pass has given up on is of no further use to the next one
(`FlowGraph.completed`).
-/

namespace SsaFlow

structure Dominance where
  tree : DominatorTree
  frontiers : Array IdSet
deriving DecidableEq

def Dominance.frontier (dom : Dominance) (b : BlockId) : IdSet := dom.frontiers.getD b ∅

/-- The flow graph of one function. -/
structure FlowGraph where
  blocks : Array Block
  /-- Number of source variables. -/
  numVars : Nat
  /-- Number of temporaries. -/
  numTemps : Nat := 0
  /-- The blocks that can be reached: ascending at first, in reverse postorder once ordered. -/
  reachable : Option (List BlockId) := none
  /-- The depth of each block in the ordering walk; present once the graph is ordered. -/
  depths : Option (Array (Option Nat)) := none
  dominance : Option Dominance := none
  definitionSites : Option DefinitionSites := none
deriving DecidableEq

namespace FlowGraph

/-- The block where execution starts. -/
def entry : BlockId := 0

/-- The graph that consists of an open entry block. -/
def new (numVars : Nat) : FlowGraph where
  blocks := #[{ isEntry := true }]
  numVars := numVars

/-- Number of blocks ever made. -/
def size (g : FlowGraph) : Nat := g.blocks.size

def block (g : FlowGraph) (b : BlockId) : Block := g.blocks.getD b {}

def jump (g : FlowGraph) (b : BlockId) : Jump := (g.block b).jump

/-- The blocks that control can go to from a block. -/
def targets (g : FlowGraph) (b : BlockId) : List BlockId := (g.jump b).targets

def modify (g : FlowGraph) (b : BlockId) (f : Block → Block) : FlowGraph :=
  { g with blocks := g.blocks.modify b f }

/-- Makes a new open block; its id is the old size. -/
def addBlock (g : FlowGraph) : FlowGraph := { g with blocks := g.blocks.push {} }

def ids (g : FlowGraph) : List BlockId := List.range g.size

/-- Ids of the blocks that are not removed, ascending. -/
def liveIds (g : FlowGraph) : List BlockId := g.ids.filter fun b => !(g.block b).removed

def isOrdered (g : FlowGraph) : Bool := g.depths.isSome

def depth? (g : FlowGraph) (b : BlockId) : Option Nat := g.depths.bind fun d => (d[b]?).join

def frontier (g : FlowGraph) (b : BlockId) : IdSet :=
  match g.dominance with
  | none => ∅
  | some dom => dom.frontier b

/-- The position of each block in the ordering. -/
def orderIndices (g : FlowGraph) : Array (Option Nat) :=
  let blank := Array.replicate g.size none
  if g.isOrdered then
    (g.reachable.getD []).zipIdx.foldl (fun acc (b, i) => acc.setIfInBounds b (some i)) blank
  else
    blank

/-- The graph and the answer of a pass that went through. -/
def completed {α : Type} : FlowGraph × Except InternalError α → Except InternalError (FlowGraph × α)
  | (_, .error e) => .error e
  | (g, .ok a) => .ok (g, a)

/-- A pass that went through is one that gives an answer and not an error. -/
theorem completed_eq_ok {α : Type} {p : FlowGraph × Except InternalError α} {r : FlowGraph × α} :
    completed p = .ok r ↔ p = (r.1, .ok r.2) := by
  obtain ⟨g, outcome⟩ := p
  cases outcome with
  | error e => exact ⟨nofun, nofun⟩
  | ok a =>
    constructor
    · intro h
      cases h
      rfl
    · intro h
      cases h
      rfl

/-- Forgets what was derived from the edges, the list of reachable blocks apart. -/
def forgetAnalyses (g : FlowGraph) : FlowGraph :=
  { g with depths := none, dominance := none, definitionSites := none }

/-! ## Blocks after a change -/

@[simp] theorem size_modify (g : FlowGraph) (b : BlockId) (f : Block → Block) :
    (g.modify b f).size = g.size := by
  simp [modify, size]

theorem block_modify (g : FlowGraph) (b c : BlockId) (f : Block → Block) :
    (g.modify b f).block c = if b = c ∧ c < g.size then f (g.block c) else g.block c := by
  simp only [modify, block, size, Array.getD_eq_getD_getElem?, Array.getElem?_modify]
  by_cases hc : c < g.blocks.size
  · by_cases hb : b = c <;> simp [hb, hc]
  · by_cases hb : b = c <;> simp [hb, hc]

theorem block_of_size_le {g : FlowGraph} {b : BlockId} (h : g.size ≤ b) : g.block b = {} := by
  have : g.blocks[b]? = none := Array.getElem?_eq_none h
  simp [block, Array.getD_eq_getD_getElem?, this]

@[simp] theorem size_addBlock (g : FlowGraph) : g.addBlock.size = g.size + 1 := by
  simp [addBlock, size]

theorem block_addBlock (g : FlowGraph) (b : BlockId) : g.addBlock.block b = g.block b := by
  simp only [addBlock, block, Array.getD_eq_getD_getElem?, Array.getElem?_push]
  split
  · next h => simp [h]
  · rfl

theorem size_le_addBlock (g : FlowGraph) : g.size ≤ g.addBlock.size := by
  rw [size_addBlock]
  exact Nat.le_succ _

theorem jump_addBlock (g : FlowGraph) (b : BlockId) : g.addBlock.jump b = g.jump b := by
  rw [jump, block_addBlock, jump]

theorem mem_liveIds {g : FlowGraph} {b : BlockId} :
    b ∈ g.liveIds ↔ b < g.size ∧ (g.block b).removed = false := by
  simp [liveIds, ids]

/-! ## Written form -/

/-- The blocks that are written out: the reachable ones if they are known, else those not removed. -/
def shown (g : FlowGraph) : List BlockId := g.reachable.getD g.liveIds

def lines (g : FlowGraph) : List String := g.shown.flatMap fun b => (g.block b).lines b

end FlowGraph

end SsaFlow
