-- SUMMARY: Dominator trees with constant-time queries, and points inside blocks.
import SsaFlow.Graph.Value

/-!
# Dominator trees

A dominator tree holds the blocks that can be reached from the entry. Its tables are indexed by block;
blocks outside the tree have no entry in them. Every block of the tree has an interval: its number in
the preorder of the tree and the largest such number below it. A block dominates exactly the blocks
whose numbers lie in its interval.
-/

namespace SsaFlow

/-- A place inside a block: phis come before the instructions, the jump comes after them. -/
inductive Point where
  | phi
  | instr (index : Nat)
  | exit
deriving DecidableEq, Inhabited

def Point.before : Point → Point → Bool
  | .phi, .phi => false
  | .phi, _ => true
  | .instr i, .instr j => decide (i < j)
  | .instr _, .exit => true
  | .instr _, .phi => false
  | .exit, _ => false

/-- A place in the graph. -/
structure Site where
  block : BlockId
  point : Point
deriving DecidableEq, Inhabited

/-- The dominator tree of a flow graph. -/
structure DominatorTree where
  /-- The blocks of the tree in reverse postorder, the entry first. -/
  order : List BlockId
  /-- The immediate dominator of each block; the entry has none. -/
  parent : Array (Option BlockId)
  /-- The blocks immediately dominated by each block. -/
  children : Array (List BlockId)
  /-- The blocks of the tree, each before those below it. -/
  preorder : List BlockId
  /-- The preorder number of each block and the largest one below it. -/
  interval : Array (Option (Nat × Nat))
deriving DecidableEq

namespace DominatorTree

/-- The preorder numbers at and below a block. -/
def interval? (t : DominatorTree) (b : BlockId) : Option (Nat × Nat) := (t.interval[b]?).join

def contains (t : DominatorTree) (b : BlockId) : Bool := (t.interval? b).isSome

def idom? (t : DominatorTree) (b : BlockId) : Option BlockId := (t.parent[b]?).join

def childrenOf (t : DominatorTree) (b : BlockId) : List BlockId := t.children.getD b []

/-- The immediate dominators along the order of the tree; the entry stands for its own. -/
def parentList (t : DominatorTree) : List BlockId := t.order.map fun b => (t.idom? b).getD b

/-- Whether `a` dominates `b`; every block of the tree dominates itself. -/
def dominates (t : DominatorTree) (a b : BlockId) : Bool :=
  match t.interval? a, t.interval? b with
  | some (first, last), some (number, _) => decide (first ≤ number ∧ number ≤ last)
  | _, _ => false

/-- Whether `a` dominates `b` and is another block. -/
def properlyDominates (t : DominatorTree) (a b : BlockId) : Bool := a != b && t.dominates a b

/-- Whether a definition at `site` is executed before `at_` on every way there. -/
def reaches (t : DominatorTree) (site at_ : Site) : Bool :=
  if site.block = at_.block then site.point.before at_.point && t.contains at_.block
  else t.properlyDominates site.block at_.block

end DominatorTree

end SsaFlow
