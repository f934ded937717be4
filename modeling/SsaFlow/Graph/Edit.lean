-- SUMMARY: Edits of a flow graph by hand, refused where the block, instruction or phi does not exist.
import SsaFlow.Graph.Edge

/-!
# Edits

Edits address blocks, instructions and phis by number. An edit of something that does not exist gives
`none` and nothing is changed.
-/

namespace SsaFlow

namespace Phi

/-- Drops the last slot. -/
def dropLastSlot (φ : Phi) : Phi := { φ with slots := φ.slots.dropLast }

/-- Binds the slot of a predecessor if it has one, and says whether it has. -/
def bindIfPresent (φ : Phi) (pred : BlockId) (value : VersionedVar) : Bool × Phi :=
  match φ.bind? pred value with
  | none => (false, φ)
  | some φ' => (true, φ')

end Phi

namespace FlowGraph

def block? (g : FlowGraph) (b : BlockId) : Option Block := g.blocks[b]?

def edit? (g : FlowGraph) (b : BlockId) (f : Block → Block) : Option FlowGraph :=
  if b < g.size then some (g.modify b f) else none

/-- Gives a block another jump, if the block and all blocks that the jump names exist. -/
def setJump? (g : FlowGraph) (p : BlockId) (j : Jump) : Option FlowGraph :=
  if g.admits p j then some (g.setJump p j) else none

def detach? (g : FlowGraph) (b : BlockId) : Option FlowGraph :=
  if b < g.size then some (g.detach b) else none

def pushInstr? (g : FlowGraph) (b : BlockId) (i : Instr) : Option FlowGraph :=
  g.edit? b fun blk => { blk with instrs := blk.instrs.push i }

def setInstr? (g : FlowGraph) (b : BlockId) (k : Nat) (i : Instr) : Option FlowGraph :=
  if k < (g.block b).instrs.size then
    g.edit? b fun blk => { blk with instrs := blk.instrs.setIfInBounds k i }
  else
    none

def pushPhi? (g : FlowGraph) (b : BlockId) (φ : Phi) : Option FlowGraph :=
  g.edit? b fun blk => { blk with phis := blk.phis ++ [φ] }

def phi? (g : FlowGraph) (b : BlockId) (k : Nat) : Option Phi := (g.block b).phis[k]?

def setPhi? (g : FlowGraph) (b : BlockId) (k : Nat) (φ : Phi) : Option FlowGraph :=
  if k < (g.block b).phis.length then
    g.edit? b fun blk => { blk with phis := blk.phis.set k φ }
  else
    none

/-- Replaces the value that the jump of a block reads. -/
def setOperand? (g : FlowGraph) (b : BlockId) (op : Operand) : Option FlowGraph :=
  g.edit? b fun blk => { blk with jump := blk.jump.mapOperand fun _ => op }

/-- Notes that the code of a statement begins in a block. -/
def pushSpan? (g : FlowGraph) (b : BlockId) (span : Span) : Option FlowGraph :=
  g.edit? b fun blk => { blk with spans := blk.spans.push span }

/-- Marks a block as the entry, or takes the mark away. -/
def setEntry? (g : FlowGraph) (b : BlockId) (isEntry : Bool) : Option FlowGraph :=
  g.edit? b fun blk => { blk with isEntry := isEntry }

end FlowGraph

end SsaFlow
