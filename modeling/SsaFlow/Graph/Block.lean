-- SUMMARY: Basic blocks and their written form.
import SsaFlow.Graph.Jump
import SsaFlow.Graph.Phi
import SsaFlow.Source.Span

/-!
# Blocks

A block holds phis, then straight-line instructions, then one jump. It also keeps the spans of the
statements whose code begins in it and the set of blocks whose jumps name it.
-/

namespace SsaFlow

structure Block where
  isEntry : Bool := false
  phis : List Phi := []
  instrs : Array Instr := #[]
  /-- Spans of the statements whose code begins here. -/
  spans : Array Span := #[]
  jump : Jump := .missing
  /-- Blocks whose jump names this one, as a live successor or as a shadow. -/
  preds : IdSet := ∅
  removed : Bool := false
deriving DecidableEq

namespace Block

instance : Inhabited Block := ⟨{}⟩

def isEmpty (b : Block) : Bool := b.phis.isEmpty && b.instrs.isEmpty

/-- The first phi for a variable. -/
def phiFor? (b : Block) (var : VarId) : Option Phi := b.phis.find? (·.var == var)

/-- The headline of a block: its name and its predecessors. -/
def headline (id : BlockId) (b : Block) : String :=
  let preds := if b.preds.isEmpty then "" else
    " ; preds:" ++ String.join (b.preds.toList.map fun p => " " ++ showBlock p)
  showBlock id ++ ":" ++ preds

def lines (id : BlockId) (b : Block) : List String :=
  b.headline id :: (b.phis.map Phi.text ++ b.instrs.toList.map Instr.text ++ [b.jump.text]).map ("    " ++ ·)

end Block

end SsaFlow
