-- SUMMARY: Which SSA values are live where blocks begin and end.
import Std.Data.ExtTreeSet
import SsaFlow.Graph.Basic

/-!
# Liveness

A value is live where a block begins if control can get from there to a read of the value without
passing its definition. A phi reads its slot at the end of the predecessor, not in its own block.

Every block is scanned once, for the values that it reads before it defines them and for those that it
defines. The live sets start empty. A sweep goes over the blocks against the order and works out the sets
of each again, from the sets of its successors as they stand at that moment; a set that comes out
different is overwritten. Sweeps follow one another until one of them overwrites nothing.

References of version 0 are bound to no definition and are live nowhere.
-/

namespace SsaFlow

abbrev ValueSet := Std.ExtTreeSet VersionedVar

/-- The live values where each block begins and ends. -/
structure Liveness where
  liveIn : Array ValueSet
  liveOut : Array ValueSet
deriving DecidableEq

/-- What has been seen of a block on the way from its start. -/
structure BlockScan where
  /-- The values read before they were defined. -/
  exposed : ValueSet := ∅
  defined : ValueSet := ∅

namespace BlockScan

def define (s : BlockScan) (v : VersionedVar) : BlockScan := { s with defined := s.defined.insert v }

def read (s : BlockScan) (v : VersionedVar) : BlockScan :=
  if v.isBound ∧ v ∉ s.defined then { s with exposed := s.exposed.insert v } else s

/-- Goes past an instruction, which reads before it defines. -/
def instr (s : BlockScan) (i : Instr) : BlockScan := i.defined?.toList.foldl define (i.used.foldl read s)

/-- The values live where a block begins, from those live where it ends. -/
def before (s : BlockScan) (out : ValueSet) : ValueSet := s.exposed ∪ (out \ s.defined)

end BlockScan

/-- Goes over a whole block: its phis, which only define, its instructions and its jump. -/
def Block.scan (b : Block) : BlockScan :=
  let atStart := (b.phis.map Phi.target).foldl BlockScan.define {}
  let atEnd := b.instrs.foldl BlockScan.instr atStart
  b.jump.used?.toList.foldl BlockScan.read atEnd

namespace FlowGraph

/-- The values that the phis of `s` take from `b`. -/
def handedTo (g : FlowGraph) (b s : BlockId) : List VersionedVar :=
  ((g.block s).phis.filterMap (·.incoming? b)).filter VersionedVar.isBound

/-- The values that the phis of the live successors of a block take from it. -/
def handedOn (g : FlowGraph) (b : BlockId) : List VersionedVar := (g.targets b).flatMap (g.handedTo b)

def scans (g : FlowGraph) (order : List BlockId) : Array BlockScan :=
  order.foldl (fun acc b => acc.setIfInBounds b (g.block b).scan) (Array.replicate g.size {})

/-- The values live where a block ends, from those live where its successors begin. -/
def liveAfter (g : FlowGraph) (liveIn : Array ValueSet) (b : BlockId) : ValueSet :=
  (g.targets b).foldl (fun out s => (out ∪ liveIn.getD s ∅).insertMany (g.handedTo b s)) ∅

/-- Works out the sets of one block again. The flag is set if they come out different. -/
def revise (g : FlowGraph) (scans : Array BlockScan) : Liveness × Bool → BlockId → Liveness × Bool
  | (l, changed), b =>
    let out := g.liveAfter l.liveIn b
    let in_ := (scans.getD b {}).before out
    if in_ ≠ l.liveIn.getD b ∅ ∨ out ≠ l.liveOut.getD b ∅ then
      (⟨l.liveIn.setIfInBounds b in_, l.liveOut.setIfInBounds b out⟩, true)
    else (l, changed)

/-- Goes over the blocks once, the last of the order first. -/
def sweep (g : FlowGraph) (scans : Array BlockScan) (order : List BlockId) (l : Liveness) : Liveness × Bool :=
  order.reverse.foldl (g.revise scans) (l, false)

/-- Sweeps until nothing changes, or until the given number of sweeps is used up. -/
def sweeps (g : FlowGraph) (scans : Array BlockScan) (order : List BlockId) : Nat → Liveness → Liveness
  | 0, l => l
  | n + 1, l =>
    match g.sweep scans order l with
    | (l, true) => g.sweeps scans order n l
    | (l, false) => l

/-- The values that any block of an order reads or hands on. No others can be live. -/
def trackedValues (g : FlowGraph) (order : List BlockId) : List VersionedVar :=
  order.flatMap fun b => (g.block b).scan.exposed.toList ++ g.handedOn b

/-- More sweeps than can change anything: a sweep that does puts a tracked value into one of the two sets
of a block of the order, for good. -/
def sweepBound (g : FlowGraph) (order : List BlockId) : Nat :=
  2 * (order.length * (g.trackedValues order).length) + 1

/-- The liveness of an ordered graph. -/
def liveness (g : FlowGraph) : Except InternalError Liveness :=
  match g.reachable, g.isOrdered with
  | some order, true =>
    let nowhere : Liveness := ⟨Array.replicate g.size ∅, Array.replicate g.size ∅⟩
    .ok (g.sweeps (g.scans order) order (g.sweepBound order) nowhere)
  | _, _ => .error (.passOrder "compute_liveness" "compute_order")

end FlowGraph

end SsaFlow
