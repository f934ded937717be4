-- SUMMARY: Checks of a flow graph: consistent edges and phis, single assignment, dominated uses.
import Std.Data.HashMap
import SsaFlow.Graph.Edge

/-!
# Checks

Checks change nothing; they return the first violation they find. `checkStructure` looks at edges,
predecessor sets, phi slots and the list of reachable blocks. `checkSsa` looks at versions: every
definition has one, no two definitions share one, and every use is dominated by its definition.
-/

namespace SsaFlow

/-- Runs a check on each element of a list, up to the first violation. -/
def checkAll {α ε : Type} (check : α → Except ε Unit) : List α → Except ε Unit
  | [] => .ok ()
  | x :: xs =>
    match check x with
    | .error e => .error e
    | .ok () => checkAll check xs

/-- One check after another. -/
def checkBoth {ε : Type} (first : Except ε Unit) (second : Unit → Except ε Unit) : Except ε Unit :=
  match first with
  | .error e => .error e
  | .ok () => second ()

/-- A violation if the condition does not hold. -/
def require {ε : Type} (condition : Bool) (violation : ε) : Except ε Unit :=
  if condition then .ok () else .error violation

namespace FlowGraph

/-! ## Structure -/

/-- Checks the jump of a block: it is there, and it names blocks of the graph. -/
def checkJump (g : FlowGraph) (b : BlockId) : Except InternalError Unit :=
  let j := g.jump b
  checkBoth (require (!j.isMissing) (.missingTerminator b)) fun _ =>
  checkBoth (checkAll (fun s => require (decide (s < g.size)) (.malformed (.jumpToNowhere b s)))
    j.successors) fun _ =>
  checkAll (fun s => require (!(g.block s).removed) (.malformed (.jumpToRemoved b s))) j.targets

/-- The predecessors of each block according to the jumps of the blocks in the graph. -/
def namedPreds (g : FlowGraph) : Array IdSet :=
  g.liveIds.foldl (fun acc b =>
    (g.jump b).successors.foldl (fun acc s => acc.modify s (·.insert b)) acc)
    (Array.replicate g.size ∅)

/-- Checks that a block has at most one phi per variable, with a slot per live predecessor. `seen` holds
the variables of the phis before. -/
def checkPhis (g : FlowGraph) (b : BlockId) (seen : List VarId) : List Phi → Except InternalError Unit
  | [] => .ok ()
  | φ :: rest =>
    checkBoth (require (!seen.contains φ.var) (.duplicatePhi φ.var b)) fun _ =>
    checkBoth (require (φ.preds == g.livePredecessors b) (.malformed (.phiSlots φ.var b))) fun _ =>
    g.checkPhis b (φ.var :: seen) rest

/-- Checks the predecessors and the phis of a block. -/
def checkBlock (g : FlowGraph) (named : Array IdSet) (b : BlockId) : Except InternalError Unit :=
  let stored := (g.block b).preds
  let expected := named.getD b ∅
  checkBoth (require (decide (stored = expected))
    (.malformed (.predecessors b stored expected))) fun _ =>
  g.checkPhis b [] (g.block b).phis

/-- Checks a listed block: it is in the graph, and its live successors are listed. -/
def checkListed (g : FlowGraph) (listed : Array Bool) (b : BlockId) : Except InternalError Unit :=
  checkBoth (require (!(g.block b).removed) (.malformed (.removedListed b))) fun _ =>
  checkAll (fun s => require (listed.getD s false) (.malformed (.successorNotListed b s)))
    (g.targets b)

def checkReachable (g : FlowGraph) (order : List BlockId) : Except InternalError Unit :=
  let listed := order.foldl (fun acc b => acc.setIfInBounds b true) (Array.replicate g.size false)
  checkBoth (require (listed.getD entry false) (.malformed .entryNotListed)) fun _ =>
  checkAll (g.checkListed listed) order

/-- Checks the edges, the phi slots and the list of reachable blocks. -/
def checkStructure (g : FlowGraph) : Except InternalError Unit :=
  checkBoth (checkAll g.checkJump g.liveIds) fun _ =>
  checkBoth (checkAll (g.checkBlock g.namedPreds) g.liveIds) fun _ =>
  match g.reachable with
  | none => .ok ()
  | some order => g.checkReachable order

/-! ## Versions -/

/-- The definitions of a block in order. -/
def definitionsIn (g : FlowGraph) (b : BlockId) : List (VersionedVar × Site) :=
  (g.block b).phis.map (fun φ => (φ.target, ⟨b, .phi⟩))
    ++ (g.block b).instrs.toList.zipIdx.filterMap fun (i, k) => i.defined?.map fun v => (v, ⟨b, .instr k⟩)

/-- The uses in a block in order, each with the place where the value is read. A phi reads its slots at
the ends of the predecessors. -/
def usesIn (g : FlowGraph) (b : BlockId) : List (VersionedVar × Site) :=
  (g.block b).phis.flatMap (fun φ => φ.slots.map fun (p, v) => (v, ⟨p, .exit⟩))
    ++ (g.block b).instrs.toList.zipIdx.flatMap (fun (i, k) => i.used.map fun v => (v, ⟨b, .instr k⟩))
    ++ (g.jump b).used?.toList.map fun v => (v, ⟨b, .exit⟩)

/-- Where each value is defined; every definition has a version, and no two have the same. -/
def definitionTable : Std.HashMap VersionedVar Site → List (VersionedVar × Site) →
    Except InternalError (Std.HashMap VersionedVar Site)
  | table, [] => .ok table
  | table, (v, site) :: rest =>
    if !v.isBound then .error (.malformed (.definitionWithoutVersion v site.block))
    else if table.contains v then .error (.malformed (.definedTwice v))
    else definitionTable (table.insert v site) rest

/-- Checks that a use is dominated by the definition of its value. -/
def checkUse (tree : DominatorTree) (table : Std.HashMap VersionedVar Site) :
    VersionedVar × Site → Except InternalError Unit
  | (v, at_) =>
    let dominated :=
      match table[v]? with
      | none => false
      | some site => tree.reaches site at_
    require (!v.isBound || dominated) (.nonDominatingDefinition v at_.block)

/-- Checks the versions of a graph whose dominator tree is known. -/
def checkVersions (g : FlowGraph) (tree : DominatorTree) : Except InternalError Unit :=
  match definitionTable ∅ (tree.preorder.flatMap g.definitionsIn) with
  | .error e => .error e
  | .ok table => checkAll (checkUse tree table) (tree.preorder.flatMap g.usesIn)

/-- Checks single assignment and that definitions dominate their uses. -/
def checkSsa (g : FlowGraph) : Except InternalError Unit :=
  match g.dominance with
  | none => .error (.passOrder "verify_ssa" "compute_dominance")
  | some dom => g.checkVersions dom.tree

/-- Checks all that can be checked: the structure, and once dominance is known, that every reachable
block is in the tree, and the versions. -/
def check (g : FlowGraph) : Except InternalError Unit :=
  checkBoth g.checkStructure fun _ =>
  match g.dominance with
  | none => .ok ()
  | some dom =>
    let orphan := (g.reachable.getD []).find? fun b => !dom.tree.contains b
    match orphan with
    | some b => .error (.malformed (.notDominatedByEntry b))
    | none => g.checkSsa

end FlowGraph

end SsaFlow
