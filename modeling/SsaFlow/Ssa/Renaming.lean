-- SUMMARY: Giving every definition its own version and binding every use to the version that reaches it.
import SsaFlow.Graph.Basic

/-!
# Renaming

Blocks are visited in the preorder of the dominator tree. Every definition (a phi, a parameter, an
assignment) takes the next version of its variable, and every use takes the latest definition so far
that reaches it; a use that none reaches has version 0. After a block, the phis of its live successors
take what reaches its end.

Renaming stops at the first inconsistency. What it has renamed up to there stays renamed, down to the
operands of the instruction at which it stops, so each step returns what it has changed together with
the reason to stop, if any.
-/

namespace SsaFlow

/-- A version of a variable and the place that defines it. -/
structure Definition where
  version : Nat
  site : Site
deriving DecidableEq

/-- The definitions of each variable so far, the latest first. -/
abbrev Definitions := Array (List Definition)

namespace Definitions

def none (numVars : Nat) : Definitions := Array.replicate numVars []

def count (ds : Definitions) : Nat := ds.toList.foldl (fun n chain => n + chain.length) 0

/-- The version that a next definition takes. -/
def nextVersion : List Definition → Nat
  | [] => 1
  | d :: _ => d.version + 1

/-- Makes a new definition of a variable. -/
def define (ds : Definitions) (var : VarId) (site : Site) :
    Except InternalError (VersionedVar × Definitions) :=
  match ds[var]? with
  | Option.none => .error (.unknownVariable var)
  | some chain =>
    let version := nextVersion chain
    .ok (⟨var, version⟩, ds.modify var (⟨version, site⟩ :: ·))

/-- The latest definition of a variable that reaches a place. -/
def lookup (ds : Definitions) (tree : DominatorTree) (var : VarId) (at_ : Site) :
    Except InternalError VersionedVar :=
  match ds[var]? with
  | Option.none => .error (.unknownVariable var)
  | some chain =>
    match chain.find? fun d => tree.reaches d.site at_ with
    | Option.none => .ok (.unbound var)
    | some d => .ok ⟨var, d.version⟩

/-- Binds an operand to the definition that reaches a place. -/
def resolve (ds : Definitions) (tree : DominatorTree) (at_ : Site) :
    Operand → Except InternalError Operand
  | .var v =>
    match ds.lookup tree v.var at_ with
    | .error e => .error e
    | .ok v' => .ok (.var v')
  | op => .ok op

end Definitions

/-- The result of a step that may stop: what became of the subject, the definitions so far, and the
reason to stop. -/
structure Renamed (α : Type) where
  result : α
  defs : Definitions
  stop : Option InternalError

namespace Renaming

variable (tree : DominatorTree) (block : BlockId)

/-! ## Phis -/

/-- Makes a definition of the target of each phi. `seen` holds the variables of the phis before. -/
def phis (defs : Definitions) (seen : List VarId) : List Phi → Renamed (List Phi)
  | [] => ⟨[], defs, none⟩
  | φ :: rest =>
    if seen.contains φ.var then ⟨φ :: rest, defs, some (.duplicatePhi φ.var block)⟩
    else
      match defs.define φ.var ⟨block, .phi⟩ with
      | .error e => ⟨φ :: rest, defs, some e⟩
      | .ok (target, defs') =>
        let r := phis defs' (φ.var :: seen) rest
        ⟨{ φ with target := target } :: r.result, r.defs, r.stop⟩

/-! ## Instructions -/

/-- Renames what an instruction writes. A declaration writes nothing, but no definition may reach it. -/
def write (defs : Definitions) (at_ : Site) : Instr → Renamed Instr
  | .declare var =>
    match defs.lookup tree var at_ with
    | .error e => ⟨.declare var, defs, some e⟩
    | .ok v =>
      ⟨.declare var, defs, if v.isBound then some (.redefinedBeforeDeclaration var block) else none⟩
  | .param dst index =>
    match defs.define dst.var at_ with
    | .error e => ⟨.param dst index, defs, some e⟩
    | .ok (dst', defs') => ⟨.param dst' index, defs', none⟩
  | .assign dst value =>
    match defs.define dst.var at_ with
    | .error e => ⟨.assign dst value, defs, some e⟩
    | .ok (dst', defs') => ⟨.assign dst' value, defs', none⟩
  | i => ⟨i, defs, none⟩

/-- Renames one instruction: what it reads, then what it writes. -/
def instr (defs : Definitions) (index : Nat) (i : Instr) : Renamed Instr :=
  let at_ : Site := ⟨block, .instr index⟩
  match i.replaceOperands (defs.resolve tree at_) with
  | (i', some e) => ⟨i', defs, some e⟩
  | (i', none) => write tree block defs at_ i'

/-- Renames instructions; `done` holds those before them, renamed. -/
def instrs (defs : Definitions) (done : Array Instr) : List Instr → Renamed (Array Instr)
  | [] => ⟨done, defs, none⟩
  | i :: rest =>
    let ⟨i', defs', stop⟩ := instr tree block defs done.size i
    match stop with
    | some e => ⟨done.push i' ++ rest, defs', some e⟩
    | none => instrs defs' (done.push i') rest

/-! ## Jumps and successors -/

/-- Renames the value that the jump of the block reads. -/
def jump (defs : Definitions) (j : Jump) : Jump × Option InternalError :=
  match j.operand? with
  | none => (j, none)
  | some op =>
    match defs.resolve tree ⟨block, .exit⟩ op with
    | .error e => (j, some e)
    | .ok op' => (j.mapOperand fun _ => op', none)

/-- Binds the slots of the block in the phis of a live successor. -/
def slots (defs : Definitions) (successor : BlockId) : List Phi → List Phi × Option InternalError :=
  replaceUntil fun φ =>
    match defs.lookup tree φ.var ⟨block, .exit⟩ with
    | .error e => .error e
    | .ok value =>
      match φ.bind? block value with
      | none => .error (.malformed (.noPhiSlot φ.var successor block))
      | some φ' => .ok φ'

/-- Binds the slots of the block in all the given successors. -/
def successors (defs : Definitions) : FlowGraph → List BlockId → FlowGraph × Option InternalError
  | g, [] => (g, none)
  | g, s :: rest =>
    let (phis, stop) := slots tree block defs s (g.block s).phis
    let g' := g.modify s fun blk => { blk with phis := phis }
    match stop with
    | some e => (g', some e)
    | none => successors defs g' rest

/-! ## Blocks -/

/-- Renames the contents of a block: phis, instructions, jump. -/
def contents (defs : Definitions) (blk : Block) : Renamed Block :=
  let φs := phis block defs [] blk.phis
  let blk := { blk with phis := φs.result }
  match φs.stop with
  | some e => ⟨blk, φs.defs, some e⟩
  | none =>
    let is := instrs tree block φs.defs #[] blk.instrs.toList
    let blk := { blk with instrs := is.result }
    match is.stop with
    | some e => ⟨blk, is.defs, some e⟩
    | none =>
      let (j, stop) := jump tree block is.defs blk.jump
      ⟨{ blk with jump := j }, is.defs, stop⟩

/-- Renames a block and binds its slots in the live successors. -/
def visit (defs : Definitions) (g : FlowGraph) : Renamed FlowGraph :=
  let r := contents tree block defs (g.block block)
  let g' := g.modify block fun _ => r.result
  match r.stop with
  | some e => ⟨g', r.defs, some e⟩
  | none =>
    let (g'', stop) := successors tree block r.defs g' (g'.targets block)
    ⟨g'', r.defs, stop⟩

def visitAll (defs : Definitions) (g : FlowGraph) : List BlockId → Renamed FlowGraph
  | [] => ⟨g, defs, none⟩
  | b :: rest =>
    let r := visit tree b defs g
    match r.stop with
    | some e => ⟨r.result, r.defs, some e⟩
    | none => visitAll r.defs r.result rest

end Renaming

/-- Renames all variables. Returns the graph as far as it was renamed, and the number of definitions or
the reason to stop. Dominance is taken out of the graph meanwhile, and put back in either case. -/
def FlowGraph.rename (g : FlowGraph) : FlowGraph × Except InternalError Nat :=
  match g.dominance with
  | none => (g, .error (.passOrder "rename_variables" "compute_dominance"))
  | some dom =>
    let r := Renaming.visitAll dom.tree (.none g.numVars) { g with dominance := none } dom.tree.preorder
    let g' := { r.result with dominance := some dom }
    match r.stop with
    | some e => (g', .error e)
    | none => (g', .ok r.defs.count)

end SsaFlow
