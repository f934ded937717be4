-- SUMMARY: Where each variable is declared and defined, gathered from the instructions of blocks.
import SsaFlow.Error
import SsaFlow.Graph.Instr

/-!
# Definition sites

For every variable the blocks that declare or write it, and the one block that declares it. The sites
are gathered instruction by instruction; a variable that is not in the table, or a second declaration,
ends the gathering.
-/

namespace SsaFlow

/-- Per variable, where it is declared and written. -/
structure DefinitionSites where
  blocks : Array IdSet
  declaredIn : Array (Option BlockId)
deriving DecidableEq

namespace DefinitionSites

def none (numVars : Nat) : DefinitionSites :=
  ⟨Array.replicate numVars ∅, Array.replicate numVars Option.none⟩

/-- The blocks that declare or write the variable. -/
def blocksOf (d : DefinitionSites) (var : VarId) : IdSet := d.blocks.getD var ∅

def declaration? (d : DefinitionSites) (var : VarId) : Option BlockId := (d.declaredIn[var]?).join

def addSite (d : DefinitionSites) (var : VarId) (block : BlockId) : DefinitionSites :=
  { d with blocks := d.blocks.modify var (·.insert block) }

/-- Takes in one instruction of a block. -/
def record (d : DefinitionSites) (block : BlockId) : Instr → Except InternalError DefinitionSites
  | .declare var =>
    if var < d.blocks.size then
      match d.declaration? var with
      | some _ => .error (.duplicateDeclaration var)
      | Option.none =>
        .ok { d.addSite var block with declaredIn := d.declaredIn.setIfInBounds var (some block) }
    else
      .error (.unknownVariable var)
  | .param dst _ | .assign dst _ =>
    if dst.var < d.blocks.size then .ok (d.addSite dst.var block) else .error (.unknownVariable dst.var)
  | .copy .. | .unary .. | .binary .. | .call .. => .ok d

/-- Takes in the instructions of a block in order. -/
def recordAll (block : BlockId) : DefinitionSites → List Instr → Except InternalError DefinitionSites
  | d, [] => .ok d
  | d, i :: is =>
    match d.record block i with
    | .error e => .error e
    | .ok d' => recordAll block d' is

end DefinitionSites

end SsaFlow
