-- SUMMARY: Broken promises of earlier stages, by cause, with their wording.
import SsaFlow.Diagnostic.Basic
import SsaFlow.Graph.IdSet
import SsaFlow.Graph.Value
import SsaFlow.Source.Name

/-!
# Internal errors

An internal error says that a stage found its input broken: earlier stages promise that none of this
happens. Each cause is a constructor, and `InternalError.message` holds all of the wording.
-/

namespace SsaFlow

/-- Ways in which a flow graph can be inconsistent. -/
inductive Malformation where
  | secondDefault (span : Span)
  | jumpToNowhere (block target : BlockId)
  | jumpToRemoved (block target : BlockId)
  | predecessors (block : BlockId) (stored expected : IdSet)
  | phiSlots (var : VarId) (block : BlockId)
  | entryNotListed
  | removedListed (block : BlockId)
  | successorNotListed (block successor : BlockId)
  | dominatedAfterUnresolved (block unresolved : BlockId)
  | noPhiSlot (var : VarId) (block pred : BlockId)
  | definitionWithoutVersion (value : VersionedVar) (block : BlockId)
  | definedTwice (value : VersionedVar)
  | notDominatedByEntry (block : BlockId)
  /-- A cause that has only a wording. -/
  | other (text : String)
deriving DecidableEq

def showBlockId (block : BlockId) : String := s!"BlockId({block})"

def showBlockSet (blocks : IdSet) : String :=
  "\x7b" ++ commaSeparated (blocks.toList.map showBlockId) ++ "\x7d"

def Malformation.message : Malformation → String
  | .secondDefault span => s!"second `default` label at {span}"
  | .jumpToNowhere block target => showBlock block ++ " jumps to nonexistent block " ++ showBlock target
  | .jumpToRemoved block target => showBlock block ++ " jumps to removed block " ++ showBlock target
  | .predecessors block stored expected =>
    "predecessors of " ++ showBlock block ++ " are " ++ showBlockSet stored
      ++ ", terminators say " ++ showBlockSet expected
  | .phiSlots var block =>
    "phi for " ++ showVar var ++ " in " ++ showBlock block ++ " does not match its live predecessors"
  | .entryNotListed => "entry block is not reachable"
  | .removedListed block => "reachable block " ++ showBlock block ++ " is removed"
  | .successorNotListed block successor =>
    showBlock successor ++ " is reachable from " ++ showBlock block ++ " but not listed"
  | .dominatedAfterUnresolved block unresolved =>
    showBlock block ++ " has a dominator but follows unresolved " ++ showBlock unresolved
  | .noPhiSlot var block pred =>
    "phi for " ++ showVar var ++ " in " ++ showBlock block ++ " has no slot for predecessor "
      ++ showBlock pred
  | .definitionWithoutVersion value block =>
    "definition of " ++ value.text ++ " in " ++ showBlock block ++ " has no version"
  | .definedTwice value => value.text ++ " is defined twice"
  | .notDominatedByEntry block => "entry does not dominate reachable block " ++ showBlock block
  | .other text => text

/-- What an earlier stage promised and did not keep. -/
inductive InternalError where
  | errorNode (span : Span)
  | breakOutsideLoop (span : Span)
  | continueOutsideLoop (span : Span)
  | caseOutsideSwitch (span : Span)
  | duplicateCase (value : Int) (span : Span)
  | duplicateLabel (name : Name) (span : Span)
  | missingTerminator (block : BlockId)
  | unknownVariable (var : VarId)
  | duplicateDeclaration (var : VarId)
  | redefinedBeforeDeclaration (var : VarId) (block : BlockId)
  | duplicatePhi (var : VarId) (block : BlockId)
  | nonDominatingDefinition (value : VersionedVar) (block : BlockId)
  | passOrder (pass missing : String)
  | malformed (cause : Malformation)
deriving DecidableEq

namespace InternalError

def message : InternalError → String
  | .errorNode span => s!"error node reached lowering at {span}"
  | .breakOutsideLoop span => s!"`break` outside of a loop or switch at {span}"
  | .continueOutsideLoop span => s!"`continue` outside of a loop at {span}"
  | .caseOutsideSwitch span => s!"`case` or `default` outside of a switch at {span}"
  | .duplicateCase value span => s!"duplicate case value {value} at {span}"
  | .duplicateLabel name span =>
    let raw := name.raw
    s!"label @{raw} defined twice (second at {span})"
  | .missingTerminator block => "block " ++ showBlock block ++ " has no terminator"
  | .unknownVariable var => "variable " ++ showVar var ++ " is not in the function's variable table"
  | .duplicateDeclaration var => "variable " ++ showVar var ++ " is declared more than once"
  | .redefinedBeforeDeclaration var block =>
    "variable " ++ showVar var ++ " is defined before its declaration in " ++ showBlock block
  | .duplicatePhi var block => showBlock block ++ " has two phi functions for " ++ showVar var
  | .nonDominatingDefinition value block =>
    "use of " ++ value.text ++ " in " ++ showBlock block ++ " is not dominated by its definition"
  | .passOrder pass missing => s!"`{pass}` requires {missing}"
  | .malformed cause => "malformed CFG: " ++ cause.message

/-- The error as a diagnostic on the function that was being compiled. -/
def diagnostic (e : InternalError) (span : Span) : Diagnostic where
  code := .internalError
  severity := .error
  message := "internal compiler error: " ++ e.message
  labels := [⟨span, "while building SSA for this function", true⟩]
  notes := ["this is a bug in the compiler, not in your program"]

end InternalError

end SsaFlow
