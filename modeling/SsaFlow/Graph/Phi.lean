-- SUMMARY: Phi functions: one slot per predecessor, in ascending order of predecessors.
import SsaFlow.Graph.IdSet
import SsaFlow.Graph.Instr

/-!
# Phi functions

A phi merges the versions of one variable at a block where several paths meet. It has one slot per
predecessor, listed in ascending order; a slot holds an unbound reference until a version is bound to
it.
-/

namespace SsaFlow

/-- The merge of one variable's versions at the start of a block. -/
structure Phi where
  target : VersionedVar
  slots : List (BlockId × VersionedVar)
deriving DecidableEq, Inhabited

namespace Phi

/-- A phi for `var` with an open slot for each of the given predecessors. -/
def ofPreds (var : VarId) (preds : List BlockId) : Phi where
  target := .unbound var
  slots := (IdSet.ofList preds).toList.map fun p => (p, .unbound var)

def var (φ : Phi) : VarId := φ.target.var

def preds (φ : Phi) : List BlockId := φ.slots.map Prod.fst

/-- The value that comes in from a predecessor, if it has a slot. -/
def incoming? (φ : Phi) (pred : BlockId) : Option VersionedVar := φ.slots.lookup pred

/-- Binds the slot of a predecessor; `none` if it has no slot. -/
def bind? (φ : Phi) (pred : BlockId) (value : VersionedVar) : Option Phi :=
  if φ.preds.contains pred then
    some { φ with slots := φ.slots.map fun (p, v) => if p = pred then (p, value) else (p, v) }
  else
    none

def slotText : BlockId × VersionedVar → String
  | (pred, value) =>
    let pred := showBlock pred
    s!"{pred}: {value}"

def text : Phi → String
  | ⟨target, slots⟩ =>
    let slots := commaSeparated (slots.map slotText)
    s!"{target} = phi({slots})"

instance : ToString Phi := ⟨text⟩

end Phi

end SsaFlow
