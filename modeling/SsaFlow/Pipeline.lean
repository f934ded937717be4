-- SUMMARY: From a function to its SSA form, with warnings about dead code.
import SsaFlow.Diagnostic.Queue
import SsaFlow.Dominator.Build
import SsaFlow.Graph.Order
import SsaFlow.Lowering.Statement
import SsaFlow.Prune.Basic
import SsaFlow.Ssa.Check
import SsaFlow.Ssa.PhiPlacement
import SsaFlow.Ssa.Renaming

/-!
# Building SSA form

A function is lowered, pruned, ordered, and turned into SSA form. Dead code is reported to a queue and
stops nothing; what was reported stays in the queue when a later step fails.
-/

namespace SsaFlow

/-- What a build does besides building. -/
structure BuildConfig where
  /-- Check the result. -/
  verify : Bool
  /-- Warn about dead code. -/
  reportDeadCode : Bool
deriving DecidableEq

/-- Check everything and warn about dead code. -/
def BuildConfig.strict : BuildConfig := ⟨true, true⟩

/-- Check everything and warn about dead code. -/
def BuildConfig.standard : BuildConfig := ⟨true, true⟩

namespace FlowGraph

/-- Turns a pruned graph into SSA form. -/
def toSsa (verify : Bool) (g : FlowGraph) : Except InternalError FlowGraph := do
  let g ← g.withOrder
  let g ← g.withDominance
  let (g, _) ← g.withPhis
  let (g, _) ← completed g.rename
  if verify then g.check
  return g

end FlowGraph

def reportDead (regions : List (List Span)) (q : DiagnosticQueue) : DiagnosticQueue :=
  regions.foldl (fun q region => (q.push (.unreachableCode region)).2) q

/-- Builds the SSA form of a function. -/
def Function.build (fn : Function) (config : BuildConfig) (q : DiagnosticQueue) :
    DiagnosticQueue × Except BuildError FlowGraph :=
  match fn.lower with
  | .error e => (q, .error e)
  | .ok g =>
    let (g, report) := g.prune
    let q := if config.reportDeadCode then reportDead report.deadCode q else q
    match g.toSsa config.verify with
    | .error e => (q, .error (.internal e))
    | .ok g => (q, .ok g)

end SsaFlow
