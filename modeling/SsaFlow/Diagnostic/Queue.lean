-- SUMMARY: The queue of diagnostics: limit on errors, suppression of repeats, sorted delivery.
import SsaFlow.Diagnostic.Basic

/-!
# Diagnostic queues

Diagnostics wait in a queue until they are delivered in source order. The queue can refuse errors past a
limit, and diagnostics that repeat the code and the primary span of one that is waiting.
-/

namespace SsaFlow

/-- What a queue refuses. -/
structure QueueConfig where
  /-- How many errors may wait; 0 for any number. -/
  errorLimit : Nat
  /-- Whether repeats are refused. -/
  deduplicate : Bool
deriving DecidableEq

/-- Ten errors, no repeats. -/
def QueueConfig.standard : QueueConfig := ⟨10, true⟩

/-- Everything is kept. -/
def QueueConfig.unlimited : QueueConfig := ⟨0, false⟩

/-- Diagnostics that wait for delivery, in the order in which they came. -/
structure DiagnosticQueue where
  config : QueueConfig := .standard
  waiting : List Diagnostic := []
  errorCount : Nat := 0
deriving DecidableEq

namespace DiagnosticQueue

def isFull (q : DiagnosticQueue) : Bool :=
  q.config.errorLimit != 0 && decide (q.config.errorLimit ≤ q.errorCount)

/-- Whether a diagnostic of that code at that span is waiting. -/
def holds (q : DiagnosticQueue) (d : Diagnostic) : Bool :=
  q.waiting.any fun w => w.code == d.code && w.anchor? == d.anchor?

/-- Whether the queue would take the diagnostic. -/
def accepts (q : DiagnosticQueue) (d : Diagnostic) : Bool :=
  !((d.isError && q.isFull) || (q.config.deduplicate && q.holds d))

/-- Adds a diagnostic that the queue accepts and says whether it did. -/
def push (q : DiagnosticQueue) (d : Diagnostic) : Bool × DiagnosticQueue :=
  if q.accepts d then
    (true, { q with
      waiting := q.waiting ++ [d]
      errorCount := if d.isError then q.errorCount + 1 else q.errorCount })
  else
    (false, q)

/-- The place in the source by which a diagnostic is sorted. -/
def sortKey (d : Diagnostic) : Span := d.anchor?.getD .nowhere

/-- Empties the queue and delivers what was waiting, sorted by place; what stands at the same place
keeps the order in which it came. -/
def drain (q : DiagnosticQueue) : List Diagnostic × DiagnosticQueue :=
  (q.waiting.mergeSort fun d e => (sortKey d).le (sortKey e), { q with waiting := [], errorCount := 0 })

end DiagnosticQueue

end SsaFlow
