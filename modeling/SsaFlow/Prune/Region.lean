-- SUMMARY: Dead regions: runs of dead statements that no live statement interrupts.
import SsaFlow.Source.Span

/-!
# Dead regions

The statements of a connected piece of dead code are listed in source order and cut wherever a live
statement stands between two of them. Each run that remains is one region.
-/

namespace SsaFlow.DeadRegion

/-- The distinct spans of a list in ascending order. -/
def sorted (spans : List Span) : List Span := (spans.mergeSort Span.le).eraseReps

/-- Whether live code starts at or after offset `stop` and ends before `next` begins. -/
def interrupted (live : List Span) (stop : Nat) (next : Span) : Bool :=
  live.any fun l => decide (stop ≤ l.start ∧ l.stop ≤ next.start)

/-- Continues the run that ends with the statements `run`, the latest first; `stop` is the largest
offset at which one of them ends. -/
def extend (live : List Span) (run : List Span) (stop : Nat) : List Span → List (List Span)
  | [] => [run.reverse]
  | s :: rest =>
    if interrupted live stop s then run.reverse :: extend live [s] s.stop rest
    else extend live (s :: run) (max stop s.stop) rest

/-- The runs of a list of spans that no live span interrupts. -/
def runs (live : List Span) : List Span → List (List Span)
  | [] => []
  | s :: rest => extend live [s] s.stop rest

/-- Regions are ordered by their first span in which they differ, a shorter one first. -/
def le : List Span → List Span → Bool
  | [], _ => true
  | _ :: _, [] => false
  | s :: ss, t :: ts => if s = t then le ss ts else s.le t

end SsaFlow.DeadRegion
