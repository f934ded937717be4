-- SUMMARY: Depth-first exploration of a numbered graph with an explicit list of pending visits.

/-!
# Depth-first exploration

Nodes are the numbers below a bound and `next` lists the neighbours of a node. The exploration keeps the
visits that are still to be made in a list, so its depth is not limited by the call stack. Its trace
records every node twice: when it is entered, with the number of steps from the start, and when all that
was found from it has been left again. Preorder, postorder and the reached set can be read off the trace.

Every step either takes a node that was not seen before or shortens the list of pending visits, which is
why the exploration ends.
-/

namespace SsaFlow

/-- A visit of the exploration: on the way in, with the depth, or on the way out. -/
inductive Visit where
  | enter (node depth : Nat)
  | leave (node : Nat)
deriving DecidableEq

namespace DepthFirst

/-- Marking a node leaves fewer nodes unmarked. -/
theorem count_set_lt {seen : Array Bool} {node : Nat} (h : node < seen.size)
    (hseen : seen[node] = false) :
    (seen.set node true).count false < seen.count false := by
  have hpos : 0 < seen.count false := Array.count_pos_iff.mpr (hseen ▸ Array.getElem_mem h)
  have hset : (seen.set node true).count false = seen.count false - 1 := by
    rw [Array.count_set, hseen]
    rfl
  omega

/-- Makes the pending visits; `seen` marks the nodes entered so far and `trace` lists the visits made,
the latest first. -/
def explore (next : Nat → List Nat) (seen : Array Bool) (trace : List Visit) :
    List Visit → Array Bool × List Visit
  | [] => (seen, trace)
  | .leave node :: pending => explore next seen (.leave node :: trace) pending
  | .enter node depth :: pending =>
    if h : node < seen.size then
      if seen[node] = false then
        explore next (seen.set node true) (.enter node depth :: trace)
          ((next node).map (.enter · (depth + 1)) ++ .leave node :: pending)
      else
        explore next seen trace pending
    else
      explore next seen trace pending
termination_by pending => (seen.count false, pending.length)
decreasing_by
  · exact Prod.Lex.right _ (by simp)
  · rename_i hseen
    exact Prod.Lex.left _ _ (count_set_lt h hseen)
  · exact Prod.Lex.right _ (by simp)
  · exact Prod.Lex.right _ (by simp)

/-- The visits made from the given starts, in order. -/
def trace (next : Nat → List Nat) (bound : Nat) (starts : List Nat) : List Visit :=
  (explore next (Array.replicate bound false) [] (starts.map (.enter · 0))).2.reverse

/-- For every node whether it is reached from the starts. -/
def reached (next : Nat → List Nat) (bound : Nat) (starts : List Nat) : Array Bool :=
  (explore next (Array.replicate bound false) [] (starts.map (.enter · 0))).1

def preorder (visits : List Visit) : List Nat :=
  visits.filterMap fun
    | .enter node _ => some node
    | .leave _ => none

/-- The nodes in the order in which they are left. -/
def postorder (visits : List Visit) : List Nat :=
  visits.filterMap fun
    | .enter _ _ => none
    | .leave node => some node

/-- For every node the depth at which it was entered. -/
def depths (bound : Nat) (visits : List Visit) : Array (Option Nat) :=
  visits.foldl (fun acc visit =>
    match visit with
    | .enter node depth => acc.setIfInBounds node (some depth)
    | .leave _ => acc) (Array.replicate bound none)

/-- For every node its number in the order of entering, and the largest such number among the nodes
that were entered before it was left. -/
def intervals (bound : Nat) (visits : List Visit) : Array (Option (Nat × Nat)) :=
  (visits.foldl (fun (count, acc) visit =>
    match visit with
    | .enter node _ => (count + 1, acc.setIfInBounds node (some (count, count)))
    | .leave node =>
      (count, acc.modify node (Option.map fun (first, _) => (first, count - 1))))
    ((0, Array.replicate bound none) : Nat × Array (Option (Nat × Nat)))).2

end DepthFirst

end SsaFlow
