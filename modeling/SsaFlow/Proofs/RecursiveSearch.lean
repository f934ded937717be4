-- SUMMARY: Depth-first search as a recursion, and that the walk over pending visits finds the same.
import SsaFlow.Graph.Order
import SsaFlow.Proofs.Exploration

/-!
# Depth-first search as a recursion

`search` is depth-first search written down as it is said: every node of a list that has no depth yet gets one,
then what it leads to is searched one level deeper, and then the node is left. An exploration with pending visits
keeps visits to nodes that have been entered in the meantime along another way; making such a visit does nothing,
which is why it finds the same depths and leaves the nodes in the same order (`explore_eq_search`).
-/

namespace SsaFlow

namespace DepthFirst

variable {next : Nat → List Nat}

/-! ## What a search has found -/

/-- What a search has found so far: the depth of each node that it has entered, and the nodes that it has left, in
that order. -/
structure Found where
  depths : Array (Option Nat)
  left : List Nat
deriving DecidableEq

namespace Found

def none (bound : Nat) : Found := ⟨Array.replicate bound Option.none, []⟩

def depth? (s : Found) (node : Nat) : Option Nat := (s.depths[node]?).join

def enter (s : Found) (node depth : Nat) : Found :=
  { s with depths := s.depths.setIfInBounds node (some depth) }

def leave (s : Found) (node : Nat) : Found := { s with left := s.left ++ [node] }

/-- Number of nodes that have not been entered. -/
def unseen (s : Found) : Nat := s.depths.count Option.none

/-- Entering a node makes the unseen ones fewer. -/
theorem unseen_enter_lt {s : Found} {node : Nat} (depth : Nat) (h : s.depths[node]? = some Option.none) :
    (s.enter node depth).unseen < s.unseen := by
  obtain ⟨hlt, hnone⟩ := Array.getElem?_eq_some_iff.mp h
  have hpos : 0 < s.depths.count Option.none := Array.count_pos_iff.mpr (hnone ▸ Array.getElem_mem hlt)
  have hset : (s.enter node depth).unseen = s.depths.count Option.none - 1 := by
    rw [unseen, enter, Array.setIfInBounds, dif_pos hlt, Array.count_set, hnone]
    rfl
  rw [hset, unseen]
  omega

end Found

/-- Searches from the nodes of a list, in order and at the given depth. A node that has a depth already is passed
over. -/
def search (next : Nat → List Nat) (depth : Nat) (s : Found) : List Nat → { t : Found // t.unseen ≤ s.unseen }
  | [] => ⟨s, Nat.le_refl _⟩
  | node :: rest =>
    if h : s.depths[node]? = some none then
      let below := search next (depth + 1) (s.enter node depth) (next node)
      let after := search next depth (below.1.leave node) rest
      ⟨after.1, Nat.le_trans after.2 (Nat.le_of_lt (Nat.lt_of_le_of_lt below.2 (Found.unseen_enter_lt depth h)))⟩
    else
      search next depth s rest
termination_by nodes => (s.unseen, nodes.length)
decreasing_by
  · exact Prod.Lex.left _ _ (Found.unseen_enter_lt depth h)
  · exact Prod.Lex.left _ _ (Nat.lt_of_le_of_lt below.2 (Found.unseen_enter_lt depth h))
  · exact Prod.Lex.right _ (by simp)

/-! ## What the visits of a trace have found -/

/-- What the visits of a trace have found, the latest visit first. -/
def Found.ofTrace (bound : Nat) (trace : List Visit) : Found :=
  ⟨DepthFirst.depths bound trace.reverse, postorder trace.reverse⟩

namespace Found

theorem ofTrace_nil (bound : Nat) : ofTrace bound [] = .none bound := rfl

theorem ofTrace_enter (bound node depth : Nat) (trace : List Visit) :
    ofTrace bound (.enter node depth :: trace) = (ofTrace bound trace).enter node depth := by
  simp [ofTrace, enter, DepthFirst.depths]

theorem ofTrace_leave (bound node : Nat) (trace : List Visit) :
    ofTrace bound (.leave node :: trace) = (ofTrace bound trace).leave node := by
  simp [ofTrace, leave, DepthFirst.depths]

/-- Marks of the nodes that have been entered. -/
def marks (s : Found) : Array Bool := s.depths.map Option.isSome

theorem marks_none (bound : Nat) : (none bound).marks = Array.replicate bound false := by
  simp [marks, none]

@[simp] theorem marks_leave (s : Found) (node : Nat) : (s.leave node).marks = s.marks := rfl

@[simp] theorem size_marks (s : Found) : s.marks.size = s.depths.size := Array.size_map

theorem marks_enter (s : Found) {node : Nat} (depth : Nat) (h : node < s.marks.size) :
    (s.enter node depth).marks = s.marks.set node true := by
  rw [size_marks] at h
  simp [marks, enter, Array.setIfInBounds, h]

/-- A node is unmarked if it is below the bound and has not been entered. -/
theorem fresh_iff {s : Found} {node : Nat} :
    s.depths[node]? = some Option.none ↔ ∃ h : node < s.marks.size, s.marks[node] = false := by
  simp [marks, Array.getElem?_eq_some_iff]

end Found

/-- Making pending visits to the nodes of a list finds what a search from them finds. -/
theorem explore_eq_search (bound depth : Nat) (nodes : List Nat) (trace : List Visit) :
    ∃ trace', explore next (Found.ofTrace bound trace).marks trace (nodes.map (.enter · depth)) =
        ((Found.ofTrace bound trace').marks, trace') ∧
      Found.ofTrace bound trace' = (search next depth (Found.ofTrace bound trace) nodes).1 := by
  generalize hs : Found.ofTrace bound trace = s
  fun_induction search next depth s nodes generalizing trace with
  | case1 depth s => exact ⟨trace, by rw [List.map_nil, explore, hs], hs⟩
  | case2 depth s node rest h below after ihbelow ihafter =>
    obtain ⟨hlt, hunmarked⟩ := Found.fresh_iff.mp h
    have henter : Found.ofTrace bound (.enter node depth :: trace) = s.enter node depth := by
      rw [Found.ofTrace_enter, hs]
    obtain ⟨inner, hinner, hbelow⟩ := ihbelow _ henter
    have hleave : Found.ofTrace bound (.leave node :: inner) = below.1.leave node := by
      rw [Found.ofTrace_leave, hbelow]
    obtain ⟨outer, houter, hafter⟩ := ihafter _ hleave
    refine ⟨outer, ?_, hafter⟩
    rw [List.map_cons, explore, dif_pos hlt, if_pos hunmarked, ← s.marks_enter depth hlt, explore_append, hinner,
      explore, hbelow]
    exact houter
  | case3 depth s node rest h ih =>
    obtain ⟨outer, houter, hafter⟩ := ih _ hs
    refine ⟨outer, ?_, hafter⟩
    rw [← houter, List.map_cons, explore]
    split
    · next hlt => rw [if_neg fun hunmarked => h (Found.fresh_iff.mpr ⟨hlt, hunmarked⟩)]
    · rfl

/-- The depths and the postorder of a trace are those of the search from its starts. -/
theorem ofTrace_trace (next : Nat → List Nat) (bound : Nat) (starts : List Nat) :
    (⟨depths bound (trace next bound starts), postorder (trace next bound starts)⟩ : Found) =
      (search next 0 (.none bound) starts).1 := by
  obtain ⟨visits, hvisits, hfound⟩ := @explore_eq_search next bound 0 starts []
  rw [Found.ofTrace_nil, Found.marks_none] at hvisits
  rw [trace, hvisits]
  exact hfound

end DepthFirst

namespace FlowGraph

/-- The walk over pending visits is depth-first search: it enters the blocks at the depths and leaves them in the
order of the search that goes from the entry, block by block, to the live successors that are part of the graph and
have not been entered, in the order in which the jump lists them. -/
theorem walk_is_search (g : FlowGraph) :
    DepthFirst.postorder g.walk = (DepthFirst.search g.presentTargets 0 (.none g.size) [entry]).1.left ∧
      DepthFirst.depths g.size g.walk = (DepthFirst.search g.presentTargets 0 (.none g.size) [entry]).1.depths := by
  rw [← DepthFirst.ofTrace_trace]
  exact ⟨rfl, rfl⟩

end FlowGraph

end SsaFlow
