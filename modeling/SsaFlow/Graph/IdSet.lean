-- SUMMARY: Finite sets of identifiers: logarithmic updates, ascending listing, extensional equality.
import Std.Data.ExtTreeSet

/-!
# Sets of identifiers

A set of numbers is kept as a balanced tree whose shape cannot be observed, so two sets with the same
members are equal (`IdSet.ext_mem`), and listing a set always gives its members in ascending order
(`IdSet.pairwise_toList`). A block can have tens of thousands of predecessors, which is why adding or
dropping one member must not walk over the others.
-/

namespace SsaFlow

/-- A finite set of numbers. -/
abbrev IdSet := Std.ExtTreeSet Nat

namespace IdSet

def ofList (xs : List Nat) : IdSet := Std.ExtTreeSet.ofList xs

/-- The members of a list that are not in the set, each where it stands first. -/
def firstsOf (seen : IdSet) : List Nat → List Nat
  | [] => []
  | x :: xs => if x ∈ seen then firstsOf seen xs else x :: firstsOf (seen.insert x) xs

/-! ## Membership -/

theorem mem_insert {s : IdSet} {x z : Nat} : z ∈ s.insert x ↔ z = x ∨ z ∈ s := by
  rw [Std.ExtTreeSet.mem_insert, Std.LawfulEqCmp.compare_eq_iff_eq]
  exact or_congr_left eq_comm

theorem mem_erase {s : IdSet} {x z : Nat} : z ∈ s.erase x ↔ z ∈ s ∧ z ≠ x := by
  rw [Std.ExtTreeSet.mem_erase, ne_eq, Std.LawfulEqCmp.compare_eq_iff_eq, and_comm]
  exact and_congr_right fun _ => not_congr eq_comm

@[simp] theorem mem_ofList {xs : List Nat} {z : Nat} : z ∈ ofList xs ↔ z ∈ xs := by
  rw [ofList, Std.ExtTreeSet.mem_ofList, List.contains_iff_mem]

/-- A set lists its members in ascending order. -/
theorem pairwise_toList (s : IdSet) : s.toList.Pairwise (· < ·) :=
  Std.ExtTreeSet.ordered_toList.imp Nat.compare_eq_lt.mp

/-- Sets with the same members are equal. -/
theorem ext_mem {s t : IdSet} (h : ∀ x, x ∈ s ↔ x ∈ t) : s = t := Std.ExtTreeSet.ext_mem h

/-! ## First occurrences -/

/-- Dropping repeats loses no member, apart from those that were seen before. -/
theorem mem_firstsOf {seen : IdSet} {xs : List Nat} {z : Nat} :
    z ∈ firstsOf seen xs ↔ z ∈ xs ∧ z ∉ seen := by
  induction xs generalizing seen with
  | nil => simp [firstsOf]
  | cons x xs ih =>
    rw [firstsOf]
    split
    · next hx =>
      rw [ih, List.mem_cons]
      grind
    · next hx =>
      rw [List.mem_cons, ih, mem_insert, List.mem_cons]
      grind

/-- Nothing is listed twice. -/
theorem nodup_firstsOf (seen : IdSet) (xs : List Nat) : (firstsOf seen xs).Nodup := by
  induction xs generalizing seen with
  | nil => simp [firstsOf]
  | cons x xs ih =>
    rw [firstsOf]
    split
    · exact ih seen
    · rw [List.nodup_cons]
      refine ⟨fun h => ?_, ih _⟩
      exact (mem_firstsOf.mp h).2 (mem_insert.mpr (.inl rfl))

end IdSet

end SsaFlow
