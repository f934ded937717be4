-- SUMMARY: Immediate dominators by position: chains that meet, in rounds until nothing changes.

/-!
# Dominator chains

Blocks are known here by their positions in the order of the graph, with the entry at position 0. A
chain table gives for each position the position of its immediate dominator as far as it is known; the
entry stands for its own. Following the table from a position gives its chain.

A position takes the place where the chains of its predecessors meet. Rounds over all positions are
repeated until a round changes nothing. When the order is a reverse postorder the chains descend and the
table settles on the immediate dominators; when edges have changed since, the table still settles, on
whatever the rounds arrive at.
-/

namespace SsaFlow

/-- For each position the position of its immediate dominator, where one is known. -/
abbrev ChainTable := Array (Option Nat)

namespace ChainTable

@[inline] def up (t : ChainTable) (pos : Nat) : Option Nat := (t[pos]?).join

/-- Where two chains meet: of two different positions the larger moves up its chain. `fuel` bounds the
number of moves; each chain has fewer positions than the table, so twice its size is enough. -/
def meet (t : ChainTable) : (fuel : Nat) → (a b : Nat) → Nat
  | 0, a, _ => a
  | fuel + 1, a, b =>
    if a = b then a
    else if b < a then
      match t.up a with
      | none => a
      | some next => t.meet fuel next b
    else
      match t.up b with
      | none => b
      | some next => t.meet fuel a next

/-- Where the chains of the predecessors that are resolved meet. -/
def meetAll (t : ChainTable) (preds : List Nat) : Option Nat :=
  (preds.filter fun p => (t.up p).isSome).foldl
    (fun found p =>
      match found with
      | none => some p
      | some current => some (t.meet (2 * t.size) p current))
    none

/-- Renews one position. -/
def renew (preds : Nat → List Nat) (t : ChainTable) (pos : Nat) : ChainTable :=
  match t.meetAll (preds pos) with
  | none => t
  | some dom => t.setIfInBounds pos (some dom)

/-- Renews every position after the entry, in order. -/
def round (preds : Nat → List Nat) (t : ChainTable) : ChainTable :=
  ((List.range t.size).tail).foldl (renew preds) t

/-- Repeats a round until it changes nothing, at most `fuel` times. -/
def settle (preds : Nat → List Nat) : (fuel : Nat) → ChainTable → ChainTable
  | 0, t => t
  | fuel + 1, t =>
    let t' := round preds t
    if t' = t then t else settle preds fuel t'

/-- The table in which only the entry is resolved. -/
def initial (size : Nat) : ChainTable := (Array.replicate size none).setIfInBounds 0 (some 0)

/-- The table on which the rounds settle. There are no more than `(size + 1) ^ size` tables, so rounds
that settle at all do so within that number. -/
def resolve (preds : Nat → List Nat) (size : Nat) : ChainTable :=
  settle preds (Nat.pow (size + 1) size) (initial size)

end ChainTable

end SsaFlow
