-- SUMMARY: The table of interned strings: sixteen shards, each with its strings in slot order and their slots.
import Std.Data.TreeMap
import SsaFlow.Source.Fingerprint
import SsaFlow.Source.Name

/-!
# Name tables

A name table hands out one `Name` per distinct string. A shard keeps its strings in slot order, and the
slot of each string in a map beside them; the two agree in every shard. Every shard starts with the empty
string in slot 0, so the empty string has slot 0 wherever it is looked up. Which shard takes a string is decided by a
function from strings to shards; the table works with any such function that sends the empty string to
shard 0, and `homeShard` is the one in use.
-/

namespace SsaFlow

/-- One part of a name table. -/
structure Shard where
  /-- The slot of each string. -/
  slots : Std.TreeMap String Nat
  /-- The strings in slot order. -/
  strings : Array String
  agree : ∀ {s : String} {slot : Nat}, slots[s]? = some slot ↔ strings[slot]? = some s

structure NameTable where
  shards : Vector Shard shardCount

/-- A shard has no room for another string. -/
structure ShardFull where
  shard : Nat
deriving DecidableEq

/-- The wording of a full shard: how many names it holds. -/
def ShardFull.message : ShardFull → String
  | ⟨shard⟩ =>
    let names := Name.maxSlot + 1
    s!"interner shard {shard} is full ({names} names)"

/-- The shard of a string: the low bits of its fingerprint, shard 0 for the empty string. -/
def homeShard (s : String) : Fin shardCount :=
  if s = "" then ⟨0, by decide⟩
  else ⟨(Fingerprint.ofString s).toNat % shardCount, Nat.mod_lt _ (by decide)⟩

namespace Shard

def blank : Shard := ⟨∅, #[], by simp⟩

/-- Puts a new string into the next slot. -/
def push (shard : Shard) (s : String) (hnew : shard.slots[s]? = none) : Shard where
  slots := shard.slots.insert s shard.strings.size
  strings := shard.strings.push s
  agree := by
    intro r slot
    simp only [Std.TreeMap.getElem?_insert, Array.getElem?_push, Std.LawfulEqCmp.compare_eq_iff_eq]
    by_cases hs : s = r
    · subst hs
      have hnot : shard.strings[slot]? ≠ some s := by
        rw [ne_eq, ← shard.agree, hnew]
        exact nofun
      by_cases hslot : slot = shard.strings.size
      · simp [hslot]
      · simp [hslot, hnot, Ne.symm hslot]
    · rw [if_neg hs, shard.agree]
      by_cases hslot : slot = shard.strings.size
      · simp [hslot, hs]
      · rw [if_neg hslot]

end Shard

namespace NameTable

/-- The table that knows the empty string only. -/
def empty : NameTable := ⟨Vector.replicate shardCount (Shard.blank.push "" (by simp [Shard.blank]))⟩

/-- Interns a string in the given shard: its slot if it is there, else the next free slot. -/
def internIn (t : NameTable) (shard : Fin shardCount) (s : String) :
    Except ShardFull (Name × NameTable) :=
  let known := t.shards.get shard
  match h : known.slots[s]? with
  | some slot => .ok (.pack shard slot, t)
  | none =>
    if known.strings.size ≤ Name.maxSlot then
      .ok (.pack shard known.strings.size, ⟨t.shards.set shard (known.push s h)⟩)
    else
      .error ⟨shard⟩

/-- Interns a string in the shard that `homeShard` picks. -/
def intern? (t : NameTable) (s : String) : Except ShardFull (Name × NameTable) :=
  t.internIn (homeShard s) s

/-- Interns a string; a table without room for it is left as it is and answers with the empty name. -/
def intern (t : NameTable) (s : String) : Name × NameTable :=
  match t.intern? s with
  | .ok r => r
  | .error _ => (.empty, t)

/-- The string of a name, empty for a slot that was never handed out. -/
def lookup (t : NameTable) (n : Name) : String := (t.shards.get n.shard).strings.getD n.slot ""

/-- Number of strings interned so far, the empty one not counted. -/
def size (t : NameTable) : Nat := t.shards.toList.foldl (fun n shard => n + (shard.strings.size - 1)) 0

def isEmpty (t : NameTable) : Bool := t.size == 0

end NameTable

end SsaFlow
