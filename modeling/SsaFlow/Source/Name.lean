-- SUMMARY: Interned names as a shard number and a slot packed into one number.

/-!
# Names

Names are interned: a string is represented by the place where the name table keeps it. The table has
`shardCount` shards, and a name packs the shard into its low four bits and the slot above them. Packing
loses nothing as long as the shard is in range (`Name.shard_pack`, `Name.slot_pack`).
-/

namespace SsaFlow

def shardCount : Nat := 16

/-- A handle of an interned string. -/
structure Name where
  raw : Nat
deriving DecidableEq, Inhabited

namespace Name

def empty : Name := ⟨0⟩

/-- The name kept at `slot` of `shard`. -/
def pack (shard : Fin shardCount) (slot : Nat) : Name := ⟨slot * shardCount + shard⟩

def shard (n : Name) : Fin shardCount := ⟨n.raw % shardCount, Nat.mod_lt _ (by decide)⟩

def slot (n : Name) : Nat := n.raw / shardCount

/-- The largest slot that still fits into a name. -/
def maxSlot : Nat := 0xfffffff

/-- The written form that shows both parts. -/
def describe (n : Name) : String :=
  let shard := n.shard.val
  let slot := n.slot
  s!"Name({shard}#{slot})"

@[simp] theorem shard_pack (shard : Fin shardCount) (slot : Nat) : (pack shard slot).shard = shard := by
  apply Fin.ext
  have h : shard.val < 16 := shard.isLt
  simp only [pack, Name.shard, shardCount]
  omega

@[simp] theorem slot_pack (shard : Fin shardCount) (slot : Nat) : (pack shard slot).slot = slot := by
  have h : shard.val < 16 := shard.isLt
  simp only [pack, Name.slot, shardCount]
  omega

end Name

end SsaFlow
