-- SUMMARY: The sweeps of liveness come to an end, with exactly the values that the rules of liveness derive.
import Mathlib
import SsaFlow.Ssa.Liveness

/-!
# Live sets

Liveness is said here by rules (`FlowGraph.LiveIn`, `FlowGraph.LiveOut`): a value is live where a block
begins if the block reads it first, or if it is live where the block ends and the block does not define
it.

The sweeps overwrite sets in place, so every set is worked out from a mixture of old and new ones. What
holds at every moment (`FlowGraph.Rising`) is that no set has more than the rules derive, and that no set
would lose a member if it were worked out again. So sets only grow, a sweep that changes something adds a
value for good, and after a bounded number of sweeps one finds all sets as they should be
(`FlowGraph.Rising.sweeps`). Sets that satisfy the equations of liveness hold all that the rules derive.
-/

namespace SsaFlow

namespace ValueSet

theorem mem_insert {s : ValueSet} {v x : VersionedVar} : v ∈ s.insert x ↔ v = x ∨ v ∈ s := by
  rw [Std.ExtTreeSet.mem_insert, Std.LawfulEqCmp.compare_eq_iff_eq]
  exact or_congr_left eq_comm

theorem mem_insertMany {s : ValueSet} {v : VersionedVar} {xs : List VersionedVar} :
    v ∈ s.insertMany xs ↔ v ∈ s ∨ v ∈ xs := by
  rw [Std.ExtTreeSet.mem_insertMany_list, List.contains_iff_mem]

end ValueSet

/-! ## What a block reads first -/

namespace BlockScan

variable {s : BlockScan} {v : VersionedVar}

@[simp] theorem exposed_define (s : BlockScan) (x : VersionedVar) : (s.define x).exposed = s.exposed := rfl

@[simp] theorem mem_define {x : VersionedVar} : v ∈ (s.define x).defined ↔ v = x ∨ v ∈ s.defined :=
  ValueSet.mem_insert

@[simp] theorem defined_read (s : BlockScan) (x : VersionedVar) : (s.read x).defined = s.defined := by
  unfold read
  split <;> rfl

@[simp] theorem mem_exposed_read {x : VersionedVar} :
    v ∈ (s.read x).exposed ↔ v ∈ s.exposed ∨ v = x ∧ v.isBound = true ∧ v ∉ s.defined := by
  unfold read
  split
  · next hnew =>
    rw [ValueSet.mem_insert]
    constructor
    · rintro (rfl | hv)
      · exact .inr ⟨rfl, hnew⟩
      · exact .inl hv
    · rintro (hv | ⟨rfl, -⟩)
      · exact .inr hv
      · exact .inl rfl
  · next hold =>
    refine ⟨.inl, fun hv => hv.resolve_right ?_⟩
    rintro ⟨rfl, hnew⟩
    exact hold hnew

theorem mem_foldl_define {xs : List VersionedVar} :
    v ∈ (xs.foldl define s).defined ↔ v ∈ xs ∨ v ∈ s.defined := by
  induction xs generalizing s with
  | nil => simp
  | cons x xs ih => simp [ih, or_assoc, or_left_comm]

theorem exposed_foldl_define (s : BlockScan) (xs : List VersionedVar) :
    (xs.foldl define s).exposed = s.exposed := by
  induction xs generalizing s with
  | nil => rfl
  | cons x xs ih => simp [ih]

theorem defined_foldl_read (s : BlockScan) (xs : List VersionedVar) :
    (xs.foldl read s).defined = s.defined := by
  induction xs generalizing s with
  | nil => rfl
  | cons x xs ih => simp [ih]

theorem mem_exposed_foldl_read {xs : List VersionedVar} :
    v ∈ (xs.foldl read s).exposed ↔ v ∈ s.exposed ∨ v ∈ xs ∧ v.isBound = true ∧ v ∉ s.defined := by
  induction xs generalizing s with
  | nil => simp
  | cons x xs ih => simp [ih, or_assoc, or_and_right]

theorem mem_defined_instr {i : Instr} : v ∈ (s.instr i).defined ↔ i.defined? = some v ∨ v ∈ s.defined := by
  unfold instr
  rw [mem_foldl_define, defined_foldl_read, Option.mem_toList]

theorem mem_exposed_instr {i : Instr} :
    v ∈ (s.instr i).exposed ↔ v ∈ s.exposed ∨ v ∈ i.used ∧ v.isBound = true ∧ v ∉ s.defined := by
  unfold instr
  rw [exposed_foldl_define, mem_exposed_foldl_read]

theorem mem_defined_instrs {is : List Instr} :
    v ∈ (is.foldl instr s).defined ↔ (∃ i ∈ is, i.defined? = some v) ∨ v ∈ s.defined := by
  induction is generalizing s with
  | nil => simp
  | cons i is ih => simp [ih, mem_defined_instr, or_assoc, or_left_comm]

/-- A value is exposed by the first instruction that reads it, if none before that one defines it. -/
theorem mem_exposed_instrs {is : List Instr} :
    v ∈ (is.foldl instr s).exposed ↔ v ∈ s.exposed ∨ v.isBound = true ∧ v ∉ s.defined ∧
      ∃ (k : Nat) (i : Instr), is[k]? = some i ∧ v ∈ i.used ∧
        ∀ j < k, ∀ i' : Instr, is[j]? = some i' → i'.defined? ≠ some v := by
  induction is generalizing s with
  | nil => simp
  | cons i is ih =>
    rw [List.foldl_cons, ih, mem_exposed_instr, mem_defined_instr, not_or]
    constructor
    · rintro ((hv | ⟨hread, hbound, hnot⟩) | ⟨hbound, ⟨hother, hnot⟩, k, i', hi', hread, hfirst⟩)
      · exact .inl hv
      · exact .inr ⟨hbound, hnot, 0, i, rfl, hread, fun j hj => absurd hj (Nat.not_lt_zero j)⟩
      · refine .inr ⟨hbound, hnot, k + 1, i', hi', hread, fun j hj i'' hi'' => ?_⟩
        cases j with
        | zero =>
          cases hi''
          exact hother
        | succ j => exact hfirst j (Nat.lt_of_succ_lt_succ hj) i'' hi''
    · rintro (hv | ⟨hbound, hnot, k, i', hi', hread, hfirst⟩)
      · exact .inl (.inl hv)
      · cases k with
        | zero =>
          cases hi'
          exact .inl (.inr ⟨hread, hbound, hnot⟩)
        | succ k =>
          refine .inr ⟨hbound, ⟨hfirst 0 (Nat.succ_pos k) i rfl, hnot⟩, k, i', hi', hread, ?_⟩
          exact fun j hj => hfirst (j + 1) (Nat.succ_lt_succ hj)

end BlockScan

namespace Block

variable {b : Block} {v : VersionedVar}

/-- A phi or an instruction of the block defines the value. -/
def Defines (b : Block) (v : VersionedVar) : Prop :=
  (∃ φ ∈ b.phis, φ.target = v) ∨ ∃ i ∈ b.instrs, i.defined? = some v

/-- An instruction or the jump of the block reads the value before anything in the block defines it. -/
def ReadsFirst (b : Block) (v : VersionedVar) : Prop :=
  (∀ φ ∈ b.phis, φ.target ≠ v) ∧
    ((∃ (k : Nat) (i : Instr), b.instrs[k]? = some i ∧ v ∈ i.used ∧
        ∀ j < k, ∀ i' : Instr, b.instrs[j]? = some i' → i'.defined? ≠ some v) ∨
      b.jump.used? = some v ∧ ∀ i ∈ b.instrs, i.defined? ≠ some v)

theorem mem_defined_scan : v ∈ b.scan.defined ↔ b.Defines v := by
  unfold scan Defines
  dsimp only
  rw [← Array.foldl_toList, BlockScan.defined_foldl_read, BlockScan.mem_defined_instrs,
    BlockScan.mem_foldl_define, or_comm]
  simp

/-- One pass over a block finds the values that it reads before it defines them. -/
theorem mem_exposed_scan : v ∈ b.scan.exposed ↔ v.isBound = true ∧ b.ReadsFirst v := by
  unfold scan ReadsFirst
  dsimp only
  rw [← Array.foldl_toList, BlockScan.mem_exposed_foldl_read, BlockScan.mem_exposed_instrs,
    BlockScan.mem_defined_instrs, BlockScan.exposed_foldl_define, BlockScan.mem_foldl_define]
  simp only [Array.getElem?_toList, Array.mem_toList_iff, Std.ExtTreeSet.not_mem_empty, false_or,
    or_false, List.mem_map, not_exists, not_and, not_or, Option.mem_toList]
  constructor
  · rintro (⟨hbound, hphis, hread⟩ | ⟨hjump, hbound, hinstrs, hphis⟩)
    · exact ⟨hbound, hphis, .inl hread⟩
    · exact ⟨hbound, hphis, .inr ⟨hjump, hinstrs⟩⟩
  · rintro ⟨hbound, hphis, hread | ⟨hjump, hinstrs⟩⟩
    · exact .inl ⟨hbound, hphis, hread⟩
    · exact .inr ⟨hjump, hbound, hinstrs, hphis⟩

end Block

theorem BlockScan.mem_before {s : BlockScan} {out : ValueSet} {v : VersionedVar} :
    v ∈ s.before out ↔ v ∈ s.exposed ∨ v ∈ out ∧ v ∉ s.defined := by
  unfold before
  rw [Std.ExtTreeSet.mem_union_iff, Std.ExtTreeSet.mem_diff_iff]

namespace FlowGraph

/-! ## Liveness by rules -/

/-- The value is live where the block begins: the block reads it first, or it is live where the block ends
and the block does not define it. -/
inductive LiveIn (g : FlowGraph) (order : List BlockId) (v : VersionedVar) : BlockId → Prop
  | read {b : BlockId} : b ∈ order → v ∈ (g.block b).scan.exposed → LiveIn g order v b
  | taken {b : BlockId} : b ∈ order → v ∈ g.handedOn b → v ∉ (g.block b).scan.defined → LiveIn g order v b
  | carried {b c : BlockId} : LiveIn g order v c → b ∈ order → c ∈ g.targets b →
      v ∉ (g.block b).scan.defined → LiveIn g order v b

/-- The value is live where the block ends: a phi of a successor takes it, or it is live where a successor
begins. -/
def LiveOut (g : FlowGraph) (order : List BlockId) (v : VersionedVar) (b : BlockId) : Prop :=
  b ∈ order ∧ (v ∈ g.handedOn b ∨ ∃ c ∈ g.targets b, g.LiveIn order v c)

section Rules

variable {g : FlowGraph} {order : List BlockId} {v : VersionedVar} {b : BlockId}

theorem LiveIn.mem (h : g.LiveIn order v b) : b ∈ order := by
  cases h with
  | read hb | taken hb | carried _ hb => exact hb

/-- What is live where a block ends and is not defined there is live where it begins. -/
theorem LiveOut.liveIn (h : g.LiveOut order v b) (hnot : v ∉ (g.block b).scan.defined) :
    g.LiveIn order v b := by
  obtain ⟨hb, htaken | ⟨c, hc, hlive⟩⟩ := h
  · exact .taken hb htaken hnot
  · exact .carried hlive hb hc hnot

theorem mem_trackedValues : v ∈ g.trackedValues order ↔
    ∃ b ∈ order, v ∈ (g.block b).scan.exposed ∨ v ∈ g.handedOn b := by
  simp only [trackedValues, List.mem_flatMap, List.mem_append, Std.ExtTreeSet.mem_toList]

/-- A value that is live anywhere is read or handed on by some block. -/
theorem LiveIn.tracked (h : g.LiveIn order v b) : v ∈ g.trackedValues order := by
  induction h with
  | read hb hread => exact mem_trackedValues.mpr ⟨_, hb, .inl hread⟩
  | taken hb htaken _ => exact mem_trackedValues.mpr ⟨_, hb, .inr htaken⟩
  | carried _ _ _ _ ih => exact ih

theorem LiveOut.tracked (h : g.LiveOut order v b) : v ∈ g.trackedValues order := by
  obtain ⟨hb, htaken | ⟨c, -, hlive⟩⟩ := h
  · exact mem_trackedValues.mpr ⟨b, hb, .inr htaken⟩
  · exact hlive.tracked

end Rules

end FlowGraph

/-! ## Sets at the boundaries of blocks -/

/-- The start or the end of a block. -/
inductive Boundary where
  | start (b : BlockId)
  | finish (b : BlockId)
deriving DecidableEq

namespace Liveness

def valuesAt (l : Liveness) : Boundary → ValueSet
  | .start b => l.liveIn.getD b ∅
  | .finish b => l.liveOut.getD b ∅

/-- No set of `l` has a value that the set of `l'` lacks. -/
def Within (l l' : Liveness) : Prop := ∀ p, ∀ v ∈ l.valuesAt p, v ∈ l'.valuesAt p

end Liveness

namespace FlowGraph

variable {g : FlowGraph} {order : List BlockId} {scans : Array BlockScan} {l l' : Liveness}
  {v : VersionedVar} {b c : BlockId}

/-- The rules derive that the value is live at the boundary. -/
def LiveAt (g : FlowGraph) (order : List BlockId) (v : VersionedVar) : Boundary → Prop
  | .start b => g.LiveIn order v b
  | .finish b => g.LiveOut order v b

/-- A set worked out again from the others. -/
def workedOut (g : FlowGraph) (l : Liveness) : Boundary → ValueSet
  | .start b => (g.block b).scan.before (l.valuesAt (.finish b))
  | .finish b => g.liveAfter l.liveIn b

/-- The sets of the block satisfy the equations of liveness. -/
def Settled (g : FlowGraph) (l : Liveness) (b : BlockId) : Prop :=
  l.valuesAt (.start b) = g.workedOut l (.start b) ∧ l.valuesAt (.finish b) = g.workedOut l (.finish b)

/-- A value is live after a block if a phi behind it takes the value, or if it is live where a
successor begins. -/
theorem mem_liveAfter {liveIn : Array ValueSet} :
    v ∈ g.liveAfter liveIn b ↔ v ∈ g.handedOn b ∨ ∃ s ∈ g.targets b, v ∈ liveIn.getD s ∅ := by
  have hfold : ∀ (ss : List BlockId) (out : ValueSet),
      v ∈ ss.foldl (fun out s => (out ∪ liveIn.getD s ∅).insertMany (g.handedTo b s)) out ↔
        v ∈ out ∨ v ∈ ss.flatMap (g.handedTo b) ∨ ∃ s ∈ ss, v ∈ liveIn.getD s ∅ := by
    intro ss
    induction ss with
    | nil => simp
    | cons s ss ih =>
      intro out
      rw [List.foldl_cons, ih, ValueSet.mem_insertMany, Std.ExtTreeSet.mem_union_iff, List.flatMap_cons,
        List.mem_append, List.exists_mem_cons_iff]
      tauto
  unfold liveAfter handedOn
  rw [hfold, or_iff_right Std.ExtTreeSet.not_mem_empty]

/-- Larger sets lead to larger sets. -/
theorem mem_workedOut_mono (h : l.Within l') (p : Boundary) (hv : v ∈ g.workedOut l p) :
    v ∈ g.workedOut l' p := by
  cases p with
  | start b =>
    refine BlockScan.mem_before.mpr ((BlockScan.mem_before.mp hv).imp_right fun hout => ?_)
    exact ⟨h (.finish b) v hout.1, hout.2⟩
  | finish b =>
    refine mem_liveAfter.mpr ((mem_liveAfter.mp hv).imp_right ?_)
    rintro ⟨s, hs, hlive⟩
    exact ⟨s, hs, h (.start s) v hlive⟩

theorem Settled.mem_start_iff (h : g.Settled l b) :
    v ∈ l.liveIn.getD b ∅ ↔
      v ∈ (g.block b).scan.exposed ∨ v ∈ l.liveOut.getD b ∅ ∧ v ∉ (g.block b).scan.defined := by
  have hstart : l.liveIn.getD b ∅ = (g.block b).scan.before (l.liveOut.getD b ∅) := h.1
  rw [hstart, BlockScan.mem_before]

theorem Settled.mem_finish_iff (h : g.Settled l b) :
    v ∈ l.liveOut.getD b ∅ ↔ v ∈ g.handedOn b ∨ ∃ s ∈ g.targets b, v ∈ l.liveIn.getD s ∅ := by
  have hfinish : l.liveOut.getD b ∅ = g.liveAfter l.liveIn b := h.2
  rw [hfinish, mem_liveAfter]

/-- Sets that satisfy the equations hold all that the rules derive. -/
theorem LiveIn.mem_of_settled (h : g.LiveIn order v b) (hl : ∀ b ∈ order, g.Settled l b) :
    v ∈ l.liveIn.getD b ∅ := by
  induction h with
  | read hb hread => exact (hl _ hb).mem_start_iff.mpr (.inl hread)
  | taken hb htaken hnot =>
    exact (hl _ hb).mem_start_iff.mpr (.inr ⟨(hl _ hb).mem_finish_iff.mpr (.inl htaken), hnot⟩)
  | carried _ hb hc hnot ih =>
    exact (hl _ hb).mem_start_iff.mpr (.inr ⟨(hl _ hb).mem_finish_iff.mpr (.inr ⟨_, hc, ih⟩), hnot⟩)

/-! ## One block -/

/-- What is true of the sets at every moment: they have room for every block, the rules derive what they
hold, and working one out again would not take anything away. -/
structure Rising (g : FlowGraph) (order : List BlockId) (l : Liveness) : Prop where
  size_in : l.liveIn.size = g.size
  size_out : l.liveOut.size = g.size
  sound : ∀ p, ∀ v ∈ l.valuesAt p, g.LiveAt order v p
  again : ∀ p, ∀ v ∈ l.valuesAt p, v ∈ g.workedOut l p

/-- The sets after those of one block have been overwritten. -/
def revised (g : FlowGraph) (l : Liveness) (b : BlockId) : Liveness :=
  let out := g.liveAfter l.liveIn b
  ⟨l.liveIn.setIfInBounds b ((g.block b).scan.before out), l.liveOut.setIfInBounds b out⟩

theorem getD_setIfInBounds {α : Type} {xs : Array α} {x d : α} (hb : b < xs.size) :
    (xs.setIfInBounds b x).getD c d = if b = c then x else xs.getD c d := by
  rw [Array.getD_eq_getD_getElem?, Array.getElem?_setIfInBounds, Array.getD_eq_getD_getElem?, if_pos hb]
  split <;> rfl

namespace Rising

theorem valuesAt_start_revised (h : Rising g order l) (hb : b < g.size) :
    (g.revised l b).valuesAt (.start c) =
      if b = c then (g.block b).scan.before (g.liveAfter l.liveIn b) else l.valuesAt (.start c) :=
  getD_setIfInBounds (h.size_in ▸ hb)

theorem valuesAt_finish_revised (h : Rising g order l) (hb : b < g.size) :
    (g.revised l b).valuesAt (.finish c) =
      if b = c then g.liveAfter l.liveIn b else l.valuesAt (.finish c) :=
  getD_setIfInBounds (h.size_out ▸ hb)

/-- Overwriting the sets of a block takes nothing away. -/
theorem within_revised (h : Rising g order l) (hb : b < g.size) : l.Within (g.revised l b) := by
  rintro (c | c) v hv
  · rw [h.valuesAt_start_revised hb]
    split
    · next heq =>
      subst heq
      refine BlockScan.mem_before.mpr ((BlockScan.mem_before.mp (h.again _ v hv)).imp_right fun hout => ?_)
      exact ⟨h.again (.finish b) v hout.1, hout.2⟩
    · exact hv
  · rw [h.valuesAt_finish_revised hb]
    split
    · next heq =>
      subst heq
      exact h.again _ v hv
    · exact hv

/-- Working out the end of a block from sound sets gives values that the rules derive. -/
theorem liveOut_of_liveAfter (h : Rising g order l) (hb : b ∈ order) (hv : v ∈ g.liveAfter l.liveIn b) :
    g.LiveOut order v b := by
  refine ⟨hb, (mem_liveAfter.mp hv).imp_right ?_⟩
  rintro ⟨s, hs, hlive⟩
  exact ⟨s, hs, h.sound (.start s) v hlive⟩

/-- Working the sets of a block out again adds nothing that the rules do not derive. -/
theorem sound_revised (h : Rising g order l) (hb : b ∈ order) (hlt : b < g.size) (p : Boundary)
    (hv : v ∈ (g.revised l b).valuesAt p) : g.LiveAt order v p := by
  cases p with
  | start c =>
    rw [h.valuesAt_start_revised hlt] at hv
    split at hv
    · next heq =>
      subst heq
      rcases BlockScan.mem_before.mp hv with hread | ⟨hout, hnot⟩
      · exact .read hb hread
      · exact (h.liveOut_of_liveAfter hb hout).liveIn hnot
    · exact h.sound (.start c) v hv
  | finish c =>
    rw [h.valuesAt_finish_revised hlt] at hv
    split at hv
    · next heq =>
      subst heq
      exact h.liveOut_of_liveAfter hb hv
    · exact h.sound (.finish c) v hv

/-- The sets stay as they should be when those of a block are overwritten. -/
theorem revised (h : Rising g order l) (hb : b ∈ order) (hlt : b < g.size) :
    Rising g order (g.revised l b) := by
  have hwithin := h.within_revised hlt
  refine ⟨Array.size_setIfInBounds.trans h.size_in, Array.size_setIfInBounds.trans h.size_out,
    fun p v hv => h.sound_revised hb hlt p hv, ?_⟩
  rintro (c | c) v hv
  · rw [h.valuesAt_start_revised hlt] at hv
    split at hv
    · next heq =>
      subst heq
      rw [workedOut, h.valuesAt_finish_revised hlt, if_pos rfl]
      exact hv
    · exact mem_workedOut_mono hwithin (.start c) (h.again _ v hv)
  · refine mem_workedOut_mono hwithin (.finish c) ?_
    rw [h.valuesAt_finish_revised hlt] at hv
    split at hv
    · next heq =>
      subst heq
      exact hv
    · exact h.again _ v hv

/-- Overwriting the sets of a block that is not settled adds a value to one of them. -/
theorem exists_new (h : Rising g order l) (hlt : b < g.size) (hb : ¬ g.Settled l b) :
    ∃ p, ∃ v ∈ (g.revised l b).valuesAt p, v ∉ l.valuesAt p := by
  refine Classical.byContradiction fun hnone => hb ?_
  -- without a new value the sets come out as they were
  have hsame : ∀ p, (g.revised l b).valuesAt p = l.valuesAt p := by
    intro p
    refine Std.ExtTreeSet.ext_mem fun v => ⟨fun hv => ?_, h.within_revised hlt p v⟩
    exact Classical.byContradiction fun hnot => hnone ⟨p, v, hv, hnot⟩
  have hfinish : l.valuesAt (.finish b) = g.liveAfter l.liveIn b := by
    rw [← hsame, h.valuesAt_finish_revised hlt, if_pos rfl]
  refine ⟨?_, hfinish⟩
  rw [workedOut, hfinish, ← hsame, h.valuesAt_start_revised hlt, if_pos rfl]

end Rising

/-- Working out a block leaves everything as it is if the block is settled, and otherwise overwrites its
sets and sets the flag. -/
theorem revise_cases (hscan : scans.getD b {} = (g.block b).scan) (changed : Bool) :
    g.Settled l b ∧ g.revise scans (l, changed) b = (l, changed) ∨
      ¬ g.Settled l b ∧ g.revise scans (l, changed) b = (g.revised l b, true) := by
  have hiff : ((scans.getD b {}).before (g.liveAfter l.liveIn b) ≠ l.liveIn.getD b ∅ ∨
      g.liveAfter l.liveIn b ≠ l.liveOut.getD b ∅) ↔ ¬ g.Settled l b := by
    rw [hscan, Settled, not_and_or, workedOut, workedOut, Liveness.valuesAt, Liveness.valuesAt]
    constructor
    · rintro (hin | hout)
      · by_cases hout : l.liveOut.getD b ∅ = g.liveAfter l.liveIn b
        · exact .inl (by rw [hout]; exact hin.symm)
        · exact .inr hout
      · exact .inr hout.symm
    · rintro (hin | hout)
      · by_cases hout : l.liveOut.getD b ∅ = g.liveAfter l.liveIn b
        · exact .inl (by rw [hout] at hin; exact Ne.symm hin)
        · exact .inr (Ne.symm hout)
      · exact .inr (Ne.symm hout)
  unfold revise
  dsimp only
  by_cases hsettled : g.Settled l b
  · exact .inl ⟨hsettled, if_neg (mt hiff.mp (not_not_intro hsettled))⟩
  · refine .inr ⟨hsettled, (if_pos (hiff.mpr hsettled)).trans ?_⟩
    rw [hscan]
    rfl

/-! ## Whole sweeps -/

/-- All pairs of a boundary of the order and a value that could be live there. -/
def places (g : FlowGraph) (order : List BlockId) : Finset (Boundary × VersionedVar) :=
  (order.map Boundary.start ++ order.map Boundary.finish).toFinset ×ˢ (g.trackedValues order).toFinset

/-- The pairs at which the value is in the set. -/
def filled (g : FlowGraph) (order : List BlockId) (l : Liveness) : Finset (Boundary × VersionedVar) :=
  (g.places order).filter fun p => p.2 ∈ l.valuesAt p.1

/-- The sets can take in fewer values than there are sweeps. -/
theorem card_filled_lt_sweepBound : (g.filled order l).card < g.sweepBound order := by
  have hboundaries : (order.map Boundary.start ++ order.map Boundary.finish).toFinset.card ≤ 2 * order.length := by
    refine (List.toFinset_card_le _).trans_eq ?_
    rw [List.length_append, List.length_map, List.length_map, Nat.two_mul]
  calc (g.filled order l).card
      ≤ (g.places order).card := Finset.card_filter_le _ _
    _ ≤ 2 * order.length * (g.trackedValues order).length := by
      rw [places, Finset.card_product]
      exact Nat.mul_le_mul hboundaries (List.toFinset_card_le _)
    _ < g.sweepBound order := by
      rw [sweepBound, Nat.mul_assoc]
      exact Nat.lt_succ_self _

theorem LiveAt.mem_places {p : Boundary} (h : g.LiveAt order v p) : (p, v) ∈ g.places order := by
  rw [places, Finset.mem_product, List.mem_toFinset, List.mem_toFinset, List.mem_append]
  cases p with
  | start b => exact ⟨.inl (List.mem_map_of_mem h.mem), h.tracked⟩
  | finish b => exact ⟨.inr (List.mem_map_of_mem h.1), h.tracked⟩

/-- A block that is not settled gets a value that it did not have. -/
theorem Rising.card_filled_lt (h : Rising g order l) (hb : b ∈ order) (hlt : b < g.size)
    (hunsettled : ¬ g.Settled l b) : (g.filled order l).card < (g.filled order (g.revised l b)).card := by
  obtain ⟨p, v, hv, hnot⟩ := h.exists_new hlt hunsettled
  refine Finset.card_lt_card ((Finset.ssubset_iff_of_subset ?_).mpr ⟨(p, v), ?_, ?_⟩)
  · exact Finset.monotone_filter_right _ fun q _ hq => h.within_revised hlt q.1 q.2 hq
  · exact Finset.mem_filter.mpr ⟨((h.revised hb hlt).sound p v hv).mem_places, hv⟩
  · exact fun hmem => hnot (Finset.mem_filter.mp hmem).2

/-- Going over some blocks either finds them all settled or fills a place. -/
theorem Rising.foldl_revise (hlt : ∀ b ∈ order, b < g.size)
    (hscans : ∀ b ∈ order, scans.getD b {} = (g.block b).scan) {bs : List BlockId} (hbs : ∀ b ∈ bs, b ∈ order)
    (h : Rising g order l) (changed : Bool) :
    ∃ l' changed', bs.foldl (g.revise scans) (l, changed) = (l', changed') ∧ Rising g order l' ∧
      ((l' = l ∧ changed' = changed ∧ ∀ b ∈ bs, g.Settled l b) ∨
        changed' = true ∧ (g.filled order l).card < (g.filled order l').card) := by
  induction bs generalizing l changed with
  | nil => exact ⟨l, changed, rfl, h, .inl ⟨rfl, rfl, fun b hb => absurd hb List.not_mem_nil⟩⟩
  | cons b bs ih =>
    obtain ⟨hb, hbs⟩ := List.forall_mem_cons.mp hbs
    rw [List.foldl_cons]
    -- a settled block is passed over, and any other fills a place
    rcases revise_cases (hscans b hb) changed (l := l) with ⟨hsettled, hrevise⟩ | ⟨hunsettled, hrevise⟩
    · rw [hrevise]
      obtain ⟨l', changed', hfold, hrising, ⟨rfl, rfl, hall⟩ | hmore⟩ := ih hbs h changed
      · exact ⟨_, _, hfold, hrising, .inl ⟨rfl, rfl, List.forall_mem_cons.mpr ⟨hsettled, hall⟩⟩⟩
      · exact ⟨l', changed', hfold, hrising, .inr hmore⟩
    · rw [hrevise]
      have hfirst := h.card_filled_lt hb (hlt b hb) hunsettled
      obtain ⟨l', changed', hfold, hrising, ⟨rfl, rfl, -⟩ | ⟨rfl, hmore⟩⟩ :=
        ih hbs (h.revised hb (hlt b hb)) true
      · exact ⟨_, _, hfold, hrising, .inr ⟨rfl, hfirst⟩⟩
      · exact ⟨l', true, hfold, hrising, .inr ⟨rfl, hfirst.trans hmore⟩⟩

/-- Sweeps go on until one changes nothing. The induction is on the sweeps left, which are always more than
the places still to be filled. -/
theorem Rising.sweeps (hlt : ∀ b ∈ order, b < g.size)
    (hscans : ∀ b ∈ order, scans.getD b {} = (g.block b).scan) {n : Nat} (h : Rising g order l)
    (hn : g.sweepBound order ≤ n + (g.filled order l).card) :
    Rising g order (g.sweeps scans order n l) ∧ (∀ b ∈ order, g.Settled (g.sweeps scans order n l) b) ∧
      g.sweep scans order (g.sweeps scans order n l) = (g.sweeps scans order n l, false) := by
  induction n generalizing l with
  | zero =>
    rw [Nat.zero_add] at hn
    exact absurd card_filled_lt_sweepBound (Nat.not_lt.mpr hn)
  | succ n ih =>
    have hreverse : ∀ b ∈ order.reverse, b ∈ order := fun b => List.mem_reverse.mp
    obtain ⟨l', changed, hsweep, hrising, ⟨rfl, rfl, hall⟩ | ⟨rfl, hmore⟩⟩ :=
      h.foldl_revise hlt hscans hreverse false
    · have hstop : g.sweeps scans order (n + 1) l' = l' := by
        rw [FlowGraph.sweeps, sweep, hsweep]
      rw [hstop]
      exact ⟨h, fun b hb => hall b (List.mem_reverse.mpr hb), hsweep⟩
    · have hgo : g.sweeps scans order (n + 1) l = g.sweeps scans order n l' := by
        rw [FlowGraph.sweeps, sweep, hsweep]
      rw [hgo]
      exact ih hrising (by omega)

theorem getD_foldl_scans (hb : b < g.size) {bs : List BlockId} {acc : Array BlockScan} (hacc : acc.size = g.size)
    (h : b ∈ bs ∨ acc.getD b {} = (g.block b).scan) :
    (bs.foldl (fun acc c => acc.setIfInBounds c (g.block c).scan) acc).getD b {} = (g.block b).scan := by
  induction bs generalizing acc with
  | nil => exact h.resolve_left List.not_mem_nil
  | cons c bs ih =>
    refine ih (Array.size_setIfInBounds.trans hacc) ?_
    by_cases hc : c = b
    · subst hc
      right
      rw [getD_setIfInBounds (hacc ▸ hb), if_pos rfl]
    · refine h.imp (fun hmem => (List.mem_cons.mp hmem).resolve_left (Ne.symm hc)) fun hold => ?_
      rw [Array.getD_eq_getD_getElem?] at hold ⊢
      rw [Array.getElem?_setIfInBounds_ne hc, hold]

/-- Every block of the order is scanned once before the sweeps. -/
theorem getD_scans (hlt : ∀ b ∈ order, b < g.size) (hb : b ∈ order) :
    (g.scans order).getD b {} = (g.block b).scan :=
  getD_foldl_scans (hlt b hb) Array.size_replicate (.inl hb)

/-- The liveness of an ordered graph is computed by sweeps of which the last changes nothing, and it is
what the rules derive. -/
theorem liveness_exact (hlisted : g.reachable = some order) (hordered : g.isOrdered = true)
    (hlt : ∀ b ∈ order, b < g.size) :
    ∃ l, g.liveness = .ok l ∧ g.sweep (g.scans order) order l = (l, false) ∧
      (∀ {b v}, v ∈ l.liveIn.getD b ∅ ↔ g.LiveIn order v b) ∧
      ∀ {b v}, v ∈ l.liveOut.getD b ∅ ↔ g.LiveOut order v b := by
  have hempty : ∀ (p : Boundary) (v : VersionedVar),
      v ∉ (⟨Array.replicate g.size ∅, Array.replicate g.size ∅⟩ : Liveness).valuesAt p := by
    rintro (b | b) v <;>
    · simp only [Liveness.valuesAt, Array.getD_eq_getD_getElem?, Array.getElem?_replicate]
      split <;> exact Std.ExtTreeSet.not_mem_empty
  have hstart : Rising g order ⟨Array.replicate g.size ∅, Array.replicate g.size ∅⟩ :=
    ⟨Array.size_replicate, Array.size_replicate, fun p v hv => absurd hv (hempty p v),
      fun p v hv => absurd hv (hempty p v)⟩
  obtain ⟨hrising, hsettled, hsweep⟩ := hstart.sweeps hlt (fun b hb => getD_scans hlt hb) (Nat.le_add_right _ _)
  unfold liveness
  rw [hlisted, hordered]
  refine ⟨_, rfl, hsweep, ?_, ?_⟩
  · intro b v
    exact ⟨hrising.sound (.start b) v, fun hlive => hlive.mem_of_settled hsettled⟩
  · intro b v
    refine ⟨hrising.sound (.finish b) v, fun hlive => ?_⟩
    refine (hsettled b hlive.1).mem_finish_iff.mpr (hlive.2.imp_right ?_)
    rintro ⟨c, hc, hlive⟩
    exact ⟨c, hc, hlive.mem_of_settled hsettled⟩

end FlowGraph

end SsaFlow
