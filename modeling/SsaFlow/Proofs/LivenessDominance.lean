-- SUMMARY: In SSA form a value is live only where its one definition dominates.
import SsaFlow.Proofs.LiveSets
import SsaFlow.Proofs.Outcome

/-!
# Liveness and dominance

In SSA form every value has one definition, and the definition comes before every use. A value that a
block reads first is defined in a block that strictly dominates it, and so is a value that is live where
a successor begins, unless the block defines it: on every walk to the successor the definition comes
first. So liveness never leads above the definition.
-/

namespace SsaFlow

namespace FlowGraph

/-- The value is defined at a reachable place. -/
def Defines (g : FlowGraph) (v : VersionedVar) (s : Site) : Prop :=
  Reachable g.Edge entry s.block ∧ (v, s) ∈ g.definitionsIn s.block

def DefinesOnce (g : FlowGraph) (v : VersionedVar) (s : Site) : Prop :=
  g.Defines v s ∧ ∀ t, g.Defines v t → t = s

theorem defines_iff_definitionsIn {g : FlowGraph} {v : VersionedVar} {b : BlockId} :
    (g.block b).Defines v ↔ ∃ s, (v, s) ∈ g.definitionsIn b := by
  simp only [mem_definitionsIn]
  constructor
  · rintro (hphi | ⟨i, hi, hv⟩)
    · exact ⟨⟨b, .phi⟩, rfl, .inl ⟨rfl, hphi⟩⟩
    · obtain ⟨k, hk⟩ := Array.mem_iff_getElem?.mp hi
      exact ⟨⟨b, .instr k⟩, rfl, .inr ⟨i, hk, hv⟩⟩
  · rintro ⟨s, rfl, ⟨-, hphi⟩ | ⟨i, hi, hv⟩⟩
    · exact .inl hphi
    · obtain ⟨b, k, rfl⟩ := exists_of_instr? hi
      exact .inr ⟨i, Array.mem_of_getElem? hi, hv⟩

theorem mem_handedOn {g : FlowGraph} {v : VersionedVar} {b : BlockId} :
    v ∈ g.handedOn b ↔
      v.isBound = true ∧ ∃ s ∈ g.targets b, ∃ φ ∈ (g.block s).phis, φ.incoming? b = some v := by
  simp only [handedOn, handedTo, List.mem_filter, List.mem_flatMap, List.mem_filterMap]
  grind

/-! ## Definitions and uses in SSA form -/

namespace SsaForm

variable {r g : FlowGraph} {order : List BlockId} {tree : DominatorTree} {v : VersionedVar}
  {b : BlockId} {s t : Site}

/-- The definitions in SSA form are the old ones under their names. -/
theorem defines_iff (h : SsaForm r g order tree) :
    r.Defines v s ↔ g.DefinesAt v.var s ∧ (g.naming tree).write v.var s = v := by
  unfold Defines
  rw [h.edge]
  constructor
  · rintro ⟨hs, hmem⟩
    rw [h.definitionsIn hs] at hmem
    obtain ⟨⟨x, t⟩, hx, heq⟩ := List.mem_map.mp hmem
    cases heq
    have hall : (x, t) ∈ g.allDefs tree := List.mem_flatMap.mpr ⟨_, h.exact.mem_preorder.mpr hs, hx⟩
    rw [write_naming_var]
    exact ⟨h.definesAt_of_mem_allDefs hall, rfl⟩
  · rintro ⟨hs, hname⟩
    refine ⟨hs.reachable, ?_⟩
    obtain ⟨x, hx, hvar⟩ := Definitions.mem_sitesOf.mp (h.mem_sitesOf_allDefs.mpr hs)
    obtain ⟨c, -, hc⟩ := List.mem_flatMap.mp hx
    obtain rfl : s.block = c := block_of_mem_definitionsIn hc
    rw [h.definitionsIn hs.reachable, ← hname, ← hvar]
    exact List.mem_map.mpr ⟨(x, s), hc, rfl⟩

/-- No value is defined at two places. -/
theorem defines_unique (h : SsaForm r g order tree) (hs : r.Defines v s) (ht : r.Defines v t) : s = t := by
  obtain ⟨hs, hname⟩ := h.defines_iff.mp hs
  obtain ⟨ht, hname'⟩ := h.defines_iff.mp ht
  exact h.write_inj hs ht (hname.trans hname'.symm)

/-- The definition of a value that is read comes before the place where it is read. -/
theorem exists_before_of_use (h : SsaForm r g order tree) (hb : Reachable g.Edge entry b) {at_ : Site}
    (hu : (v, at_) ∈ r.usesIn b) (hbound : v.isBound = true) : ∃ s, r.Defines v s ∧ g.Before s at_ := by
  obtain ⟨hreach, w, hw⟩ := h.use_of_mem_usesIn hb hu
  obtain rfl : v = (g.naming tree).use w at_ := hw
  rcases h.use_cases w hreach with ⟨hunbound, -⟩ | ⟨s, hnearest, huse⟩
  · rw [hunbound] at hbound
    exact nomatch hbound
  · refine ⟨s, h.defines_iff.mpr ?_, hnearest.2.1⟩
    rw [use_naming_var, huse]
    exact ⟨hnearest.1, rfl⟩

theorem mem_usesIn_of_slot {φ : Phi} {p : BlockId} (hφ : φ ∈ (r.block b).phis)
    (hslot : φ.incoming? p = some v) : (v, ⟨p, .exit⟩) ∈ r.usesIn b := by
  obtain ⟨before, after, hslots, -⟩ := List.lookup_eq_some_iff.mp hslot
  refine mem_usesIn.mpr (.slot hφ ?_)
  rw [hslots]
  exact List.mem_append_right before List.mem_cons_self

/-! ## Where values are live -/

/-- What a block reads first is defined in another block. -/
theorem strictlyDominates_of_exposed (h : SsaForm r g order tree) (hb : Reachable g.Edge entry b)
    (hv : v ∈ (r.block b).scan.exposed) :
    ∃ s, r.Defines v s ∧ StrictlyDominates g.Edge entry s.block b := by
  obtain ⟨hbound, hphis, hread⟩ := Block.mem_exposed_scan.mp hv
  -- a definition in the block itself would stand before the read
  have hother : ∀ {s p}, r.Defines v s → g.Before s ⟨b, p⟩ →
      (∀ k i, (Point.instr k).before p = true → (r.block b).instrs[k]? = some i → i.defined? ≠ some v) →
      StrictlyDominates g.Edge entry s.block b := by
    rintro ⟨c, q⟩ p hs (⟨hc, hq⟩ | hdom) hfirst
    · obtain rfl : c = b := hc
      obtain ⟨-, ⟨-, φ, hφ, htarget⟩ | ⟨i, hi, hdef⟩⟩ := mem_definitionsIn.mp hs.2
      · exact absurd htarget (hphis φ hφ)
      · obtain ⟨_, k, ⟨⟩⟩ := exists_of_instr? hi
        exact absurd hdef (hfirst k i hq hi)
    · exact hdom
  rcases hread with ⟨k, i, hi, hused, hfirst⟩ | ⟨hjump, hnone⟩
  · obtain ⟨s, hs, hbefore⟩ := h.exists_before_of_use hb (mem_usesIn.mpr (.instr hi hused)) hbound
    refine ⟨s, hs, hother hs hbefore fun j i' hj hi' => ?_⟩
    exact hfirst j (decide_eq_true_eq.mp hj) i' hi'
  · obtain ⟨s, hs, hbefore⟩ := h.exists_before_of_use hb (mem_usesIn.mpr (.jump hjump)) hbound
    exact ⟨s, hs, hother hs hbefore fun j i' _ hi' => hnone i' (Array.mem_of_getElem? hi')⟩

/-- What a phi takes at the end of a block is defined there or above. -/
theorem dominates_of_handedOn (h : SsaForm r g order tree) (hb : Reachable g.Edge entry b)
    (hv : v ∈ r.handedOn b) : ∃ s, r.Defines v s ∧ Dominates g.Edge entry s.block b := by
  obtain ⟨hbound, c, hc, φ, hφ, hslot⟩ := mem_handedOn.mp hv
  rw [h.targets] at hc
  obtain ⟨s, hs, hbefore⟩ := h.exists_before_of_use (hb.step hc) (mem_usesIn_of_slot hφ hslot) hbound
  exact ⟨s, hs, hbefore.dominates⟩

theorem block_ne_of_not_defined (hs : r.Defines v s) (hnot : v ∉ (r.block b).scan.defined) :
    s.block ≠ b := by
  rintro rfl
  exact hnot (Block.mem_defined_scan.mpr (defines_iff_definitionsIn.mpr ⟨s, hs.2⟩))

/-- The definition of a value strictly dominates every block where the value is live at the start. -/
theorem strictlyDominates_of_liveIn (h : SsaForm r g order tree) (hv : r.LiveIn order v b) :
    Reachable g.Edge entry b ∧ ∃ s, r.Defines v s ∧ StrictlyDominates g.Edge entry s.block b := by
  induction hv with
  | read hb hread => exact ⟨h.mem_iff.mp hb, h.strictlyDominates_of_exposed (h.mem_iff.mp hb) hread⟩
  | taken hb htaken hnot =>
    obtain ⟨s, hs, hdom⟩ := h.dominates_of_handedOn (h.mem_iff.mp hb) htaken
    exact ⟨h.mem_iff.mp hb, s, hs, block_ne_of_not_defined hs hnot, hdom⟩
  | carried _ hb he hnot ih =>
    obtain ⟨-, s, hs, hdom⟩ := ih
    rw [h.targets] at he
    exact ⟨h.mem_iff.mp hb, s, hs, block_ne_of_not_defined hs hnot, hdom.of_edge he⟩

/-- The definition of a value dominates every block where the value is live at the end. -/
theorem dominates_of_liveOut (h : SsaForm r g order tree) (hv : r.LiveOut order v b) :
    Reachable g.Edge entry b ∧ ∃ s, r.Defines v s ∧ Dominates g.Edge entry s.block b := by
  obtain ⟨hb, htaken | ⟨c, he, hc⟩⟩ := hv
  · exact ⟨h.mem_iff.mp hb, h.dominates_of_handedOn (h.mem_iff.mp hb) htaken⟩
  · obtain ⟨-, s, hs, hdom⟩ := h.strictlyDominates_of_liveIn hc
    rw [h.targets] at he
    exact ⟨h.mem_iff.mp hb, s, hs, hdom.of_edge he⟩

/-- A phi takes the value in a slot at the end of the predecessor that the slot belongs to. -/
theorem mem_handedOn_of_slot (h : SsaForm r g order tree) {φ : Phi} {p : BlockId}
    (hφ : φ ∈ (r.block b).phis) (hpv : (p, v) ∈ φ.slots) (hbound : v.isBound = true) :
    Reachable g.Edge entry p ∧ v ∈ r.handedOn p := by
  have hphi := hφ
  rw [(h.block_fields b).2.2] at hphi
  obtain ⟨ψ, hψ, rfl⟩ := List.mem_map.mp hphi
  have hpred : p ∈ ψ.preds := by
    rw [← preds_named]
    exact List.mem_map_of_mem hpv
  obtain ⟨hp, he⟩ := h.mem_livePredecessors_iff.mp (h.slots hψ ▸ hpred)
  have hmem : p ∈ tree.preorder := h.exact.mem_preorder.mpr hp
  have hslot : (ψ.named (g.naming tree) tree.preorder tree.preorder b).incoming? p = some v := by
    rw [incoming?_named _ _ _ hpred hmem]
    obtain ⟨⟨q, x⟩, -, hq⟩ := List.mem_map.mp hpv
    obtain ⟨rfl, rfl⟩ := Prod.mk.inj hq
    rw [if_pos hmem]
  refine ⟨hp, mem_handedOn.mpr ⟨hbound, b, ?_, _, hφ, hslot⟩⟩
  rw [h.targets]
  exact he

/-- A value is live where the block that reads it begins, if another block defines it. -/
theorem liveIn_of_use (h : SsaForm r g order tree) (hb : Reachable g.Edge entry b) {at_ : Site}
    (hu : (v, at_) ∈ r.usesIn b) (hbound : v.isBound = true) (hs : r.Defines v s)
    (hne : s.block ≠ at_.block) : r.LiveIn order v at_.block := by
  have hnot : ¬ (r.block at_.block).Defines v := by
    intro hdefines
    obtain ⟨t, ht⟩ := defines_iff_definitionsIn.mp hdefines
    have hblock : t.block = at_.block := block_of_mem_definitionsIn ht
    have hreach := (h.use_of_mem_usesIn hb hu).1
    have hdef : r.Defines v t := ⟨by rw [h.edge, hblock]; exact hreach, hblock ▸ ht⟩
    exact hne (h.defines_unique hs hdef ▸ hblock)
  have hphis : ∀ φ ∈ (r.block at_.block).phis, φ.target ≠ v := by
    rintro φ hφ rfl
    exact hnot (.inl ⟨φ, hφ, rfl⟩)
  have hinstrs : ∀ i ∈ (r.block at_.block).instrs, i.defined? ≠ some v := by
    intro i hi hv
    exact hnot (.inr ⟨i, hi, hv⟩)
  rcases mem_usesIn.mp hu with ⟨hi, hv⟩ | hv | ⟨hφ, hpv⟩
  · refine .read (h.mem_iff.mpr hb) (Block.mem_exposed_scan.mpr ⟨hbound, hphis, .inl ⟨_, _, hi, hv, ?_⟩⟩)
    exact fun j _ i' hi' => hinstrs i' (Array.mem_of_getElem? hi')
  · exact .read (h.mem_iff.mpr hb) (Block.mem_exposed_scan.mpr ⟨hbound, hphis, .inr ⟨hv, hinstrs⟩⟩)
  · obtain ⟨hp, htaken⟩ := h.mem_handedOn_of_slot hφ hpv hbound
    exact .taken (h.mem_iff.mpr hp) htaken (mt Block.mem_defined_scan.mp hnot)

end SsaForm

end FlowGraph

open FlowGraph

/-- Liveness agrees with dominance. The liveness of what a build returns can be computed; a value is live
only where its one definition dominates, strictly so where the block begins; nothing is live where the
entry begins, and no phi target is live where its own block begins. Conversely, a value that is read in or
at the end of another block than that of its definition is live where that block begins. -/
theorem Function.liveness_dominated {fn : Function} {config : BuildConfig} {q : DiagnosticQueue} {r : FlowGraph}
    (h : (fn.build config q).2 = .ok r) :
    ∃ l, r.liveness = .ok l ∧
      (∀ b, ∀ v ∈ l.liveIn.getD b ∅, Reachable r.Edge entry b ∧
        ∃ s, r.DefinesOnce v s ∧ StrictlyDominates r.Edge entry s.block b) ∧
      (∀ b, ∀ v ∈ l.liveOut.getD b ∅, Reachable r.Edge entry b ∧
        ∃ s, r.DefinesOnce v s ∧ Dominates r.Edge entry s.block b) ∧
      l.liveIn.getD entry ∅ = ∅ ∧
      (∀ b, ∀ φ ∈ (r.block b).phis, φ.target ∉ l.liveIn.getD b ∅) ∧
      ∀ b, Reachable r.Edge entry b → ∀ v at_, (v, at_) ∈ r.usesIn b → v.isBound = true →
        ∀ s, r.Defines v s → s.block ≠ at_.block → v ∈ l.liveIn.getD at_.block ∅ := by
  obtain ⟨g, order, tree, hr⟩ := Function.ssaForm_of_build h
  have hlt : ∀ b ∈ order, b < r.size := by
    intro b hb
    rw [hr.named.size]
    exact hr.lt_of_mem hb
  have hordered : r.isOrdered = true := by
    rw [isOrdered, hr.named.depths]
    exact hr.isOrdered
  obtain ⟨l, hl, -, hin, hout⟩ := liveness_exact (hr.named.reachable.trans hr.listed) hordered hlt
  have hliveIn : ∀ b, ∀ v ∈ l.liveIn.getD b ∅, Reachable r.Edge entry b ∧
      ∃ s, r.DefinesOnce v s ∧ StrictlyDominates r.Edge entry s.block b := by
    intro b v hv
    obtain ⟨hb, s, hs, hdom⟩ := hr.strictlyDominates_of_liveIn (hin.mp hv)
    rw [hr.edge]
    exact ⟨hb, s, ⟨hs, fun t ht => hr.defines_unique ht hs⟩, hdom⟩
  refine ⟨l, hl, hliveIn, ?_, ?_, ?_, ?_⟩
  · intro b v hv
    obtain ⟨hb, s, hs, hdom⟩ := hr.dominates_of_liveOut (hout.mp hv)
    rw [hr.edge]
    exact ⟨hb, s, ⟨hs, fun t ht => hr.defines_unique ht hs⟩, hdom⟩
  -- nothing strictly dominates the entry
  · refine Std.ExtTreeSet.eq_empty_iff_forall_not_mem.mpr fun v hv => ?_
    obtain ⟨-, s, -, hdom⟩ := hliveIn entry v hv
    exact hdom.1 hdom.2.eq_root
  · intro b φ hφ hv
    obtain ⟨hb, s, hs, hdom⟩ := hliveIn b φ.target hv
    -- the phi is the one definition, and no block strictly dominates itself
    have hphi : r.Defines φ.target ⟨b, .phi⟩ :=
      ⟨hb, mem_definitionsIn.mpr ⟨rfl, .inl ⟨rfl, φ, hφ, rfl⟩⟩⟩
    exact hdom.1 (congrArg Site.block (hs.2 _ hphi)).symm
  · intro b hb v at_ hu hbound s hs hne
    rw [hr.edge] at hb
    exact hin.mpr (hr.liveIn_of_use hb hu hbound hs hne)

/-- The function `if (a) a -= 1; return a;`. -/
def stepDown : Function :=
  let span : Span := ⟨0, 1⟩
  { name := ⟨0⟩, params := [0], numVars := 1, body := 3, span := span
    exprs := #[⟨span, .var 0⟩, ⟨span, .int 1⟩, ⟨span, .assign 0 (some .sub) 1⟩]
    stmts := #[⟨span, .expr 2⟩, ⟨span, .ifElse 0 0 none⟩, ⟨span, .ret (some 0)⟩, ⟨span, .block [1, 2]⟩] }

theorem build_stepDown :
    ∃ r, (stepDown.build .standard {}).2 = .ok r ∧ r.targets entry = [1, 2] ∧
      r.definitionsIn entry = [(⟨0, 1⟩, ⟨0, .instr 0⟩)] ∧ r.usesIn 1 = [(⟨0, 1⟩, ⟨1, .instr 0⟩)] := by
  refine Except.exists_ok_of_decide ?_
  cbv

/-- The parameter is live where the branch begins, and its definition in the entry strictly dominates the
branch. -/
theorem liveness_dominated_stepDown :
    ∃ r l, (stepDown.build .standard {}).2 = .ok r ∧ r.liveness = .ok l ∧
      ⟨0, 1⟩ ∈ l.liveIn.getD 1 ∅ ∧
      ∃ s, r.DefinesOnce ⟨0, 1⟩ s ∧ StrictlyDominates r.Edge entry s.block 1 := by
  obtain ⟨r, hr, htargets, hdefs, huses⟩ := build_stepDown
  obtain ⟨l, hl, hin, -, -, -, hlive⟩ := Function.liveness_dominated hr
  have hedge : r.Edge entry 1 := by
    rw [Edge, htargets]
    exact List.mem_cons_self
  have hdefined : r.Defines ⟨0, 1⟩ ⟨entry, .instr 0⟩ := by
    refine ⟨.root, ?_⟩
    rw [hdefs]
    exact List.mem_singleton_self _
  have hmem : ⟨0, 1⟩ ∈ l.liveIn.getD 1 ∅ := by
    refine hlive 1 (Reachable.root.step hedge) ⟨0, 1⟩ ⟨1, .instr 0⟩ ?_ rfl _ hdefined (by decide)
    rw [huses]
    exact List.mem_singleton_self _
  exact ⟨r, l, hr, hl, hmem, (hin 1 _ hmem).2⟩

end SsaFlow
