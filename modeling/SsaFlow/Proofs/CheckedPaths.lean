-- SUMMARY: The check of versions accepts a graph exactly if on every path each read comes after its one definition.
import Mathlib
import SsaFlow.Proofs.SsaForm
import SsaFlow.Proofs.Unrewired

/-!
# The check of versions and paths

The check of versions asks the dominator tree whether a definition comes before a read. What it accepts is said
here without the tree (`FlowGraph.SsaAlong`): definitions have versions, no two define the same value, and on
every walk from the entry to a read the definition is passed before. The blocks may hold any code. As long as
the tree is exact for the walks, the check accepts exactly such graphs (`FlowGraph.checkVersions_ok_iff`).
-/

namespace SsaFlow

/-! ## Passing a place on every walk -/

namespace FlowGraph

/-- On every walk along `E` from the entry to the place `t`, the place `s` is passed before `t`: in a block
visited earlier, or earlier in the block of `t`. -/
def PassedBefore (E : BlockId → BlockId → Prop) (s t : Site) : Prop :=
  ∀ l, Walk E entry l t.block → s.block ∈ l.tail ∨ s.block = t.block ∧ s.point.before t.point = true

/-- What is passed on every walk is what comes before in the block, or stands in a strict dominator.
-/
theorem passedBefore_iff {E : BlockId → BlockId → Prop} {s t : Site} (ht : Reachable E entry t.block) :
    PassedBefore E s t ↔
      s.block = t.block ∧ s.point.before t.point = true ∨ StrictlyDominates E entry s.block t.block := by
  constructor
  · intro h
    by_cases hb : s.block = t.block
    · -- On a first visit of the block nothing in it was passed before.
      obtain ⟨l, hl, hfirst⟩ := ht.exists_first
      exact .inl ((h _ hl).resolve_left (hb ▸ hfirst))
    · refine .inr ⟨hb, fun l hl => ?_⟩
      exact List.mem_of_mem_tail ((h l hl).resolve_right fun hs => hb hs.1)
  · rintro (hs | ⟨hne, hdom⟩) l hl
    · exact .inr hs
    · have hmem := hdom l hl
      cases l with
      | nil => exact nomatch hmem
      | cons b l =>
        obtain rfl : b = t.block := hl.head_eq
        exact .inl (List.mem_of_ne_of_mem hne hmem)

end FlowGraph

theorem DominatorTree.Exact.reaches_iff_passedBefore {tree : DominatorTree} {E : BlockId → BlockId → Prop}
    (h : tree.Exact E) {s t : Site} (ht : Reachable E FlowGraph.entry t.block) :
    tree.reaches s t = true ↔ FlowGraph.PassedBefore E s t := by
  rw [h.reaches_iff, and_iff_right ht, FlowGraph.passedBefore_iff ht]

namespace FlowGraph

/-! ## Definitions and reads -/

/-- The definitions in a block: phis and instructions, each counted from zero. -/
inductive Definer where
  | phi (k : Nat)
  | instr (k : Nat)
deriving DecidableEq

def Definer.point : Definer → Point
  | .phi _ => .phi
  | .instr k => .instr k

def definedBy? (g : FlowGraph) (b : BlockId) : Definer → Option VersionedVar
  | .phi k => (g.block b).phis[k]?.map Phi.target
  | .instr k => (g.block b).instrs[k]?.bind Instr.defined?

/-- Single assignment, said by walks along `E`. -/
structure SsaAlong (g : FlowGraph) (E : BlockId → BlockId → Prop) : Prop where
  bound : ∀ {b : BlockId} {n : Definer} {v : VersionedVar}, Reachable E entry b → g.definedBy? b n = some v →
    v.isBound = true
  unique : ∀ {b c : BlockId} {m n : Definer} {v : VersionedVar}, Reachable E entry b → Reachable E entry c →
    g.definedBy? b m = some v → g.definedBy? c n = some v → b = c ∧ m = n
  passed : ∀ {b : BlockId} {v : VersionedVar} {t : Site}, Reachable E entry b → g.Reads b v t →
    v.isBound = true →
    ∃ c n, Reachable E entry c ∧ g.definedBy? c n = some v ∧ PassedBefore E ⟨c, n.point⟩ t

theorem mem_definitionsIn_iff {g : FlowGraph} {b : BlockId} {v : VersionedVar} {s : Site} :
    (v, s) ∈ g.definitionsIn b ↔ ∃ n, g.definedBy? b n = some v ∧ s = ⟨b, n.point⟩ := by
  rw [mem_definitionsIn]
  constructor
  · obtain ⟨c, p⟩ := s
    rintro ⟨rfl, ⟨rfl, φ, hφ, rfl⟩ | ⟨i, hi, hv⟩⟩
    · obtain ⟨k, hk⟩ := List.mem_iff_getElem?.mp hφ
      exact ⟨.phi k, Option.map_eq_some_iff.mpr ⟨φ, hk, rfl⟩, rfl⟩
    · obtain ⟨_, k, ⟨⟩⟩ := exists_of_instr? hi
      exact ⟨.instr k, Option.bind_eq_some_iff.mpr ⟨i, hi, hv⟩, rfl⟩
  · rintro ⟨k | k, hv, rfl⟩
    · obtain ⟨φ, hφ, rfl⟩ := Option.map_eq_some_iff.mp hv
      exact ⟨rfl, .inl ⟨rfl, φ, List.mem_of_getElem? hφ, rfl⟩⟩
    · obtain ⟨i, hi, hv⟩ := Option.bind_eq_some_iff.mp hv
      exact ⟨rfl, .inr ⟨i, hi, hv⟩⟩

/-! ## No value defined twice -/

/-- What a list gives is free of repetition exactly if no two positions give the same. -/
theorem nodup_filterMap_iff {α β : Type} {f : α → Option β} {xs : List α} :
    (xs.filterMap f).Nodup ↔ ∀ {i j : Nat} {y : β}, xs[i]?.bind f = some y → xs[j]?.bind f = some y → i = j := by
  rw [List.Nodup, List.pairwise_filterMap, List.pairwise_iff_getElem]
  constructor
  · intro h i j y hi hj
    obtain ⟨x, hx, hy⟩ := Option.bind_eq_some_iff.mp hi
    obtain ⟨x', hx', hy'⟩ := Option.bind_eq_some_iff.mp hj
    obtain ⟨hi, rfl⟩ := List.getElem?_eq_some_iff.mp hx
    obtain ⟨hj, rfl⟩ := List.getElem?_eq_some_iff.mp hx'
    rcases Nat.lt_trichotomy i j with hlt | heq | hlt
    · exact absurd rfl (h i j hi hj hlt y hy y hy')
    · exact heq
    · exact absurd rfl (h j i hj hi hlt y hy' y hy)
  · rintro h i j hi hj hlt y hy _ hy' rfl
    have hfirst : xs[i]?.bind f = some y := by
      rw [List.getElem?_eq_getElem hi]
      exact hy
    have hsecond : xs[j]?.bind f = some y := by
      rw [List.getElem?_eq_getElem hj]
      exact hy'
    exact Nat.ne_of_lt hlt (h hfirst hsecond)

theorem map_fst_definitionsIn (g : FlowGraph) (b : BlockId) :
    (g.definitionsIn b).map Prod.fst =
      (g.block b).phis.filterMap (some ∘ Phi.target) ++ (g.block b).instrs.toList.filterMap Instr.defined? := by
  have hnumbered : ∀ is : List Instr, is.zipIdx.filterMap (fun p => p.1.defined?) = is.filterMap Instr.defined? := by
    intro is
    conv_rhs => rw [← List.zipIdx_map_fst 0 is, List.filterMap_map]
    rfl
  rw [definitionsIn, List.map_append, List.map_map, List.map_filterMap, ← hnumbered, List.filterMap_eq_map]
  refine congrArg _ (List.filterMap_congr ?_)
  rintro ⟨i, k⟩ -
  dsimp only
  cases i.defined? <;> rfl

theorem definedBy?_phi (g : FlowGraph) (b : BlockId) (k : Nat) :
    g.definedBy? b (.phi k) = (g.block b).phis[k]?.bind (some ∘ Phi.target) := Option.map_eq_bind

theorem definedBy?_instr (g : FlowGraph) (b : BlockId) (k : Nat) :
    g.definedBy? b (.instr k) = (g.block b).instrs.toList[k]?.bind Instr.defined? := by
  rw [Array.getElem?_toList]
  rfl

theorem mem_filterMap_iff {α β : Type} {f : α → Option β} {xs : List α} {y : β} :
    y ∈ xs.filterMap f ↔ ∃ k : Nat, xs[k]?.bind f = some y := by
  rw [List.mem_filterMap]
  constructor
  · rintro ⟨x, hx, hy⟩
    obtain ⟨k, hk⟩ := List.mem_iff_getElem?.mp hx
    exact ⟨k, Option.bind_eq_some_iff.mpr ⟨x, hk, hy⟩⟩
  · rintro ⟨k, hk⟩
    obtain ⟨x, hx, hy⟩ := Option.bind_eq_some_iff.mp hk
    exact ⟨x, List.mem_of_getElem? hx, hy⟩

/-- No value is listed twice in a block exactly if no two definitions of the block define it. -/
theorem nodup_definitionsIn_iff {g : FlowGraph} {b : BlockId} :
    ((g.definitionsIn b).map Prod.fst).Nodup ↔ ∀ {m n : Definer} {v : VersionedVar},
      g.definedBy? b m = some v → g.definedBy? b n = some v → m = n := by
  rw [map_fst_definitionsIn, List.nodup_append', nodup_filterMap_iff, nodup_filterMap_iff, List.disjoint_left]
  simp only [mem_filterMap_iff, ← definedBy?_phi, ← definedBy?_instr]
  constructor
  · rintro ⟨hphis, hinstrs, hapart⟩ (j | j) (k | k) v hm hn
    · rw [hphis hm hn]
    · exact absurd ⟨k, hn⟩ (hapart ⟨j, hm⟩)
    · exact absurd ⟨j, hm⟩ (hapart ⟨k, hn⟩)
    · rw [hinstrs hm hn]
  · intro h
    refine ⟨fun hm hn => ?_, fun hm hn => ?_, fun v ⟨j, hm⟩ ⟨k, hn⟩ => ?_⟩
    · exact Definer.phi.inj (h hm hn)
    · exact Definer.instr.inj (h hm hn)
    · exact nomatch h hm hn

/-- The definitions of a list of blocks. -/
theorem nodup_flatMap_definitionsIn_iff {g : FlowGraph} {bs : List BlockId} (hbs : bs.Nodup) :
    ((bs.flatMap g.definitionsIn).map Prod.fst).Nodup ↔
      ∀ {b c : BlockId} {m n : Definer} {v : VersionedVar}, b ∈ bs → c ∈ bs →
        g.definedBy? b m = some v → g.definedBy? c n = some v → b = c ∧ m = n := by
  have hmem : ∀ {b : BlockId} {v : VersionedVar},
      v ∈ (g.definitionsIn b).map Prod.fst ↔ ∃ n, g.definedBy? b n = some v := by
    intro b v
    rw [List.mem_map]
    constructor
    · rintro ⟨⟨_, s⟩, hv, rfl⟩
      obtain ⟨n, hn, -⟩ := mem_definitionsIn_iff.mp hv
      exact ⟨n, hn⟩
    · rintro ⟨n, hn⟩
      exact ⟨_, mem_definitionsIn_iff.mpr ⟨n, hn, rfl⟩, rfl⟩
  rw [List.map_flatMap, List.nodup_flatMap]
  constructor
  · rintro ⟨hin, hapart⟩ b c m n v hb hc hm hn
    have hsymm : Std.Symm (Function.onFun List.Disjoint fun b => (g.definitionsIn b).map Prod.fst) :=
      ⟨fun _ _ h => h.symm⟩
    -- two blocks that define the same value are one block
    have hbc : b = c := by
      by_contra hne
      exact hapart.forall hb hc hne (hmem.mpr ⟨m, hm⟩) (hmem.mpr ⟨n, hn⟩)
    subst hbc
    exact ⟨rfl, nodup_definitionsIn_iff.mp (hin b hb) hm hn⟩
  · intro h
    refine ⟨fun b hb => nodup_definitionsIn_iff.mpr fun hm hn => (h hb hb hm hn).2, ?_⟩
    refine hbs.pairwise_of_forall_ne fun b hb c hc hne v hv hv' => ?_
    obtain ⟨m, hm⟩ := hmem.mp hv
    obtain ⟨n, hn⟩ := hmem.mp hv'
    exact hne (h hb hc hm hn).1

/-! ## What the check accepts -/

/-- A check of all elements passes if each of them passes. -/
theorem checkAll_ok_iff {α ε : Type} {check : α → Except ε Unit} {xs : List α} :
    checkAll check xs = .ok () ↔ ∀ x ∈ xs, check x = .ok () := by
  refine ⟨fun h => ?_, checkAll_ok⟩
  induction xs with
  | nil => nofun
  | cons x xs ih =>
    rw [checkAll] at h
    split at h
    · cases h
    · next hx => exact List.forall_mem_cons.mpr ⟨hx, ih h⟩

/-- A table that is made has new and bound values, none of them twice. -/
theorem of_definitionTable_ok {ds : List (VersionedVar × Site)} {table table' : Std.HashMap VersionedVar Site}
    (h : definitionTable table ds = .ok table') :
    (∀ d ∈ ds, d.1.isBound = true) ∧ (ds.map Prod.fst).Nodup ∧ ∀ d ∈ ds, d.1 ∉ table := by
  induction ds generalizing table with
  | nil => exact ⟨nofun, .nil, nofun⟩
  | cons d ds ih =>
    obtain ⟨v, s⟩ := d
    rw [definitionTable] at h
    split at h
    · cases h
    · next hbound =>
      split at h
      · cases h
      · next hnew =>
        obtain ⟨hbounds, hnodup, hother⟩ := ih h
        rw [Bool.not_eq_true', Bool.not_eq_false] at hbound
        simp only [Std.HashMap.mem_insert, not_or] at hother
        refine ⟨List.forall_mem_cons.mpr ⟨hbound, hbounds⟩, List.nodup_cons.mpr ⟨?_, hnodup⟩,
          List.forall_mem_cons.mpr ⟨mt Std.HashMap.mem_iff_contains.mp hnew, fun d hd => (hother d hd).2⟩⟩
        intro hv
        obtain ⟨d, hd, rfl⟩ := List.mem_map.mp hv
        exact (hother d hd).1 BEq.rfl

/-- A table that is made says where each value is defined. -/
theorem getElem?_of_definitionTable_ok {ds : List (VersionedVar × Site)} {table : Std.HashMap VersionedVar Site}
    (h : definitionTable ∅ ds = .ok table) {v : VersionedVar} {s : Site} :
    table[v]? = some s ↔ (v, s) ∈ ds := by
  obtain ⟨hbound, hnodup, hnew⟩ := of_definitionTable_ok h
  obtain ⟨_, htable, hget, hother⟩ := definitionTable_ok hbound hnodup hnew
  cases h.symm.trans htable
  refine ⟨fun hs => ?_, hget (v, s)⟩
  by_cases hv : v ∈ ds.map Prod.fst
  · obtain ⟨⟨_, t⟩, hd, rfl⟩ := List.mem_map.mp hv
    cases hs.symm.trans (hget _ hd)
    exact hd
  · rw [hother v hv, Std.HashMap.getElem?_empty] at hs
    exact nomatch hs

theorem require_ok_iff {ε : Type} {condition : Bool} {violation : ε} :
    require condition violation = .ok () ↔ condition = true := by
  cases condition <;> simp [require]

theorem checkUse_ok_iff {tree : DominatorTree} {table : Std.HashMap VersionedVar Site} {v : VersionedVar}
    {t : Site} : checkUse tree table (v, t) = .ok () ↔
      (v.isBound = true → ∃ s, table[v]? = some s ∧ tree.reaches s t = true) := by
  rw [checkUse, require_ok_iff, Bool.or_eq_true, Bool.not_eq_true', ← Bool.not_eq_true, ← imp_iff_not_or]
  refine imp_congr_right fun _ => ?_
  cases table[v]? <;> simp

/-- The check of versions accepts a graph exactly if it is in single assignment form along the walks for which
the tree is exact. -/
theorem checkVersions_ok_iff {g : FlowGraph} {tree : DominatorTree} {E : BlockId → BlockId → Prop}
    (h : tree.Exact E) (hslots : ∀ b, Reachable E entry b → ∀ φ ∈ (g.block b).phis, ∀ p ∈ φ.preds,
      Reachable E entry p) : g.checkVersions tree = .ok () ↔ g.SsaAlong E := by
  have hdefs : ∀ {v s}, (v, s) ∈ tree.preorder.flatMap g.definitionsIn ↔
      ∃ b n, Reachable E entry b ∧ g.definedBy? b n = some v ∧ s = ⟨b, n.point⟩ := by
    intro v s
    simp only [List.mem_flatMap, h.mem_preorder, mem_definitionsIn_iff]
    exact exists_congr fun b => exists_and_left.symm
  -- a phi reads at the end of a predecessor, which is reachable too
  have hread : ∀ {b v t}, Reachable E entry b → g.Reads b v t → Reachable E entry t.block := by
    rintro b v t hb (_ | _ | ⟨hφ, hp⟩)
    · exact hb
    · exact hb
    · exact hslots b hb _ hφ _ (List.mem_map_of_mem hp)
  constructor
  · intro hok
    rw [checkVersions] at hok
    split at hok
    · cases hok
    · next table htable =>
      obtain ⟨hbound, hnodup, -⟩ := of_definitionTable_ok htable
      rw [nodup_flatMap_definitionsIn_iff h.nodup] at hnodup
      refine ⟨fun hb hn => hbound _ (hdefs.mpr ⟨_, _, hb, hn, rfl⟩), fun hb hc => ?_, fun {b v t} hb hv hvbound => ?_⟩
      · exact hnodup (h.mem_preorder.mpr hb) (h.mem_preorder.mpr hc)
      · have huse : (v, t) ∈ tree.preorder.flatMap g.usesIn :=
          List.mem_flatMap.mpr ⟨b, h.mem_preorder.mpr hb, mem_usesIn.mpr hv⟩
        obtain ⟨s, hs, hreaches⟩ := checkUse_ok_iff.mp (checkAll_ok_iff.mp hok _ huse) hvbound
        obtain ⟨c, n, hc, hn, rfl⟩ := hdefs.mp ((getElem?_of_definitionTable_ok htable).mp hs)
        exact ⟨c, n, hc, hn, (h.reaches_iff_passedBefore (hread hb hv)).mp hreaches⟩
  · intro hssa
    -- values that are bound and defined once are all that the table asks for
    have hbound : ∀ d ∈ tree.preorder.flatMap g.definitionsIn, d.1.isBound = true := by
      rintro ⟨v, s⟩ hd
      obtain ⟨b, n, hb, hn, -⟩ := hdefs.mp hd
      exact hssa.bound hb hn
    have hnodup : ((tree.preorder.flatMap g.definitionsIn).map Prod.fst).Nodup :=
      (nodup_flatMap_definitionsIn_iff h.nodup).mpr fun hb hc =>
        hssa.unique (h.mem_preorder.mp hb) (h.mem_preorder.mp hc)
    obtain ⟨table, htable, -⟩ := definitionTable_ok hbound hnodup fun _ _ => Std.HashMap.not_mem_empty
    rw [checkVersions, htable]
    refine checkAll_ok ?_
    rintro ⟨v, t⟩ huse
    obtain ⟨b, hb, hv⟩ := List.mem_flatMap.mp huse
    rw [h.mem_preorder] at hb
    rw [mem_usesIn] at hv
    refine checkUse_ok_iff.mpr fun hvbound => ?_
    obtain ⟨c, n, hc, hn, hpassed⟩ := hssa.passed hb hv hvbound
    exact ⟨⟨c, n.point⟩, (getElem?_of_definitionTable_ok htable).mpr (hdefs.mpr ⟨c, n, hc, hn, rfl⟩),
      (h.reaches_iff_passedBefore (hread hb hv)).mpr hpassed⟩

/-- The SSA check of a pruned, ordered and analysed graph whose edges stayed, whatever its blocks have come to
hold, accepts it exactly if definitions have versions, no two define the same value, and on every path from the
entry to a read, along edges between blocks of the graph, the definition is executed before the read.

A path that goes through a removed block which was connected again does not count, and neither does a block that
only such paths reach. If removed blocks were left alone, all paths count. -/
theorem checkSsa_ok_iff_paths {g g' : FlowGraph} (hg : g.Attainable) (hg' : Unrewired g.prune.1 g')
    (hdominance : g'.dominance.isSome = true)
    (hslots : ∀ b, Reachable g'.Flows entry b → ∀ φ ∈ (g'.block b).phis, ∀ p ∈ φ.preds,
      Reachable g'.Flows entry p) :
    (g'.checkSsa = .ok () ↔ g'.SsaAlong g'.Flows) ∧
      (g.Intact → (g'.checkSsa = .ok () ↔ g'.SsaAlong g'.Edge)) := by
  obtain ⟨dom, hdom⟩ := Option.isSome_iff_exists.mp hdominance
  have hfits := hg.fits hg'
  have hexact : dom.tree.Exact g'.Flows := by
    rw [hfits.refilled.flows hg.linked.prune]
    exact hfits.exact hdom
  have hchecked : g'.checkSsa = .ok () ↔ g'.SsaAlong g'.Flows := by
    rw [checkSsa, hdom]
    exact checkVersions_ok_iff hexact hslots
  exact ⟨hchecked, fun hintact => hfits.flows_eq_edge hintact ▸ hchecked⟩

/-- The check accepts a loop that hands its counter on to itself, so the parameter is there on every path to the
block that returns it. -/
theorem checkSsa_ok_iff_paths_paramLoop :
    ∃ g', (fillParamLoop paramLoop.prune.1).withOrder >>= withDominance = .ok g' ∧
      PassedBefore g'.Flows ⟨0, .instr 0⟩ ⟨2, .exit⟩ := by
  obtain ⟨g', hg', hchecked, hdominance, hslots, htargets, hkept, hused, hinstrs⟩ :
      ∃ g', (fillParamLoop paramLoop.prune.1).withOrder >>= withDominance = .ok g' ∧ g'.checkSsa = .ok () ∧
        g'.dominance.isSome = true ∧ (∀ b ∈ List.range g'.size, ∀ φ ∈ (g'.block b).phis, φ.preds = [0, 1]) ∧
        g'.targets 0 = [1, 2] ∧ (∀ b ∈ [0, 1, 2], (g'.block b).removed = false) ∧ (g'.jump 2).used? = some ⟨0, 1⟩ ∧
        (g'.block 0).instrs = #[.param ⟨0, 1⟩ 0] := by
    refine Except.exists_ok_of_decide ?_
    cbv
  obtain ⟨ordered, hordered, hanalysed⟩ := Except.exists_of_bind hg'
  have hunrewired : Unrewired paramLoop.prune.1 g' :=
    .dominance (.order (unrewired_fillParamLoop _) hordered) hanalysed
  have hstep : ∀ b ∈ [1, 2], Reachable g'.Flows entry b := by
    intro b hb
    refine Reachable.root.step ⟨?_, hkept 0 List.mem_cons_self, hkept b (List.mem_cons_of_mem 0 hb)⟩
    rw [Edge, entry, htargets]
    exact hb
  have hreachable : ∀ b, Reachable g'.Flows entry b → ∀ φ ∈ (g'.block b).phis, ∀ p ∈ φ.preds,
      Reachable g'.Flows entry p := by
    intro b _ φ hφ p hp
    by_cases hb : b < g'.size
    · rw [hslots b (List.mem_range.mpr hb) φ hφ] at hp
      rcases List.mem_cons.mp hp with rfl | hp
      · exact .root
      · exact hstep p (List.mem_cons.mpr (.inl (List.mem_singleton.mp hp)))
    · rw [block_of_size_le (Nat.le_of_not_lt hb)] at hφ
      cases hφ
  have hssa := (checkSsa_ok_iff_paths (g := paramLoop) (.applyAll (.start (.new 2)) _) hunrewired hdominance
    hreachable).1.mp hchecked
  have hparam : g'.definedBy? 0 (.instr 0) = some ⟨0, 1⟩ := by
    rw [definedBy?, hinstrs]
    rfl
  obtain ⟨c, n, hc, hn, hpassed⟩ := hssa.passed (hstep 2 (by decide)) (.jump hused) rfl
  obtain ⟨rfl, rfl⟩ := hssa.unique hc .root hn hparam
  exact ⟨g', hg', hpassed⟩

end FlowGraph

end SsaFlow
