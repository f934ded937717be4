-- SUMMARY: Places in a graph: what stands there, which place comes before which, and gathering definition sites.
import SsaFlow.Proofs.Assembled
import SsaFlow.Ssa.PhiPlacement

/-!
# Places in a graph

The instructions of a graph are told apart by their places. A place comes before another if it is passed
on every walk there: it stands earlier in the same block or in a block that strictly dominates. Gathering
definition sites goes through all instructions in the order of the blocks; it finds every place where a
variable is declared or written, or it stops at a second declaration.
-/

namespace SsaFlow

theorem Point.before_trans {p q s : Point} (hpq : p.before q = true) (hqs : q.before s = true) :
    p.before s = true := by
  cases p <;> cases q <;> cases s <;> simp_all [Point.before]
  omega

theorem Point.before_irrefl (p : Point) : p.before p = false := by
  cases p <;> simp [Point.before]

theorem Point.eq_of_not_before {p q : Point} (hpq : p.before q = false) (hqp : q.before p = false) :
    p = q := by
  cases p <;> cases q <;> simp_all [Point.before]
  omega

/-- An exact tree says which definitions are executed before a place on every way there. -/
theorem DominatorTree.Exact.reaches_iff {tree : DominatorTree} {E : BlockId → BlockId → Prop} (h : tree.Exact E)
    {s t : Site} : tree.reaches s t = true ↔ Reachable E FlowGraph.entry t.block ∧
      (s.block = t.block ∧ s.point.before t.point = true ∨
        StrictlyDominates E FlowGraph.entry s.block t.block) := by
  rw [reaches]
  split
  · next hb =>
    rw [Bool.and_eq_true, h.contains_iff, and_comm]
    simp [hb, StrictlyDominates.irrefl]
  · next hb =>
    rw [properlyDominates, Bool.and_eq_true, bne_iff_ne, h.dominates_iff]
    simp only [hb, false_and, false_or, StrictlyDominates, ne_eq, not_false_eq_true, true_and]

namespace FlowGraph

def instr? (g : FlowGraph) : Site → Option Instr
  | ⟨b, .instr k⟩ => (g.block b).instrs[k]?
  | ⟨_, .phi⟩ | ⟨_, .exit⟩ => none

/-- The variable `v` is declared at a reachable place. -/
def Declares (g : FlowGraph) (v : VarId) (s : Site) : Prop :=
  Reachable g.Edge entry s.block ∧ g.instr? s = some (.declare v)

/-- A parameter or an assignment writes `v` at a reachable place. -/
def Writes (g : FlowGraph) (v : VarId) (s : Site) : Prop :=
  Reachable g.Edge entry s.block ∧ ∃ i w, g.instr? s = some i ∧ i.defined? = some w ∧ w.var = v

/-- The place `s` is passed on every walk to the place `t`. -/
def Before (g : FlowGraph) (s t : Site) : Prop :=
  s.block = t.block ∧ s.point.before t.point = true ∨ StrictlyDominates g.Edge entry s.block t.block

/-! ## Order of places -/

namespace Before

variable {g : FlowGraph} {s t u : Site}

/-- What comes before a place stands in a dominator of its block. -/
theorem dominates (h : g.Before s t) : Dominates g.Edge entry s.block t.block := by
  rcases h with ⟨heq, -⟩ | hdom
  · rw [heq]
    exact .refl _
  · exact hdom.2

/-- What comes before is transitive, up to a place that can be reached. -/
theorem trans (hu : Reachable g.Edge entry u.block) (hst : g.Before s t) (htu : g.Before t u) :
    g.Before s u := by
  rcases hst with ⟨hb, hp⟩ | hdom
  · rcases htu with ⟨hb', hp'⟩ | hdom'
    · exact .inl ⟨hb.trans hb', Point.before_trans hp hp'⟩
    · exact .inr (hb ▸ hdom')
  · refine .inr ⟨?_, hdom.2.trans htu.dominates⟩
    intro heq
    have hback : Dominates g.Edge entry t.block s.block := heq ▸ htu.dominates
    exact hdom.asymm (htu.dominates.reachable hu) hback

theorem irrefl (s : Site) : ¬ g.Before s s := by
  rintro (⟨-, hp⟩ | hdom)
  · rw [Point.before_irrefl] at hp
    exact nomatch hp
  · exact hdom.1 rfl

theorem asymm (ht : Reachable g.Edge entry t.block) (hst : g.Before s t) : ¬ g.Before t s := by
  intro hts
  exact irrefl s (hst.trans (hst.dominates.reachable ht) hts)

/-- Of two places before a third, one comes before the other. -/
theorem total (hu : Reachable g.Edge entry u.block) (hsu : g.Before s u) (htu : g.Before t u) :
    g.Before s t ∨ g.Before t s ∨ s = t := by
  by_cases hb : s.block = t.block
  · cases hp : s.point.before t.point with
    | true => exact .inl (.inl ⟨hb, hp⟩)
    | false =>
      cases hp' : t.point.before s.point with
      | true => exact .inr (.inl (.inl ⟨hb.symm, hp'⟩))
      | false =>
        obtain ⟨b, p⟩ := s
        obtain ⟨c, q⟩ := t
        obtain rfl : b = c := hb
        obtain rfl : p = q := Point.eq_of_not_before hp hp'
        exact .inr (.inr rfl)
  · rcases Dominates.total hu hsu.dominates htu.dominates with hdom | hdom
    · exact .inl (.inr ⟨hb, hdom⟩)
    · exact .inr (.inl (.inr ⟨Ne.symm hb, hdom⟩))

end Before

theorem Analysed.reaches_iff {g : FlowGraph} {order : List BlockId} {tree : DominatorTree}
    (h : g.Analysed order tree) {s t : Site} :
    tree.reaches s t = true ↔ Reachable g.Edge entry t.block ∧ g.Before s t :=
  h.exact.reaches_iff

/-! ## All instructions of a list of blocks -/

def placed (b : BlockId) (is : List Instr) (k : Nat) : List (Site × Instr) :=
  (is.zipIdx k).map fun (i, k) => (⟨b, .instr k⟩, i)

def code (g : FlowGraph) (bs : List BlockId) : List (Site × Instr) :=
  bs.flatMap fun b => placed b (g.block b).instrs.toList 0

theorem mem_placed {b : BlockId} {is : List Instr} {s : Site} {i : Instr} :
    (s, i) ∈ placed b is 0 ↔ ∃ k, s = ⟨b, .instr k⟩ ∧ is[k]? = some i := by
  simp only [placed, List.mem_map, Prod.exists, Prod.mk.injEq, List.mem_zipIdx_iff_getElem?]
  constructor
  · rintro ⟨i, k, hk, rfl, rfl⟩
    exact ⟨k, rfl, hk⟩
  · rintro ⟨k, rfl, hk⟩
    exact ⟨i, k, hk, rfl, rfl⟩

/-- The code of a list of blocks has their instructions, each at its place. -/
theorem mem_code {g : FlowGraph} {bs : List BlockId} {s : Site} {i : Instr} :
    (s, i) ∈ g.code bs ↔ s.block ∈ bs ∧ g.instr? s = some i := by
  simp only [code, List.mem_flatMap, mem_placed]
  constructor
  · rintro ⟨b, hb, k, rfl, hk⟩
    exact ⟨hb, by rwa [instr?, ← Array.getElem?_toList]⟩
  · rintro ⟨hb, hi⟩
    obtain ⟨b, p⟩ := s
    cases p with
    | phi | exit => exact nomatch hi
    | instr k => exact ⟨b, hb, k, rfl, by rwa [instr?, ← Array.getElem?_toList] at hi⟩

theorem exists_of_instr? {g : FlowGraph} {s : Site} {i : Instr} (h : g.instr? s = some i) :
    ∃ b k, s = ⟨b, .instr k⟩ := by
  obtain ⟨b, p⟩ := s
  cases p with
  | phi | exit => exact nomatch h
  | instr k => exact ⟨b, k, rfl⟩

/-- All instructions of a graph with their places. -/
theorem mem_code_range {g : FlowGraph} {s : Site} {i : Instr} :
    (s, i) ∈ g.code (List.range g.size) ↔ g.instr? s = some i := by
  rw [mem_code, List.mem_range]
  refine ⟨fun h => h.2, fun hi => ⟨?_, hi⟩⟩
  obtain ⟨b, k, rfl⟩ := exists_of_instr? hi
  refine Nat.lt_of_not_le fun hle => ?_
  rw [instr?, block_of_size_le hle] at hi
  exact nomatch hi

/-- Every place is listed once. -/
theorem nodup_code {g : FlowGraph} {bs : List BlockId} (h : bs.Nodup) :
    ((g.code bs).map Prod.fst).Nodup := by
  rw [code, List.map_flatMap, List.nodup_flatMap]
  constructor
  · intro b _
    have hmap : (placed b (g.block b).instrs.toList 0).map Prod.fst =
        (List.range (g.block b).instrs.toList.length).map fun k => (⟨b, .instr k⟩ : Site) := by
      rw [List.range_eq_range', ← List.zipIdx_map_snd 0 (g.block b).instrs.toList, List.map_map, placed,
        List.map_map]
      rfl
    rw [hmap]
    refine List.nodup_range.map fun j k hjk => ?_
    cases hjk
    rfl
  · refine h.imp fun {a b} hab => ?_
    rw [Function.onFun, List.disjoint_left]
    intro s hs hs'
    obtain ⟨⟨s, i⟩, hi, rfl⟩ := List.mem_map.mp hs
    obtain ⟨⟨s', j⟩, hj, heq⟩ := List.mem_map.mp hs'
    obtain ⟨k, rfl, -⟩ := mem_placed.mp hi
    obtain ⟨k', rfl, -⟩ := mem_placed.mp hj
    cases heq
    exact hab rfl

/-! ## Places before neighbouring places -/

section Neighbours

variable {g : FlowGraph} {b c : BlockId} {s : Site}

/-- What comes before the next instruction comes before this one, or is this one. -/
theorem before_succ_iff {k : Nat} :
    g.Before s ⟨b, .instr (k + 1)⟩ ↔ g.Before s ⟨b, .instr k⟩ ∨ s = ⟨b, .instr k⟩ := by
  obtain ⟨c, p⟩ := s
  rw [Before, Before]
  cases p with
  | phi => simp [Point.before]
  | exit => simp [Point.before]
  | instr j =>
    simp only [Point.before, decide_eq_true_eq, Site.mk.injEq, Point.instr.injEq]
    by_cases hcb : c = b
    · simp [hcb, StrictlyDominates.irrefl]
      omega
    · simp [hcb]

/-- The end of a block comes after its last instruction. -/
theorem before_exit_iff {k : Nat} (hk : (g.block b).instrs.size ≤ k)
    (hs : s.point = .phi ∨ ∃ i, g.instr? s = some i) :
    g.Before s ⟨b, .exit⟩ ↔ g.Before s ⟨b, .instr k⟩ := by
  obtain ⟨c, p⟩ := s
  cases p with
  | phi => simp [Before, Point.before]
  | exit =>
    rcases hs with hs | ⟨i, hi⟩
    · exact nomatch hs
    · exact nomatch hi
  | instr j =>
    rw [Before, Before]
    by_cases hcb : c = b
    · subst hcb
      have hlt : j < k := by
        rcases hs with hs | ⟨i, hi⟩
        · exact nomatch hs
        · exact Nat.lt_of_lt_of_le (Array.getElem?_eq_some_iff.mp hi).1 hk
      simp [Point.before, hlt]
    · simp [hcb]

theorem before_start_iff :
    g.Before s ⟨c, .instr 0⟩ ↔ s = ⟨c, .phi⟩ ∨ StrictlyDominates g.Edge entry s.block c := by
  obtain ⟨a, p⟩ := s
  cases p <;> simp [Before, Point.before]

/-- Whatever stands in a block comes before the ends of the blocks that it dominates. -/
theorem before_exit_iff_dominates (hs : s.point = .phi ∨ ∃ i, g.instr? s = some i) :
    g.Before s ⟨b, .exit⟩ ↔ Dominates g.Edge entry s.block b := by
  constructor
  · exact fun hbefore => hbefore.dominates
  · intro hdom
    by_cases hb : s.block = b
    · refine .inl ⟨hb, ?_⟩
      obtain ⟨c, p⟩ := s
      cases p with
      | phi | instr _ => rfl
      | exit =>
        rcases hs with hs | ⟨i, hi⟩
        · exact nomatch hs
        · exact nomatch hi
    · exact .inr ⟨hb, hdom⟩

end Neighbours

end FlowGraph

/-! ## Gathering definition sites -/

namespace DefinitionSites

def recordEach : DefinitionSites → List (Site × Instr) → Except InternalError DefinitionSites
  | d, [] => .ok d
  | d, (s, i) :: rest =>
    match d.record s.block i with
    | .error e => .error e
    | .ok d' => recordEach d' rest

theorem recordEach_append (d : DefinitionSites) (xs ys : List (Site × Instr)) :
    d.recordEach (xs ++ ys) =
      match d.recordEach xs with
      | .error e => .error e
      | .ok d' => d'.recordEach ys := by
  induction xs generalizing d with
  | nil => rfl
  | cons x xs ih =>
    simp only [List.cons_append, recordEach]
    cases d.record x.1.block x.2 with
    | error e => rfl
    | ok d' => exact ih d'

theorem recordAll_eq (b : BlockId) (d : DefinitionSites) (is : List Instr) (k : Nat) :
    recordAll b d is = d.recordEach (FlowGraph.placed b is k) := by
  induction is generalizing d k with
  | nil => rfl
  | cons i is ih =>
    simp only [recordAll, FlowGraph.placed, List.zipIdx_cons, List.map_cons, recordEach]
    cases d.record b i with
    | error e => rfl
    | ok d' => exact ih d' (k + 1)

/-- The sites are those of the instructions in `done`, which declare no variable twice. -/
structure Gathered (d : DefinitionSites) (numVars : Nat) (done : List (Site × Instr)) : Prop where
  blocks_size : d.blocks.size = numVars
  declared_size : d.declaredIn.size = numVars
  blocks : ∀ {v : VarId} {b : BlockId}, b ∈ d.blocksOf v ↔
    v < numVars ∧ ∃ s i, (s, i) ∈ done ∧ s.block = b ∧ i.subject? = some v
  declared : ∀ {v : VarId} {b : BlockId}, d.declaration? v = some b ↔
    v < numVars ∧ ∃ s, (s, .declare v) ∈ done ∧ s.block = b
  once : ∀ {v : VarId}, done.Pairwise fun p q => p.2 = .declare v → q.2 ≠ .declare v

/-- No instructions, no sites. -/
theorem gathered_none (numVars : Nat) : Gathered (.none numVars) numVars [] where
  blocks_size := Array.size_replicate
  declared_size := Array.size_replicate
  blocks := by
    intro v b
    rw [blocksOf, none, Array.getD_eq_getD_getElem?, Array.getElem?_replicate]
    split <;> simp
  declared := by
    intro v b
    rw [declaration?, none, Array.getElem?_replicate]
    split <;> simp
  once := .nil

theorem mem_blocksOf_addSite {d : DefinitionSites} {v w : VarId} {b c : BlockId}
    (hw : w < d.blocks.size) :
    b ∈ (d.addSite w c).blocksOf v ↔ b ∈ d.blocksOf v ∨ v = w ∧ b = c := by
  rw [blocksOf, addSite, FlowGraph.mem_getD_modify_insert hw, blocksOf, and_comm (a := v = w)]

namespace Gathered

variable {d : DefinitionSites} {numVars : Nat} {done : List (Site × Instr)}

/-- Sites that grew by what one instruction declares or writes. -/
theorem snoc (h : Gathered d numVars done) {d' : DefinitionSites} {s : Site} {i : Instr}
    (hrange : ∀ {v}, i.subject? = some v → v < numVars)
    (hfirst : ∀ {v}, i = .declare v → d.declaration? v = Option.none)
    (hblocks : d'.blocks.size = numVars) (hdeclared : d'.declaredIn.size = numVars)
    (hmem : ∀ {v b}, b ∈ d'.blocksOf v ↔ b ∈ d.blocksOf v ∨ i.subject? = some v ∧ b = s.block)
    (hdecl : ∀ {v b}, d'.declaration? v = some b ↔
      d.declaration? v = some b ∨ i = .declare v ∧ b = s.block) :
    Gathered d' numVars (done ++ [(s, i)]) where
  blocks_size := hblocks
  declared_size := hdeclared
  blocks := by
    intro v b
    simp only [hmem, h.blocks, List.mem_append, List.mem_singleton, Prod.mk.injEq]
    constructor
    · rintro (⟨hv, t, j, hj, hb, hsub⟩ | ⟨hsub, rfl⟩)
      · exact ⟨hv, t, j, .inl hj, hb, hsub⟩
      · exact ⟨hrange hsub, s, i, .inr ⟨rfl, rfl⟩, rfl, hsub⟩
    · rintro ⟨hv, t, j, hj | ⟨rfl, rfl⟩, rfl, hsub⟩
      · exact .inl ⟨hv, t, j, hj, rfl, hsub⟩
      · exact .inr ⟨hsub, rfl⟩
  declared := by
    intro v b
    simp only [hdecl, h.declared, List.mem_append, List.mem_singleton, Prod.mk.injEq]
    constructor
    · rintro (⟨hv, t, ht, hb⟩ | ⟨rfl, rfl⟩)
      · exact ⟨hv, t, .inl ht, hb⟩
      · exact ⟨hrange rfl, s, .inr ⟨rfl, rfl⟩, rfl⟩
    · rintro ⟨hv, t, ht | ⟨rfl, hi⟩, rfl⟩
      · exact .inl ⟨hv, t, ht, rfl⟩
      · exact .inr ⟨hi.symm, rfl⟩
  once := by
    intro v
    refine List.pairwise_append.mpr ⟨h.once, List.pairwise_singleton _ _, ?_⟩
    rintro ⟨t, j⟩ hj q hq rfl hi
    rw [List.mem_singleton.mp hq] at hi
    obtain rfl : i = .declare v := hi
    have hsome : d.declaration? v = some t.block := h.declared.mpr ⟨hrange rfl, t, hj, rfl⟩
    rw [hfirst rfl] at hsome
    exact nomatch hsome

/-- Taking in one instruction: a second declaration stops, everything else is noted. -/
theorem record (h : Gathered d numVars done) {s : Site} {i : Instr}
    (hrange : ∀ {v}, i.subject? = some v → v < numVars) :
    (∃ d', d.record s.block i = .ok d' ∧ Gathered d' numVars (done ++ [(s, i)])) ∨
      ∃ v t, d.record s.block i = .error (.duplicateDeclaration v) ∧ i = .declare v ∧
        (t, .declare v) ∈ done := by
  -- parameters and assignments add a block to the sites
  have hwrite : ∀ w, i.subject? = some w → (∀ v, i ≠ .declare v) →
      Gathered (d.addSite w s.block) numVars (done ++ [(s, i)]) := by
    intro w hw hnot
    have hlt : w < d.blocks.size := h.blocks_size ▸ hrange hw
    refine h.snoc hrange (fun hi => absurd hi (hnot _)) ?_ h.declared_size ?_ ?_
    · exact Array.size_modify.trans h.blocks_size
    · intro v b
      rw [mem_blocksOf_addSite hlt, hw, Option.some.injEq, eq_comm (a := w)]
    · intro v b
      exact ⟨.inl, fun hv => hv.resolve_right fun hv => hnot v hv.1⟩
  -- all other instructions leave the sites as they are
  have hother : i.subject? = Option.none → Gathered d numVars (done ++ [(s, i)]) := by
    intro hw
    have hnot : ∀ v, i ≠ .declare v := by
      rintro v rfl
      cases hw
    refine h.snoc hrange (fun hi => absurd hi (hnot _)) h.blocks_size h.declared_size ?_ ?_
    · intro v b
      rw [hw]
      exact ⟨.inl, fun hv => hv.resolve_right fun hv => absurd hv.1 (by simp)⟩
    · intro v b
      exact ⟨.inl, fun hv => hv.resolve_right fun hv => hnot v hv.1⟩
  cases i with
  | declare w =>
    have hlt : w < d.blocks.size := h.blocks_size ▸ hrange rfl
    cases hw : d.declaration? w with
    | some b =>
      obtain ⟨-, t, ht, -⟩ := h.declared.mp hw
      refine .inr ⟨w, t, ?_, rfl, ht⟩
      rw [DefinitionSites.record, if_pos hlt, hw]
    | none =>
      refine .inl ⟨{ d.addSite w s.block with
        declaredIn := d.declaredIn.setIfInBounds w (some s.block) }, ?_, h.snoc hrange ?_ ?_ ?_ ?_ ?_⟩
      · rw [DefinitionSites.record, if_pos hlt, hw]
      · intro v hv
        cases hv
        exact hw
      · exact Array.size_modify.trans h.blocks_size
      · exact Array.size_setIfInBounds.trans h.declared_size
      · intro v b
        refine (mem_blocksOf_addSite hlt).trans ?_
        simp [Instr.subject?, eq_comm]
      · intro v b
        have hlt' : w < d.declaredIn.size := by rw [h.declared_size, ← h.blocks_size]; exact hlt
        rw [declaration?, Array.getElem?_setIfInBounds]
        by_cases hvw : w = v
        · subst hvw
          simp [hlt', hw, eq_comm]
        · simp [hvw, declaration?]
  | param dst idx =>
    have hlt : dst.var < d.blocks.size := h.blocks_size ▸ hrange rfl
    refine .inl ⟨_, ?_, hwrite dst.var rfl fun v hv => by cases hv⟩
    rw [DefinitionSites.record, if_pos hlt]
  | assign dst value =>
    have hlt : dst.var < d.blocks.size := h.blocks_size ▸ hrange rfl
    refine .inl ⟨_, ?_, hwrite dst.var rfl fun v hv => by cases hv⟩
    rw [DefinitionSites.record, if_pos hlt]
  | copy _ _ | unary _ _ _ | binary _ _ _ _ | call _ _ _ => exact .inl ⟨d, rfl, hother rfl⟩

/-- Instructions are gathered one by one until a variable is declared a second time. -/
theorem recordEach (h : Gathered d numVars done) {rest : List (Site × Instr)}
    (hrange : ∀ p ∈ rest, ∀ {v}, p.2.subject? = some v → v < numVars) :
    (∃ d', d.recordEach rest = .ok d' ∧ Gathered d' numVars (done ++ rest)) ∨
      ∃ v xs s ys t, d.recordEach rest = .error (.duplicateDeclaration v) ∧
        done ++ rest = xs ++ (s, .declare v) :: ys ∧ (t, .declare v) ∈ xs := by
  induction rest generalizing d done with
  | nil => exact .inl ⟨d, rfl, by rwa [List.append_nil]⟩
  | cons p rest ih =>
    obtain ⟨s, i⟩ := p
    rw [DefinitionSites.recordEach]
    rcases h.record (s := s) (hrange (s, i) List.mem_cons_self) with ⟨d', hok, hd'⟩ | ⟨v, t, herr, rfl, ht⟩
    · rw [hok, List.append_cons]
      exact ih hd' fun p hp => hrange p (List.mem_cons_of_mem _ hp)
    · rw [herr]
      exact .inr ⟨v, done, s, rest, t, rfl, rfl, ht⟩

end Gathered
end DefinitionSites

namespace FlowGraph

theorem gatherSites_eq (g : FlowGraph) (d : DefinitionSites) (bs : List BlockId) :
    g.gatherSites d bs = d.recordEach (g.code bs) := by
  induction bs generalizing d with
  | nil => rfl
  | cons b bs ih =>
    rw [gatherSites, DefinitionSites.recordAll_eq b d _ 0, code, List.flatMap_cons,
      DefinitionSites.recordEach_append]
    cases d.recordEach (placed b (g.block b).instrs.toList 0) with
    | error e => rfl
    | ok d' => exact ih d'

/-- The sites depend on what the instructions declare and write. -/
theorem gatherSites_congr {g g' : FlowGraph}
    (h : ∀ b d, DefinitionSites.recordAll b d (g'.block b).instrs.toList =
      DefinitionSites.recordAll b d (g.block b).instrs.toList) : g'.gatherSites = g.gatherSites := by
  funext d bs
  induction bs generalizing d with
  | nil => rfl
  | cons b bs ih =>
    unfold gatherSites
    simp only [h, ih]

/-- What the definition sites of a graph say, when no variable is declared twice. -/
structure SitesOf (g : FlowGraph) (sites : DefinitionSites) : Prop where
  mem_blocksOf : ∀ {v : VarId} {b : BlockId}, b ∈ sites.blocksOf v ↔
    ∃ s, s.block = b ∧ (g.Declares v s ∨ g.Writes v s)
  declaration : ∀ {v : VarId} {b : BlockId}, sites.declaration? v = some b ↔
    ∃ s, s.block = b ∧ g.Declares v s
  once : ∀ {v : VarId} {s t : Site}, g.Declares v s → g.Declares v t → s = t

/-- Reachable instructions keep to the variables of the graph. -/
def VarsInRange (g : FlowGraph) : Prop :=
  ∀ b, Reachable g.Edge entry b → ∀ i ∈ (g.block b).instrs, ∀ v ∈ i.mentions, v < g.numVars

theorem VarsInRange.lt_of_subject {g : FlowGraph} (h : g.VarsInRange) {s : Site} {i : Instr} {v : VarId}
    (hs : Reachable g.Edge entry s.block) (hi : g.instr? s = some i) (hv : i.subject? = some v) :
    v < g.numVars := by
  obtain ⟨b, k, rfl⟩ := exists_of_instr? hi
  refine h b hs i (Array.mem_of_getElem? hi) v ?_
  rw [Instr.mentions, hv]
  exact List.mem_append_left _ List.mem_cons_self

/-- Pruning, ordering and dominance analysis of a fresh graph succeed. -/
theorem Fresh.analyse {g : FlowGraph} (h : g.Fresh) :
    ∃ ordered g' order tree, g.prune.1.withOrder = .ok ordered ∧ ordered.withDominance = .ok g' ∧
      g'.blocks = g.prune.1.blocks ∧ g'.Analysed order tree ∧ Shrunk g g' ∧ g'.VarsInRange ∧
      ∀ b, (g'.block b).phis = [] := by
  obtain ⟨ordered, g', order, tree, hordered, hdominance, hblocks, hanalysed, hshrunk⟩ := h.intact.analyse
  refine ⟨ordered, g', order, tree, hordered, hdominance, hblocks, hanalysed, hshrunk, ?_, fun b => ?_⟩
  · intro b _ i hi v hv
    rw [hshrunk.code.instrs] at hi
    rw [hshrunk.code.numVars]
    exact h.vars b i hi v hv
  · rw [hshrunk.code.phis]
    exact h.noPhis b

namespace Shrunk

variable {start g : FlowGraph}

theorem instr? (h : Shrunk start g) (s : Site) : g.instr? s = start.instr? s := by
  obtain ⟨b, p⟩ := s
  cases p with
  | phi | exit => rfl
  | instr k => rw [FlowGraph.instr?, h.code.instrs, FlowGraph.instr?]

/-- Blocks with instructions stay. -/
theorem reachable_iff_of_instr? (h : Shrunk start g) {s : Site} {i : Instr}
    (hi : start.instr? s = some i) : Reachable g.Edge entry s.block ↔ Reachable start.Edge entry s.block := by
  rw [h.reachable_iff]
  refine ⟨fun hs => hs.1, fun hs => ⟨hs, Bool.eq_false_iff.mpr fun hremoved => ?_⟩⟩
  have hempty := h.empty hs hremoved
  obtain ⟨b, k, rfl⟩ := exists_of_instr? hi
  rw [Block.isEmpty, Bool.and_eq_true, Array.isEmpty_iff] at hempty
  rw [FlowGraph.instr?, hempty.2] at hi
  cases hi

/-- Pruning keeps all reachable declarations. -/
theorem declares (h : Shrunk start g) : g.Declares = start.Declares := by
  funext v s
  refine propext ⟨fun hs => ?_, fun hs => ?_⟩
  · have hi := h.instr? s ▸ hs.2
    exact ⟨(h.reachable_iff_of_instr? hi).mp hs.1, hi⟩
  · exact ⟨(h.reachable_iff_of_instr? hs.2).mpr hs.1, (h.instr? s).trans hs.2⟩

theorem writes (h : Shrunk start g) : g.Writes = start.Writes := by
  funext v s
  refine propext ⟨?_, ?_⟩
  · rintro ⟨hs, i, w, hi, hw⟩
    rw [h.instr?] at hi
    exact ⟨(h.reachable_iff_of_instr? hi).mp hs, i, w, hi, hw⟩
  · rintro ⟨hs, i, w, hi, hw⟩
    exact ⟨(h.reachable_iff_of_instr? hi).mpr hs, i, w, (h.instr? s).trans hi, hw⟩

theorem before_iff (h : Shrunk start g) {s t : Site} (hs : Reachable g.Edge entry s.block)
    (ht : Reachable g.Edge entry t.block) : g.Before s t ↔ start.Before s t := by
  rw [Before, Before, StrictlyDominates, StrictlyDominates,
    h.dominates_iff (h.reachable_iff.mp hs).2 (h.reachable_iff.mp ht).2]

end Shrunk

/-- Gathering takes in all instructions of the listed blocks, unless a variable is declared at two places. -/
theorem gather_cases {g : FlowGraph} {order : List BlockId} (hlisted : g.reachable = some order)
    (hnodup : order.Nodup)
    (hrange : ∀ p ∈ g.code order, ∀ {v}, p.2.subject? = some v → v < g.numVars) :
    (∃ sites, g.gatherDefinitionSites = .ok sites ∧ sites.Gathered g.numVars (g.code order)) ∨
      ∃ v s t, g.gatherDefinitionSites = .error (.duplicateDeclaration v) ∧ s ≠ t ∧
        (s, .declare v) ∈ g.code order ∧ (t, .declare v) ∈ g.code order := by
  have hgather : g.gatherDefinitionSites = (DefinitionSites.none g.numVars).recordEach (g.code order) := by
    rw [gatherDefinitionSites, hlisted]
    exact g.gatherSites_eq _ _
  rcases (DefinitionSites.gathered_none g.numVars).recordEach hrange with
    ⟨sites, hok, hsites⟩ | ⟨v, xs, s, ys, t, herr, hsplit, ht⟩
  · exact .inl ⟨sites, hgather.trans hok, hsites⟩
  · rw [List.nil_append] at hsplit
    have hplaces := nodup_code (g := g) hnodup
    rw [hsplit, List.map_append, List.nodup_append] at hplaces
    refine .inr ⟨v, t, s, hgather.trans herr, ?_, ?_, ?_⟩
    · exact hplaces.2.2 t (List.mem_map.mpr ⟨_, ht, rfl⟩) s List.mem_cons_self
    · rw [hsplit]
      exact List.mem_append_left _ ht
    · rw [hsplit]
      exact List.mem_append_right _ List.mem_cons_self

/-- Gathering finds all sites, unless a variable is declared at two places. -/
theorem Ordered.gather {g : FlowGraph} {order : List BlockId} (h : g.Ordered order)
    (hvars : g.VarsInRange) :
    (∃ sites, g.gatherDefinitionSites = .ok sites ∧ g.SitesOf sites) ∨
      ∃ v s t, g.gatherDefinitionSites = .error (.duplicateDeclaration v) ∧ s ≠ t ∧
        g.Declares v s ∧ g.Declares v t := by
  have hcode : ∀ {s i}, (s, i) ∈ g.code order ↔ Reachable g.Edge entry s.block ∧ g.instr? s = some i := by
    intro s i
    rw [mem_code, h.mem_iff]
  have hrange : ∀ p ∈ g.code order, ∀ {v}, p.2.subject? = some v → v < g.numVars := by
    rintro ⟨s, i⟩ hp v hv
    obtain ⟨hs, hi⟩ := hcode.mp hp
    exact hvars.lt_of_subject hs hi hv
  rcases gather_cases h.listed h.nodup hrange with ⟨sites, hok, hsites⟩ | ⟨v, s, t, herr, hne, hs, ht⟩
  · refine .inl ⟨sites, hok, ?_, ?_, ?_⟩
    · intro v b
      rw [hsites.blocks]
      constructor
      · rintro ⟨-, s, i, hi, rfl, hsub⟩
        obtain ⟨hs, hi⟩ := hcode.mp hi
        rcases Instr.subject?_eq_some.mp hsub with rfl | ⟨w, hw, rfl⟩
        · exact ⟨s, rfl, .inl ⟨hs, hi⟩⟩
        · exact ⟨s, rfl, .inr ⟨hs, i, w, hi, hw, rfl⟩⟩
      · rintro ⟨s, rfl, hs⟩
        obtain ⟨i, hi, hsub⟩ : ∃ i, (s, i) ∈ g.code order ∧ i.subject? = some v := by
          rcases hs with ⟨hs, hi⟩ | ⟨hs, i, w, hi, hw, rfl⟩
          · exact ⟨_, hcode.mpr ⟨hs, hi⟩, rfl⟩
          · exact ⟨i, hcode.mpr ⟨hs, hi⟩, Instr.subject?_eq_some.mpr (.inr ⟨w, hw, rfl⟩)⟩
        exact ⟨hrange _ hi hsub, s, i, hi, rfl, hsub⟩
    · intro v b
      rw [hsites.declared]
      constructor
      · rintro ⟨-, s, hs, rfl⟩
        exact ⟨s, rfl, hcode.mp hs⟩
      · rintro ⟨s, rfl, hs⟩
        exact ⟨hrange _ (hcode.mpr hs) rfl, s, hcode.mpr hs, rfl⟩
    · intro v s t hs ht
      refine Classical.byContradiction fun hne => ?_
      have : Std.Symm fun p q : Site × Instr => p.2 = .declare v → q.2 ≠ .declare v :=
        ⟨fun p q hpq hq hp => hpq hp hq⟩
      have honce := List.Pairwise.forall (hsites.once (v := v))
      exact honce (hcode.mpr hs) (hcode.mpr ht) (fun heq => hne (Prod.mk.inj heq).1) rfl rfl
  · exact .inr ⟨v, s, t, herr, hne, hcode.mp hs, hcode.mp ht⟩

end FlowGraph

end SsaFlow
