-- SUMMARY: Graphs in SSA form: how they compare with the graphs they come from, and that all checks accept them.
import SsaFlow.Proofs.Reaching
import SsaFlow.Ssa.Check

/-!
# SSA form

A graph in SSA form is a graph with phis whose uses and definitions have their names. Control flow and the
places of definitions are those of the graph it comes from. All checks accept it: predecessor sets and phi
slots agree with the jumps, no two definitions share a name, and the definition of every use comes before
the use.
-/

namespace SsaFlow

namespace FlowGraph

open Renaming

theorem checkBoth_ok {ε : Type} {first : Except ε Unit} {second : Unit → Except ε Unit} (h : first = .ok ())
    (h' : second () = .ok ()) : checkBoth first second = .ok () := by
  subst h
  exact h'

theorem zipIdx_mapIdx {α β : Type} (f : Nat → α → β) (xs : List α) :
    (xs.mapIdx f).zipIdx = xs.zipIdx.map fun (x, k) => (f k x, k) := by
  refine List.ext_getElem? fun k => ?_
  simp only [List.getElem?_zipIdx, List.getElem?_mapIdx, List.getElem?_map]
  cases xs[k]? <;> simp

/-- If no value is defined twice and all are bound, then the table finds every definition. -/
theorem definitionTable_ok {ds : List (VersionedVar × Site)} {table : Std.HashMap VersionedVar Site}
    (hbound : ∀ d ∈ ds, d.1.isBound = true) (hnodup : (ds.map Prod.fst).Nodup) (hnew : ∀ d ∈ ds, d.1 ∉ table) :
    ∃ table', definitionTable table ds = .ok table' ∧ (∀ d ∈ ds, table'[d.1]? = some d.2) ∧
      ∀ x, x ∉ ds.map Prod.fst → table'[x]? = table[x]? := by
  induction ds generalizing table with
  | nil => exact ⟨table, rfl, nofun, fun _ _ => rfl⟩
  | cons d ds ih =>
    obtain ⟨x, s⟩ := d
    rw [List.map_cons, List.nodup_cons] at hnodup
    -- the values to come are not in the table yet, since none is listed twice
    have hrest : ∀ d ∈ ds, d.1 ∉ table.insert x s := by
      intro d hd hmem
      rcases Std.HashMap.mem_insert.mp hmem with heq | hmem
      · exact hnodup.1 (List.mem_map.mpr ⟨d, hd, (eq_of_beq heq).symm⟩)
      · exact hnew d (List.mem_cons_of_mem _ hd) hmem
    obtain ⟨table', htable', hmem, hother⟩ :=
      ih (fun d hd => hbound d (List.mem_cons_of_mem _ hd)) hnodup.2 hrest
    refine ⟨table', ?_, ?_, ?_⟩
    · rw [definitionTable, hbound _ List.mem_cons_self]
      have hcontains : table.contains x = false := by
        rw [Bool.eq_false_iff, ne_eq, ← Std.HashMap.mem_iff_contains]
        exact hnew _ List.mem_cons_self
      rw [hcontains]
      exact htable'
    · refine List.forall_mem_cons.mpr ⟨?_, hmem⟩
      rw [hother x hnodup.1, Std.HashMap.getElem?_insert_self]
    · intro y hy
      rw [List.map_cons, List.mem_cons, not_or] at hy
      rw [hother y hy.2, Std.HashMap.getElem?_insert, if_neg]
      exact fun heq => hy.1 (eq_of_beq heq).symm

theorem getD_foldl_mark {bs : List BlockId} {acc : Array Bool} {b : BlockId} :
    (bs.foldl (fun acc b => acc.setIfInBounds b true) acc).getD b false = true ↔
      acc.getD b false = true ∨ b ∈ bs ∧ b < acc.size := by
  induction bs generalizing acc with
  | nil => simp
  | cons c cs ih =>
    rw [List.foldl_cons, ih, Array.size_setIfInBounds, List.mem_cons, Array.getD_eq_getD_getElem?,
      Array.getElem?_setIfInBounds, Array.getD_eq_getD_getElem?]
    by_cases hcb : c = b
    · subst hcb
      by_cases hlt : c < acc.size <;> simp [hlt]
    · simp [hcb, Ne.symm hcb]

theorem size_foldl_insert (p : BlockId) (ss : List BlockId) (acc : Array IdSet) :
    (ss.foldl (fun acc s => acc.modify s (·.insert p)) acc).size = acc.size := by
  induction ss generalizing acc with
  | nil => rfl
  | cons s ss ih => exact (ih _).trans Array.size_modify

theorem mem_foldl_insert {p : BlockId} {ss : List BlockId} {acc : Array IdSet}
    (hss : ∀ s ∈ ss, s < acc.size) {b q : BlockId} :
    q ∈ (ss.foldl (fun acc s => acc.modify s (·.insert p)) acc).getD b ∅ ↔
      q ∈ acc.getD b ∅ ∨ q = p ∧ b ∈ ss := by
  induction ss generalizing acc with
  | nil => simp
  | cons s ss ih =>
    have hs : s < acc.size := hss s List.mem_cons_self
    have hrest : ∀ t ∈ ss, t < (acc.modify s (·.insert p)).size := by
      intro t ht
      rw [Array.size_modify]
      exact hss t (List.mem_cons_of_mem s ht)
    rw [List.foldl_cons, ih hrest, mem_getD_modify_insert hs, List.mem_cons]
    constructor
    · rintro ((hq | ⟨rfl, rfl⟩) | ⟨rfl, hb⟩)
      · exact .inl hq
      · exact .inr ⟨rfl, .inl rfl⟩
      · exact .inr ⟨rfl, .inr hb⟩
    · rintro (hq | ⟨rfl, rfl | hb⟩)
      · exact .inl (.inl hq)
      · exact .inl (.inr ⟨rfl, rfl⟩)
      · exact .inr ⟨rfl, hb⟩

/-- The predecessors of a block according to the jumps. -/
theorem mem_namedPreds {g : FlowGraph} (hsucc : ∀ {p s : BlockId}, s ∈ (g.jump p).successors → s < g.size)
    {p b : BlockId} : p ∈ g.namedPreds.getD b ∅ ↔ p ∈ g.liveIds ∧ b ∈ (g.jump p).successors := by
  have hfold : ∀ (ps : List BlockId) (acc : Array IdSet), acc.size = g.size →
      (p ∈ (ps.foldl (fun acc b => (g.jump b).successors.foldl (fun acc s => acc.modify s (·.insert b)) acc)
        acc).getD b ∅ ↔ p ∈ acc.getD b ∅ ∨ p ∈ ps ∧ b ∈ (g.jump p).successors) := by
    intro ps
    induction ps with
    | nil => simp
    | cons q qs ih =>
      intro acc hacc
      rw [List.foldl_cons, ih _ ((size_foldl_insert q _ acc).trans hacc),
        mem_foldl_insert fun s hs => hacc.symm ▸ hsucc hs, List.mem_cons]
      constructor
      · rintro ((hp | ⟨rfl, hb⟩) | ⟨hp, hb⟩)
        · exact .inl hp
        · exact .inr ⟨.inl rfl, hb⟩
        · exact .inr ⟨.inr hp, hb⟩
      · rintro (hp | ⟨rfl | hp, hb⟩)
        · exact .inl (.inl hp)
        · exact .inl (.inr ⟨rfl, hb⟩)
        · exact .inr ⟨hp, hb⟩
  rw [namedPreds, hfold _ _ Array.size_replicate, Array.getD_eq_getD_getElem?, Array.getElem?_replicate]
  split <;> simp

theorem checkAll_ok {α ε : Type} {check : α → Except ε Unit} {xs : List α} (h : ∀ x ∈ xs, check x = .ok ()) :
    checkAll check xs = .ok () := by
  induction xs with
  | nil => rfl
  | cons x xs ih =>
    rw [checkAll, h x List.mem_cons_self]
    exact ih fun y hy => h y (List.mem_cons_of_mem x hy)

/-- The graph `r` is `g` with its names. -/
structure SsaForm (r g : FlowGraph) (order : List BlockId) (tree : DominatorTree) : Prop
    extends g.Renamable order tree where
  named : Named g (g.naming tree) tree.preorder tree.preorder r
  /-- Nothing leaves a removed block. -/
  gone : ∀ {b : BlockId}, (g.block b).removed = true → g.jump b = .missing
  /-- Reachable blocks are closed. -/
  closed : ∀ {b : BlockId}, Reachable g.Edge entry b → (g.jump b).isMissing = false
  /-- No definition comes before a declaration. -/
  undefined : ∀ {v : VarId} {s t : Site}, g.DefinesAt v s → g.Declares v t → ¬ g.Before s t

namespace SsaForm

variable {r g : FlowGraph} {order : List BlockId} {tree : DominatorTree} {b : BlockId} {s : Site}

theorem targets (h : SsaForm r g order tree) (b : BlockId) : r.targets b = g.targets b := by
  rw [FlowGraph.targets, FlowGraph.jump, h.named.block, Block.named]
  dsimp only
  split
  · exact Jump.targets_mapOperand _ _
  · rfl

theorem block_fields (h : SsaForm r g order tree) (b : BlockId) :
    (r.block b).preds = (g.block b).preds ∧ (r.block b).removed = (g.block b).removed ∧
      (r.block b).phis = (g.block b).phis.map (Phi.named (g.naming tree) tree.preorder tree.preorder b) := by
  rw [h.named.block]
  exact ⟨rfl, rfl, rfl⟩

/-- Names do not change control flow. -/
theorem sameFlow (h : SsaForm r g order tree) : SameFlow g r where
  size := h.named.size
  targets := h.targets
  preds b := (h.block_fields b).1
  removed b := (h.block_fields b).2.1

theorem edge (h : SsaForm r g order tree) : r.Edge = g.Edge := h.sameFlow.edge

theorem livePredecessors (h : SsaForm r g order tree) (b : BlockId) :
    r.livePredecessors b = g.livePredecessors b := congrFun h.sameFlow.livePredecessors b

theorem jump (h : SsaForm r g order tree) (hb : Reachable g.Edge entry b) :
    r.jump b = (g.jump b).named (g.naming tree) ⟨b, .exit⟩ := by
  rw [FlowGraph.jump, h.named.block, Block.named]
  exact if_pos (h.exact.mem_preorder.mpr hb)

/-- Renamed instructions stand where they stood. -/
theorem instr? (h : SsaForm r g order tree) (hs : Reachable g.Edge entry s.block) :
    r.instr? s = (g.instr? s).map (Instr.named (g.naming tree) s) := by
  obtain ⟨b, p⟩ := s
  cases p with
  | phi | exit => rfl
  | instr k =>
    rw [FlowGraph.instr?, h.named.block, Block.named, FlowGraph.instr?]
    dsimp only
    rw [if_pos (h.exact.mem_preorder.mpr hs), Array.getElem?_mapIdx]

/-- Renaming keeps all declarations. -/
theorem declares (h : SsaForm r g order tree) : r.Declares = g.Declares := by
  funext v s
  rw [Declares, h.edge, Declares]
  refine propext (and_congr_right fun hs => ?_)
  rw [h.instr? hs]
  constructor
  · intro hi
    obtain ⟨i, hi, heq⟩ := Option.map_eq_some_iff.mp hi
    rw [hi]
    cases i with
    | declare w => exact congrArg some heq
    | _ => cases heq
  · intro hi
    rw [hi]
    rfl

/-- Renaming keeps all writes. -/
theorem writes (h : SsaForm r g order tree) : r.Writes = g.Writes := by
  funext v s
  rw [Writes, h.edge, Writes]
  refine propext (and_congr_right fun hs => ?_)
  rw [h.instr? hs]
  constructor
  · rintro ⟨j, w, hj, hw, rfl⟩
    obtain ⟨i, hi, rfl⟩ := Option.map_eq_some_iff.mp hj
    rw [Instr.defined?_named] at hw
    obtain ⟨x, hx, rfl⟩ := Option.map_eq_some_iff.mp hw
    exact ⟨i, x, hi, hx, (write_naming_var g tree x.var s).symm⟩
  · rintro ⟨i, w, hi, hw, rfl⟩
    refine ⟨_, (g.naming tree).write w.var s, by rw [hi]; rfl, ?_, write_naming_var g tree w.var s⟩
    rw [Instr.defined?_named, hw]
    rfl

theorem defBlock (h : SsaForm r g order tree) : r.DefBlock = g.DefBlock := by
  funext v b
  simp only [DefBlock, h.declares, h.writes]

theorem home (h : SsaForm r g order tree) : r.Home = g.Home := by
  funext v b
  simp only [Home, h.declares]

/-! ## Structure -/

theorem mem_liveIds_iff (h : SsaForm r g order tree) : b ∈ r.liveIds ↔ Reachable g.Edge entry b := by
  rw [FlowGraph.mem_liveIds, h.named.size, (h.block_fields b).2.1]
  exact h.kept_iff

theorem successors (h : SsaForm r g order tree) (b : BlockId) :
    (r.jump b).successors = (g.jump b).successors := by
  have hshadow : (r.jump b).shadow? = (g.jump b).shadow? := by
    rw [FlowGraph.jump, h.named.block, Block.named]
    dsimp only
    split
    · exact Jump.shadow?_mapOperand _ _
    · rfl
  have htargets : (r.jump b).targets = (g.jump b).targets := h.targets b
  rw [Jump.successors, htargets, hshadow, Jump.successors]

theorem checkJump (h : SsaForm r g order tree) (hb : Reachable g.Edge entry b) : r.checkJump b = .ok () := by
  have hmissing : (r.jump b).isMissing = false := by
    rw [h.jump hb, Jump.named, Jump.isMissing_mapOperand]
    exact h.closed hb
  rw [FlowGraph.checkJump]
  refine checkBoth_ok ?_ (checkBoth_ok (checkAll_ok fun s hs => ?_) (checkAll_ok fun s hs => ?_))
  · rw [hmissing]
    rfl
  · rw [h.successors] at hs
    rw [h.named.size]
    exact if_pos (decide_eq_true (h.succ_lt hs))
  · have he : g.Edge b s := by
      rw [Edge, ← h.targets]
      exact hs
    rw [(h.block_fields s).2.1, (h.kept_iff.mpr (hb.step he)).2]
    rfl

theorem checkPhis (h : SsaForm r g order tree) {φs : List Phi} {seen : List VarId}
    (hslots : ∀ φ ∈ φs, φ.preds = g.livePredecessors b) (hnodup : (φs.map Phi.var).Nodup)
    (hseen : ∀ φ ∈ φs, φ.var ∉ seen) : r.checkPhis b seen φs = .ok () := by
  induction φs generalizing seen with
  | nil => rfl
  | cons φ φs ih =>
    rw [List.map_cons, List.nodup_cons] at hnodup
    rw [FlowGraph.checkPhis]
    refine checkBoth_ok ?_ (checkBoth_ok ?_ (ih ?_ hnodup.2 fun ψ hψ hmem => ?_))
    · have hnot : seen.contains φ.var = false := by
        rw [Bool.eq_false_iff, ne_eq, List.contains_iff_mem]
        exact hseen φ List.mem_cons_self
      rw [hnot]
      rfl
    · rw [h.livePredecessors, hslots φ List.mem_cons_self, beq_self_eq_true]
      rfl
    · exact fun ψ hψ => hslots ψ (List.mem_cons_of_mem φ hψ)
    · rcases List.mem_cons.mp hmem with heq | hmem
      · exact hnodup.1 (heq ▸ List.mem_map_of_mem hψ)
      · exact hseen ψ (List.mem_cons_of_mem φ hψ) hmem

/-- The predecessors and the phis of every block pass. -/
theorem checkBlock (h : SsaForm r g order tree) (b : BlockId) : r.checkBlock r.namedPreds b = .ok () := by
  have hsucc : ∀ {p s : BlockId}, s ∈ (r.jump p).successors → s < r.size := by
    intro p s hs
    rw [h.successors] at hs
    rw [h.named.size]
    exact h.succ_lt hs
  have hpreds : (r.block b).preds = r.namedPreds.getD b ∅ := by
    refine IdSet.ext_mem fun p => ?_
    rw [(h.block_fields b).1, h.mem_preds_iff, mem_namedPreds hsucc, h.successors, h.mem_liveIds_iff]
    refine ⟨fun hp => ⟨h.kept_iff.mp ⟨lt_of_mem_successors hp, Bool.eq_false_iff.mpr fun hremoved => ?_⟩, hp⟩,
      fun hp => hp.2⟩
    rw [h.gone hremoved] at hp
    exact nomatch hp
  rw [FlowGraph.checkBlock]
  refine checkBoth_ok (if_pos (decide_eq_true hpreds)) ?_
  rw [(h.block_fields b).2.2]
  refine h.checkPhis (fun φ hφ => ?_) ?_ fun φ _ => List.not_mem_nil
  · obtain ⟨ψ, hψ, rfl⟩ := List.mem_map.mp hφ
    rw [preds_named]
    exact h.slots hψ
  · rw [List.map_map]
    have hvar : Phi.var ∘ Phi.named (g.naming tree) tree.preorder tree.preorder b = Phi.var :=
      funext fun φ => var_named _ _ _ (write_naming_var g tree)
    rw [hvar]
    exact h.phis_nodup b

/-- The list of reachable blocks passes. -/
theorem checkReachable (h : SsaForm r g order tree) : r.checkReachable order = .ok () := by
  have hlisted : ∀ {b}, Reachable g.Edge entry b →
      (order.foldl (fun acc b => acc.setIfInBounds b true) (Array.replicate r.size false)).getD b false = true := by
    intro b hb
    rw [getD_foldl_mark, Array.size_replicate, h.named.size]
    exact .inr ⟨h.mem_iff.mpr hb, h.reachable_lt hb⟩
  rw [FlowGraph.checkReachable]
  refine checkBoth_ok ?_ (checkAll_ok fun b hb => ?_)
  · rw [hlisted .root]
    rfl
  · have hreach : Reachable g.Edge entry b := h.mem_iff.mp hb
    rw [checkListed]
    refine checkBoth_ok ?_ (checkAll_ok fun s hs => ?_)
    · rw [(h.block_fields b).2.1, (h.kept_iff.mpr hreach).2]
      rfl
    · rw [h.targets] at hs
      rw [hlisted (hreach.step hs)]
      rfl

theorem checkStructure (h : SsaForm r g order tree) : r.checkStructure = .ok () := by
  rw [FlowGraph.checkStructure]
  refine checkBoth_ok (checkAll_ok fun b hb => h.checkJump (h.mem_liveIds_iff.mp hb)) ?_
  refine checkBoth_ok (checkAll_ok fun b _ => h.checkBlock b) ?_
  rw [h.named.reachable, h.listed]
  exact h.checkReachable

/-! ## Versions -/

/-- The definitions are those of the graph under their names. -/
theorem definitionsIn (h : SsaForm r g order tree) (hb : Reachable g.Edge entry b) :
    r.definitionsIn b =
      (g.definitionsIn b).map fun p => ((g.naming tree).write p.1.var p.2, p.2) := by
  have hmem : b ∈ tree.preorder := h.exact.mem_preorder.mpr hb
  rw [FlowGraph.definitionsIn, FlowGraph.definitionsIn, List.map_append, List.map_map, h.named.block,
    Block.named]
  simp only [if_pos hmem, List.map_map, Array.toList_mapIdx]
  congr 1
  · refine List.map_congr_left fun φ _ => ?_
    simp [Phi.named, Phi.var, hmem]
  · rw [zipIdx_mapIdx, List.filterMap_map, List.map_filterMap]
    refine congrArg (List.filterMap · _) (funext fun p => ?_)
    simp [Instr.defined?_named, Function.comp_def]

/-- Along the tree, the definitions of the renamed graph are the old ones under their names. -/
theorem flatMap_definitionsIn (h : SsaForm r g order tree) :
    tree.preorder.flatMap r.definitionsIn =
      (g.allDefs tree).map fun p => ((g.naming tree).write p.1.var p.2, p.2) := by
  have hblocks : ∀ bs : List BlockId, (∀ b ∈ bs, Reachable g.Edge entry b) → bs.flatMap r.definitionsIn =
      (bs.flatMap g.definitionsIn).map fun p => ((g.naming tree).write p.1.var p.2, p.2) := by
    intro bs hbs
    induction bs with
    | nil => rfl
    | cons b bs ih =>
      rw [List.flatMap_cons, List.flatMap_cons, List.map_append, h.definitionsIn (hbs b List.mem_cons_self),
        ih fun c hc => hbs c (List.mem_cons_of_mem b hc)]
  exact hblocks tree.preorder fun b hb => h.exact.mem_preorder.mp hb

theorem definesAt_of_mem_allDefs (h : SsaForm r g order tree) {p : VersionedVar × Site}
    (hp : p ∈ g.allDefs tree) : g.DefinesAt p.1.var p.2 :=
  h.mem_sitesOf_allDefs.mp (Definitions.mem_sitesOf.mpr ⟨p.1, hp, rfl⟩)

/-- Every name is defined at one place, and the table says where. -/
theorem definitionTable (h : SsaForm r g order tree) :
    ∃ table, FlowGraph.definitionTable ∅ (tree.preorder.flatMap r.definitionsIn) = .ok table ∧
      ∀ v s, g.DefinesAt v s → table[(g.naming tree).write v s]? = some s := by
  have hbound : ∀ d ∈ tree.preorder.flatMap r.definitionsIn, d.1.isBound = true := by
    intro d hd
    rw [h.flatMap_definitionsIn] at hd
    obtain ⟨p, hp, rfl⟩ := List.mem_map.mp hd
    exact VersionedVar.isBound_iff.mpr (h.version_write_ne_zero (h.definesAt_of_mem_allDefs hp))
  have hnodup : ((tree.preorder.flatMap r.definitionsIn).map Prod.fst).Nodup := by
    rw [h.flatMap_definitionsIn, List.map_map]
    refine List.pairwise_map.mpr (h.pairwise_allDefs.imp_of_mem fun {p q} hp hq hpq heq => ?_)
    -- Equal names are names of one variable, so they stand at one place.
    have hvar : p.1.var = q.1.var := by
      rw [← write_naming_var g tree p.1.var p.2, ← write_naming_var g tree q.1.var q.2]
      exact congrArg VersionedVar.var heq
    refine hpq.2 hvar (h.write_inj (v := p.1.var) (h.definesAt_of_mem_allDefs hp) ?_ ?_)
    · rw [hvar]
      exact h.definesAt_of_mem_allDefs hq
    · rw [hvar]
      exact (congrArg ((g.naming tree).write · p.2) hvar).symm.trans heq
  obtain ⟨table, htable, hlookup, -⟩ := definitionTable_ok hbound hnodup fun _ _ => Std.HashMap.not_mem_empty
  refine ⟨table, htable, fun v s hs => ?_⟩
  refine hlookup ((g.naming tree).write v s, s) ?_
  obtain ⟨x, hx, rfl⟩ := Definitions.mem_sitesOf.mp (h.mem_sitesOf_allDefs.mpr hs)
  rw [h.flatMap_definitionsIn]
  exact List.mem_map.mpr ⟨(x, s), hx, rfl⟩

/-- A use has the name that belongs to its place. -/
theorem use_of_mem_usesIn (h : SsaForm r g order tree) (hb : Reachable g.Edge entry b)
    {u : VersionedVar × Site} (hu : u ∈ r.usesIn b) :
    Reachable g.Edge entry u.2.block ∧ ∃ v, u.1 = (g.naming tree).use v u.2 := by
  obtain ⟨x, t⟩ := u
  rcases mem_usesIn.mp hu with ⟨hi, hx⟩ | hx | ⟨hφ', hslot⟩
  · have hinstr : r.instr? ⟨b, .instr _⟩ = some _ := hi
    rw [h.instr? hb] at hinstr
    obtain ⟨i, -, rfl⟩ := Option.map_eq_some_iff.mp hinstr
    rw [Instr.used_named] at hx
    obtain ⟨y, -, rfl⟩ := List.mem_map.mp hx
    exact ⟨hb, y.var, rfl⟩
  · rw [h.jump hb, Jump.used?_named] at hx
    obtain ⟨y, -, rfl⟩ := Option.map_eq_some_iff.mp hx
    exact ⟨hb, y.var, rfl⟩
  · rw [(h.block_fields b).2.2] at hφ'
    obtain ⟨φ, hφ, rfl⟩ := List.mem_map.mp hφ'
    obtain ⟨⟨p, w⟩, hpw, hslot⟩ := List.mem_map.mp hslot
    obtain ⟨rfl, rfl⟩ := Prod.mk.inj hslot
    have hp : p ∈ φ.preds := List.mem_map_of_mem hpw
    rw [h.slots hφ, h.mem_livePredecessors_iff] at hp
    exact ⟨hp.1, φ.var, if_pos (h.exact.mem_preorder.mpr hp.1)⟩

/-- Every value is defined once, before all its uses. -/
theorem checkVersions (h : SsaForm r g order tree) : r.checkVersions tree = .ok () := by
  obtain ⟨table, htable, hlookup⟩ := h.definitionTable
  rw [FlowGraph.checkVersions, htable]
  refine checkAll_ok fun u hu => ?_
  obtain ⟨b, hb, hu⟩ := List.mem_flatMap.mp hu
  obtain ⟨hreach, v, hv⟩ := h.use_of_mem_usesIn (h.exact.mem_preorder.mp hb) hu
  obtain ⟨x, at_⟩ := u
  obtain rfl : x = (g.naming tree).use v at_ := hv
  rw [checkUse]
  rcases h.use_cases v hreach with ⟨hunbound, -⟩ | ⟨s, hnearest, huse⟩
  · rw [hunbound]
    rfl
  · have hreaches : tree.reaches s at_ = true := h.reaches_iff.mpr ⟨hreach, hnearest.2.1⟩
    rw [huse, hlookup v s hnearest.1]
    dsimp only
    rw [hreaches, Bool.or_true]
    rfl

/-- All checks accept a graph in SSA form. -/
theorem check (h : SsaForm r g order tree) : r.check = .ok () := by
  obtain ⟨frontiers, hdominance⟩ := h.dominance
  have horphan : (order.find? fun b => !tree.contains b) = none := by
    rw [List.find?_eq_none]
    intro b hb
    rw [h.exact.contains_iff.mpr (h.mem_iff.mp hb)]
    exact Bool.false_ne_true
  rw [FlowGraph.check]
  refine checkBoth_ok h.checkStructure ?_
  rw [h.named.dominance, hdominance, h.named.reachable, h.listed]
  dsimp only [Option.getD_some]
  rw [horphan]
  dsimp only
  rw [checkSsa, h.named.dominance, hdominance]
  exact h.checkVersions

end SsaForm

end FlowGraph

end SsaFlow
