-- SUMMARY: Renaming numbers the definitions of each variable from 1 on, each before those that it dominates.
import Mathlib
import SsaFlow.Proofs.CheckedPaths
import SsaFlow.Proofs.Renumbering

/-!
# Numbers of definitions

A version is the number of a definition among those of its variable, in the order in which blocks are renamed.
Here nothing is assumed about what blocks hold; renaming stops at what it cannot rename, so what is shown is
what follows from the fact that it did not stop. Every step of renaming makes the definitions of its subject
anew, at the same places and of the same variables, and appends them to those made so far
(`Definitions.Remade`), whose versions count up from 1 for each variable (`Definitions.Numbers`). Blocks are
renamed after the blocks that dominate them, so the numbers ascend along the dominator tree.
-/

namespace SsaFlow

/-! ## Numbered definitions -/

namespace Definitions

variable {ds ds' : Definitions} {numVars : Nat} {done : List (VersionedVar × Site)} {v : VarId} {s : Site}

def versionsOf (v : VarId) (done : List (VersionedVar × Site)) : List Nat :=
  (done.filter fun p => p.1.var = v).map fun p => p.1.version

theorem versionsOf_append (v : VarId) (xs ys : List (VersionedVar × Site)) :
    versionsOf v (xs ++ ys) = versionsOf v xs ++ versionsOf v ys := by
  rw [versionsOf, List.filter_append, List.map_append, versionsOf, versionsOf]

theorem versionsOf_singleton (v : VarId) (x : VersionedVar) (s : Site) :
    versionsOf v [(x, s)] = if x.var = v then [x.version] else [] := by
  by_cases hx : x.var = v <;> simp [versionsOf, hx]

theorem mem_versionsOf {k : Nat} : k ∈ versionsOf v done ↔ (⟨v, k⟩ : VersionedVar) ∈ done.map Prod.fst := by
  simp only [versionsOf, List.mem_map, List.mem_filter, decide_eq_true_eq]
  constructor
  · rintro ⟨⟨⟨_, _⟩, s⟩, ⟨hp, rfl⟩, rfl⟩
    exact ⟨_, hp, rfl⟩
  · rintro ⟨⟨_, s⟩, hp, rfl⟩
    exact ⟨_, ⟨hp, rfl⟩, rfl⟩

/-- Where the versions of each variable ascend, a later definition of a variable has a larger version. -/
theorem pairwise_version_lt (h : ∀ v, (versionsOf v done).Pairwise (· < ·)) :
    done.Pairwise fun p q => p.1.var = q.1.var → p.1.version < q.1.version := by
  refine List.pairwise_iff_forall_sublist.mpr fun {p q} hsub hvar => ?_
  have hpair := h q.1.var
  rw [versionsOf, List.pairwise_map, List.pairwise_filter] at hpair
  exact List.pairwise_iff_forall_sublist.mp hpair hsub (decide_eq_true hvar) (decide_eq_true rfl)

/-- The table holds the definitions in `done`, and their versions are the numbers that it gave them. -/
structure Numbers (ds : Definitions) (numVars : Nat) (done : List (VersionedVar × Site)) : Prop
    extends Tracks ds numVars done where
  var_lt : ∀ p ∈ done, p.1.var < numVars
  versions : ∀ v, versionsOf v done = List.range' 1 (sitesOf v done).length

theorem numbers_none (numVars : Nat) : Numbers (.none numVars) numVars [] :=
  ⟨tracks_none numVars, nofun, fun _ => rfl⟩

namespace Numbers

theorem define (h : Numbers ds numVars done) {x : VersionedVar} (hdefine : ds.define v s = .ok (x, ds')) :
    x.var = v ∧ Numbers ds' numVars (done ++ [(x, s)]) := by
  have hv : v < numVars := by
    refine Nat.lt_of_not_le fun hle => ?_
    rw [Definitions.define, Array.getElem?_eq_none (h.size ▸ hle)] at hdefine
    cases hdefine
  obtain ⟨_, hmade, htracks⟩ := h.toTracks.define (x := ⟨v, (sitesOf v done).length + 1⟩) hv s
  cases hmade.symm.trans hdefine
  refine ⟨rfl, htracks, List.forall_mem_append.mpr ⟨h.var_lt, List.forall_mem_singleton.mpr hv⟩, fun w => ?_⟩
  rw [versionsOf_append, sitesOf_append, versionsOf_singleton, sitesOf_singleton, h.versions]
  dsimp only
  split
  · next hvw => rw [List.length_append, List.length_singleton, List.range'_1_concat, Nat.add_comm 1, hvw]
  · rw [List.append_nil, List.append_nil]

/-- A later definition of a variable has a larger version. -/
theorem ascending (h : Numbers ds numVars done) :
    done.Pairwise fun p q => p.1.var = q.1.var → p.1.version < q.1.version := by
  refine pairwise_version_lt fun v => ?_
  rw [h.versions]
  exact List.pairwise_lt_range'

theorem nodup (h : Numbers ds numVars done) : (done.map Prod.fst).Nodup := by
  rw [List.Nodup, List.pairwise_map]
  refine h.ascending.imp fun {p q} hlt heq => ?_
  rw [heq] at hlt
  exact Nat.lt_irrefl _ (hlt rfl)

/-- The number of all definitions is the sum over the variables. -/
theorem count_eq (h : Numbers ds numVars done) :
    ds.count = ((List.range numVars).map fun v => (sitesOf v done).length).sum := by
  have hlist : ds.toList = (List.range numVars).map fun v => chainOf (sitesOf v done) := by
    refine List.ext_getElem? fun v => ?_
    rw [Array.getElem?_toList, List.getElem?_map]
    rcases Nat.lt_or_ge v numVars with hv | hv
    · rw [h.chain hv, List.getElem?_range hv]
      rfl
    · rw [Array.getElem?_eq_none (h.size ▸ hv), List.getElem?_eq_none (by rwa [List.length_range])]
      rfl
  have hlength : ∀ sites : List Site, (chainOf sites).length = sites.length := by
    intro sites
    rw [← List.length_map (f := Definition.site), map_site_chainOf, List.length_reverse]
  rw [count, hlist, List.foldl_map, List.sum_eq_foldl, List.foldl_map]
  simp only [hlength]

end Numbers

/-! ## Definitions made anew -/

/-- Definitions without their versions. -/
def outline (defs : List (VersionedVar × Site)) : List (VarId × Site) := defs.map fun p => (p.1.var, p.2)

theorem outline_append (xs ys : List (VersionedVar × Site)) : outline (xs ++ ys) = outline xs ++ outline ys :=
  List.map_append

theorem sitesOf_eq_outline (v : VarId) (defs : List (VersionedVar × Site)) :
    sitesOf v defs = ((outline defs).filter fun p => p.1 = v).map Prod.snd := by
  rw [outline, List.filter_map, List.map_map, sitesOf]
  rfl

/-- After the definitions in `done`, the definitions `old` were made anew as `new`: the same variables at the
same places, with the numbers that follow. -/
structure Remade (numVars : Nat) (done old new : List (VersionedVar × Site)) (ds : Definitions) : Prop where
  numbers : Numbers ds numVars (done ++ new)
  outline_eq : outline new = outline old

namespace Remade

theorem nil (h : Numbers ds numVars done) : Remade numVars done [] [] ds :=
  ⟨(List.append_nil done).symm ▸ h, rfl⟩

theorem append {old new old' new' : List (VersionedVar × Site)} (h : Remade numVars done old new ds)
    (h' : Remade numVars (done ++ new) old' new' ds') : Remade numVars done (old ++ old') (new ++ new') ds' where
  numbers := List.append_assoc done new new' ▸ h'.numbers
  outline_eq := by rw [outline_append, outline_append, h.outline_eq, h'.outline_eq]

/-- One definition. -/
theorem define (h : Numbers ds numVars done) {x y : VersionedVar} (hdefine : ds.define y.var s = .ok (x, ds')) :
    Remade numVars done [(y, s)] [(x, s)] ds' := by
  obtain ⟨hvar, hnumbers⟩ := h.define hdefine
  exact ⟨hnumbers, congrArg (fun v => [(v, s)]) hvar⟩

end Remade

end Definitions

/-! ## Steps of renaming -/

theorem Except.exists_of_toOption_map {ε α β : Type} {x : Except ε α} {f : α → β} {b : β}
    (h : x.toOption.map f = some b) : ∃ a, x = .ok a ∧ f a = b := by
  cases x with
  | error e => cases h
  | ok a => exact ⟨a, rfl, Option.some.inj h⟩

theorem Instr.defined?_replaceOperands {ε : Type} (f : Operand → Except ε Operand) (i : Instr) :
    (i.replaceOperands f).1.defined? = i.defined? := by
  cases i with
  | param _ _ | declare _ | call _ _ _ => rfl
  | assign _ op | copy _ op | unary _ _ op =>
    rw [replaceOperands]
    split <;> rfl
  | binary _ _ lhs rhs =>
    rw [replaceOperands]
    split
    · rfl
    · split <;> rfl

namespace Renaming

open Definitions hiding none

variable (tree : DominatorTree) (b : BlockId) {numVars : Nat} {done : List (VersionedVar × Site)}
  {defs : Definitions}

/-- Phis get the numbers that follow. -/
theorem phis_remade (h : Numbers defs numVars done) (φs : List Phi) (seen : List VarId)
    (hstop : (phis b defs seen φs).stop = none) :
    Remade numVars done (defsOfPhis b φs) (defsOfPhis b (phis b defs seen φs).result)
      (phis b defs seen φs).defs := by
  induction φs generalizing defs done seen with
  | nil => exact .nil h
  | cons φ φs ih =>
    rw [phis] at hstop ⊢
    split at hstop
    · cases hstop
    · next hnew =>
      rw [if_neg hnew]
      split at hstop
      · cases hstop
      · next target defs' hdefine =>
        have hfirst := Remade.define (y := φ.target) h hdefine
        exact hfirst.append (ih hfirst.numbers _ hstop)

theorem write_remade (h : Numbers defs numVars done) {i : Instr} {s : Site}
    (hstop : (write tree b defs s i).stop = none) :
    Remade numVars done (defOf s i) (defOf s (write tree b defs s i).result) (write tree b defs s i).defs := by
  cases i with
  | declare v =>
    rw [write] at hstop ⊢
    split at hstop
    · cases hstop
    · exact .nil h
  | param dst index | assign dst value =>
    rw [write] at hstop ⊢
    split at hstop
    · cases hstop
    · next hdefine => exact .define h hdefine
  | copy _ _ | unary _ _ _ | binary _ _ _ _ | call _ _ _ => exact .nil h

theorem instr_remade (h : Numbers defs numVars done) (i : Instr) (k : Nat)
    (hstop : (instr tree b defs k i).stop = none) :
    Remade numVars done (defOf ⟨b, .instr k⟩ i) (defOf ⟨b, .instr k⟩ (instr tree b defs k i).result)
      (instr tree b defs k i).defs := by
  have hdefined := Instr.defined?_replaceOperands (defs.resolve tree ⟨b, .instr k⟩) i
  rw [instr] at hstop ⊢
  split at hstop
  · cases hstop
  · next i' hreplace =>
    rw [hreplace] at hdefined
    have hwrite := write_remade tree b h hstop
    rwa [defOf, hdefined] at hwrite

/-- Renaming the instructions of a block from index `front.size` on. -/
theorem instrs_remade (h : Numbers defs numVars done) (is : List Instr) (front : Array Instr)
    (hstop : (instrs tree b defs front is).stop = none) :
    ∃ is', (instrs tree b defs front is).result = front ++ is'.toArray ∧
      Remade numVars done (defsOf b is front.size) (defsOf b is' front.size) (instrs tree b defs front is).defs := by
  induction is generalizing defs done front with
  | nil => exact ⟨[], (Array.append_empty).symm, .nil h⟩
  | cons i is ih =>
    have hfirst := instr_remade tree b h i front.size
    rw [instrs] at hstop ⊢
    generalize instr tree b defs front.size i = r at hstop hfirst ⊢
    obtain ⟨i', defs', stop⟩ := r
    dsimp only at hstop hfirst ⊢
    cases stop with
    | some e => cases hstop
    | none =>
      obtain ⟨is', hresult, hrest⟩ := ih (hfirst rfl).numbers _ hstop
      rw [Array.size_push] at hrest
      refine ⟨i' :: is', ?_, ?_⟩
      · rw [hresult]
        simp
      · rw [defsOf_cons, defsOf_cons]
        exact (hfirst rfl).append hrest

/-- The definitions of a block get the numbers that follow, phis first. -/
theorem contents_remade (h : Numbers defs numVars done) (blk : Block)
    (hstop : (contents tree b defs blk).stop = none) :
    Remade numVars done (defsOfBlock b blk) (defsOfBlock b (contents tree b defs blk).result)
      (contents tree b defs blk).defs := by
  have hphis := phis_remade b h blk.phis []
  rw [contents] at hstop ⊢
  generalize phis b defs [] blk.phis = φs at hstop hphis ⊢
  obtain ⟨φs, defs', stop⟩ := φs
  dsimp only at hstop hphis ⊢
  cases stop with
  | some e => cases hstop
  | none =>
    have hinstrs := instrs_remade tree b (hphis rfl).numbers blk.instrs.toList #[]
    generalize instrs tree b defs' #[] blk.instrs.toList = is at hstop hinstrs ⊢
    obtain ⟨is, defs'', stop⟩ := is
    dsimp only at hstop hinstrs ⊢
    cases stop with
    | some e => cases hstop
    | none =>
      obtain ⟨is', rfl, hrest⟩ := hinstrs rfl
      rw [Array.empty_append]
      exact (hphis rfl).append hrest

/-! ## Whole graphs -/

/-- Binding slots defines nothing. -/
theorem definitionsIn_successors (defs : Definitions) (g : FlowGraph) (ss : List BlockId) (c : BlockId) :
    (successors tree b defs g ss).1.definitionsIn c = g.definitionsIn c := by
  induction ss generalizing g with
  | nil => rfl
  | cons s ss ih =>
    -- binding a slot leaves the target of the phi alone
    have htargets : (slots tree b defs s (g.block s).phis).1.map Phi.target = (g.block s).phis.map Phi.target := by
      refine map_replaceUntil fun φ _ {ψ} hψ => ?_
      split at hψ
      · cases hψ
      · split at hψ
        · cases hψ
        · next hbind =>
          cases hψ
          rw [Phi.bind?] at hbind
          split at hbind
          · cases hbind
            rfl
          · cases hbind
    have hstep : (g.modify s fun blk =>
        { blk with phis := (slots tree b defs s (g.block s).phis).1 }).definitionsIn c = g.definitionsIn c := by
      rw [FlowGraph.definitionsIn, FlowGraph.block_modify, FlowGraph.definitionsIn]
      split
      · next hc =>
        obtain ⟨rfl, -⟩ := hc
        have hphis := congrArg (List.map fun v => (v, (⟨s, .phi⟩ : Site))) htargets
        rw [List.map_map, List.map_map] at hphis
        exact congrArg (· ++ _) hphis
      · rfl
    rw [successors]
    dsimp only
    split
    · exact hstep
    · exact (ih _).trans hstep

/-- Renaming a block makes its definitions anew and leaves those of other blocks. -/
theorem visit_remade {b : BlockId} {g : FlowGraph} (h : Numbers defs numVars done) (hb : b < g.size)
    (hstop : (visit tree b defs g).stop = none) :
    Remade numVars done (g.definitionsIn b) ((visit tree b defs g).result.definitionsIn b)
        (visit tree b defs g).defs ∧
      ∀ c, c ≠ b → (visit tree b defs g).result.definitionsIn c = g.definitionsIn c := by
  have hcontents := contents_remade tree b h (g.block b)
  rw [visit] at hstop ⊢
  generalize contents tree b defs (g.block b) = r at hstop hcontents ⊢
  obtain ⟨blk, defs', stop⟩ := r
  dsimp only at hstop hcontents ⊢
  cases stop with
  | some e => cases hstop
  | none =>
    dsimp only
    have hblock : ∀ c, (g.modify b fun _ => blk).block c = if b = c ∧ c < g.size then blk else g.block c :=
      fun c => g.block_modify b c _
    refine ⟨?_, fun c hc => ?_⟩
    · have hb' : (g.modify b fun _ => blk).definitionsIn b = defsOfBlock b blk := by
        rw [FlowGraph.definitionsIn, hblock, if_pos ⟨rfl, hb⟩]
        rfl
      rw [definitionsIn_successors, hb']
      exact hcontents rfl
    · rw [definitionsIn_successors, FlowGraph.definitionsIn, hblock, if_neg fun h => hc h.1.symm]
      rfl

/-- Renaming a list of blocks makes their definitions anew, one block after the other. -/
theorem visitAll_remade {g : FlowGraph} {bs : List BlockId} (h : Numbers defs numVars done)
    (hbs : ∀ b ∈ bs, b < g.size) (hnodup : bs.Nodup) (hstop : (visitAll tree defs g bs).stop = none) :
    Remade numVars done (bs.flatMap g.definitionsIn) (bs.flatMap (visitAll tree defs g bs).result.definitionsIn)
        (visitAll tree defs g bs).defs ∧
      ∀ c, c ∉ bs → (visitAll tree defs g bs).result.definitionsIn c = g.definitionsIn c := by
  induction bs generalizing defs done g with
  | nil => exact ⟨.nil h, fun _ _ => rfl⟩
  | cons b bs ih =>
    obtain ⟨hb, hbs⟩ := List.forall_mem_cons.mp hbs
    rw [List.nodup_cons] at hnodup
    have hvisit := visit_remade tree h hb
    have hsize : (visit tree b defs g).result.size = g.size :=
      visit_induction (P := fun g' => g'.size = g.size) (fun _ _ _ s h => (FlowGraph.size_modify _ s _).trans h)
        (fun _ b _ h => (FlowGraph.size_modify _ b _).trans h) tree b defs rfl
    rw [visitAll] at hstop ⊢
    generalize visit tree b defs g = r at hstop hvisit hsize ⊢
    obtain ⟨g', defs', stop⟩ := r
    dsimp only at hstop hvisit hsize ⊢
    cases stop with
    | some e => cases hstop
    | none =>
      dsimp only
      obtain ⟨hfirst, hother⟩ := hvisit rfl
      obtain ⟨hrest, hkept⟩ := ih hfirst.numbers (fun c hc => hsize ▸ hbs c hc) hnodup.2 hstop
      refine ⟨?_, fun c hc => ?_⟩
      · -- the first block was renamed before the others, and these do not touch its definitions
        have hsame : bs.flatMap g'.definitionsIn = bs.flatMap g.definitionsIn :=
          List.flatMap_congr fun c hc => hother c (ne_of_mem_of_not_mem hc hnodup.1)
        rw [List.flatMap_cons, List.flatMap_cons, hkept b hnodup.1, ← hsame]
        exact hfirst.append hrest
      · rw [List.mem_cons, not_or] at hc
        rw [hkept c hc.2, hother c hc.1]

/-- Where the jump goes does not change. -/
theorem jump_frame (defs : Definitions) (j : Jump) :
    (jump tree b defs j).1.targets = j.targets ∧ (jump tree b defs j).1.shadow? = j.shadow? := by
  unfold jump
  split
  · exact ⟨rfl, rfl⟩
  · split
    · exact ⟨rfl, rfl⟩
    · exact ⟨Jump.targets_mapOperand _ j, Jump.shadow?_mapOperand _ j⟩

/-- Renaming the contents of a block leaves its edges alone. -/
theorem contents_frame (defs : Definitions) (blk : Block) :
    (contents tree b defs blk).result.jump.targets = blk.jump.targets ∧
      (contents tree b defs blk).result.jump.shadow? = blk.jump.shadow? ∧
      (contents tree b defs blk).result.preds = blk.preds ∧
      (contents tree b defs blk).result.removed = blk.removed := by
  unfold contents
  dsimp only
  split
  · exact ⟨rfl, rfl, rfl, rfl⟩
  · split
    · exact ⟨rfl, rfl, rfl, rfl⟩
    · obtain ⟨htargets, hshadow⟩ := jump_frame tree b (instrs tree b (phis b defs [] blk.phis).defs #[]
        blk.instrs.toList).defs blk.jump
      exact ⟨htargets, hshadow, rfl, rfl⟩

end Renaming

namespace FlowGraph

open Renaming
open Definitions hiding none

variable {g g' : FlowGraph} {tree : DominatorTree}

/-- The number of definitions of a variable in the blocks of the tree. -/
def numDefs (g : FlowGraph) (tree : DominatorTree) (v : VarId) : Nat :=
  (g.allDefs tree).countP fun d => d.1.var = v

theorem numDefs_eq (g : FlowGraph) (tree : DominatorTree) (v : VarId) :
    g.numDefs tree v = (sitesOf v (g.allDefs tree)).length := by
  rw [numDefs, List.countP_eq_length_filter, sitesOf, List.length_map]

/-- A change of one block that leaves its edges alone. -/
theorem Refilled.modify_block (g : FlowGraph) (b : BlockId) {f : Block → Block}
    (htargets : (f (g.block b)).jump.targets = (g.block b).jump.targets)
    (hshadow : (f (g.block b)).jump.shadow? = (g.block b).jump.shadow?)
    (hpreds : (f (g.block b)).preds = (g.block b).preds)
    (hremoved : (f (g.block b)).removed = (g.block b).removed) : g.Refilled (g.modify b f) := by
  have hsame : ∀ c, ((g.modify b f).block c).jump.targets = (g.block c).jump.targets ∧
      ((g.modify b f).block c).jump.shadow? = (g.block c).jump.shadow? ∧
      ((g.modify b f).block c).preds = (g.block c).preds ∧
      ((g.modify b f).block c).removed = (g.block c).removed := by
    intro c
    rw [block_modify]
    split
    · next hc =>
      obtain ⟨rfl, -⟩ := hc
      exact ⟨htargets, hshadow, hpreds, hremoved⟩
    · exact ⟨rfl, rfl, rfl, rfl⟩
  exact ⟨(size_modify g b f).ge, fun c => (hsame c).1, fun c => (hsame c).2.1, fun c => (hsame c).2.2.1,
    fun _ => (hsame _).2.2.2⟩

/-- Renaming leaves the edges alone, wherever it stops. -/
theorem refilled_rename (g : FlowGraph) : g.Refilled g.rename.1 := by
  refine rename_induction (P := g.Refilled) ?_ ?_ (.of_blocks_eq rfl)
  · intro g' tree b defs s h
    exact h.trans (.modify_block g' s rfl rfl rfl rfl)
  · intro g' tree b defs h
    obtain ⟨htargets, hshadow, hpreds, hremoved⟩ := contents_frame tree b defs (g'.block b)
    exact h.trans (.modify_block g' b htargets hshadow hpreds hremoved)

theorem PhisOnly.refilled (h : PhisOnly g g') : g.Refilled g' := by
  refine ⟨h.size.ge, fun b => ?_, fun b => ?_, h.preds, fun _ => h.removed _⟩
  · rw [targets, h.jump]
    rfl
  · rw [h.jump]

/-- Renaming that succeeds makes all definitions of the tree anew and returns their number. -/
theorem remade_of_rename {dom : Dominance} {r : FlowGraph} {n : Nat} (hdom : g.dominance = some dom)
    (hlt : ∀ b ∈ dom.tree.preorder, b < g.size) (hnodup : dom.tree.preorder.Nodup)
    (hrename : g.rename = (r, .ok n)) :
    ∃ defs, Remade g.numVars [] (g.allDefs dom.tree) (r.allDefs dom.tree) defs ∧ n = defs.count := by
  have hvisited := visitAll_remade dom.tree (numbers_none g.numVars) hlt hnodup
  rw [rename_def, hdom] at hrename
  dsimp only at hrename
  generalize visitAll dom.tree (.none g.numVars) g dom.tree.preorder = run at hvisited hrename
  obtain ⟨r', defs, stop⟩ := run
  dsimp only at hvisited hrename
  cases stop with
  | some e => cases hrename
  | none =>
    cases hrename
    exact ⟨defs, (hvisited rfl).1, rfl⟩

/-! ## The order of definitions -/

/-- The order of definitions in a block, with phis first. -/
def Definer.Before : Definer → Definer → Prop
  | .phi j, .phi k | .instr j, .instr k => j < k
  | .phi _, .instr _ => True
  | .instr _, .phi _ => False

/-- What holds of any two definitions of a block as they are listed holds of one and a later one. -/
theorem rel_of_before {R : VersionedVar × Site → VersionedVar × Site → Prop} {b : BlockId}
    (hR : (g.definitionsIn b).Pairwise R) {m n : Definer} {x y : VersionedVar} (hx : g.definedBy? b m = some x)
    (hy : g.definedBy? b n = some y) (hbefore : m.Before n) : R (x, ⟨b, m.point⟩) (y, ⟨b, n.point⟩) := by
  rw [definitionsIn, List.pairwise_append, List.pairwise_map, List.pairwise_filterMap] at hR
  obtain ⟨hphis, hinstrs, hacross⟩ := hR
  have hlisted : ∀ {k : Nat} {i : Instr}, (g.block b).instrs[k]? = some i →
      (g.block b).instrs.toList.zipIdx[k]? = some (i, k) := by
    intro k i hi
    rw [List.getElem?_zipIdx, Array.getElem?_toList, hi, Option.map_some, Nat.zero_add]
  cases m with
  | phi j =>
    obtain ⟨φ, hφ, rfl⟩ := Option.map_eq_some_iff.mp hx
    cases n with
    | phi k =>
      obtain ⟨ψ, hψ, rfl⟩ := Option.map_eq_some_iff.mp hy
      obtain ⟨hj, rfl⟩ := List.getElem?_eq_some_iff.mp hφ
      obtain ⟨hk, rfl⟩ := List.getElem?_eq_some_iff.mp hψ
      exact List.pairwise_iff_getElem.mp hphis j k hj hk hbefore
    | instr k =>
      obtain ⟨i, hi, hy⟩ := Option.bind_eq_some_iff.mp hy
      exact hacross _ (List.mem_map_of_mem (List.mem_of_getElem? hφ)) _ (List.mem_filterMap.mpr
        ⟨(i, k), List.mem_of_getElem? (hlisted hi), Option.map_eq_some_iff.mpr ⟨y, hy, rfl⟩⟩)
  | instr j =>
    obtain ⟨i, hi, hx⟩ := Option.bind_eq_some_iff.mp hx
    cases n with
    | phi k => exact hbefore.elim
    | instr k =>
      obtain ⟨i', hi', hy⟩ := Option.bind_eq_some_iff.mp hy
      obtain ⟨hj, hlj⟩ := List.getElem?_eq_some_iff.mp (hlisted hi)
      obtain ⟨hk, hlk⟩ := List.getElem?_eq_some_iff.mp (hlisted hi')
      have hrel := List.pairwise_iff_getElem.mp hinstrs j k hj hk hbefore
      rw [hlj, hlk] at hrel
      exact hrel _ (Option.map_eq_some_iff.mpr ⟨x, hx, rfl⟩) _ (Option.map_eq_some_iff.mpr ⟨y, hy, rfl⟩)

/-- What holds of any two definitions in the order in which blocks are renamed holds of a definition and one
that comes after it on every way there. -/
theorem rel_of_precedes {E : BlockId → BlockId → Prop} (h : tree.Exact E)
    {R : VersionedVar × Site → VersionedVar × Site → Prop}
    (hR : (g.allDefs tree).Pairwise R) {b c : BlockId} {m n : Definer} {x y : VersionedVar}
    (hc : Reachable E entry c) (hx : g.definedBy? b m = some x)
    (hy : g.definedBy? c n = some y)
    (hbefore : StrictlyDominates E entry b c ∨ b = c ∧ m.Before n) :
    R (x, ⟨b, m.point⟩) (y, ⟨c, n.point⟩) := by
  obtain ⟨xs, ys, hsplit⟩ := List.append_of_mem (h.mem_preorder.mpr hc)
  rw [allDefs, hsplit, List.flatMap_append, List.flatMap_cons, List.pairwise_append, List.pairwise_append] at hR
  obtain ⟨-, ⟨hin, -, -⟩, hacross⟩ := hR
  rcases hbefore with hdom | ⟨rfl, hbefore⟩
  · have hmx := mem_definitionsIn_iff.mpr ⟨m, hx, rfl⟩
    have hmy := mem_definitionsIn_iff.mpr ⟨n, hy, rfl⟩
    exact hacross _ (List.mem_flatMap.mpr ⟨b, h.after hsplit hdom, hmx⟩) _ (List.mem_append_left _ hmy)
  · exact rel_of_before hin hx hy hbefore

theorem exists_dominance_of_rename {r : FlowGraph} {n : Nat} (hrename : g.rename = (r, .ok n)) :
    ∃ dom, g.dominance = some dom ∧ r.dominance = some dom := by
  obtain ⟨blocks, hframe⟩ := g.rename_frame
  rw [hrename] at hframe
  obtain rfl : r = { g with blocks := blocks } := hframe
  unfold rename at hrename
  split at hrename
  · cases (Prod.mk.inj hrename).2
  · next dom hdom => exact ⟨dom, hdom, hdom⟩

/-- The values that are defined in the blocks of the tree. -/
theorem mem_map_fst_allDefs {E : BlockId → BlockId → Prop} (h : tree.Exact E) {x : VersionedVar} :
    x ∈ (g.allDefs tree).map Prod.fst ↔ ∃ b m, tree.contains b = true ∧ g.definedBy? b m = some x := by
  simp only [List.mem_map, allDefs, List.mem_flatMap, h.mem_preorder, h.contains_iff]
  constructor
  · rintro ⟨⟨_, s⟩, ⟨b, hb, hx⟩, rfl⟩
    obtain ⟨m, hm, -⟩ := mem_definitionsIn_iff.mp hx
    exact ⟨b, m, hb, hm⟩
  · rintro ⟨b, m, hb, hm⟩
    exact ⟨_, ⟨b, hb, mem_definitionsIn_iff.mpr ⟨m, hm, rfl⟩⟩, rfl⟩

/-- Renaming that succeeds on a pruned, ordered and analysed graph with phis hands out versions without gaps or
repeats: the definitions of a variable in the blocks of the dominator tree have the versions from 1 to their
number, each of them once. What it returns is the number of all definitions, and a definition that dominates
another of its variable, or stands before it in its block, has the smaller version. -/
theorem rename_numbers_definitions {g analysed placed renamed : FlowGraph} {count n : Nat} (hg : g.Attainable)
    (hanalysed : Unrewired g.prune.1 analysed) (hplaced : analysed.withPhis = .ok (placed, count))
    (hrename : placed.rename = (renamed, .ok n)) :
    ∃ dom, renamed.dominance = some dom ∧
      (∀ b, dom.tree.contains b = true ↔ Reachable renamed.Flows entry b) ∧
      (∀ v k, (∃ b m, dom.tree.contains b = true ∧ renamed.definedBy? b m = some ⟨v, k⟩) ↔
        1 ≤ k ∧ k ≤ placed.numDefs dom.tree v) ∧
      (∀ b c m m' x, dom.tree.contains b = true → dom.tree.contains c = true →
        renamed.definedBy? b m = some x → renamed.definedBy? c m' = some x → b = c ∧ m = m') ∧
      (∀ v, placed.numVars ≤ v → placed.numDefs dom.tree v = 0) ∧
      n = ((List.range placed.numVars).map (placed.numDefs dom.tree)).sum ∧
      ∀ b c m m' v j k, dom.tree.contains b = true → dom.tree.contains c = true →
        renamed.definedBy? b m = some ⟨v, j⟩ → renamed.definedBy? c m' = some ⟨v, k⟩ →
        StrictlyDominates renamed.Flows entry b c ∨ b = c ∧ m.Before m' → j < k := by
  obtain ⟨dom, hdom, hrdom⟩ := exists_dominance_of_rename hrename
  have hunrewired : Unrewired g.prune.1 placed := by
    obtain ⟨honly, -⟩ := phisOnly_withPhis hplaced
    exact .refill hanalysed honly.refilled honly.reachable honly.depths honly.dominance
  have hfits := hg.fits hunrewired
  have hlinked : placed.Linked := hfits.refilled.linked hg.linked.prune
  have hflows : renamed.Flows = placed.Flows := by
    have hsame := placed.refilled_rename.flows hlinked
    rwa [hrename] at hsame
  have hexact : dom.tree.Exact placed.Flows := by
    rw [hfits.refilled.flows hg.linked.prune]
    exact hfits.exact hdom
  obtain ⟨defs, hremade, rfl⟩ := remade_of_rename hdom
    (fun b hb => hlinked.lt_of_reachable_flows (hexact.mem_preorder.mp hb)) hexact.nodup hrename
  have hnumbers : Numbers defs placed.numVars (renamed.allDefs dom.tree) := hremade.numbers
  -- renaming moves no definition, so they can be counted before it
  have hcounts : ∀ v, (sitesOf v (renamed.allDefs dom.tree)).length = placed.numDefs dom.tree v := by
    intro v
    rw [numDefs_eq, sitesOf_eq_outline, hremade.outline_eq, ← sitesOf_eq_outline]
  rw [hflows]
  refine ⟨dom, hrdom, fun b => hexact.contains_iff, fun v k => ?_, fun b c m m' x hb hc => ?_, fun v hv => ?_, ?_,
    fun b c m m' v j k _ hc hm hm' hbefore => ?_⟩
  · rw [← mem_map_fst_allDefs hexact, ← mem_versionsOf, hnumbers.versions, hcounts, List.mem_range'_1]
    omega
  · rw [hexact.contains_iff, ← hexact.mem_preorder] at hb hc
    exact (nodup_flatMap_definitionsIn_iff hexact.nodup).mp hnumbers.nodup hb hc
  · rw [← hcounts, List.length_eq_zero_iff, List.eq_nil_iff_forall_not_mem]
    intro s hs
    obtain ⟨x, hx, rfl⟩ := mem_sitesOf.mp hs
    exact absurd (hnumbers.var_lt _ hx) (Nat.not_lt.mpr hv)
  · rw [hnumbers.count_eq]
    simp only [hcounts]
  · exact rel_of_precedes hexact hnumbers.ascending (hexact.contains_iff.mp hc) hm hm' hbefore rfl

/-- The function `while (a) { a = b; b = a; }` of two parameters. -/
def swapLoop : Function :=
  let span : Span := ⟨0, 1⟩
  { name := ⟨0⟩, params := [0, 1], numVars := 2, body := 3, span := span
    exprs := #[⟨span, .var 0⟩, ⟨span, .var 1⟩, ⟨span, .assign 0 none 1⟩, ⟨span, .assign 1 none 0⟩]
    stmts := #[⟨span, .expr 2⟩, ⟨span, .expr 3⟩, ⟨span, .block [0, 1]⟩, ⟨span, .whileLoop 0 2⟩] }

/-- Both variables have a parameter, a phi in the loop's header and an assignment in its body. -/
theorem rename_numbers_definitions_swapLoop :
    ∃ g ordered analysed placed count renamed dom, swapLoop.lower = .ok g ∧ g.prune.1.withOrder = .ok ordered ∧
      ordered.withDominance = .ok analysed ∧ analysed.withPhis = .ok (placed, count) ∧
      placed.rename = (renamed, .ok 6) ∧ renamed.dominance = some dom ∧
      ∀ v ∈ [0, 1], ∀ k, (∃ b m, dom.tree.contains b = true ∧ renamed.definedBy? b m = some ⟨v, k⟩) ↔
        1 ≤ k ∧ k ≤ 3 := by
  obtain ⟨g, hg, hrun⟩ : ∃ g, swapLoop.lower = .ok g ∧
      (g.prune.1.withOrder >>= withDominance >>= withPhis).toOption.map (fun r =>
        (r.1.rename.2.toOption, r.1.dominance.map fun dom => [0, 1].map (r.1.numDefs dom.tree))) =
        some (some 6, some [3, 3]) := by
    refine Except.exists_ok_of_decide ?_
    cbv
  obtain ⟨⟨placed, count⟩, hplaced, hnumbers⟩ := Except.exists_of_toOption_map hrun
  obtain ⟨analysed, hanalysed, hplaced⟩ := Except.exists_of_bind hplaced
  obtain ⟨ordered, hordered, hanalysed⟩ := Except.exists_of_bind hanalysed
  obtain ⟨hsix, hcounts⟩ := Prod.mk.inj hnumbers
  cases hrename : placed.rename with
  | mk renamed result =>
    rw [hrename] at hsix
    cases result with
    | error e => cases hsix
    | ok n =>
      cases hsix
      obtain ⟨dom, hdom, -, hexact, -⟩ := rename_numbers_definitions (.start (.lowered hg))
        (.dominance (.order .start hordered) hanalysed) hplaced hrename
      obtain ⟨dom', hdom', hrdom⟩ := exists_dominance_of_rename hrename
      cases hdom.symm.trans hrdom
      rw [hdom'] at hcounts
      have hthree : ∀ v ∈ [0, 1], placed.numDefs dom.tree v = 3 := by
        simpa using hcounts
      refine ⟨g, ordered, analysed, placed, count, renamed, dom, hg, hordered, hanalysed, hplaced, hrename, hdom,
        fun v hv k => ?_⟩
      rw [hexact, hthree v hv]

end FlowGraph

end SsaFlow
