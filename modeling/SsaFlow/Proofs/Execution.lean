-- SUMMARY: SSA form preserves execution: the renamed graph runs on registers as the original runs on cells.
import SsaFlow.Proofs.Machine
import SsaFlow.Proofs.Reaching

/-!
# SSA form preserves execution

A variable is in scope at a place if its home (its declaration, or the parameter that it stands for)
comes before the place. The two runs agree on the variables in scope: the cell of a variable holds what
the register of its name holds. Instructions keep this, and so does an edge, where the phis of the target
take over; without a phi the name of a variable in scope does not change, since otherwise the target would
be a merge point.
-/

namespace SsaFlow.FlowGraph

/-- The variable is read, written or declared at a reachable place. -/
def Mentions (g : FlowGraph) (v : VarId) (s : Site) : Prop :=
  Reachable g.Edge entry s.block ∧
    ((∃ i, g.instr? s = some i ∧ v ∈ i.mentions) ∨ s.point = .exit ∧ v ∈ (g.jump s.block).reads)

/-- The place `home` is the one declaration of `v`, or `v` is not declared and `home` is a parameter of it in the
entry; and `home` comes before all other mentions of `v`. -/
structure ScopedAt (g : FlowGraph) (v : VarId) (home : Site) : Prop where
  origin : (g.Declares v home ∧ ∀ s, g.Declares v s → s = home) ∨
    (∀ s, ¬ g.Declares v s) ∧ home.block = entry ∧
      ∃ dst idx, g.instr? home = some (.param dst idx) ∧ dst.var = v
  first : ∀ s, g.Mentions v s → s ≠ home → g.Before home s

/-- Every variable that is mentioned has a home. -/
def Scoped (g : FlowGraph) : Prop := ∀ v s, g.Mentions v s → ∃ home, g.ScopedAt v home

/-! ## Homes -/

namespace ScopedAt

variable {g : FlowGraph} {v : VarId} {home : Site}

theorem instr (h : g.ScopedAt v home) :
    ∃ i, g.instr? home = some i ∧ i.subject? = some v ∧ i.operands = [] := by
  rcases h.origin with ⟨⟨-, hi⟩, -⟩ | ⟨-, -, dst, idx, hi, rfl⟩
  · exact ⟨_, hi, rfl, rfl⟩
  · exact ⟨_, hi, rfl, rfl⟩

theorem reachable (h : g.ScopedAt v home) : Reachable g.Edge entry home.block := by
  rcases h.origin with ⟨⟨hb, -⟩, -⟩ | ⟨-, hb, -⟩
  · exact hb
  · rw [hb]
    exact .root

/-- The block of a home is the home block of phi placement. -/
theorem homeBlock (h : g.ScopedAt v home) : g.Home v home.block := by
  rcases h.origin with ⟨hd, -⟩ | ⟨hnot, hb, -⟩
  · exact .inl ⟨home, rfl, hd⟩
  · exact .inr ⟨hnot, hb⟩

theorem defBlock (h : g.ScopedAt v home) : g.DefBlock v home.block := by
  rcases h.origin with ⟨hd, -⟩ | ⟨-, hb, dst, idx, hi, rfl⟩
  · exact ⟨home, rfl, .inl hd⟩
  · exact ⟨home, rfl, .inr ⟨h.reachable, _, dst, hi, rfl, rfl⟩⟩

/-- Nothing is read where a variable comes into scope. -/
theorem before_of_read (h : g.ScopedAt v home) {s : Site} {i : Instr} (hs : Reachable g.Edge entry s.block)
    (hi : g.instr? s = some i) (hv : v ∈ i.reads) : g.Before home s := by
  refine h.first s ⟨hs, .inl ⟨i, hi, List.mem_append_right _ hv⟩⟩ ?_
  rintro rfl
  obtain ⟨j, hj, -, hnil⟩ := h.instr
  obtain rfl : i = j := Option.some.inj (hi.symm.trans hj)
  rw [Instr.reads, hnil] at hv
  exact nomatch hv

theorem before_of_exit (h : g.ScopedAt v home) {b : BlockId} (hb : Reachable g.Edge entry b)
    (hv : v ∈ (g.jump b).reads) : g.Before home ⟨b, .exit⟩ := by
  refine h.first ⟨b, .exit⟩ ⟨hb, .inr ⟨rfl, hv⟩⟩ ?_
  rintro rfl
  obtain ⟨i, hi, -⟩ := h.instr
  exact nomatch hi

/-- What is in scope at the start of a block came into scope in a strict dominator. -/
theorem strictlyDominates_of_start (h : g.ScopedAt v home) {c : BlockId}
    (hscope : g.Before home ⟨c, .instr 0⟩) : StrictlyDominates g.Edge entry home.block c := by
  refine (before_start_iff.mp hscope).resolve_left ?_
  rintro rfl
  obtain ⟨i, hi, -⟩ := h.instr
  exact nomatch hi

end ScopedAt

/-! ## Names of variables in scope -/

namespace Renamable

variable {g : FlowGraph} {order : List BlockId} {tree : DominatorTree} {v : VarId} {home : Site}
  {b c : BlockId} {k : Nat} {i : Instr}

/-- No definition of a variable comes before its home. -/
theorem not_before_home (h : g.Renamable order tree) (hv : g.ScopedAt v home) {s : Site}
    (hs : g.DefinesAt v s) : ¬ g.Before s home := by
  intro hbefore
  rcases hs with ⟨-, -, hphi⟩ | ⟨hs, i, w, hi, hw, rfl⟩
  · exact h.not_phiAt_of_dominates hv.homeBlock hbefore.dominates (h.phi_iff.mp hphi)
  · have hmentions : g.Mentions w.var s := by
      refine ⟨hs, .inl ⟨i, hi, List.mem_append_left _ ?_⟩⟩
      rw [Instr.subject?_eq_some.mpr (.inr ⟨w, hw, rfl⟩)]
      exact List.mem_singleton_self _
    by_cases heq : s = home
    · subst heq
      exact Before.irrefl s hbefore
    · exact (hv.first s hmentions heq).asymm hs hbefore

/-- An instruction that is not about a variable does not change its name. -/
theorem use_succ (h : g.Renamable order tree) (hb : Reachable g.Edge entry b)
    (hi : g.instr? ⟨b, .instr k⟩ = some i) (hv : ∀ w, i.defined? = some w → w.var ≠ v) :
    (g.naming tree).use v ⟨b, .instr (k + 1)⟩ = (g.naming tree).use v ⟨b, .instr k⟩ := by
  refine h.use_congr hb hb fun s hs => ?_
  rw [before_succ_iff]
  refine ⟨fun hbefore => hbefore.resolve_right ?_, .inl⟩
  rintro rfl
  rcases hs with ⟨hp, -⟩ | ⟨-, j, w, hj, hw, hwv⟩
  · exact nomatch hp
  · obtain rfl : i = j := Option.some.inj (hi.symm.trans hj)
    exact hv w hw hwv

/-- After a definition a variable has the name of that definition. -/
theorem use_succ_of_defined (h : g.Renamable order tree) (hb : Reachable g.Edge entry b)
    (hi : g.instr? ⟨b, .instr k⟩ = some i) {w : VersionedVar} (hw : i.defined? = some w) :
    (g.naming tree).use w.var ⟨b, .instr (k + 1)⟩ = (g.naming tree).write w.var ⟨b, .instr k⟩ := by
  refine h.use_eq_write hb ⟨.inr ⟨hb, i, w, hi, hw, rfl⟩, before_succ_iff.mpr (.inr rfl), ?_⟩
  intro t _ hbefore
  exact (before_succ_iff.mp hbefore).symm

/-- A variable that was just declared has no definition. -/
theorem use_succ_of_declare (h : g.Renamable order tree) (hv : g.ScopedAt v ⟨b, .instr k⟩)
    (hi : g.instr? ⟨b, .instr k⟩ = some (.declare v)) :
    (g.naming tree).use v ⟨b, .instr (k + 1)⟩ = .unbound v := by
  have hb : Reachable g.Edge entry b := hv.reachable
  rw [h.use_succ hb hi fun w hw => nomatch hw]
  exact h.use_eq_unbound hb fun s hs => h.not_before_home hv hs

/-- A jump does not change names. -/
theorem use_exit (h : g.Renamable order tree) (hb : Reachable g.Edge entry b)
    (hk : (g.block b).instrs.size ≤ k) :
    (g.naming tree).use v ⟨b, .exit⟩ = (g.naming tree).use v ⟨b, .instr k⟩ :=
  h.use_congr hb hb fun _ hs => before_exit_iff hk hs.phi_or_instr

/-- At the start of a block with a phi for a variable, the variable has the name of the phi. -/
theorem use_start_of_phi (h : g.Renamable order tree) (hc : Reachable g.Edge entry c)
    (hphi : ∃ φ ∈ (g.block c).phis, φ.var = v) :
    (g.naming tree).use v ⟨c, .instr 0⟩ = (g.naming tree).write v ⟨c, .phi⟩ := by
  refine h.use_eq_write hc ⟨.inl ⟨rfl, hc, hphi⟩, .inl ⟨rfl, rfl⟩, fun t ht hbefore => ?_⟩
  rcases before_start_iff.mp hbefore with rfl | hdom
  · exact .inl rfl
  · exact .inr (.inr hdom)

/-- An edge to a block without a phi does not change the name of a variable in scope. -/
theorem use_start_of_not_phi (h : g.Renamable order tree) (hv : g.ScopedAt v home)
    (hb : Reachable g.Edge entry b) (he : g.Edge b c) (hscope : g.Before home ⟨c, .instr 0⟩)
    (hphi : ¬ ∃ φ ∈ (g.block c).phis, φ.var = v) :
    (g.naming tree).use v ⟨c, .instr 0⟩ = (g.naming tree).use v ⟨b, .exit⟩ := by
  have hc : Reachable g.Edge entry c := hb.step he
  have hhome : StrictlyDominates g.Edge entry home.block c := hv.strictlyDominates_of_start hscope
  refine h.use_congr hc hb fun s hs => ?_
  rw [before_exit_iff_dominates hs.phi_or_instr, before_start_iff]
  constructor
  · rintro (rfl | hdom)
    · rcases hs with ⟨-, -, hs⟩ | ⟨-, _, _, hs, -⟩
      · exact absurd hs hphi
      · exact nomatch hs
    · exact hdom.of_edge he
  · intro hdom
    refine Classical.byContradiction fun hnot => hphi (h.phi_iff.mpr ?_)
    have hnotdom : ¬ StrictlyDominates g.Edge entry s.block c := fun hdom => hnot (.inr hdom)
    refine h.phiAt_of_definesAt hs hb hdom he hnotdom ?_ hv.homeBlock (hhome.asymm hc)
    -- A phi already has two blocks of definitions, and a write is not in the home block.
    rcases hs with ⟨-, -, hs⟩ | hs
    · exact (h.phi_iff.mp hs).1
    · refine ⟨s.block, home.block, ?_, ⟨s, rfl, .inr hs⟩, hv.defBlock⟩
      intro heq
      exact hnotdom (heq ▸ hhome)

end Renamable

/-! ## Agreeing states -/

open Machine Storage

/-- Cells and registers hold the same for all variables in scope at a place. -/
structure Agrees {V W : Type} (undef : V) (g : FlowGraph) (N : Naming) (at_ : Site)
    (st : State (cells undef) W) (st' : State (registers undef) W) : Prop where
  temps : st'.temps = st.temps
  world : st'.world = st.world
  vars : ∀ x home, g.ScopedAt x.var home → g.Before home at_ →
    (registers undef).read st'.store (N.use x.var at_) = (cells undef).read st.store x

section Simulation

variable {V W : Type} {I : Interp V W} {g : FlowGraph} {order : List BlockId} {tree : DominatorTree}
  {at_ : Site} {b c : BlockId} {k : Nat} {st : State (cells I.undef) W} {st' : State (registers I.undef) W}

/-- An operand has the same value under its name, if its variable is in scope. -/
theorem eval_named {N : Naming} (hst : Agrees I.undef g N at_ st st') {op : Operand}
    (hop : ∀ v ∈ op.varId?, ∃ home, g.ScopedAt v home ∧ g.Before home at_) :
    eval I _ st' (op.named N at_) = eval I _ st op := by
  cases op with
  | const c => rfl
  | temp t => exact congrFun hst.temps t
  | var x =>
    obtain ⟨home, hhome, hbefore⟩ := hop x.var rfl
    exact hst.vars x home hhome hbefore

/-- A variable that an instruction is not about stays in scope or out of it, under its name. -/
theorem Renamable.vars_succ (h : g.Renamable order tree) (hb : Reachable g.Edge entry b) {i : Instr}
    (hi : g.instr? ⟨b, .instr k⟩ = some i) {v : VarId} {home : Site} (hv : i.subject? ≠ some v)
    (hhome : g.ScopedAt v home) (hbefore : g.Before home ⟨b, .instr (k + 1)⟩) :
    g.Before home ⟨b, .instr k⟩ ∧
      (g.naming tree).use v ⟨b, .instr (k + 1)⟩ = (g.naming tree).use v ⟨b, .instr k⟩ := by
  constructor
  · refine (before_succ_iff.mp hbefore).resolve_right ?_
    rintro rfl
    obtain ⟨j, hj, hsub, -⟩ := hhome.instr
    obtain rfl : i = j := Option.some.inj (hi.symm.trans hj)
    exact hv hsub
  · refine h.use_succ hb hi fun w hw hwv => hv ?_
    exact Instr.subject?_eq_some.mpr (.inr ⟨w, hw, hwv⟩)

/-- A write to a cell and to the register of its version keeps the two in agreement. -/
theorem Renamable.agrees_write (h : g.Renamable order tree) (hb : Reachable g.Edge entry b) {i : Instr}
    (hi : g.instr? ⟨b, .instr k⟩ = some i) {w : VersionedVar} (hw : i.defined? = some w)
    (hst : Agrees I.undef g (g.naming tree) ⟨b, .instr k⟩ st st') (a : V) :
    Agrees I.undef g (g.naming tree) ⟨b, .instr (k + 1)⟩
      { st with store := (cells I.undef).write st.store w a }
      { st' with
        store := (registers I.undef).write st'.store ((g.naming tree).write w.var ⟨b, .instr k⟩) a } where
  temps := hst.temps
  world := hst.world
  vars := by
    intro x home hhome hbefore
    by_cases hx : x.var = w.var
    · have hversion := h.version_write_ne_zero (.inr ⟨hb, i, w, hi, hw, rfl⟩)
      rw [hx, h.use_succ_of_defined hb hi hw]
      simp [registers, cells, readRegister, hversion, hx]
    · have hsub : i.subject? ≠ some x.var := by
        rw [Instr.subject?_eq_some.mpr (.inr ⟨w, hw, rfl⟩)]
        exact fun heq => hx (Option.some.inj heq).symm
      obtain ⟨hbefore', huse⟩ := h.vars_succ hb hi hsub hhome hbefore
      have hne : (g.naming tree).use x.var ⟨b, .instr k⟩ ≠ (g.naming tree).write w.var ⟨b, .instr k⟩ := by
        intro heq
        have hvar := congrArg VersionedVar.var heq
        rw [use_naming_var, write_naming_var] at hvar
        exact hx hvar
      have hread := hst.vars x home hhome hbefore'
      rw [huse]
      simp only [registers, cells, readRegister] at hread ⊢
      rw [Function.update_of_ne hne, Function.update_of_ne hx]
      exact hread

/-- A declaration clears the cell, and no definition reaches the place behind it. -/
theorem Renamable.agrees_declare (h : g.Renamable order tree) (hb : Reachable g.Edge entry b) {v : VarId}
    (hi : g.instr? ⟨b, .instr k⟩ = some (.declare v))
    (hst : Agrees I.undef g (g.naming tree) ⟨b, .instr k⟩ st st') :
    Agrees I.undef g (g.naming tree) ⟨b, .instr (k + 1)⟩
      { st with store := (cells I.undef).declare st.store v } st' where
  temps := hst.temps
  world := hst.world
  vars := by
    intro x home hhome hbefore
    by_cases hx : x.var = v
    · obtain rfl : ⟨b, .instr k⟩ = home := by
        rcases hhome.origin with ⟨-, honly⟩ | ⟨hnone, -⟩
        · exact honly _ ⟨hb, hx ▸ hi⟩
        · exact absurd ⟨hb, hx ▸ hi⟩ (hnone _)
      rw [h.use_succ_of_declare hhome (hx ▸ hi)]
      simp [registers, cells, readRegister, hx]
    · obtain ⟨hbefore', huse⟩ := h.vars_succ hb hi (fun heq => hx (Option.some.inj heq).symm) hhome hbefore
      have hread := hst.vars x home hhome hbefore'
      rw [huse, hread]
      exact (Function.update_of_ne hx _ _).symm

/-- An instruction that writes no variable leaves cells and registers in agreement. -/
theorem Renamable.agrees_temp (h : g.Renamable order tree) (hb : Reachable g.Edge entry b) {i : Instr}
    (hi : g.instr? ⟨b, .instr k⟩ = some i) (hsub : i.subject? = none)
    (hst : Agrees I.undef g (g.naming tree) ⟨b, .instr k⟩ st st') (temps : TempId → V) (world : W) :
    Agrees I.undef g (g.naming tree) ⟨b, .instr (k + 1)⟩ ⟨st.store, temps, world⟩
      ⟨st'.store, temps, world⟩ where
  temps := rfl
  world := rfl
  vars := by
    intro x home hhome hbefore
    have hne : i.subject? ≠ some x.var := by
      rw [hsub]
      exact nofun
    obtain ⟨hbefore', huse⟩ := h.vars_succ hb hi hne hhome hbefore
    rw [huse]
    exact hst.vars x home hhome hbefore'

/-- Both executions of an instruction read the same values and go on to agree. -/
theorem Renamable.exec_named (h : g.Renamable order tree) (hscoped : g.Scoped)
    (hb : Reachable g.Edge entry b) {i : Instr} (hi : g.instr? ⟨b, .instr k⟩ = some i)
    (hst : Agrees I.undef g (g.naming tree) ⟨b, .instr k⟩ st st') :
    (i.named (g.naming tree) ⟨b, .instr k⟩).operands.map (eval I _ st') = i.operands.map (eval I _ st) ∧
      Agrees I.undef g (g.naming tree) ⟨b, .instr (k + 1)⟩ (exec I _ st i)
        (exec I _ st' (i.named (g.naming tree) ⟨b, .instr k⟩)) := by
  -- every variable that the instruction reads has its home before it
  have heval : ∀ op ∈ i.operands, eval I _ st' (op.named (g.naming tree) ⟨b, .instr k⟩) = eval I _ st op := by
    intro op hop
    refine eval_named hst fun v hv => ?_
    have hread : v ∈ i.reads := List.mem_filterMap.mpr ⟨op, hop, hv⟩
    obtain ⟨home, hhome⟩ := hscoped v ⟨b, .instr k⟩ ⟨hb, .inl ⟨i, hi, List.mem_append_right _ hread⟩⟩
    exact ⟨home, hhome, hhome.before_of_read hb hi hread⟩
  have hmap : (i.operands.map (Operand.named (g.naming tree) ⟨b, .instr k⟩)).map (eval I _ st') =
      i.operands.map (eval I _ st) := by
    rw [List.map_map]
    exact List.map_congr_left heval
  refine ⟨Instr.operands_named _ _ i ▸ hmap, ?_⟩
  cases i with
  | param dst idx => exact h.agrees_write hb hi rfl hst (I.param idx)
  | declare v => exact h.agrees_declare hb hi hst
  | assign dst op =>
    rw [exec, ← heval op (List.mem_singleton_self op)]
    exact h.agrees_write hb hi rfl hst _
  | copy t op | unary t o op =>
    rw [exec, ← heval op (List.mem_singleton_self op), ← hst.temps, ← hst.world]
    exact h.agrees_temp hb hi rfl hst _ _
  | binary t o lhs rhs =>
    rw [exec, ← heval lhs List.mem_cons_self, ← heval rhs (List.mem_cons_of_mem lhs List.mem_cons_self),
      ← hst.temps, ← hst.world]
    exact h.agrees_temp hb hi rfl hst _ _
  | call t callee args =>
    have hargs : args.map (eval I _ st) = _ := hmap.symm
    rw [exec, hargs, ← hst.temps, ← hst.world]
    exact h.agrees_temp hb hi rfl hst _ _

/-- Both executions of the rest of a block read the same values and agree at its end. -/
theorem Renamable.execAll_named (h : g.Renamable order tree) (hscoped : g.Scoped)
    (hb : Reachable g.Edge entry b) {is : List Instr} (his : (g.block b).instrs.toList.drop k = is)
    (hst : Agrees I.undef g (g.naming tree) ⟨b, .instr k⟩ st st') :
    let after := execAll I _ st is
    let after' := execAll I _ st' (is.mapIdx fun j => Instr.named (g.naming tree) ⟨b, .instr (k + j)⟩)
    after'.1 = after.1 ∧ Agrees I.undef g (g.naming tree) ⟨b, .exit⟩ after.2 after'.2 := by
  induction is generalizing k st st' with
  | nil =>
    refine ⟨rfl, hst.temps, hst.world, fun x home hhome hbefore => ?_⟩
    have hsize : (g.block b).instrs.size ≤ k := List.drop_eq_nil_iff.mp his
    obtain ⟨i, hi, -⟩ := hhome.instr
    rw [h.use_exit hb hsize]
    exact hst.vars x home hhome ((before_exit_iff hsize (.inr ⟨i, hi⟩)).mp hbefore)
  | cons i is ih =>
    have hi : g.instr? ⟨b, .instr k⟩ = some i := by
      rw [instr?, ← Array.getElem?_toList, ← List.head?_drop, his, List.head?_cons]
    obtain ⟨hreads, hagree⟩ := h.exec_named hscoped hb hi hst
    have hdrop : (g.block b).instrs.toList.drop (k + 1) = is := by
      rw [← List.drop_drop, his, List.drop_one, List.tail_cons]
    obtain ⟨hrest, hend⟩ := ih hdrop hagree
    have hshift : (fun j => Instr.named (g.naming tree) ⟨b, .instr (k + (j + 1))⟩) =
        fun j => Instr.named (g.naming tree) ⟨b, .instr (k + 1 + j)⟩ := by
      funext j
      rw [Nat.add_right_comm, Nat.add_assoc]
    rw [List.mapIdx_cons, hshift]
    refine ⟨?_, hend⟩
    exact congr (congrArg List.cons hreads) hrest

/-- Both runs leave a block the same way. -/
theorem exit_named {N : Naming} (hst : Agrees I.undef g N at_ st st') {j : Jump}
    (hj : ∀ v ∈ j.reads, ∃ home, g.ScopedAt v home ∧ g.Before home at_) :
    (j.named N at_).operand?.map (eval I _ st') = j.operand?.map (eval I _ st) ∧
      exit I _ st' (j.named N at_) = exit I _ st j := by
  have heval : ∀ op ∈ j.operand?, eval I _ st' (op.named N at_) = eval I _ st op := by
    intro op hop
    refine eval_named hst fun v hv => hj v ?_
    rw [Jump.reads, hop, Option.bind_some, hv]
    exact List.mem_singleton_self v
  cases j with
  | missing | goto _ | transfer _ _ => exact ⟨rfl, rfl⟩
  | branch cond t e =>
    simp only [Jump.named, Jump.mapOperand, Jump.operand?, exit, heval cond rfl, Option.map_some, and_self]
  | select value options default =>
    simp only [Jump.named, Jump.mapOperand, Jump.operand?, exit, heval value rfl, Option.map_some, and_self]
  | ret shadow value =>
    have hvalue : (value.map (Operand.named N at_)).map (eval I _ st') = value.map (eval I _ st) := by
      rw [Option.map_map]
      exact Option.map_congr fun op hop => heval op hop
    exact ⟨hvalue, congrArg Exit.ret hvalue⟩

/-- A phi is found under the name of the variable it merges. -/
theorem Renamable.find?_named (h : g.Renamable order tree) (hc : Reachable g.Edge entry c) {v : VarId}
    (hphi : ∃ φ ∈ (g.block c).phis, φ.var = v) :
    ∃ φ ∈ (g.block c).phis, φ.var = v ∧
      ((g.block c).phis.map (Phi.named (g.naming tree) tree.preorder tree.preorder c)).find?
        (fun ψ => ψ.target = (g.naming tree).write v ⟨c, .phi⟩) =
      some (φ.named (g.naming tree) tree.preorder tree.preorder c) := by
  have htarget : ∀ φ : Phi, (φ.named (g.naming tree) tree.preorder tree.preorder c).target =
      (g.naming tree).write φ.var ⟨c, .phi⟩ := fun φ => if_pos (h.exact.mem_preorder.mpr hc)
  have hsome : (((g.block c).phis.map (Phi.named (g.naming tree) tree.preorder tree.preorder c)).find?
      fun ψ => ψ.target = (g.naming tree).write v ⟨c, .phi⟩).isSome := by
    obtain ⟨φ, hφ, rfl⟩ := hphi
    rw [List.find?_isSome]
    exact ⟨_, List.mem_map_of_mem hφ, decide_eq_true (htarget φ)⟩
  obtain ⟨ψ, hfind⟩ := Option.isSome_iff_exists.mp hsome
  obtain ⟨φ, hφ, rfl⟩ := List.mem_map.mp (List.mem_of_find?_eq_some hfind)
  refine ⟨φ, hφ, ?_, hfind⟩
  have hname := List.find?_some hfind
  rw [decide_eq_true_eq, htarget] at hname
  rw [← write_naming_var g tree φ.var ⟨c, .phi⟩, hname, write_naming_var]

/-- An edge keeps the agreement: phis of the target take over the values of their slots. -/
theorem Renamable.follow_named (h : g.Renamable order tree) (hb : Reachable g.Edge entry b)
    (he : g.Edge b c) (hst : Agrees I.undef g (g.naming tree) ⟨b, .exit⟩ st st') :
    Agrees I.undef g (g.naming tree) ⟨c, .instr 0⟩ st
      { st' with
        store := (registers I.undef).follow st'.store b
          ((g.block c).phis.map (Phi.named (g.naming tree) tree.preorder tree.preorder c)) } where
  temps := hst.temps
  world := hst.world
  vars := by
    intro x home hhome hscope
    have hc : Reachable g.Edge entry c := hb.step he
    have hvar : ∀ φ : Phi, (φ.named (g.naming tree) tree.preorder tree.preorder c).target.var = φ.var :=
      fun φ => var_named _ _ _ (write_naming_var g tree)
    -- a variable in scope where `c` begins is in scope where `b` ends
    have hexit : g.Before home ⟨b, .exit⟩ := by
      obtain ⟨i, hi, -⟩ := hhome.instr
      refine (before_exit_iff_dominates (.inr ⟨i, hi⟩)).mpr ?_
      exact (hhome.strictlyDominates_of_start hscope).of_edge he
    rw [← hst.vars x home hhome hexit]
    generalize hy : (g.naming tree).use x.var ⟨c, .instr 0⟩ = y
    -- a phi moves the value into its register, and without a phi the name stays the same
    by_cases hphi : ∃ φ ∈ (g.block c).phis, φ.var = x.var
    · rw [h.use_start_of_phi hc hphi] at hy
      have hversion : y.version ≠ 0 := hy ▸ h.version_write_ne_zero (.inl ⟨rfl, hc, hphi⟩)
      obtain ⟨φ, hφ, hφv, hfind⟩ := h.find?_named hc hphi
      have hslot : b ∈ φ.preds := h.slots hφ ▸ h.mem_livePredecessors_iff.mpr ⟨hb, he⟩
      have hincoming := incoming?_named (b := c) (g.naming tree) tree.preorder tree.preorder hslot
        (h.exact.mem_preorder.mpr hb)
      rw [hy] at hfind
      simp only [registers, readRegister, hfind, hversion, if_false, hincoming, Option.getD_some, hφv]
    · rw [h.use_start_of_not_phi hhome hb he hscope hphi] at hy
      have hnone : ((g.block c).phis.map (Phi.named (g.naming tree) tree.preorder tree.preorder c)).find?
          (fun φ => φ.target = y) = none := by
        rw [List.find?_eq_none]
        intro ψ hψ htarget
        obtain ⟨φ, hφ, rfl⟩ := List.mem_map.mp hψ
        refine hphi ⟨φ, hφ, ?_⟩
        rw [← hvar φ, of_decide_eq_true htarget, ← hy, use_naming_var]
      simp only [registers, readRegister, hnone, hy]

/-- The named graph runs on registers as the graph runs on cells. -/
theorem Renamable.run_named (h : g.Renamable order tree) (hscoped : g.Scoped) {r : FlowGraph}
    (hr : Named g (g.naming tree) tree.preorder tree.preorder r) {fuel : Nat}
    (hb : Reachable g.Edge entry b) (hst : Agrees I.undef g (g.naming tree) ⟨b, .instr 0⟩ st st') :
    run I _ r fuel b st' = run I _ g fuel b st := by
  induction fuel generalizing b st st' with
  | zero => simp only [run, hst.world]
  | succ fuel ih =>
    have hmem : b ∈ tree.preorder := h.exact.mem_preorder.mpr hb
    have hinstrs : (r.block b).instrs.toList =
        (g.block b).instrs.toList.mapIdx fun j => Instr.named (g.naming tree) ⟨b, .instr (0 + j)⟩ := by
      rw [hr.block, Block.named]
      simp [hmem]
    have hjump : r.jump b = (g.jump b).named (g.naming tree) ⟨b, .exit⟩ := by
      rw [FlowGraph.jump, hr.block, Block.named]
      exact if_pos hmem
    -- cells and registers agree up to the jump, so the jump goes the same way
    obtain ⟨hreads, hend⟩ := h.execAll_named hscoped hb (List.drop_zero) hst
    have hscope : ∀ v ∈ (g.jump b).reads, ∃ home, g.ScopedAt v home ∧ g.Before home ⟨b, .exit⟩ := by
      intro v hv
      obtain ⟨home, hhome⟩ := hscoped v ⟨b, .exit⟩ ⟨hb, .inr ⟨rfl, hv⟩⟩
      exact ⟨home, hhome, hhome.before_of_exit hb hv⟩
    obtain ⟨hvalue, hexit⟩ := exit_named hend hscope
    rw [run, run, hinstrs, hjump]
    generalize execAll I _ st (g.block b).instrs.toList = after at hreads hend hvalue hexit ⊢
    generalize execAll I _ st' _ = after' at hreads hend hvalue hexit ⊢
    obtain ⟨reads, after⟩ := after
    obtain ⟨reads', after'⟩ := after'
    obtain rfl : reads' = reads := hreads
    have hworld : after'.world = after.world := hend.world
    dsimp only at hvalue hexit ⊢
    rw [hvalue, hexit]
    cases hgo : exit I _ after (g.jump b) with
    | ret value | undecided => simp only [hworld]
    | goto c =>
      have he : g.Edge b c := mem_targets_of_exit I _ hgo
      have hphis : (r.block c).phis =
          (g.block c).phis.map (Phi.named (g.naming tree) tree.preorder tree.preorder c) := by
        rw [hr.block, Block.named]
      dsimp only
      rw [hphis, ih (hb.step he) (h.follow_named hb he hend)]
      rfl

end Simulation

/-! ## Conversion -/

namespace PhisOnly

variable {g g' : FlowGraph}

theorem mentions (h : PhisOnly g g') : g'.Mentions = g.Mentions := by
  funext v s
  rw [Mentions, h.edge, h.instr?, h.jump, Mentions]

theorem keeps_scoped (h : PhisOnly g g') (hg : g.Scoped) : g'.Scoped := by
  intro v s hs
  rw [h.mentions] at hs
  obtain ⟨home, horigin, hfirst⟩ := hg v s hs
  refine ⟨home, ?_, fun t ht hne => ?_⟩
  · rw [h.declares, h.instr?]
    exact horigin
  · rw [h.mentions] at ht
    rw [Before, h.edge]
    exact hfirst t ht hne

/-- Cells know nothing of phis. -/
theorem run_cells {V W : Type} (I : Interp V W) (h : PhisOnly g g') (fuel : Nat) (b : BlockId)
    (st : State (cells I.undef) W) : run I _ g' fuel b st = run I _ g fuel b st := by
  induction fuel generalizing b st with
  | zero => rfl
  | succ fuel ih =>
    rw [run, run, h.instrs, h.jump]
    dsimp only
    cases exit I _ (execAll I _ st (g.block b).instrs.toList).2 (g.jump b) with
    | ret value | undecided => rfl
    | goto c =>
      dsimp only
      rw [ih]
      rfl

end PhisOnly

/-- Pruning keeps variables scoped. -/
theorem Shrunk.keeps_scoped {start g : FlowGraph} (h : Shrunk start g) (hscoped : start.Scoped) :
    g.Scoped := by
  have hmentions : ∀ {v s}, g.Mentions v s → start.Mentions v s := by
    rintro v s ⟨hs, hmention⟩
    obtain ⟨hreach, hkept⟩ := h.reachable_iff.mp hs
    refine ⟨hreach, ?_⟩
    rw [h.instr?, Jump.reads, (h.operand hkept).1] at hmention
    exact hmention
  intro v s hs
  obtain ⟨home, hhome⟩ := hscoped v s (hmentions hs)
  obtain ⟨i, hi, -⟩ := hhome.instr
  refine ⟨home, ?_, fun t ht hne => ?_⟩
  · rw [h.declares, h.instr?]
    exact hhome.origin
  · refine (h.before_iff ((h.reachable_iff_of_instr? hi).mpr hhome.reachable) ht.1).mpr ?_
    exact hhome.first t (hmentions ht) hne

/-- A scoped variable is declared at its home only. -/
theorem Scoped.scopedAt_of_declares {g : FlowGraph} (h : g.Scoped) {v : VarId} {s : Site}
    (hs : g.Declares v s) : g.ScopedAt v s := by
  obtain ⟨home, hhome⟩ := h v s ⟨hs.1, .inl ⟨_, hs.2, List.mem_singleton_self v⟩⟩
  rcases hhome.origin with ⟨-, honly⟩ | ⟨hnone, -⟩
  · exact honly s hs ▸ hhome
  · exact absurd hs (hnone s)

theorem Scoped.varsOf_jump_lt {g : FlowGraph} (h : g.Scoped) (hvars : g.VarsInRange) {b : BlockId}
    (hb : Reachable g.Edge entry b) {v : VarId} (hv : v ∈ (g.jump b).reads) : v < g.numVars := by
  obtain ⟨home, hhome⟩ := h v ⟨b, .exit⟩ ⟨hb, .inr ⟨rfl, hv⟩⟩
  obtain ⟨i, hi, hsub, -⟩ := hhome.instr
  exact hvars.lt_of_subject hhome.reachable hi hsub

/-- Take a graph that was built, pruned, ordered and analysed and in which all variables are scoped. It
can be brought into SSA form, and the SSA form runs on registers, block by block and value by value, as
the graph runs on cells. -/
theorem ssa_preserves_runs {g ordered analysed : FlowGraph} (hg : g.Built)
    (hordered : g.prune.1.withOrder = .ok ordered) (hanalysed : ordered.withDominance = .ok analysed)
    (hscoped : analysed.Scoped) :
    ∃ placed count renamed defs, analysed.withPhis = .ok (placed, count) ∧
      placed.rename = (renamed, .ok defs) ∧
      ∀ {V W : Type} (I : Interp V W) (fuel : Nat) (world : W),
        runGraph I (registers I.undef) renamed fuel world = runGraph I (cells I.undef) analysed fuel world := by
  obtain ⟨o, a, order, tree, ho, ha, -, h, -, hvars, hempty⟩ := hg.fresh.analyse
  obtain rfl : o = ordered := Except.ok.inj (ho.symm.trans hordered)
  obtain rfl : a = analysed := Except.ok.inj (ha.symm.trans hanalysed)
  obtain ⟨sites, hgather, hsites⟩ : ∃ sites, a.gatherDefinitionSites = .ok sites ∧ a.SitesOf sites := by
    refine (h.gather hvars).resolve_right ?_
    rintro ⟨v, s, t, -, hne, hs, ht⟩
    rcases (hscoped.scopedAt_of_declares hs).origin with ⟨-, honly⟩ | ⟨hnone, -⟩
    · exact hne (honly t ht).symm
    · exact hnone s hs
  obtain ⟨placed, count, hphis, honly, hplaced⟩ := h.withPhis hvars hempty hgather hsites
  have hscoped' : placed.Scoped := honly.keeps_scoped hscoped
  have hvars' : placed.VarsInRange := honly.varsInRange hvars
  have hrenamable : placed.Renamable order tree :=
    ⟨hplaced, hvars', fun b hb v hv => hscoped'.varsOf_jump_lt hvars' hb hv⟩
  obtain ⟨r, defs, hrename, hnamed, -⟩ := hrenamable.rename.resolve_right (by
    rintro ⟨r, v, s, -, hs, hversion⟩
    refine hversion ((hrenamable.version_use_eq_zero_iff hs.1).mpr fun t ht => ?_)
    exact hrenamable.not_before_home (hscoped'.scopedAt_of_declares hs) ht)
  refine ⟨placed, count, r, defs, hphis, hrename, fun I fuel world => ?_⟩
  -- nothing is in scope at the start
  have hstart : Agrees I.undef placed (placed.naming tree) ⟨entry, .instr 0⟩ (start I _ world)
      (start I _ world) := by
    refine ⟨rfl, rfl, fun x home hhome hscope => ?_⟩
    have hdom := hhome.strictlyDominates_of_start hscope
    exact absurd hdom.2.eq_root hdom.1
  exact (hrenamable.run_named hscoped' hnamed .root hstart).trans (honly.run_cells I fuel entry _)

/-- A variable that is declared and set in the entry, changed in a loop and returned after it. -/
def countingLoop : FlowGraph :=
  let push b i (g : FlowGraph) := g.modify b fun blk => { blk with instrs := blk.instrs.push i }
  let code := (new 1).addBlock.addBlock.addBlock.addBlock |> push 0 (.declare 0)
    |> push 0 (.assign (.unbound 0) (.const 0)) |> push 2 (.assign (.unbound 0) (.const 1))
  (((code.setJump 0 (.goto 1)).setJump 1 (.branch (.var (.unbound 0)) 2 3)).setJump 2 (.goto 1)).setJump 3
    (.ret 4 (some (.var (.unbound 0))))

theorem built_countingLoop : countingLoop.Built := by
  have hblocks : (new 1).addBlock.addBlock.addBlock.addBlock.Built :=
    .addBlock (.addBlock (.addBlock (.addBlock (.new 1))))
  have hentry := Built.pushInstr (i := .declare 0) hblocks (by decide) (if_pos (by decide : 0 < _))
  have hset := Built.pushInstr (i := .assign (.unbound 0) (.const 0)) hentry (by decide)
    (if_pos (by decide : 0 < _))
  have hcode := Built.pushInstr (i := .assign (.unbound 0) (.const 1)) hset (by decide)
    (if_pos (by decide : 2 < _))
  exact .setJump (.setJump (.setJump (.setJump hcode (if_pos (by decide))) (if_pos (by decide)))
    (if_pos (by decide))) (if_pos (by decide))

/-- In the loop, the declaration comes before everything else about the variable. -/
theorem scoped_countingLoop : countingLoop.Scoped := by
  have hjumps : ∀ b < 5, ∀ v ∈ (countingLoop.jump b).reads, v = 0 := by decide
  have hdeclares : ∀ b < 5, ∀ k < (countingLoop.block b).instrs.size,
      (countingLoop.block b).instrs[k]? = some (.declare 0) → b = 0 ∧ k = 0 := by decide
  have hlt : ∀ {b}, Reachable countingLoop.Edge entry b → b < 5 := built_countingLoop.fresh.reachable_lt
  rintro v s ⟨hs, hmention⟩
  obtain rfl : v = 0 := by
    rcases hmention with ⟨i, hi, hv⟩ | ⟨-, hv⟩
    · obtain ⟨b, k, rfl⟩ := exists_of_instr? hi
      exact Nat.lt_one_iff.mp (built_countingLoop.fresh.vars b i (Array.mem_of_getElem? hi) v hv)
    · exact hjumps s.block (hlt hs) v hv
  refine ⟨⟨entry, .instr 0⟩, .inl ⟨⟨.root, by decide⟩, fun t ht => ?_⟩, fun t ht hne => ?_⟩
  · obtain ⟨b, k, rfl⟩ := exists_of_instr? ht.2
    obtain ⟨hk, -⟩ := Array.getElem?_eq_some_iff.mp ht.2
    obtain ⟨rfl, rfl⟩ := hdeclares b (hlt ht.1) k hk ht.2
    rfl
  · by_cases hentry : t.block = entry
    · obtain ⟨b, p⟩ := t
      obtain rfl : b = entry := hentry
      refine .inl ⟨rfl, ?_⟩
      rcases ht.2 with ⟨i, hi, -⟩ | ⟨hp, -⟩
      · obtain ⟨_, k, ⟨⟩⟩ := exists_of_instr? hi
        refine decide_eq_true (Nat.pos_of_ne_zero ?_)
        rintro rfl
        exact hne rfl
      · rw [hp]
        rfl
    · exact .inr ⟨Ne.symm hentry, .root _⟩

/-- The counting loop runs the same in SSA form. -/
theorem ssa_preserves_runs_countingLoop :
    ∃ ordered analysed placed count renamed defs, countingLoop.prune.1.withOrder = .ok ordered ∧
      ordered.withDominance = .ok analysed ∧ analysed.Scoped ∧ analysed.withPhis = .ok (placed, count) ∧
      placed.rename = (renamed, .ok defs) ∧
      ∀ {V W : Type} (I : Interp V W) (fuel : Nat) (world : W),
        runGraph I (registers I.undef) renamed fuel world = runGraph I (cells I.undef) analysed fuel world := by
  obtain ⟨ordered, analysed, -, -, hordered, hanalysed, -, -, hshrunk, -⟩ := built_countingLoop.fresh.analyse
  have hscoped : analysed.Scoped := hshrunk.keeps_scoped scoped_countingLoop
  obtain ⟨placed, count, renamed, defs, hphis, hrename, hruns⟩ :=
    ssa_preserves_runs built_countingLoop hordered hanalysed hscoped
  exact ⟨ordered, analysed, placed, count, renamed, defs, hordered, hanalysed, hscoped, hphis, hrename, hruns⟩

end SsaFlow.FlowGraph
