-- SUMMARY: Renaming gives every use and every definition the name that the whole list of definitions says.
import SsaFlow.Proofs.DefinitionChain
import SsaFlow.Proofs.PhiPlacement

/-!
# What renaming does

The names in a renamed graph are fixed by the definitions of the whole graph, listed in the order in
which blocks are visited: `Definitions.naming`. A look-up in the middle of the renaming finds the same
definition as one at the end, because definitions that are made later do not reach the place. Renaming
stops only at a declaration that a definition reaches.
-/

namespace SsaFlow

/-- Names for the uses and the definitions of variables, by place. -/
structure Naming where
  use : VarId → Site → VersionedVar
  write : VarId → Site → VersionedVar

/-- The names that the definitions of a graph give. -/
def Definitions.naming (tree : DominatorTree) (all : List (VersionedVar × Site)) : Naming where
  use := useName tree all
  write := defName all

/-! ## Named code -/

def Operand.named (N : Naming) (at_ : Site) : Operand → Operand := mapVar fun x => N.use x.var at_

def Instr.named (N : Naming) (at_ : Site) (i : Instr) : Instr :=
  (i.mapOperands (Operand.named N at_)).mapDefined fun x => N.write x.var at_

def Jump.named (N : Naming) (at_ : Site) : Jump → Jump := mapOperand (Operand.named N at_)

/-- A phi of block `b` once the blocks in `entered` have got their names and the blocks in `left` have
bound their slots. -/
def Phi.named (N : Naming) (entered left : List BlockId) (b : BlockId) (φ : Phi) : Phi where
  target := if b ∈ entered then N.write φ.var ⟨b, .phi⟩ else φ.target
  slots := φ.slots.map fun (p, w) => (p, if p ∈ left then N.use φ.var ⟨p, .exit⟩ else w)

/-- Block `b` once the blocks in `entered` have got their names and the blocks in `left` have bound
their slots. -/
def Block.named (N : Naming) (entered left : List BlockId) (b : BlockId) (blk : Block) : Block :=
  { blk with
    phis := blk.phis.map (Phi.named N entered left b)
    instrs := if b ∈ entered then blk.instrs.mapIdx fun k => Instr.named N ⟨b, .instr k⟩ else blk.instrs
    jump := if b ∈ entered then blk.jump.named N ⟨b, .exit⟩ else blk.jump }

theorem Jump.targets_mapOperand (f : Operand → Operand) (j : Jump) : (j.mapOperand f).targets = j.targets := by
  cases j <;> rfl

theorem Jump.shadow?_mapOperand (f : Operand → Operand) (j : Jump) : (j.mapOperand f).shadow? = j.shadow? := by
  cases j <;> rfl

theorem Jump.onlyTarget?_mapOperand (f : Operand → Operand) (j : Jump) :
    (j.mapOperand f).onlyTarget? = j.onlyTarget? := by
  cases j <;> rfl

theorem Jump.isMissing_mapOperand (f : Operand → Operand) (j : Jump) :
    (j.mapOperand f).isMissing = j.isMissing := by
  cases j <;> rfl

theorem Instr.operands_named (N : Naming) (at_ : Site) (i : Instr) :
    (i.named N at_).operands = i.operands.map (Operand.named N at_) := by
  cases i <;> rfl

theorem Instr.defined?_named (N : Naming) (at_ : Site) (i : Instr) :
    (i.named N at_).defined? = i.defined?.map fun x => N.write x.var at_ := by
  cases i <;> rfl

theorem Operand.var?_named (N : Naming) (at_ : Site) (op : Operand) :
    (op.named N at_).var? = op.var?.map fun x => N.use x.var at_ := by
  cases op <;> rfl

theorem Instr.used_named (N : Naming) (at_ : Site) (i : Instr) :
    (i.named N at_).used = i.used.map fun x => N.use x.var at_ := by
  rw [used, operands_named, List.filterMap_map, used, List.map_filterMap]
  exact congrArg (List.filterMap · _) (funext (Operand.var?_named N at_))

theorem Jump.used?_named (N : Naming) (at_ : Site) (j : Jump) :
    (j.named N at_).used? = j.used?.map fun x => N.use x.var at_ := by
  have hoperand : (j.named N at_).operand? = j.operand?.map (Operand.named N at_) := by cases j <;> rfl
  rw [used?, hoperand, used?]
  cases j.operand? with
  | none => rfl
  | some op => exact Operand.var?_named N at_ op

theorem Instr.mapOperands_declare (f : Operand → Operand) (v : VarId) :
    (declare v).mapOperands f = .declare v := rfl

theorem Instr.mapOperands_param (f : Operand → Operand) (dst : VersionedVar) (idx : Nat) :
    (param dst idx).mapOperands f = .param dst idx := rfl

/-- If every element can be replaced, then all of them are. -/
theorem replaceUntil_ok {α ε : Type} {f : α → Except ε α} {f' : α → α} {xs : List α}
    (h : ∀ x ∈ xs, f x = .ok (f' x)) : replaceUntil f xs = (xs.map f', none) := by
  induction xs with
  | nil => rfl
  | cons x xs ih =>
    rw [replaceUntil, h x List.mem_cons_self, ih fun y hy => h y (List.mem_cons_of_mem x hy)]
    rfl

theorem map_replaceUntil {α β ε : Type} {f : α → Except ε α} {p : α → β} {xs : List α}
    (h : ∀ x ∈ xs, ∀ {y}, f x = .ok y → p y = p x) : (replaceUntil f xs).1.map p = xs.map p := by
  induction xs with
  | nil => rfl
  | cons x xs ih =>
    rw [replaceUntil]
    split
    · rfl
    · next y hy =>
      have hxs := ih fun z hz => h z (List.mem_cons_of_mem x hz)
      simp only [List.map_cons, hxs, h x List.mem_cons_self hy]

theorem Instr.replaceOperands_ok {ε : Type} {f : Operand → Except ε Operand} {f' : Operand → Operand}
    {i : Instr} (h : ∀ op ∈ i.operands, f op = .ok (f' op)) :
    i.replaceOperands f = (i.mapOperands f', none) := by
  cases i with
  | param _ _ | declare _ => rfl
  | assign _ op | copy _ op | unary _ _ op => rw [replaceOperands, h op List.mem_cons_self]; rfl
  | binary _ _ lhs rhs =>
    rw [replaceOperands, h lhs List.mem_cons_self, h rhs (List.mem_cons_of_mem lhs List.mem_cons_self)]
    rfl
  | call _ _ args =>
    have hargs : replaceUntil f args = (args.map f', none) := replaceUntil_ok h
    rw [replaceOperands, hargs]
    rfl

namespace Renaming

open Definitions hiding none

variable {tree : DominatorTree} {numVars : Nat} {all done rest : List (VersionedVar × Site)}
  {defs : Definitions} {b : BlockId}

theorem reaches_self (s : Site) : tree.reaches s s = false := by
  rw [DominatorTree.reaches, if_pos rfl, Point.before_irrefl, Bool.false_and]

theorem use_of_append {v : VarId} {at_ : Site} (hall : all = done ++ rest)
    (hrest : ∀ p ∈ rest, tree.reaches p.2 at_ = false) :
    (naming tree all).use v at_ = useName tree done v at_ := by
  rw [hall]
  exact useName_append hrest

/-- Definitions that do not reach the place make no difference to the name of a use there. -/
theorem resolve_spec (h : Tracks defs numVars done) {op : Operand} {at_ : Site}
    (hop : ∀ v ∈ op.varId?, v < numVars) (hall : all = done ++ rest)
    (hrest : ∀ p ∈ rest, tree.reaches p.2 at_ = false) :
    defs.resolve tree at_ op = .ok (op.named (naming tree all) at_) := by
  cases op with
  | const _ | temp _ => rfl
  | var x =>
    rw [Definitions.resolve, h.lookup tree (hop x.var rfl), ← use_of_append hall hrest]
    rfl

/-! ## Instructions -/

def defOf (s : Site) (i : Instr) : List (VersionedVar × Site) := (i.defined?.map fun x => (x, s)).toList

/-- The definitions that instructions make, the first of them at index `k`. -/
def defsOf (b : BlockId) (is : List Instr) (k : Nat) : List (VersionedVar × Site) :=
  (is.zipIdx k).filterMap fun (i, k) => i.defined?.map fun x => (x, ⟨b, .instr k⟩)

theorem defsOf_cons (b : BlockId) (i : Instr) (is : List Instr) (k : Nat) :
    defsOf b (i :: is) k = defOf ⟨b, .instr k⟩ i ++ defsOf b is (k + 1) := by
  rw [defsOf, List.zipIdx_cons, List.filterMap_cons, defOf]
  cases hi : i.defined? <;> simp [hi, defsOf]

theorem mem_defsOf {is : List Instr} {k : Nat} {p : VersionedVar × Site} (h : p ∈ defsOf b is k) :
    ∃ j, k ≤ j ∧ p.2 = ⟨b, .instr j⟩ := by
  obtain ⟨⟨i, j⟩, hmem, hi⟩ := List.mem_filterMap.mp h
  obtain ⟨x, -, rfl⟩ := Option.map_eq_some_iff.mp hi
  exact ⟨j, (List.mem_zipIdx hmem).1, rfl⟩

/-- Renaming one instruction. -/
theorem instr_spec (h : Tracks defs numVars done) {i : Instr} {k : Nat}
    (hvars : ∀ v ∈ i.mentions, v < numVars)
    (hall : all = done ++ (defOf ⟨b, .instr k⟩ i ++ rest))
    (hrest : ∀ p ∈ rest, tree.reaches p.2 ⟨b, .instr k⟩ = false ∧ p.2 ≠ ⟨b, .instr k⟩) :
    (∃ defs', instr tree b defs k i = ⟨i.named (naming tree all) ⟨b, .instr k⟩, defs', none⟩ ∧
        Tracks defs' numVars (done ++ defOf ⟨b, .instr k⟩ i) ∧
        ∀ v, i = .declare v → ((naming tree all).use v ⟨b, .instr k⟩).version = 0) ∨
      ∃ v, i = .declare v ∧ ((naming tree all).use v ⟨b, .instr k⟩).version ≠ 0 ∧
        (instr tree b defs k i).stop = some (.redefinedBeforeDeclaration v b) := by
  -- the definition of the instruction does not reach its own operands
  have hreads : ∀ op ∈ i.operands, defs.resolve tree ⟨b, .instr k⟩ op =
      .ok (op.named (naming tree all) ⟨b, .instr k⟩) := by
    intro op hop
    refine resolve_spec h (fun v hv => hvars v ?_) hall fun p hp => ?_
    · exact List.mem_append_right _ (List.mem_filterMap.mpr ⟨op, hop, hv⟩)
    · rcases List.mem_append.mp hp with hp | hp
      · obtain ⟨x, -, rfl⟩ := Option.map_eq_some_iff.mp (Option.mem_toList.mp hp)
        exact reaches_self _
      · exact (hrest p hp).1
  have hwrite : ∀ x, i.defined? = some x → x.var < numVars ∧
      (naming tree all).write x.var ⟨b, .instr k⟩ = ⟨x.var, (sitesOf x.var done).length + 1⟩ := by
    intro x hx
    refine ⟨hvars x.var ?_, ?_⟩
    · rw [Instr.mentions, Instr.subject?_eq_some.mpr (.inr ⟨x, hx, rfl⟩)]
      exact List.mem_append_left _ List.mem_cons_self
    · rw [naming, hall, defOf, hx]
      refine defName_split fun hmem => ?_
      obtain ⟨y, hy, -⟩ := mem_sitesOf.mp hmem
      exact (hrest _ hy).2 rfl
  have hinstr : instr tree b defs k i =
      write tree b defs ⟨b, .instr k⟩ (i.mapOperands (Operand.named (naming tree all) ⟨b, .instr k⟩)) := by
    rw [instr, Instr.replaceOperands_ok hreads]
  rw [hinstr]
  cases i with
  | declare v =>
    have huse : (naming tree all).use v ⟨b, .instr k⟩ = useName tree done v ⟨b, .instr k⟩ :=
      use_of_append hall fun p hp => (hrest p hp).1
    -- a declaration stops the renaming exactly if a definition reaches it
    have hlookup := h.lookup tree (hvars v List.mem_cons_self) ⟨b, .instr k⟩
    have hdeclare : write tree b defs ⟨b, .instr k⟩ (.declare v) =
        ⟨.declare v, defs, if ((naming tree all).use v ⟨b, .instr k⟩).isBound
          then some (.redefinedBeforeDeclaration v b) else none⟩ := by
      rw [write, hlookup, huse]
    rw [Instr.mapOperands_declare, hdeclare]
    by_cases hbound : ((naming tree all).use v ⟨b, .instr k⟩).version = 0
    · have hnot : ((naming tree all).use v ⟨b, .instr k⟩).isBound = false := by
        rw [VersionedVar.isBound, hbound]
        rfl
      refine .inl ⟨defs, ?_, (List.append_nil done).symm ▸ h, ?_⟩
      · rw [hnot]
        rfl
      · rintro w ⟨⟩
        exact hbound
    · exact .inr ⟨v, rfl, hbound, if_pos (VersionedVar.isBound_iff.mpr hbound)⟩
  | param dst idx =>
    obtain ⟨hlt, hname⟩ := hwrite dst rfl
    obtain ⟨defs', hdefine, htracks⟩ := h.define hlt ⟨b, .instr k⟩
    refine .inl ⟨defs', ?_, htracks, fun v hv => by cases hv⟩
    rw [Instr.mapOperands_param, write, hdefine, ← hname]
    rfl
  | assign dst value =>
    obtain ⟨hlt, hname⟩ := hwrite dst rfl
    obtain ⟨defs', hdefine, htracks⟩ := h.define hlt ⟨b, .instr k⟩
    refine .inl ⟨defs', ?_, htracks, fun v hv => by cases hv⟩
    rw [Instr.mapOperands, write, hdefine, ← hname]
    rfl
  | copy _ _ | unary _ _ _ | binary _ _ _ _ | call _ _ _ =>
    exact .inl ⟨defs, rfl, (List.append_nil done).symm ▸ h, fun v hv => by cases hv⟩

/-- The definitions in the rest are made in other blocks and do not reach into block `b`. -/
def Elsewhere (tree : DominatorTree) (b : BlockId) (rest : List (VersionedVar × Site)) : Prop :=
  ∀ p ∈ rest, p.2.block ≠ b ∧ ∀ q, tree.reaches p.2 ⟨b, q⟩ = false

/-- Renaming the instructions of a block from index `front.size` on. -/
theorem instrs_spec (h : Tracks defs numVars done) {is : List Instr} {front : Array Instr}
    (hvars : ∀ i ∈ is, ∀ v ∈ i.mentions, v < numVars)
    (hall : all = done ++ (defsOf b is front.size ++ rest)) (hrest : Elsewhere tree b rest) :
    (∃ defs', instrs tree b defs front is =
          ⟨front ++ (is.mapIdx fun j =>
            Instr.named (naming tree all) ⟨b, .instr (front.size + j)⟩).toArray, defs', none⟩ ∧
        Tracks defs' numVars (done ++ defsOf b is front.size) ∧
        ∀ j v, is[j]? = some (.declare v) →
          ((naming tree all).use v ⟨b, .instr (front.size + j)⟩).version = 0) ∨
      ∃ j v, is[j]? = some (.declare v) ∧
        ((naming tree all).use v ⟨b, .instr (front.size + j)⟩).version ≠ 0 ∧
        (instrs tree b defs front is).stop = some (.redefinedBeforeDeclaration v b) := by
  induction is generalizing defs done front with
  | nil =>
    refine .inl ⟨defs, ?_, ?_, fun j v hj => nomatch hj⟩
    · rw [instrs]
      simp
    · exact (List.append_nil done).symm ▸ h
  | cons i is ih =>
    rw [defsOf_cons, List.append_assoc] at hall
    -- what is defined further on does not reach back
    have hlater : ∀ p ∈ defsOf b is (front.size + 1) ++ rest,
        tree.reaches p.2 ⟨b, .instr front.size⟩ = false ∧ p.2 ≠ ⟨b, .instr front.size⟩ := by
      intro p hp
      rcases List.mem_append.mp hp with hp | hp
      · obtain ⟨j, hj, hsite⟩ := mem_defsOf hp
        rw [hsite]
        constructor
        · have hnot : ¬ j < front.size := by omega
          rw [DominatorTree.reaches, if_pos rfl, Point.before, decide_eq_false hnot, Bool.false_and]
        · intro heq
          cases heq
          omega
      · refine ⟨(hrest p hp).2 _, fun heq => (hrest p hp).1 ?_⟩
        rw [heq]
    rcases instr_spec h (hvars i List.mem_cons_self) hall hlater with
      ⟨defs', hstep, htracks, hdecl⟩ | ⟨v, rfl, hbound, hstop⟩
    · have hsize : (front.push (i.named (naming tree all) ⟨b, .instr front.size⟩)).size =
          front.size + 1 := Array.size_push _
      have hnext : instrs tree b defs front (i :: is) =
          instrs tree b defs' (front.push (i.named (naming tree all) ⟨b, .instr front.size⟩)) is := by
        rw [instrs, hstep]
      rw [hnext]
      have hall' : all = (done ++ defOf ⟨b, .instr front.size⟩ i) ++ (defsOf b is
          (front.push (i.named (naming tree all) ⟨b, .instr front.size⟩)).size ++ rest) := by
        rw [hsize, List.append_assoc]
        exact hall
      rcases ih htracks (fun i' hi' => hvars i' (List.mem_cons_of_mem i hi')) hall' with
        ⟨defs'', hrun, htracks', hdecls⟩ | ⟨j, v, hj, hbound, hstop⟩
      · refine .inl ⟨defs'', ?_, ?_, ?_⟩
        · rw [hrun, hsize, List.mapIdx_cons]
          simp [Nat.add_assoc, Nat.add_comm 1]
        · rw [defsOf_cons, ← List.append_assoc, ← hsize]
          exact htracks'
        · intro j v hj
          cases j with
          | zero => exact hdecl v (Option.some.inj hj)
          | succ j =>
            have hunbound := hdecls j v hj
            rw [hsize, Nat.add_assoc, Nat.add_comm 1 j] at hunbound
            exact hunbound
      · refine .inr ⟨j + 1, v, hj, ?_, hstop⟩
        rw [hsize, Nat.add_assoc, Nat.add_comm 1 j] at hbound
        exact hbound
    · refine .inr ⟨0, v, rfl, hbound, ?_⟩
      rw [instrs]
      generalize instr tree b defs front.size (.declare v) = r at hstop ⊢
      obtain ⟨i', defs', stop⟩ := r
      cases hstop
      rfl

/-! ## Phis, jumps and whole blocks -/

def defsOfPhis (b : BlockId) (φs : List Phi) : List (VersionedVar × Site) :=
  φs.map fun φ => (φ.target, ⟨b, .phi⟩)

/-- Renaming the phis of a block, which are for different variables. -/
theorem phis_spec (tree : DominatorTree) (h : Tracks defs numVars done) {φs : List Phi} {seen : List VarId}
    (hvars : ∀ φ ∈ φs, φ.var < numVars) (hnodup : (φs.map Phi.var).Nodup)
    (hseen : ∀ φ ∈ φs, φ.var ∉ seen) (hall : all = done ++ (defsOfPhis b φs ++ rest))
    (hrest : ∀ p ∈ rest, p.2 ≠ ⟨b, .phi⟩) :
    ∃ defs', phis b defs seen φs =
        ⟨φs.map fun φ => { φ with target := (naming tree all).write φ.var ⟨b, .phi⟩ }, defs', none⟩ ∧
      Tracks defs' numVars (done ++ defsOfPhis b φs) := by
  induction φs generalizing defs done seen with
  | nil => exact ⟨defs, rfl, (List.append_nil done).symm ▸ h⟩
  | cons φ φs ih =>
    rw [List.map_cons, List.nodup_cons] at hnodup
    have hname : (naming tree all).write φ.var ⟨b, .phi⟩ =
        ⟨φ.var, (sitesOf φ.var done).length + 1⟩ := by
      rw [hall]
      refine defName_split (x := φ.target) fun hmem => ?_
      obtain ⟨y, hy, hvar⟩ := mem_sitesOf.mp hmem
      rcases List.mem_append.mp hy with hy | hy
      · obtain ⟨ψ, hψ, heq⟩ := List.mem_map.mp hy
        cases heq
        exact hnodup.1 (List.mem_map.mpr ⟨ψ, hψ, hvar⟩)
      · exact hrest _ hy rfl
    obtain ⟨defs', hdefine, htracks⟩ := h.define (hvars φ List.mem_cons_self) ⟨b, .phi⟩
    have hall' : all = (done ++ [(φ.target, ⟨b, .phi⟩)]) ++ (defsOfPhis b φs ++ rest) := by
      rw [hall, List.append_assoc]
      rfl
    obtain ⟨defs'', hrun, htracks'⟩ := ih htracks (fun ψ hψ => hvars ψ (List.mem_cons_of_mem φ hψ))
      hnodup.2 (fun ψ hψ hmem => by
        rcases List.mem_cons.mp hmem with heq | hmem
        · exact hnodup.1 (List.mem_map.mpr ⟨ψ, hψ, heq⟩)
        · exact hseen ψ (List.mem_cons_of_mem φ hψ) hmem) hall'
    refine ⟨defs'', ?_, ?_⟩
    · have hnot : seen.contains φ.var = false := by
        rw [List.contains_eq_mem, decide_eq_false (hseen φ List.mem_cons_self)]
      have hdefine' : defs.define φ.var ⟨b, .phi⟩ =
        .ok (⟨φ.var, (sitesOf φ.var done).length + 1⟩, defs') := hdefine
      rw [phis, hnot, hdefine', if_neg Bool.false_ne_true]
      dsimp only
      rw [hrun, ← hname]
      rfl
    · rw [List.append_assoc] at htracks'
      exact htracks'

/-- The jump of a block gets the name that the whole graph gives to its use. -/
theorem jump_spec (h : Tracks defs numVars done) {j : Jump} (hvars : ∀ v ∈ j.reads, v < numVars)
    (hall : all = done ++ rest) (hrest : Elsewhere tree b rest) :
    jump tree b defs j = (j.named (naming tree all) ⟨b, .exit⟩, none) := by
  rw [jump]
  cases hop : j.operand? with
  | none =>
    cases j with
    | missing | goto _ | transfer _ _ => rfl
    | branch _ _ _ | select _ _ _ => exact nomatch hop
    | ret shadow value =>
      cases hop
      rfl
  | some op =>
    have hresolve : defs.resolve tree ⟨b, .exit⟩ op = .ok (op.named (naming tree all) ⟨b, .exit⟩) := by
      refine resolve_spec h (fun v hv => hvars v ?_) hall fun p hp => (hrest p hp).2 .exit
      rw [Jump.reads, hop, Option.bind_some]
      exact Option.mem_toList.mpr hv
    dsimp only
    rw [hresolve]
    cases j with
    | missing | goto _ | transfer _ _ => exact nomatch hop
    | branch _ _ _ | select _ _ _ | ret _ _ =>
      cases hop
      rfl

/-- The definitions of a block in the order in which they are made. -/
def defsOfBlock (b : BlockId) (blk : Block) : List (VersionedVar × Site) :=
  defsOfPhis b blk.phis ++ defsOf b blk.instrs.toList 0

/-- Renaming the contents of a block. -/
theorem contents_spec (h : Tracks defs numVars done) {blk : Block}
    (hphis : ∀ φ ∈ blk.phis, φ.var < numVars) (hnodup : (blk.phis.map Phi.var).Nodup)
    (hinstrs : ∀ i ∈ blk.instrs, ∀ v ∈ i.mentions, v < numVars)
    (hjump : ∀ v ∈ blk.jump.reads, v < numVars)
    (hall : all = done ++ (defsOfBlock b blk ++ rest)) (hrest : Elsewhere tree b rest) :
    (∃ defs', contents tree b defs blk =
          ⟨{ blk with
              phis := blk.phis.map fun φ => { φ with target := (naming tree all).write φ.var ⟨b, .phi⟩ }
              instrs := blk.instrs.mapIdx fun k => Instr.named (naming tree all) ⟨b, .instr k⟩
              jump := blk.jump.named (naming tree all) ⟨b, .exit⟩ }, defs', none⟩ ∧
        Tracks defs' numVars (done ++ defsOfBlock b blk) ∧
        ∀ k v, blk.instrs[k]? = some (.declare v) →
          ((naming tree all).use v ⟨b, .instr k⟩).version = 0) ∨
      ∃ k v, blk.instrs[k]? = some (.declare v) ∧
        ((naming tree all).use v ⟨b, .instr k⟩).version ≠ 0 ∧
        (contents tree b defs blk).stop = some (.redefinedBeforeDeclaration v b) := by
  rw [defsOfBlock, List.append_assoc] at hall
  -- phis have a place of their own, before all instructions
  have hlater : ∀ p ∈ defsOf b blk.instrs.toList 0 ++ rest, p.2 ≠ ⟨b, .phi⟩ := by
    intro p hp heq
    rcases List.mem_append.mp hp with hp | hp
    · obtain ⟨j, -, hsite⟩ := mem_defsOf hp
      rw [hsite] at heq
      exact nomatch heq
    · exact (hrest p hp).1 (by rw [heq])
  obtain ⟨defs', hrunphis, htracks⟩ := phis_spec tree h hphis hnodup (fun _ _ => List.not_mem_nil) hall
    hlater
  have hall' : all = (done ++ defsOfPhis b blk.phis) ++
      (defsOf b blk.instrs.toList (#[] : Array Instr).size ++ rest) := by
    rw [List.append_assoc]
    exact hall
  rcases instrs_spec htracks (fun i hi => hinstrs i (Array.mem_toList_iff.mp hi)) hall' hrest with
    ⟨defs'', hruninstrs, htracks', hdecls⟩ | ⟨j, v, hj, hbound, hstop⟩
  · refine .inl ⟨defs'', ?_, ?_, ?_⟩
    · have hjumps : jump tree b defs'' blk.jump = (blk.jump.named (naming tree all) ⟨b, .exit⟩, none) :=
        jump_spec htracks' hjump (hall'.trans (List.append_assoc _ _ _).symm) hrest
      have harray : (#[] : Array Instr) ++ (blk.instrs.toList.mapIdx fun j => Instr.named (naming tree all)
          ⟨b, .instr ((#[] : Array Instr).size + j)⟩).toArray =
          blk.instrs.mapIdx fun k => Instr.named (naming tree all) ⟨b, .instr k⟩ := by
        simp only [Array.empty_append, Array.size_empty, Nat.zero_add]
        rw [← Array.toList_mapIdx, Array.toArray_toList]
      rw [contents, hrunphis]
      dsimp only
      rw [hruninstrs, harray]
      dsimp only
      rw [hjumps]
    · rw [defsOfBlock, ← List.append_assoc]
      exact htracks'
    · intro k v hk
      have hunbound := hdecls k v (by rwa [Array.getElem?_toList])
      rw [Array.size_empty, Nat.zero_add] at hunbound
      exact hunbound
  · rw [Array.size_empty, Nat.zero_add] at hbound
    refine .inr ⟨j, v, by rwa [Array.getElem?_toList] at hj, hbound, ?_⟩
    rw [contents, hrunphis]
    dsimp only
    rw [hstop]

/-! ## Slots -/

def bindSlot (N : Naming) (p : BlockId) (φ : Phi) : Phi :=
  { φ with slots := φ.slots.map fun (q, w) => (q, if q = p then N.use φ.var ⟨p, .exit⟩ else w) }

theorem bind?_eq (N : Naming) {p : BlockId} {φ : Phi} (hp : p ∈ φ.preds) :
    φ.bind? p (N.use φ.var ⟨p, .exit⟩) = some (bindSlot N p φ) := by
  rw [Phi.bind?, if_pos (List.contains_iff_mem.mpr hp), bindSlot]
  congr 3
  funext ⟨q, w⟩
  dsimp only
  split <;> rfl

/-- Binding the slots of a block in the phis of one successor. -/
theorem slots_spec (h : Tracks defs numVars done) {s : BlockId} {φs : List Phi}
    (hvars : ∀ φ ∈ φs, φ.var < numVars) (hslots : ∀ φ ∈ φs, b ∈ φ.preds) (hall : all = done ++ rest)
    (hrest : Elsewhere tree b rest) :
    slots tree b defs s φs = (φs.map (bindSlot (naming tree all) b), none) := by
  refine replaceUntil_ok fun φ hφ => ?_
  have hname : (naming tree all).use φ.var ⟨b, .exit⟩ = useName tree done φ.var ⟨b, .exit⟩ :=
    use_of_append hall fun p hp => (hrest p hp).2 .exit
  rw [h.lookup tree (hvars φ hφ), ← hname]
  dsimp only
  rw [bind?_eq (naming tree all) (hslots φ hφ)]

/-- Binding the slots of a block in all its successors changes the phis of these. -/
theorem successors_spec (h : Tracks defs numVars done) {g : FlowGraph} {ss : List BlockId}
    (hnodup : ss.Nodup) (hlt : ∀ s ∈ ss, s < g.size)
    (hvars : ∀ s ∈ ss, ∀ φ ∈ (g.block s).phis, φ.var < numVars)
    (hslots : ∀ s ∈ ss, ∀ φ ∈ (g.block s).phis, b ∈ φ.preds) (hall : all = done ++ rest)
    (hrest : Elsewhere tree b rest) :
    (successors tree b defs g ss).2 = none ∧
      FlowGraph.PhisOnly g (successors tree b defs g ss).1 ∧
      ∀ c, ((successors tree b defs g ss).1.block c).phis =
        if c ∈ ss then (g.block c).phis.map (bindSlot (naming tree all) b) else (g.block c).phis := by
  induction ss generalizing g with
  | nil => exact ⟨rfl, .refl g, fun c => by simp [successors]⟩
  | cons s ss ih =>
    rw [List.nodup_cons] at hnodup
    have hone := slots_spec h (s := s) (hvars s List.mem_cons_self) (hslots s List.mem_cons_self) hall hrest
    rw [successors, hone]
    dsimp only
    generalize hg' : g.modify s (fun blk =>
      { blk with phis := (g.block s).phis.map (bindSlot (naming tree all) b) }) = g'
    have hblock : ∀ c, g'.block c = if s = c then
        { g.block c with phis := (g.block c).phis.map (bindSlot (naming tree all) b) } else g.block c := by
      intro c
      rw [← hg', FlowGraph.block_modify]
      by_cases hsc : s = c
      · subst hsc
        simp [hlt s List.mem_cons_self]
      · simp [hsc]
    have honly : FlowGraph.PhisOnly g g' := by
      rw [← hg']
      refine ⟨FlowGraph.size_modify _ _ _, rfl, rfl, rfl, rfl, fun c => ?_⟩
      rw [FlowGraph.block_modify]
      split
      · exact ⟨_, rfl⟩
      · exact ⟨_, rfl⟩
    -- successors are distinct, so the ones after `s` still have their phis as they were
    have hother : ∀ t ∈ ss, (g'.block t).phis = (g.block t).phis := by
      intro t ht
      rw [hblock, if_neg]
      rintro rfl
      exact hnodup.1 ht
    obtain ⟨hstop, honly', hphis⟩ := ih hnodup.2 (fun t ht => by
        rw [honly.size]
        exact hlt t (List.mem_cons_of_mem s ht))
      (fun t ht => by
        rw [hother t ht]
        exact hvars t (List.mem_cons_of_mem s ht))
      (fun t ht => by
        rw [hother t ht]
        exact hslots t (List.mem_cons_of_mem s ht))
    refine ⟨hstop, honly.trans honly', fun c => ?_⟩
    rw [hphis c, hblock]
    by_cases hsc : s = c
    · subst hsc
      simp [hnodup.1]
    · simp [hsc, Ne.symm hsc]

/-! ## Renaming, with dominance left in the graph -/

section Under

variable (tree : DominatorTree) (d : Option Dominance)

theorem successors_under (b : BlockId) (defs : Definitions) (g : FlowGraph) (ss : List BlockId) :
    successors tree b defs (g.under d) ss =
      ((successors tree b defs g ss).1.under d, (successors tree b defs g ss).2) := by
  induction ss generalizing g with
  | nil => rfl
  | cons s ss ih =>
    simp only [successors, FlowGraph.block_under, FlowGraph.modify_under]
    split
    · rfl
    · exact ih _

theorem visit_under (b : BlockId) (defs : Definitions) (g : FlowGraph) :
    visit tree b defs (g.under d) =
      { visit tree b defs g with result := (visit tree b defs g).result.under d } := by
  simp only [visit, FlowGraph.block_under, FlowGraph.modify_under, FlowGraph.targets_under, successors_under]
  split <;> rfl

/-- Renaming does not look at the dominance kept in the graph, so it can be taken out meanwhile. -/
theorem visitAll_under (bs : List BlockId) (defs : Definitions) (g : FlowGraph) :
    visitAll tree defs (g.under d) bs =
      { visitAll tree defs g bs with result := (visitAll tree defs g bs).result.under d } := by
  induction bs generalizing defs g with
  | nil => rfl
  | cons b bs ih =>
    simp only [visitAll, visit_under]
    split
    · rfl
    · exact ih _ _

end Under

/-- That dominance is taken out of the graph meanwhile cannot be seen in the graph that renaming leaves. -/
theorem rename_def (g : FlowGraph) :
    g.rename =
      match g.dominance with
      | none => (g, .error (.passOrder "rename_variables" "compute_dominance"))
      | some dom =>
        let r := visitAll dom.tree (.none g.numVars) g dom.tree.preorder
        match r.stop with
        | some e => (r.result, .error e)
        | none => (r.result, .ok r.defs.count) := by
  rw [FlowGraph.rename]
  cases hdom : g.dominance with
  | none => rfl
  | some dom =>
    have hout := visitAll_under dom.tree none dom.tree.preorder (.none g.numVars) g
    have hback := visitAll_under dom.tree g.dominance dom.tree.preorder (.none g.numVars) g
    rw [FlowGraph.under_dominance, hdom] at hback
    have hresult := congrArg Renamed.result hback.symm
    rw [FlowGraph.under] at hout
    dsimp only
    rw [hout]
    generalize visitAll dom.tree (.none g.numVars) g dom.tree.preorder = r at hresult ⊢
    obtain ⟨g', defs, stop⟩ := r
    cases stop with
    | some e => exact congrArg (·, Except.error e) hresult
    | none => exact congrArg (·, Except.ok defs.count) hresult

/-! ## Renaming, wherever it stops -/

section Induction

variable {P : FlowGraph → Prop}
  (hslots : ∀ {g : FlowGraph} (tree : DominatorTree) (b : BlockId) (defs : Definitions) (s : BlockId), P g →
    P (g.modify s fun blk => { blk with phis := (slots tree b defs s (g.block s).phis).1 }))
  (hcontents : ∀ {g : FlowGraph} (tree : DominatorTree) (b : BlockId) (defs : Definitions), P g →
    P (g.modify b fun _ => (contents tree b defs (g.block b)).result))

include hslots in
/-- What binding a slot keeps is kept in all successors. -/
theorem successors_induction (tree : DominatorTree) (b : BlockId) (defs : Definitions) (ss : List BlockId)
    {g : FlowGraph} (h : P g) : P (successors tree b defs g ss).1 := by
  induction ss generalizing g with
  | nil => exact h
  | cons s ss ih =>
    have hstep := hslots tree b defs s h
    unfold successors
    simp only
    split
    · exact hstep
    · exact ih hstep

include hslots hcontents

theorem visit_induction (tree : DominatorTree) (b : BlockId) (defs : Definitions) {g : FlowGraph} (h : P g) :
    P (visit tree b defs g).result := by
  have hstep := hcontents tree b defs h
  unfold visit
  simp only
  split
  · exact hstep
  · exact successors_induction hslots tree b _ _ hstep

/-- What single steps of renaming keep is kept by renaming any number of blocks. -/
theorem visitAll_induction (tree : DominatorTree) (bs : List BlockId) (defs : Definitions) {g : FlowGraph}
    (h : P g) : P (visitAll tree defs g bs).result := by
  induction bs generalizing defs g with
  | nil => exact h
  | cons b bs ih =>
    have hstep := visit_induction hslots hcontents tree b defs h
    unfold visitAll
    simp only
    split
    · exact hstep
    · exact ih _ hstep

/-- What the changes of single blocks keep, renaming keeps, even where it stops halfway. -/
theorem rename_induction {g : FlowGraph} (h : P g) : P g.rename.1 := by
  rw [rename_def]
  split
  · exact h
  · next dom _ =>
    have hall := visitAll_induction hslots hcontents dom.tree dom.tree.preorder (.none g.numVars) h
    simp only
    split
    · exact hall
    · exact hall

end Induction

end Renaming

/-! ## Whole graphs -/

namespace FlowGraph

open Renaming
open Definitions hiding none

/-- Renaming changes blocks only. -/
theorem rename_frame (g : FlowGraph) : ∃ blocks, g.rename.1 = { g with blocks := blocks } := by
  refine rename_induction (P := fun g' => ∃ blocks, g' = { g with blocks := blocks }) ?_ ?_ ⟨_, rfl⟩
  · rintro _ tree b defs s ⟨blocks, rfl⟩
    exact ⟨_, rfl⟩
  · rintro _ tree b defs ⟨blocks, rfl⟩
    exact ⟨_, rfl⟩

/-- The definitions of a graph in the order in which its blocks are renamed. -/
def allDefs (g : FlowGraph) (tree : DominatorTree) : List (VersionedVar × Site) :=
  tree.preorder.flatMap g.definitionsIn

/-- The names that renaming gives to the uses and definitions of a graph. -/
def naming (g : FlowGraph) (tree : DominatorTree) : Naming := Definitions.naming tree (g.allDefs tree)

/-- The graph `g'` is `g` where the blocks in `entered` have their names and those in `left` have bound their
slots. -/
structure Named (g : FlowGraph) (N : Naming) (entered left : List BlockId) (g' : FlowGraph) : Prop where
  size : g'.size = g.size
  numVars : g'.numVars = g.numVars
  reachable : g'.reachable = g.reachable
  depths : g'.depths = g.depths
  dominance : g'.dominance = g.dominance
  block : ∀ b, g'.block b = (g.block b).named N entered left b

theorem named_nil (N : Naming) (b : BlockId) (blk : Block) : blk.named N [] [] b = blk := by
  have hphi : Phi.named N [] [] b = id := by
    funext φ
    simp [Phi.named]
  simp [Block.named, hphi]

theorem named_start (g : FlowGraph) (tree : DominatorTree) : Named g (g.naming tree) [] [] g :=
  ⟨rfl, rfl, rfl, rfl, rfl, fun b => (named_nil _ b _).symm⟩

section NamedPhis

variable (N : Naming) (entered left : List BlockId) {b c : BlockId} {φ : Phi}

theorem var_named (hN : ∀ v s, (N.write v s).var = v) : (φ.named N entered left b).var = φ.var := by
  rw [Phi.var, Phi.named]
  dsimp only
  split
  · exact hN _ _
  · rfl

theorem preds_named : (φ.named N entered left b).preds = φ.preds := by
  rw [Phi.preds, Phi.named, List.map_map]
  rfl

/-- Slots of blocks that are left hold the names at the ends of those blocks. -/
theorem incoming?_named {p : BlockId} (hp : p ∈ φ.preds) (hleft : p ∈ left) :
    (φ.named N entered left b).incoming? p = some (N.use φ.var ⟨p, .exit⟩) := by
  have hslots : ∀ slots : List (BlockId × VersionedVar), p ∈ slots.map Prod.fst →
      (slots.map fun (q, w) => (q, if q ∈ left then N.use φ.var ⟨q, .exit⟩ else w)).lookup p =
        some (N.use φ.var ⟨p, .exit⟩) := by
    intro slots
    induction slots with
    | nil => exact nofun
    | cons slot slots ih =>
      obtain ⟨q, w⟩ := slot
      intro hmem
      rw [List.map_cons, List.lookup_cons]
      by_cases hpq : p = q
      · simp [← hpq, hleft]
      · simp only [beq_eq_false_iff_ne.mpr hpq]
        exact ih ((List.mem_cons.mp hmem).resolve_left hpq)
  exact hslots φ.slots hp

/-- Naming block `b` leaves other blocks alone. -/
theorem named_snoc_of_ne (hbc : b ≠ c) (blk : Block) :
    blk.named N (entered ++ [b]) left c = blk.named N entered left c := by
  have hmem : c ∈ entered ++ [b] ↔ c ∈ entered := by simp [Ne.symm hbc]
  have hphi : Phi.named N (entered ++ [b]) left c = Phi.named N entered left c := by
    funext φ
    simp only [Phi.named, hmem]
  simp only [Block.named, hmem, hphi]

/-- Binding the slots of block `b`. -/
theorem bindSlot_named (hN : ∀ v s, (N.write v s).var = v) :
    bindSlot N b (φ.named N entered left c) = φ.named N entered (left ++ [b]) c := by
  have hvar : (φ.named N entered left c).var = φ.var := var_named N entered left hN
  rw [bindSlot, hvar, Phi.named, Phi.named, List.map_map]
  congr 1
  refine List.map_congr_left fun ⟨q, w⟩ _ => ?_
  by_cases hqb : q = b
  · simp [hqb]
  · simp [hqb]

theorem named_left_of_not_mem (hb : b ∉ φ.preds) :
    φ.named N entered (left ++ [b]) c = φ.named N entered left c := by
  rw [Phi.named, Phi.named]
  congr 1
  refine List.map_congr_left fun ⟨q, w⟩ hq => ?_
  have hqb : q ≠ b := fun heq => hb (List.mem_map.mpr ⟨_, hq, heq⟩)
  simp [hqb]

end NamedPhis

/-- Everything that is renamed is a variable of the graph. -/
structure Renamable (g : FlowGraph) (order : List BlockId) (tree : DominatorTree) : Prop
    extends g.Placed order tree where
  instrVars : g.VarsInRange
  jumpVars : ∀ b, Reachable g.Edge entry b → ∀ v ∈ (g.jump b).reads, v < g.numVars

theorem use_naming_var (g : FlowGraph) (tree : DominatorTree) (v : VarId) (s : Site) :
    ((g.naming tree).use v s).var = v := useName_var tree _ v s

theorem write_naming_var (g : FlowGraph) (tree : DominatorTree) (v : VarId) (s : Site) :
    ((g.naming tree).write v s).var = v := defName_var _ v s

theorem block_of_mem_definitionsIn {g : FlowGraph} {p : VersionedVar × Site} {b : BlockId}
    (h : p ∈ g.definitionsIn b) : p.2.block = b := by
  rcases List.mem_append.mp h with h | h
  · obtain ⟨φ, -, rfl⟩ := List.mem_map.mp h
    rfl
  · obtain ⟨j, -, hsite⟩ := mem_defsOf h
    rw [hsite]

namespace Renamable

variable {g : FlowGraph} {order : List BlockId} {tree : DominatorTree} {xs ys : List BlockId}
  {b : BlockId} {g' : FlowGraph} {defs : Definitions}

/-- Definitions of blocks that are visited later do not reach into a block. -/
theorem elsewhere (h : g.Renamable order tree) (hsplit : tree.preorder = xs ++ b :: ys) :
    Elsewhere tree b (ys.flatMap g.definitionsIn) := by
  intro p hp
  obtain ⟨c, hc, hpc⟩ := List.mem_flatMap.mp hp
  have hblock := block_of_mem_definitionsIn hpc
  have hnodup := h.exact.nodup
  rw [hsplit, List.nodup_append, List.nodup_cons] at hnodup
  have hcb : c ≠ b := by
    rintro rfl
    exact hnodup.2.1.1 hc
  refine ⟨by rwa [hblock], fun q => ?_⟩
  rw [← Bool.not_eq_true, h.reaches_iff]
  rintro ⟨-, ⟨heq, -⟩ | hdom⟩
  · exact hcb (hblock ▸ heq)
  · rw [hblock] at hdom
    exact hnodup.2.2 c (h.exact.after hsplit hdom) c (List.mem_cons_of_mem b hc) rfl

theorem allDefs_eq (hsplit : tree.preorder = xs ++ b :: ys) :
    g.allDefs tree =
      xs.flatMap g.definitionsIn ++ (g.definitionsIn b ++ ys.flatMap g.definitionsIn) := by
  rw [allDefs, hsplit, List.flatMap_append, List.flatMap_cons]

/-- However far renaming has got, phis are for distinct variables and have a slot per live
predecessor. -/
theorem phi_named_props (h : g.Renamable order tree) {entered left : List BlockId} {c : BlockId}
    (hg' : Named g (g.naming tree) entered left g') :
    (∀ φ ∈ (g'.block c).phis, φ.var < g.numVars) ∧ ((g'.block c).phis.map Phi.var).Nodup ∧
      ∀ φ ∈ (g'.block c).phis, φ.preds = g.livePredecessors c := by
  rw [hg'.block, Block.named]
  refine ⟨fun φ hφ => ?_, ?_, fun φ hφ => ?_⟩
  · obtain ⟨ψ, hψ, rfl⟩ := List.mem_map.mp hφ
    rw [var_named _ _ _ (g.write_naming_var tree)]
    exact h.var_lt hψ
  · have hvars : ((g.block c).phis.map (Phi.named (g.naming tree) entered left c)).map Phi.var =
        (g.block c).phis.map Phi.var := by
      rw [List.map_map]
      exact List.map_congr_left fun φ _ => var_named _ _ _ (g.write_naming_var tree)
    rw [hvars]
    exact h.phis_nodup c
  · obtain ⟨ψ, hψ, rfl⟩ := List.mem_map.mp hφ
    rw [preds_named]
    exact h.slots hψ

/-- Renaming the contents of a block gives it its names. -/
theorem enter (h : g.Renamable order tree) (hsplit : tree.preorder = xs ++ b :: ys)
    (hg' : Named g (g.naming tree) xs xs g')
    (htracks : Tracks defs g.numVars (xs.flatMap g.definitionsIn)) :
    (∃ defs', contents tree b defs (g'.block b) =
          ⟨(g.block b).named (g.naming tree) (xs ++ [b]) xs b, defs', none⟩ ∧
        Tracks defs' g.numVars (xs.flatMap g.definitionsIn ++ g.definitionsIn b) ∧
        ∀ k v, (g.block b).instrs[k]? = some (.declare v) →
          ((g.naming tree).use v ⟨b, .instr k⟩).version = 0) ∨
      ∃ k v, (g.block b).instrs[k]? = some (.declare v) ∧
        ((g.naming tree).use v ⟨b, .instr k⟩).version ≠ 0 ∧
        (contents tree b defs (g'.block b)).stop = some (.redefinedBeforeDeclaration v b) := by
  have hb : Reachable g.Edge entry b :=
    h.exact.mem_preorder.mp (hsplit ▸ List.mem_append_right xs List.mem_cons_self)
  -- no block is entered twice
  have hfresh : b ∉ xs := by
    have hnodup := h.exact.nodup
    rw [hsplit, List.nodup_append] at hnodup
    exact fun hbx => hnodup.2.2 b hbx b List.mem_cons_self rfl
  have hblock : g'.block b = { g.block b with
      phis := (g.block b).phis.map (Phi.named (g.naming tree) xs xs b) } := by
    rw [hg'.block, Block.named, if_neg hfresh, if_neg hfresh]
  have hdefs : defsOfBlock b (g'.block b) = g.definitionsIn b := by
    rw [defsOfBlock, hblock, defsOfPhis, List.map_map]
    simp [definitionsIn, defsOf, Function.comp_def, Phi.named, hfresh]
  obtain ⟨hvars, hnodup, -⟩ := h.phi_named_props hg' (c := b)
  have hinstrs : ∀ i ∈ (g'.block b).instrs, ∀ v ∈ i.mentions, v < g.numVars := by
    rw [hblock]
    exact h.instrVars b hb
  have hjump : ∀ v ∈ (g'.block b).jump.reads, v < g.numVars := by
    rw [hblock]
    exact h.jumpVars b hb
  have hspec := contents_spec htracks hvars hnodup hinstrs hjump (hdefs ▸ allDefs_eq hsplit)
    (h.elsewhere hsplit)
  rw [hdefs, hblock] at hspec
  rw [hblock]
  rcases hspec with ⟨defs', hrun, htracks', hdecls⟩ | hstop
  · refine .inl ⟨defs', hrun.trans ?_, htracks', hdecls⟩
    have hmem : b ∈ xs ++ [b] := List.mem_append_right xs List.mem_cons_self
    have hphis : ((g.block b).phis.map (Phi.named (g.naming tree) xs xs b)).map (fun φ =>
        { φ with target := (g.naming tree).write φ.var ⟨b, .phi⟩ }) =
        (g.block b).phis.map (Phi.named (g.naming tree) (xs ++ [b]) xs b) := by
      rw [List.map_map]
      refine List.map_congr_left fun φ _ => ?_
      rw [Function.comp_apply, var_named _ _ _ (g.write_naming_var tree), Phi.named, Phi.named, if_pos hmem]
    rw [Block.named, if_pos hmem, if_pos hmem, ← hphis]
    rfl
  · exact .inr hstop

/-- Binding the slots of a block that has its names. -/
theorem leave (h : g.Renamable order tree) (hsplit : tree.preorder = xs ++ b :: ys)
    (hg' : Named g (g.naming tree) (xs ++ [b]) xs g')
    (htracks : Tracks defs g.numVars (xs.flatMap g.definitionsIn ++ g.definitionsIn b)) :
    (successors tree b defs g' (g.targets b)).2 = none ∧
      Named g (g.naming tree) (xs ++ [b]) (xs ++ [b]) (successors tree b defs g' (g.targets b)).1 := by
  have hb : Reachable g.Edge entry b :=
    h.exact.mem_preorder.mp (hsplit ▸ List.mem_append_right xs List.mem_cons_self)
  have hall : g.allDefs tree = (xs.flatMap g.definitionsIn ++ g.definitionsIn b) ++
      ys.flatMap g.definitionsIn := by
    rw [allDefs_eq hsplit, List.append_assoc]
  have hlt : ∀ s ∈ g.targets b, s < g'.size := by
    intro s hs
    rw [hg'.size]
    exact h.edge_lt hs
  -- every phi of a successor has a slot for the block
  have hslots : ∀ s ∈ g.targets b, ∀ φ ∈ (g'.block s).phis, b ∈ φ.preds := by
    intro s hs φ hφ
    rw [(h.phi_named_props hg').2.2 φ hφ]
    exact h.mem_livePredecessors_iff.mpr ⟨hb, hs⟩
  obtain ⟨hstop, honly, hphis⟩ := successors_spec htracks (Jump.nodup_targets (g.jump b)) hlt
    (fun s _ => (h.phi_named_props hg').1) hslots hall (h.elsewhere hsplit)
  refine ⟨hstop, honly.size.trans hg'.size, honly.numVars.trans hg'.numVars,
    honly.reachable.trans hg'.reachable, honly.depths.trans hg'.depths,
    honly.dominance.trans hg'.dominance, fun c => ?_⟩
  obtain ⟨phis, hblock⟩ := honly.block c
  have hphis' := hphis c
  rw [hblock] at hphis'
  change phis = _ at hphis'
  have hnamed : phis = (g.block c).phis.map (Phi.named (g.naming tree) (xs ++ [b]) (xs ++ [b]) c) := by
    rw [hphis', hg'.block, Block.named]
    split
    · rw [List.map_map]
      exact List.map_congr_left fun φ _ => bindSlot_named _ _ _ (g.write_naming_var tree)
    · next hnot =>
      refine List.map_congr_left fun φ hφ => (named_left_of_not_mem _ _ _ fun hpred => hnot ?_).symm
      rw [h.slots hφ, h.mem_livePredecessors_iff] at hpred
      exact hpred.2
  refine hblock.trans ?_
  rw [hnamed, hg'.block]
  rfl

/-- Renaming one block of a graph in which the blocks before it are renamed. -/
theorem visit (h : g.Renamable order tree) (hsplit : tree.preorder = xs ++ b :: ys)
    (hg' : Named g (g.naming tree) xs xs g')
    (htracks : Tracks defs g.numVars (xs.flatMap g.definitionsIn)) :
    (∃ g'' defs', Renaming.visit tree b defs g' = ⟨g'', defs', none⟩ ∧
        Named g (g.naming tree) (xs ++ [b]) (xs ++ [b]) g'' ∧
        Tracks defs' g.numVars ((xs ++ [b]).flatMap g.definitionsIn) ∧
        ∀ k v, (g.block b).instrs[k]? = some (.declare v) →
          ((g.naming tree).use v ⟨b, .instr k⟩).version = 0) ∨
      ∃ k v, (g.block b).instrs[k]? = some (.declare v) ∧
        ((g.naming tree).use v ⟨b, .instr k⟩).version ≠ 0 ∧
        (Renaming.visit tree b defs g').stop = some (.redefinedBeforeDeclaration v b) := by
  have hb : b < g'.size := by
    rw [hg'.size]
    exact h.lt_of_mem (h.mem_iff.mpr (h.exact.mem_preorder.mp
      (hsplit ▸ List.mem_append_right xs List.mem_cons_self)))
  rcases h.enter hsplit hg' htracks with ⟨defs', hrun, htracks', hdecls⟩ | ⟨k, v, hk, hbound, hstop⟩
  · generalize hg2 : g'.modify b (fun _ => (g.block b).named (g.naming tree) (xs ++ [b]) xs b) = g₂
    have hnamed : Named g (g.naming tree) (xs ++ [b]) xs g₂ := by
      rw [← hg2]
      refine ⟨(size_modify _ _ _).trans hg'.size, hg'.numVars, hg'.reachable, hg'.depths, hg'.dominance,
        fun c => ?_⟩
      rw [block_modify]
      by_cases hbc : b = c
      · subst hbc
        rw [if_pos ⟨rfl, hb⟩]
      · rw [if_neg fun hc => hbc hc.1, hg'.block, named_snoc_of_ne _ _ _ hbc]
    -- naming the jump does not move it
    have htargets : g₂.targets b = g.targets b := by
      rw [targets, FlowGraph.jump, hnamed.block, Block.named]
      dsimp only
      split
      · exact Jump.targets_mapOperand _ _
      · rfl
    obtain ⟨hstop, hleft⟩ := h.leave hsplit hnamed htracks'
    refine .inl ⟨_, defs', ?_, hleft, ?_, hdecls⟩
    · rw [Renaming.visit, hrun]
      dsimp only
      rw [hg2, htargets, hstop]
    · rw [List.flatMap_append, List.flatMap_singleton]
      exact htracks'
  · refine .inr ⟨k, v, hk, hbound, ?_⟩
    rw [Renaming.visit]
    dsimp only
    rw [hstop]

/-- Renaming all blocks from some place in the preorder on. -/
theorem visitAll (h : g.Renamable order tree) (hsplit : tree.preorder = xs ++ ys)
    (hg' : Named g (g.naming tree) xs xs g')
    (htracks : Tracks defs g.numVars (xs.flatMap g.definitionsIn)) :
    (∃ g'' defs', Renaming.visitAll tree defs g' ys = ⟨g'', defs', none⟩ ∧
        Named g (g.naming tree) tree.preorder tree.preorder g'' ∧
        Tracks defs' g.numVars (g.allDefs tree) ∧
        ∀ b ∈ ys, ∀ k v, (g.block b).instrs[k]? = some (.declare v) →
          ((g.naming tree).use v ⟨b, .instr k⟩).version = 0) ∨
      ∃ b ∈ ys, ∃ k v, (g.block b).instrs[k]? = some (.declare v) ∧
        ((g.naming tree).use v ⟨b, .instr k⟩).version ≠ 0 ∧
        (Renaming.visitAll tree defs g' ys).stop = some (.redefinedBeforeDeclaration v b) := by
  induction ys generalizing xs g' defs with
  | nil =>
    rw [List.append_nil] at hsplit
    exact .inl ⟨g', defs, rfl, hsplit ▸ hg', by rwa [allDefs, hsplit], fun _ hb => nomatch hb⟩
  | cons b ys ih =>
    rw [Renaming.visitAll]
    rcases h.visit hsplit hg' htracks with ⟨g₁, defs', hrun, hnamed, htracks', hdecls⟩ |
      ⟨k, v, hk, hbound, hstop⟩
    · rw [hrun]
      dsimp only
      rcases ih (by rw [hsplit, List.append_cons]) hnamed htracks' with
        ⟨g'', defs'', hrest, hfinal, htracks'', hdecls'⟩ | ⟨c, hc, k, v, hk, hbound, hstop⟩
      · refine .inl ⟨g'', defs'', hrest, hfinal, htracks'', fun c hc => ?_⟩
        rcases List.mem_cons.mp hc with rfl | hc
        · exact hdecls
        · exact hdecls' c hc
      · exact .inr ⟨c, List.mem_cons_of_mem b hc, k, v, hk, hbound, hstop⟩
    · refine .inr ⟨b, List.mem_cons_self, k, v, hk, hbound, ?_⟩
      rw [hstop]

/-- Renaming names every reachable block, unless a definition reaches a declaration of its variable. -/
theorem rename (h : g.Renamable order tree) :
    (∃ r n, g.rename = (r, .ok n) ∧ Named g (g.naming tree) tree.preorder tree.preorder r ∧
        ∀ v s, g.Declares v s → ((g.naming tree).use v s).version = 0) ∨
      ∃ r v s, g.rename = (r, .error (.redefinedBeforeDeclaration v s.block)) ∧ g.Declares v s ∧
        ((g.naming tree).use v s).version ≠ 0 := by
  obtain ⟨frontiers, hdominance⟩ := h.dominance
  rcases h.visitAll (List.nil_append tree.preorder).symm (named_start g tree) (tracks_none g.numVars) with
    ⟨r, defs', hrun, hnamed, -, hdecls⟩ | ⟨b, hb, k, v, hk, hbound, hstop⟩
  · refine .inl ⟨r, defs'.count, ?_, hnamed, fun v s hs => ?_⟩
    · rw [rename_def, hdominance]
      dsimp only
      rw [hrun]
    · obtain ⟨b, k, rfl⟩ := exists_of_instr? hs.2
      exact hdecls b (h.exact.mem_preorder.mpr hs.1) k v hs.2
  · refine .inr ⟨(Renaming.visitAll tree (.none g.numVars) g tree.preorder).result, v, ⟨b, .instr k⟩, ?_,
      ⟨h.exact.mem_preorder.mp hb, hk⟩, hbound⟩
    rw [rename_def, hdominance]
    dsimp only
    rw [hstop]

/-- Renaming returns the number of all definitions. -/
theorem count_of_rename (h : g.Renamable order tree) {n : Nat} (hrename : g.rename = (g', .ok n)) :
    ∃ defs, Tracks defs g.numVars (g.allDefs tree) ∧ n = defs.count := by
  obtain ⟨frontiers, hdominance⟩ := h.dominance
  rw [rename_def, hdominance] at hrename
  dsimp only at hrename
  rcases h.visitAll (List.nil_append tree.preorder).symm (named_start g tree) (tracks_none g.numVars) with
    ⟨r, defs', hrun, -, htracks, -⟩ | ⟨b, -, k, v, -, -, hstop⟩
  · rw [hrun] at hrename
    cases hrename
    exact ⟨defs', htracks, rfl⟩
  · rw [hstop] at hrename
    cases hrename

end Renamable

end FlowGraph

end SsaFlow
