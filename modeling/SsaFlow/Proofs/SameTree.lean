-- SUMMARY: Nodes of two tables that stand for the same source unfold to the same tree, however they are numbered.
import Mathlib
import SsaFlow.Proofs.WellFormed

/-!
# Tables of the same tree

Two nodes stand for the same source if they have the same place in the source, the same shape, and parts that stand
for the same source one by one (`SameExpr`, `SameStmt`). The nodes may be of different tables, and neither their
numbers nor what else names them matters. Followed equally deep, such nodes unfold to the same tree. How deep a
table is followed depends on its size; in a grounded table that makes no difference, since nothing is left to
unfold beyond the size of the table (`Grounded.exprAt_of_le`, `Grounded.stmtAt_of_le`).
-/

namespace SsaFlow

/-! ## Nodes that stand for the same source -/

/-- The kind of an expression without the numbers of its parts. -/
def ExprKind.shape : ExprKind → ExprKind
  | .unary op _ => .unary op 0
  | .binary op _ _ => .binary op 0 0
  | .assign target op _ => .assign target op 0
  | .call callee args => .call callee (args.map fun _ => 0)
  | .comma _ _ => .comma 0 0
  | .int value => .int value
  | .var id => .var id
  | .step target op => .step target op
  | .error => .error

/-- The kind of a statement without the numbers of its parts. -/
def StmtKind.shape : StmtKind → StmtKind
  | .expr _ => .expr 0
  | .decl ds => .decl (ds.map (Declarator.map fun _ => 0))
  | .block body => .block (body.map fun _ => 0)
  | .ifElse _ _ elseBody => .ifElse 0 0 (elseBody.map fun _ => 0)
  | .whileLoop _ _ => .whileLoop 0 0
  | .doWhile _ _ => .doWhile 0 0
  | .forLoop init cond step _ =>
    .forLoop (init.map fun _ => 0) (cond.map fun _ => 0) (step.map fun _ => 0) 0
  | .switch _ _ => .switch 0 0
  | .case value _ => .case value 0
  | .default _ => .default 0
  | .breakOut => .breakOut
  | .continueLoop => .continueLoop
  | .goto target => .goto target
  | .label name _ => .label name 0
  | .ret value => .ret (value.map fun _ => 0)
  | .empty => .empty
  | .error => .error

/-- Expressions of two tables stand for the same source. -/
inductive SameExpr (fn fn' : Function) : ExprId → ExprId → Prop
  | node {a a' : ExprId} {node node' : ExprNode} : fn.exprs[a]? = some node → fn'.exprs[a']? = some node' →
      node.span = node'.span → node.kind.shape = node'.kind.shape →
      List.Forall₂ (SameExpr fn fn') node.kind.parts node'.kind.parts → SameExpr fn fn' a a'

/-- Statements of two tables stand for the same source. -/
inductive SameStmt (fn fn' : Function) : StmtId → StmtId → Prop
  | node {a a' : StmtId} {node node' : StmtNode} : fn.stmts[a]? = some node → fn'.stmts[a']? = some node' →
      node.span = node'.span → node.kind.shape = node'.kind.shape →
      List.Forall₂ (SameExpr fn fn') node.kind.exprs node'.kind.exprs →
      List.Forall₂ (SameStmt fn fn') node.kind.parts node'.kind.parts → SameStmt fn fn' a a'

/-! ## One level -/

theorem ForInit.exprs_map {ε δ : Type} (f : ε → δ) (init : ForInit ε) : (init.map f).exprs = init.exprs.map f := by
  cases init with
  | nothing | expr e => rfl
  | decls ds => exact filterMap_init_map f ds

section Filled

variable {δ : Type} {f f' : Nat → δ}

/-- Options of one shape are equal once what they hold is. -/
theorem Option.map_eq_of_shape {x y : Option Nat} (hshape : x.map (fun _ => 0) = y.map fun _ => 0)
    (hheld : x.toList.map f = y.toList.map f') : x.map f = y.map f' := by
  cases x <;> cases y <;> simp_all

/-- Declarators of one shape are the same once their initial values are. -/
theorem Declarator.map_eq_of_shape {ds ds' : List (Declarator Nat)}
    (hshape : ds.map (Declarator.map fun _ => 0) = ds'.map (Declarator.map fun _ => 0))
    (hheld : (ds.filterMap Declarator.init).map f = (ds'.filterMap Declarator.init).map f') :
    ds.map (Declarator.map f) = ds'.map (Declarator.map f') := by
  induction ds generalizing ds' with
  | nil =>
    cases ds' with
    | nil => rfl
    | cons => cases hshape
  | cons d ds ih =>
    cases ds' with
    | nil => cases hshape
    | cons d' ds' =>
      obtain ⟨v, init⟩ := d
      obtain ⟨v', init'⟩ := d'
      obtain ⟨hd, hds⟩ := List.cons.inj hshape
      rcases init with _ | e <;> rcases init' with _ | e'
      · cases hd
        exact congrArg _ (ih hds hheld)
      · cases hd
      · cases hd
      · cases hd
        obtain ⟨he, hrest⟩ := List.cons.inj hheld
        simp only [List.map_cons, Declarator.map, Option.map_some, he, ih hds hrest]

theorem ForInit.map_eq_of_shape {x y : ForInit Nat} (hshape : x.map (fun _ => 0) = y.map fun _ => 0)
    (hheld : x.exprs.map f = y.exprs.map f') : x.map f = y.map f' := by
  cases x <;> cases y <;> simp_all [ForInit.map, ForInit.exprs]
  exact Declarator.map_eq_of_shape hshape hheld

end Filled

namespace Function

variable {fn fn' : Function} {depth depth' : Nat}

/-- Expressions of one shape unfold to the same tree if their parts do. -/
theorem exprAt_congr {a a' : ExprId} {node node' : ExprNode} (hnode : fn.exprs[a]? = some node)
    (hnode' : fn'.exprs[a']? = some node') (hspan : node.span = node'.span)
    (hshape : node.kind.shape = node'.kind.shape)
    (hparts : (node.kind.parts.map fun b (_ : Unit) => fn.exprAt depth b) =
      node'.kind.parts.map fun b _ => fn'.exprAt depth' b) :
    fn.exprAt (depth + 1) a = fn'.exprAt (depth' + 1) a' := by
  obtain ⟨span, kind⟩ := node
  obtain ⟨span', kind'⟩ := node'
  obtain rfl : span = span' := hspan
  cases kind <;> cases kind' <;> simp_all [ExprKind.shape, ExprKind.parts, exprAt]

/-- Statements of one shape unfold to the same tree if their parts do. -/
theorem stmtAt_congr {a a' : StmtId} {node node' : StmtNode} (hnode : fn.stmts[a]? = some node)
    (hnode' : fn'.stmts[a']? = some node') (hspan : node.span = node'.span)
    (hshape : node.kind.shape = node'.kind.shape)
    (hexprs : node.kind.exprs.map fn.expr = node'.kind.exprs.map fn'.expr)
    (hparts : (node.kind.parts.map fun b (_ : Unit) => fn.stmtAt depth b) =
      node'.kind.parts.map fun b _ => fn'.stmtAt depth' b) :
    fn.stmtAt (depth + 1) a = fn'.stmtAt (depth' + 1) a' := by
  obtain ⟨span, kind⟩ := node
  obtain ⟨span', kind'⟩ := node'
  obtain rfl : span = span' := hspan
  cases kind with
  | decl ds =>
    cases kind' with
    | decl ds' =>
      have hds := Declarator.map_eq_of_shape (StmtKind.decl.inj hshape) hexprs
      simp only [stmtAt, hnode, hnode', hds]
    | _ => cases hshape
  | ifElse cond thenBody elseBody =>
    cases kind' with
    | ifElse cond' thenBody' elseBody' =>
      obtain ⟨-, -, helse⟩ := StmtKind.ifElse.inj hshape
      cases elseBody <;> cases elseBody' <;> simp_all [StmtKind.parts, StmtKind.exprs, stmtAt]
    | _ => cases hshape
  | forLoop init cond step body =>
    cases kind' with
    | forLoop init' cond' step' body' =>
      obtain ⟨hinit, hcond, hstep, -⟩ := StmtKind.forLoop.inj hshape
      -- equal shapes make the three stretches of the list equally long
      have hinits := congrArg (List.length ∘ ForInit.exprs) hinit
      have hconds := congrArg (List.length ∘ Option.toList) hcond
      simp only [Function.comp_apply, ForInit.exprs_map, List.length_map, Option.toList_map] at hinits hconds
      simp only [StmtKind.exprs, List.append_assoc, List.map_append] at hexprs
      obtain ⟨hexprs₁, hexprs⟩ := List.append_inj hexprs (by simp only [List.length_map, hinits])
      obtain ⟨hexprs₂, hexprs₃⟩ := List.append_inj hexprs (by simp only [List.length_map, hconds])
      have hbody := List.singleton_inj.mp hparts
      simp only [stmtAt, hnode, hnode', ForInit.map_eq_of_shape hinit hexprs₁, Option.map_eq_of_shape hcond hexprs₂,
        Option.map_eq_of_shape hstep hexprs₃, hbody]
    | _ => cases hshape
  | ret value =>
    cases kind' with
    | ret value' =>
      have hvalue := Option.map_eq_of_shape (StmtKind.ret.inj hshape) hexprs
      simp only [stmtAt, hnode, hnode', hvalue]
    | _ => cases hshape
  | _ =>
    cases kind' <;> simp_all [StmtKind.shape, StmtKind.parts, StmtKind.exprs, stmtAt]

/-! ## Whole trees -/

/-- Beyond the size of a grounded table, an expression is unfolded whole. -/
theorem Grounded.exprAt_of_le (h : fn.Grounded) {e : ExprId} (he : e < fn.exprs.size) (hdepth : fn.exprs.size ≤ depth) :
    fn.exprAt depth e = fn.expr e () := by
  obtain ⟨more, rfl⟩ := Nat.exists_eq_add_of_le hdepth
  refine acyclic_induction (P := fun depth e => ∀ more, fn.exprAt (depth + more) e = fn.exprAt depth e)
    h.expr_lt h.expr_acyclic ?_ he (Nat.le_refl _) more
  intro depth a ha hparts more
  have hnode := Array.getElem?_eq_getElem ha
  rw [Nat.add_right_comm]
  refine exprAt_congr hnode hnode rfl rfl (List.map_congr_left fun b hb => ?_)
  rw [hparts b ⟨_, hnode, hb⟩ more]

/-- Beyond the size of a grounded table, a statement is unfolded whole. -/
theorem Grounded.stmtAt_of_le (h : fn.Grounded) {s : StmtId} (hs : s < fn.stmts.size) (hdepth : fn.stmts.size ≤ depth) :
    fn.stmtAt depth s = fn.stmtAt fn.stmts.size s := by
  obtain ⟨more, rfl⟩ := Nat.exists_eq_add_of_le hdepth
  refine acyclic_induction (P := fun depth s => ∀ more, fn.stmtAt (depth + more) s = fn.stmtAt depth s)
    h.stmt_lt h.stmt_acyclic ?_ hs (Nat.le_refl _) more
  intro depth a ha hparts more
  have hnode := Array.getElem?_eq_getElem ha
  rw [Nat.add_right_comm]
  refine stmtAt_congr hnode hnode rfl rfl rfl (List.map_congr_left fun b hb => ?_)
  rw [hparts b ⟨_, hnode, hb⟩ more]

end Function

theorem map_eq_of_forall₂ {α β γ : Type} {R : α → β → Prop} {f : α → γ} {f' : β → γ} {xs : List α} {ys : List β}
    (h : List.Forall₂ R xs ys) (hR : ∀ {x y}, R x y → f x = f' y) : xs.map f = ys.map f' := by
  induction h with
  | nil => rfl
  | cons hxy _ ih => rw [List.map_cons, List.map_cons, hR hxy, ih]

section SameTree

variable {fn fn' : Function}

/-- Expressions that stand for the same source unfold to the same tree. -/
theorem SameExpr.exprAt_eq {a a' : ExprId} (h : SameExpr fn fn' a a') (depth : Nat) :
    fn.exprAt depth a = fn'.exprAt depth a' := by
  induction depth generalizing a a' with
  | zero => rfl
  | succ depth ih =>
    obtain ⟨hnode, hnode', hspan, hshape, hparts⟩ := h
    exact Function.exprAt_congr hnode hnode' hspan hshape
      (map_eq_of_forall₂ hparts fun hpart => funext fun _ => ih hpart)

theorem SameExpr.lt {a a' : ExprId} (h : SameExpr fn fn' a a') : a < fn.exprs.size ∧ a' < fn'.exprs.size := by
  obtain ⟨hnode, hnode', -⟩ := h
  exact ⟨(Array.getElem?_eq_some_iff.mp hnode).1, (Array.getElem?_eq_some_iff.mp hnode').1⟩

theorem SameStmt.lt {a a' : StmtId} (h : SameStmt fn fn' a a') : a < fn.stmts.size ∧ a' < fn'.stmts.size := by
  obtain ⟨hnode, hnode', -⟩ := h
  exact ⟨(Array.getElem?_eq_some_iff.mp hnode).1, (Array.getElem?_eq_some_iff.mp hnode').1⟩

variable (hfn : fn.Grounded) (hfn' : fn'.Grounded)

include hfn hfn'

theorem SameExpr.expr_eq {a a' : ExprId} (h : SameExpr fn fn' a a') : fn.expr a = fn'.expr a' := by
  funext _
  rw [← hfn.exprAt_of_le h.lt.1 (Nat.le_max_left _ fn'.exprs.size),
    ← hfn'.exprAt_of_le h.lt.2 (Nat.le_max_right fn.exprs.size _), h.exprAt_eq]

/-- Statements that stand for the same source unfold to the same tree. -/
theorem SameStmt.stmtAt_eq {a a' : StmtId} (h : SameStmt fn fn' a a') (depth : Nat) :
    fn.stmtAt depth a = fn'.stmtAt depth a' := by
  induction depth generalizing a a' with
  | zero => rfl
  | succ depth ih =>
    obtain ⟨hnode, hnode', hspan, hshape, hexprs, hparts⟩ := h
    exact Function.stmtAt_congr hnode hnode' hspan hshape
      (map_eq_of_forall₂ hexprs fun hexpr => hexpr.expr_eq hfn hfn')
      (map_eq_of_forall₂ hparts fun hpart => funext fun _ => ih hpart)

/-- Bodies that stand for the same source are the same tree. -/
theorem SameStmt.tree_eq (h : SameStmt fn fn' fn.body fn'.body) : fn.tree = fn'.tree := by
  have hdepth : fn.stmts.size ≤ fn.depth := Nat.le_mul_of_pos_left _ (by decide)
  have hdepth' : fn'.stmts.size ≤ fn'.depth := Nat.le_mul_of_pos_left _ (by decide)
  rw [Function.tree, Function.tree, hfn.stmtAt_of_le h.lt.1 hdepth, hfn'.stmtAt_of_le h.lt.2 hdepth',
    ← hfn.stmtAt_of_le h.lt.1 (Nat.le_max_left _ fn'.stmts.size),
    ← hfn'.stmtAt_of_le h.lt.2 (Nat.le_max_right fn.stmts.size _), h.stmtAt_eq hfn hfn']

end SameTree

end SsaFlow
