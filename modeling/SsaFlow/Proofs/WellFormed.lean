-- SUMMARY: Well-formed functions: what a body may hold and where, and tables that unfold to whole trees.
import Mathlib
import SsaFlow.Lowering.Statement

/-!
# Well-formed functions

The rules that a function has to keep are stated over the statements of its tree. `Stmt.outside` lists the
statements of a tree and stays out of the bodies of chosen ones: with no statement chosen it lists all of
them, and what lies outside of every loop or `switch` has no `break` to offer.

A table is grounded if its nodes name nodes of the table and none of them contains itself. The tree of a
grounded table has no absent parts (`Function.Grounded.complete`), so that it is the body that the table
means.
-/

namespace SsaFlow

/-! ## Grounded tables -/

def ExprKind.parts : ExprKind → List ExprId
  | .unary _ operand | .assign _ _ operand => [operand]
  | .binary _ lhs rhs | .comma lhs rhs => [lhs, rhs]
  | .call _ args => args
  | .int _ | .var _ | .step .. | .error => []

def ForInit.exprs {ε : Type} : ForInit ε → List ε
  | .nothing => []
  | .expr e => [e]
  | .decls ds => ds.filterMap Declarator.init

def ForInit.declared {ε : Type} : ForInit ε → List VarId
  | .nothing | .expr _ => []
  | .decls ds => ds.map Declarator.var

def StmtKind.exprs : StmtKind → List ExprId
  | .expr e => [e]
  | .decl ds => ds.filterMap Declarator.init
  | .ifElse cond .. | .whileLoop cond _ | .doWhile _ cond | .switch cond _ => [cond]
  | .forLoop init cond step _ => init.exprs ++ cond.toList ++ step.toList
  | .ret value => value.toList
  | .block _ | .case .. | .default _ | .breakOut | .continueLoop | .goto _ | .label .. | .empty | .error => []

def StmtKind.parts : StmtKind → List StmtId
  | .block body => body
  | .ifElse _ thenBody elseBody => thenBody :: elseBody.toList
  | .whileLoop _ body | .doWhile body _ | .forLoop _ _ _ body | .switch _ body | .case _ body | .default body
  | .label _ body => [body]
  | .expr _ | .decl _ | .breakOut | .continueLoop | .goto _ | .ret _ | .empty | .error => []

namespace Function

def ExprPart (fn : Function) (a b : ExprId) : Prop := ∃ node, fn.exprs[a]? = some node ∧ b ∈ node.kind.parts

def StmtPart (fn : Function) (a b : StmtId) : Prop := ∃ node, fn.stmts[a]? = some node ∧ b ∈ node.kind.parts

/-- The nodes of the tables name nodes of the tables, and none contains itself. -/
structure Grounded (fn : Function) : Prop where
  body_lt : fn.body < fn.stmts.size
  stmt_lt : ∀ {a b : StmtId}, fn.StmtPart a b → b < fn.stmts.size
  expr_lt : ∀ {a b : ExprId}, fn.ExprPart a b → b < fn.exprs.size
  held_lt : ∀ {a : StmtId} {node : StmtNode}, fn.stmts[a]? = some node →
    ∀ e ∈ node.kind.exprs, e < fn.exprs.size
  stmt_acyclic : ∀ a, ¬ Relation.TransGen fn.StmtPart a a
  expr_acyclic : ∀ a, ¬ Relation.TransGen fn.ExprPart a a

end Function

/-! ## The parts of a tree -/

mutual

def Expr.nodes (e : Expr) : List Expr :=
  e :: match e with
    | .unary _ operand | .assign _ _ operand => (operand ()).nodes
    | .binary _ lhs rhs | .comma lhs rhs => (lhs ()).nodes ++ (rhs ()).nodes
    | .call _ args => Expr.nodesAll args
    | .int _ | .var _ | .step .. | .error _ | .absent => []

def Expr.nodesAll : List (Unit → Expr) → List Expr
  | [] => []
  | e :: es => (e ()).nodes ++ Expr.nodesAll es

end

def Expr.parts : Expr → List (Unit → Expr)
  | .unary _ operand | .assign _ _ operand => [operand]
  | .binary _ lhs rhs | .comma lhs rhs => [lhs, rhs]
  | .call _ args => args
  | .int _ | .var _ | .step .. | .error _ | .absent => []

theorem Expr.nodes_eq (e : Expr) : e.nodes = e :: Expr.nodesAll e.parts := by
  cases e <;> simp [Expr.nodes, Expr.nodesAll, Expr.parts]

theorem Expr.mem_nodesAll {x : Expr} {es : List (Unit → Expr)} :
    x ∈ Expr.nodesAll es ↔ ∃ e ∈ es, x ∈ (e ()).nodes := by
  induction es with
  | nil => simp [Expr.nodesAll]
  | cons e es ih => simp [Expr.nodesAll, ih]

def Expr.mention? : Expr → Option VarId
  | .var v | .assign v _ _ | .step v _ => some v
  | _ => none

def Expr.isError : Expr → Bool
  | .error _ => true
  | _ => false

namespace Stmt

def exprs : Stmt → List (Unit → Expr)
  | .expr _ e => [e]
  | .decl _ ds => ds.filterMap Declarator.init
  | .ifThen _ cond _ | .ifElse _ cond _ _ | .whileLoop _ cond _ | .doWhile _ _ cond | .switch _ cond _ => [cond]
  | .forLoop _ init cond step _ => init.exprs ++ cond.toList ++ step.toList
  | .ret _ value => value.toList
  | _ => []

def declared : Stmt → List VarId
  | .decl _ ds => ds.map Declarator.var
  | .forLoop _ init _ _ _ => init.declared
  | _ => []

def isError : Stmt → Bool
  | .error _ => true
  | _ => false

def isBreak : Stmt → Bool
  | .breakOut _ => true
  | _ => false

def isContinue : Stmt → Bool
  | .continueLoop _ => true
  | _ => false

def isLoop : Stmt → Bool
  | .whileLoop .. | .doWhile .. | .forLoop .. => true
  | _ => false

def switchBody? : Stmt → Option (Unit → Stmt)
  | .switch _ _ body => some body
  | _ => none

def isSwitch (s : Stmt) : Bool := s.switchBody?.isSome

/-- Whether a `break` in the body belongs to the statement. -/
def isBreakable (s : Stmt) : Bool := s.isLoop || s.isSwitch

def caseLabel? : Stmt → Option CaseLabel
  | .case _ v _ => some (.value v)
  | .default _ _ => some .default
  | _ => none

def labelName? : Stmt → Option Name
  | .label _ name _ => some name
  | _ => none

def gotoName? : Stmt → Option Name
  | .goto _ name => some name
  | _ => none

mutual

/-- A statement and its parts, in source order, without the parts of statements where `stops` holds. -/
def outside (stops : Stmt → Bool) (s : Stmt) : List Stmt :=
  s :: if stops s then [] else match s with
    | .block _ body => outsideAll stops body
    | .ifThen _ _ body | .whileLoop _ _ body | .doWhile _ body _ | .forLoop _ _ _ _ body | .switch _ _ body
    | .case _ _ body | .default _ body | .label _ _ body => (body ()).outside stops
    | .ifElse _ _ thenBody elseBody => (thenBody ()).outside stops ++ (elseBody ()).outside stops
    | .expr .. | .decl .. | .breakOut _ | .continueLoop _ | .goto .. | .ret .. | .empty _ | .error _
    | .absent => []

def outsideAll (stops : Stmt → Bool) : List (Unit → Stmt) → List Stmt
  | [] => []
  | s :: ss => (s ()).outside stops ++ outsideAll stops ss

end

def parts : Stmt → List (Unit → Stmt)
  | .block _ body => body
  | .ifThen _ _ body | .whileLoop _ _ body | .doWhile _ body _ | .forLoop _ _ _ _ body | .switch _ _ body
  | .case _ _ body | .default _ body | .label _ _ body => [body]
  | .ifElse _ _ thenBody elseBody => [thenBody, elseBody]
  | .expr .. | .decl .. | .breakOut _ | .continueLoop _ | .goto .. | .ret .. | .empty _ | .error _ | .absent => []

theorem outside_eq (stops : Stmt → Bool) (s : Stmt) :
    s.outside stops = s :: if stops s then [] else outsideAll stops s.parts := by
  cases s <;> simp [outside, outsideAll, parts]

theorem mem_outsideAll {stops : Stmt → Bool} {x : Stmt} {ss : List (Unit → Stmt)} :
    x ∈ outsideAll stops ss ↔ ∃ s ∈ ss, x ∈ (s ()).outside stops := by
  induction ss with
  | nil => simp [outsideAll]
  | cons s ss ih => simp [outsideAll, ih]

def nodes (s : Stmt) : List Stmt := s.outside fun _ => false

theorem mem_nodes {s x : Stmt} : x ∈ s.nodes ↔ x = s ∨ ∃ p ∈ s.parts, x ∈ (p ()).nodes := by
  simp [nodes, outside_eq _ s, mem_outsideAll]

theorem self_mem_nodes (s : Stmt) : s ∈ s.nodes := mem_nodes.mpr (.inl rfl)

theorem nodes_of_part {s x : Stmt} {p : Unit → Stmt} (hp : p ∈ s.parts) (hx : x ∈ (p ()).nodes) :
    x ∈ s.nodes := mem_nodes.mpr (.inr ⟨p, hp, hx⟩)

/-- The labels that belong to a `switch` with the given body. -/
def ownCases (s : Stmt) : List CaseLabel := (s.outside isSwitch).filterMap caseLabel?

def labels (s : Stmt) : List Name := s.nodes.filterMap labelName?

def gotos (s : Stmt) : List Name := s.nodes.filterMap gotoName?

end Stmt

/-! ## Well-formed functions -/

namespace Function

/-- The rules for functions, other than that labels have to be defined. -/
@[mk_iff]
structure Legal (fn : Function) : Prop where
  params : ∀ v ∈ fn.params, v < fn.numVars
  declared : ∀ s ∈ fn.tree.nodes, ∀ v ∈ s.declared, v < fn.numVars
  mentioned : ∀ s ∈ fn.tree.nodes, ∀ e ∈ s.exprs, ∀ x ∈ (e ()).nodes, ∀ v ∈ x.mention?, v < fn.numVars
  noErrorExpr : ∀ s ∈ fn.tree.nodes, ∀ e ∈ s.exprs, ∀ x ∈ (e ()).nodes, x.isError = false
  noErrorStmt : ∀ s ∈ fn.tree.nodes, s.isError = false
  /-- Every `break` lies in the body of a loop or `switch`. -/
  breaks : ∀ s ∈ fn.tree.outside Stmt.isBreakable, s.isBreak = false
  /-- Every `continue` lies in the body of a loop. -/
  continues : ∀ s ∈ fn.tree.outside Stmt.isLoop, s.isContinue = false
  /-- Every `case` and `default` lies in the body of a `switch`. -/
  cases : ∀ s ∈ fn.tree.outside Stmt.isSwitch, s.caseLabel? = none
  /-- The labels of a `switch` differ. -/
  switches : ∀ s ∈ fn.tree.nodes, ∀ body ∈ s.switchBody?, (body ()).ownCases.Nodup
  /-- No label is defined twice. -/
  labels : fn.tree.labels.Nodup

/-- The rules for functions. -/
@[mk_iff]
structure WellFormed (fn : Function) : Prop extends fn.Legal where
  gotos : ∀ name ∈ fn.tree.gotos, name ∈ fn.tree.labels

instance (fn : Function) : Decidable fn.Legal := decidable_of_iff' _ (legal_iff fn)

instance (fn : Function) : Decidable fn.WellFormed := decidable_of_iff' _ (wellFormed_iff fn)

end Function

/-! ## Whole trees -/

/-- No part of an expression is absent. -/
def Expr.Complete (e : Expr) : Prop := .absent ∉ e.nodes

/-- No part of a statement is absent, and neither is a part of its expressions. -/
structure Stmt.Complete (s : Stmt) : Prop where
  stmts : .absent ∉ s.nodes
  exprs : ∀ x ∈ s.nodes, ∀ e ∈ x.exprs, (e ()).Complete

/-- In a finite relation without cycles, what follows from the parts one level below holds of all that
is followed to the size of the relation. -/
theorem acyclic_induction {Part : Nat → Nat → Prop} {size : Nat} (hlt : ∀ {a b}, Part a b → b < size)
    (hacyclic : ∀ a, ¬ Relation.TransGen Part a a) {P : Nat → Nat → Prop}
    (hstep : ∀ depth a, a < size → (∀ b, Part a b → P depth b) → P (depth + 1) a)
    {depth a : Nat} (ha : a < size) (hdepth : size ≤ depth) : P depth a := by
  -- the nodes on the way down to `a` differ, so the way is shorter than the table is long
  suffices hpath : ∀ depth (path : List Nat) a, (a :: path).Nodup → (∀ b ∈ a :: path, b < size) →
      (∀ b ∈ path, Relation.TransGen Part b a) → size ≤ path.length + depth → P depth a from
    hpath depth [] a (by simp) (by simpa using ha) (by simp) (by simpa using hdepth)
  intro depth
  induction depth with
  | zero =>
    intro path a hnodup hbound _ hsize
    have hle : (a :: path).length ≤ (List.range size).length :=
      (List.subperm_of_subset hnodup fun b hb => List.mem_range.mpr (hbound b hb)).length_le
    simp at hle
    omega
  | succ depth ih =>
    intro path a hnodup hbound habove hsize
    refine hstep depth a (hbound a List.mem_cons_self) fun b hab => ?_
    have habove' : ∀ c ∈ a :: path, Relation.TransGen Part c b :=
      List.forall_mem_cons.mpr ⟨.single hab, fun c hc => (habove c hc).tail hab⟩
    refine ih (a :: path) b (List.nodup_cons.mpr ⟨fun hb => hacyclic b (habove' b hb), hnodup⟩) ?_ habove' ?_
    · exact List.forall_mem_cons.mpr ⟨hlt hab, hbound⟩
    · simp
      omega

theorem filterMap_init_map {ε δ : Type} (f : ε → δ) (ds : List (Declarator ε)) :
    (ds.map (Declarator.map f)).filterMap Declarator.init = (ds.filterMap Declarator.init).map f := by
  simp only [List.filterMap_map, List.map_filterMap]
  rfl

theorem Expr.complete_iff {e : Expr} : e.Complete ↔ e ≠ .absent ∧ ∀ p ∈ e.parts, (p ()).Complete := by
  simp only [Complete, nodes_eq e, List.mem_cons, mem_nodesAll]
  grind

theorem Stmt.complete_iff {s : Stmt} : s.Complete ↔
    s ≠ .absent ∧ (∀ e ∈ s.exprs, (e ()).Complete) ∧ ∀ p ∈ s.parts, (p ()).Complete := by
  constructor
  · rintro ⟨hstmts, hexprs⟩
    refine ⟨fun heq => hstmts (heq ▸ s.self_mem_nodes), hexprs s s.self_mem_nodes, fun p hp => ?_⟩
    exact ⟨fun hx => hstmts (nodes_of_part hp hx), fun x hx => hexprs x (nodes_of_part hp hx)⟩
  · rintro ⟨hne, hexprs, hparts⟩
    refine ⟨fun hx => ?_, fun x hx => ?_⟩
    · rcases mem_nodes.mp hx with heq | ⟨p, hp, hx⟩
      · exact hne heq.symm
      · exact (hparts p hp).stmts hx
    · rcases mem_nodes.mp hx with rfl | ⟨p, hp, hx⟩
      · exact hexprs
      · exact (hparts p hp).exprs x hx

namespace Function

variable {fn : Function}

theorem exprAt_succ (depth : Nat) {a : ExprId} {node : ExprNode} (hnode : fn.exprs[a]? = some node) :
    fn.exprAt (depth + 1) a ≠ .absent ∧
      (fn.exprAt (depth + 1) a).parts = node.kind.parts.map fun b _ => fn.exprAt depth b := by
  obtain ⟨span, kind⟩ := node
  cases kind <;> simp [exprAt, hnode, Expr.parts, ExprKind.parts]

/-- Unfolding a node one level deeper shows its expressions and its parts. -/
theorem stmtAt_succ (depth : Nat) {a : StmtId} {node : StmtNode} (hnode : fn.stmts[a]? = some node) :
    fn.stmtAt (depth + 1) a ≠ .absent ∧
      (fn.stmtAt (depth + 1) a).exprs = node.kind.exprs.map fn.expr ∧
      (fn.stmtAt (depth + 1) a).parts = node.kind.parts.map fun b _ => fn.stmtAt depth b := by
  obtain ⟨span, kind⟩ := node
  have hinits := filterMap_init_map fn.expr
  cases kind with
  | ifElse cond thenBody elseBody =>
    cases elseBody <;> simp [stmtAt, hnode, Stmt.exprs, StmtKind.exprs, Stmt.parts, StmtKind.parts]
  | forLoop init cond step body =>
    cases init <;> cases cond <;> cases step <;>
      simp [stmtAt, hnode, Stmt.exprs, StmtKind.exprs, Stmt.parts, StmtKind.parts, ForInit.map, ForInit.exprs, hinits]
  | ret value => cases value <;> simp [stmtAt, hnode, Stmt.exprs, StmtKind.exprs, Stmt.parts, StmtKind.parts]
  | _ => simp [stmtAt, hnode, Stmt.exprs, StmtKind.exprs, Stmt.parts, StmtKind.parts, hinits]

/-- In a grounded table every expression unfolds without an absent part. -/
theorem Grounded.complete_expr (h : fn.Grounded) {e : ExprId} (he : e < fn.exprs.size) :
    (fn.expr e ()).Complete := by
  refine acyclic_induction (P := fun depth e => (fn.exprAt depth e).Complete) h.expr_lt h.expr_acyclic ?_ he
    (Nat.le_refl _)
  intro depth a ha hparts
  obtain ⟨node, hnode⟩ : ∃ node, fn.exprs[a]? = some node := ⟨_, Array.getElem?_eq_getElem ha⟩
  obtain ⟨hne, hbelow⟩ := exprAt_succ depth hnode
  refine Expr.complete_iff.mpr ⟨hne, ?_⟩
  rw [hbelow]
  intro p hp
  obtain ⟨b, hb, rfl⟩ := List.mem_map.mp hp
  exact hparts b ⟨node, hnode, hb⟩

/-- The body of a grounded table is whole. -/
theorem Grounded.complete (h : fn.Grounded) : fn.tree.Complete := by
  refine acyclic_induction (P := fun depth s => (fn.stmtAt depth s).Complete) h.stmt_lt h.stmt_acyclic ?_
    h.body_lt (Nat.le_mul_of_pos_left _ (by decide))
  intro depth a ha hparts
  obtain ⟨node, hnode⟩ : ∃ node, fn.stmts[a]? = some node := ⟨_, Array.getElem?_eq_getElem ha⟩
  obtain ⟨hne, hheld, hbelow⟩ := stmtAt_succ depth hnode
  refine Stmt.complete_iff.mpr ⟨hne, ?_, ?_⟩
  · rw [hheld]
    intro e he
    obtain ⟨b, hb, rfl⟩ := List.mem_map.mp he
    exact h.complete_expr (h.held_lt hnode b hb)
  · rw [hbelow]
    intro p hp
    obtain ⟨b, hb, rfl⟩ := List.mem_map.mp hp
    exact hparts b ⟨node, hnode, hb⟩

/-- A table in which every node comes after its parts is grounded. -/
theorem grounded_of_earlier (hbody : fn.body < fn.stmts.size)
    (hstmts : ∀ a (_ : a < fn.stmts.size), (∀ b ∈ fn.stmts[a].kind.parts, b < a) ∧
      ∀ e ∈ fn.stmts[a].kind.exprs, e < fn.exprs.size)
    (hexprs : ∀ a (_ : a < fn.exprs.size), ∀ b ∈ fn.exprs[a].kind.parts, b < a) : fn.Grounded := by
  have hstmt : ∀ {a b}, fn.StmtPart a b → a < fn.stmts.size ∧ b < a := by
    rintro a b ⟨node, hnode, hb⟩
    obtain ⟨ha, rfl⟩ := Array.getElem?_eq_some_iff.mp hnode
    exact ⟨ha, (hstmts a ha).1 b hb⟩
  have hexpr : ∀ {a b}, fn.ExprPart a b → a < fn.exprs.size ∧ b < a := by
    rintro a b ⟨node, hnode, hb⟩
    obtain ⟨ha, rfl⟩ := Array.getElem?_eq_some_iff.mp hnode
    exact ⟨ha, hexprs a ha b hb⟩
  have hirrefl : ∀ {Part : Nat → Nat → Prop}, (∀ {a b}, Part a b → b < a) → ∀ a, ¬ Relation.TransGen Part a a := by
    intro Part hlt a h
    have hdown : ∀ {a b}, Relation.TransGen Part a b → b < a := fun h =>
      Relation.TransGen.trans_induction_on h hlt fun _ _ h h' => Nat.lt_trans h' h
    exact Nat.lt_irrefl a (hdown h)
  refine ⟨hbody, fun h => Nat.lt_trans (hstmt h).2 (hstmt h).1, fun h => Nat.lt_trans (hexpr h).2 (hexpr h).1, ?_,
    hirrefl fun h => (hstmt h).2, hirrefl fun h => (hexpr h).2⟩
  intro a node hnode
  obtain ⟨ha, rfl⟩ := Array.getElem?_eq_some_iff.mp hnode
  exact (hstmts a ha).2

end Function

end SsaFlow
