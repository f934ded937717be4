-- SUMMARY: Expressions and statements as trees, and the tree that a node of a table unfolds to.
import SsaFlow.Source.NodeTable

/-!
# Trees

The meaning of a node table lies in the tree that its body unfolds to. Numbering and sharing of nodes
are gone there; a number that is out of range has become an `absent` part.

A table in which nodes share parts can unfold to a tree that is exponentially larger than the table, and
a table with cycles unfolds without end. The parts of a tree are therefore suspended: a part is unfolded
where it is looked at, and what nobody looks at costs nothing. Unfolding stops at a depth that no walk
over the body gets to unless it would go on forever (`Function.depth`).
-/

namespace SsaFlow

inductive Expr where
  | int (value : Int)
  | var (id : VarId)
  | unary (op : UnaryOp) (operand : Unit → Expr)
  | binary (op : BinaryOp) (lhs rhs : Unit → Expr)
  | assign (target : VarId) (op : Option BinaryOp) (value : Unit → Expr)
  | step (target : VarId) (op : StepOp)
  | call (callee : Name) (args : List (Unit → Expr))
  | comma (first second : Unit → Expr)
  | error (span : Span)
  /-- A part that the table does not hold. -/
  | absent
deriving Inhabited

inductive Stmt where
  | expr (span : Span) (e : Unit → Expr)
  | decl (span : Span) (ds : List (Declarator (Unit → Expr)))
  | block (span : Span) (body : List (Unit → Stmt))
  | ifThen (span : Span) (cond : Unit → Expr) (thenBody : Unit → Stmt)
  | ifElse (span : Span) (cond : Unit → Expr) (thenBody elseBody : Unit → Stmt)
  | whileLoop (span : Span) (cond : Unit → Expr) (body : Unit → Stmt)
  | doWhile (span : Span) (body : Unit → Stmt) (cond : Unit → Expr)
  | forLoop (span : Span) (init : ForInit (Unit → Expr)) (cond step : Option (Unit → Expr))
    (body : Unit → Stmt)
  | switch (span : Span) (scrutinee : Unit → Expr) (body : Unit → Stmt)
  | case (span : Span) (value : Int) (body : Unit → Stmt)
  | default (span : Span) (body : Unit → Stmt)
  | breakOut (span : Span)
  | continueLoop (span : Span)
  | goto (span : Span) (label : Name)
  | label (span : Span) (name : Name) (body : Unit → Stmt)
  | ret (span : Span) (value : Option (Unit → Expr))
  | empty (span : Span)
  | error (span : Span)
  /-- A part that the table does not hold. -/
  | absent
deriving Inhabited

/-- Changes how the initial value of a declarator is given. -/
def Declarator.map {ε δ : Type} (f : ε → δ) (d : Declarator ε) : Declarator δ := ⟨d.var, d.init.map f⟩

/-- Changes how the expressions at the start of a `for` statement are given. -/
def ForInit.map {ε δ : Type} (f : ε → δ) : ForInit ε → ForInit δ
  | .nothing => .nothing
  | .expr e => .expr (f e)
  | .decls ds => .decls (ds.map (Declarator.map f))

namespace Function

/-- The expression that a node unfolds to, followed to the given depth. -/
def exprAt (fn : Function) : (depth : Nat) → ExprId → Expr
  | 0, _ => .absent
  | depth + 1, id =>
    match fn.exprs[id]? with
    | none => .absent
    | some ⟨span, kind⟩ =>
      match kind with
      | .int value => .int value
      | .var v => .var v
      | .unary op operand => .unary op fun _ => fn.exprAt depth operand
      | .binary op lhs rhs => .binary op (fun _ => fn.exprAt depth lhs) (fun _ => fn.exprAt depth rhs)
      | .assign target op value => .assign target op fun _ => fn.exprAt depth value
      | .step target op => .step target op
      | .call callee args => .call callee (args.map fun arg _ => fn.exprAt depth arg)
      | .comma first second => .comma (fun _ => fn.exprAt depth first) (fun _ => fn.exprAt depth second)
      | .error => .error span

/-- The expression that a node unfolds to. Whether an expression can be evaluated depends on the table
alone, so a walk that meets a node a second time on its way down never ends; every other walk stays
within the depth of the table. -/
def expr (fn : Function) (id : ExprId) : Unit → Expr := fun _ => fn.exprAt fn.exprs.size id

/-- The statement that a node unfolds to, followed to the given depth. -/
def stmtAt (fn : Function) : (depth : Nat) → StmtId → Stmt
  | 0, _ => .absent
  | depth + 1, id =>
    match fn.stmts[id]? with
    | none => .absent
    | some ⟨span, kind⟩ =>
      match kind with
      | .expr e => .expr span (fn.expr e)
      | .decl ds => .decl span (ds.map (Declarator.map fn.expr))
      | .block body => .block span (body.map fun s _ => fn.stmtAt depth s)
      | .ifElse cond thenBody none => .ifThen span (fn.expr cond) fun _ => fn.stmtAt depth thenBody
      | .ifElse cond thenBody (some elseBody) =>
        .ifElse span (fn.expr cond) (fun _ => fn.stmtAt depth thenBody)
          (fun _ => fn.stmtAt depth elseBody)
      | .whileLoop cond body => .whileLoop span (fn.expr cond) fun _ => fn.stmtAt depth body
      | .doWhile body cond => .doWhile span (fun _ => fn.stmtAt depth body) (fn.expr cond)
      | .forLoop init cond step body =>
        .forLoop span (init.map fn.expr) (cond.map fn.expr) (step.map fn.expr)
          fun _ => fn.stmtAt depth body
      | .switch scrutinee body => .switch span (fn.expr scrutinee) fun _ => fn.stmtAt depth body
      | .case value body => .case span value fun _ => fn.stmtAt depth body
      | .default body => .default span fun _ => fn.stmtAt depth body
      | .breakOut => .breakOut span
      | .continueLoop => .continueLoop span
      | .goto label => .goto span label
      | .label name body => .label span name fun _ => fn.stmtAt depth body
      | .ret value => .ret span (value.map fn.expr)
      | .empty => .empty span
      | .error => .error span

/-- How deep the body is unfolded. A walk that ends can meet a statement twice on its way down, the
second time only on the way to a label that it has defined already, and once more while the labels of a
`switch` below are gathered. -/
def depth (fn : Function) : Nat := 3 * fn.stmts.size

def tree (fn : Function) : Stmt := fn.stmtAt fn.depth fn.body

end Function

end SsaFlow
