-- SUMMARY: Functions as tables of expression and statement nodes that refer to each other by number.
import SsaFlow.Graph.Value
import SsaFlow.Source.Name
import SsaFlow.Source.Operator
import SsaFlow.Source.Span

/-!
# Node tables

A parsed function arrives as two tables: its expressions and its statements. A node names its parts by
their places in the tables. Nothing is promised about the numbering: a part may stand before or after
the node that names it, several nodes may share a part, a node may contain itself, and a number may be
out of range.
-/

namespace SsaFlow

/-- An expression, by its place in the table. -/
abbrev ExprId := Nat

/-- A statement, by its place in the table. -/
abbrev StmtId := Nat

/-- What an expression node is. -/
inductive ExprKind where
  | int (value : Int)
  | var (id : VarId)
  | unary (op : UnaryOp) (operand : ExprId)
  | binary (op : BinaryOp) (lhs rhs : ExprId)
  /-- Plain assignment, or assignment of the combination with the old value. -/
  | assign (target : VarId) (op : Option BinaryOp) (value : ExprId)
  | step (target : VarId) (op : StepOp)
  | call (callee : Name) (args : List ExprId)
  | comma (first second : ExprId)
  /-- What the parser leaves where it could make no sense of the source. -/
  | error
deriving DecidableEq

structure ExprNode where
  span : Span
  kind : ExprKind
deriving DecidableEq

/-- A declared variable with its initial value; `ε` is how expressions are given. -/
structure Declarator (ε : Type) where
  var : VarId
  init : Option ε
deriving DecidableEq

/-- What a `for` statement starts with. -/
inductive ForInit (ε : Type) where
  | nothing
  | expr (e : ε)
  | decls (ds : List (Declarator ε))
deriving DecidableEq

/-- What a statement node is. -/
inductive StmtKind where
  | expr (e : ExprId)
  | decl (ds : List (Declarator ExprId))
  | block (body : List StmtId)
  | ifElse (cond : ExprId) (thenBody : StmtId) (elseBody : Option StmtId)
  | whileLoop (cond : ExprId) (body : StmtId)
  | doWhile (body : StmtId) (cond : ExprId)
  | forLoop (init : ForInit ExprId) (cond step : Option ExprId) (body : StmtId)
  | switch (scrutinee : ExprId) (body : StmtId)
  | case (value : Int) (body : StmtId)
  | default (body : StmtId)
  | breakOut
  | continueLoop
  | goto (label : Name)
  | label (name : Name) (body : StmtId)
  | ret (value : Option ExprId)
  | empty
  | error
deriving DecidableEq

structure StmtNode where
  span : Span
  kind : StmtKind
deriving DecidableEq

/-- A parsed function. -/
structure Function where
  name : Name
  params : List VarId
  /-- Size of the variable table. -/
  numVars : Nat
  body : StmtId
  span : Span
  exprs : Array ExprNode
  stmts : Array StmtNode
deriving DecidableEq

end SsaFlow
