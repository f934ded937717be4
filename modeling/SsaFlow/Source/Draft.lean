-- SUMMARY: Building a function node by node, with synthetic spans and interned names.
import SsaFlow.Source.NameTable
import SsaFlow.Source.NodeTable

/-!
# Drafts

A draft is a function under construction. Every variable and every node gets a span of its own: spans
are one offset long, and each starts two offsets after the one before.
-/

namespace SsaFlow

structure Variable where
  name : Name
  span : Span
deriving DecidableEq

/-- A function under construction. -/
structure Draft where
  names : NameTable
  name : Name
  exprs : Array ExprNode := #[]
  stmts : Array StmtNode := #[]
  vars : Array Variable := #[]
  params : Array VarId := #[]
  /-- Where the next span starts. -/
  cursor : Nat := 0

namespace Draft

def start (names : NameTable) (name : String) : Draft :=
  let (n, names) := names.intern name
  { names := names, name := n }

def freshSpan (d : Draft) : Span := ⟨d.cursor, d.cursor + 1⟩

def advance (d : Draft) : Draft := { d with cursor := d.cursor + 2 }

def intern (d : Draft) (s : String) : Name × Draft :=
  let (n, names) := d.names.intern s
  (n, { d with names := names })

def addLocal (d : Draft) (name : String) : VarId × Draft :=
  let span := d.freshSpan
  let (n, d) := d.advance.intern name
  (d.vars.size, { d with vars := d.vars.push ⟨n, span⟩ })

def addParam (d : Draft) (name : String) : VarId × Draft :=
  let (v, d) := d.addLocal name
  (v, { d with params := d.params.push v })

def addExpr (d : Draft) (kind : ExprKind) : ExprId × Draft :=
  (d.exprs.size, { d.advance with exprs := d.exprs.push ⟨d.freshSpan, kind⟩ })

def addCall (d : Draft) (callee : String) (args : List ExprId) : ExprId × Draft :=
  let (n, d) := d.intern callee
  d.addExpr (.call n args)

def addStmt (d : Draft) (kind : StmtKind) : StmtId × Draft :=
  (d.stmts.size, { d.advance with stmts := d.stmts.push ⟨d.freshSpan, kind⟩ })

def addGoto (d : Draft) (label : String) : StmtId × Draft :=
  let (n, d) := d.intern label
  d.addStmt (.goto n)

def addLabel (d : Draft) (label : String) (body : StmtId) : StmtId × Draft :=
  let (n, d) := d.intern label
  d.addStmt (.label n body)

def stmtSpan? (d : Draft) (id : StmtId) : Option Span := d.stmts[id]?.map StmtNode.span

def varName? (d : Draft) (var : VarId) : Option String := d.vars[var]?.map fun v => d.names.lookup v.name

/-- The finished function, with the next span as its own. -/
def finish (d : Draft) (body : StmtId) : Function where
  name := d.name
  params := d.params.toList
  numVars := d.vars.size
  body := body
  span := d.freshSpan
  exprs := d.exprs
  stmts := d.stmts

end Draft

end SsaFlow
