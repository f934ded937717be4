-- SUMMARY: Lowering a function to a flow graph, statement by statement.
import SsaFlow.Graph.Edge
import SsaFlow.Lowering.Flatten

/-!
# Lowering statements

Every statement is lowered into an open block, and the result is the open block where control goes on
afterwards. Statements that always leave hand on a shadow block, which takes in whatever follows them.

The scope of a statement tells where `break` and `continue` go and which blocks belong to the labels of
the innermost `switch`. Labels of `goto` are known in the whole function; the block of a label is made
when the label is first mentioned.
-/

namespace SsaFlow

/-- A label of a `switch`. -/
inductive CaseLabel where
  | value (v : Int)
  | default
deriving DecidableEq

/-- Where the jumps inside a statement go. -/
structure Scope where
  breakTo : Option BlockId := none
  continueTo : Option BlockId := none
  /-- The blocks of the labels of the innermost `switch`. -/
  cases : List (CaseLabel × BlockId) := []

namespace Scope

def loop (s : Scope) (breakTo continueTo : BlockId) : Scope :=
  { s with breakTo := some breakTo, continueTo := some continueTo }

/-- The scope of the body of a `switch`; `continue` still belongs to the loop around it. -/
def switch (s : Scope) (breakTo : BlockId) (cases : List (CaseLabel × BlockId)) : Scope :=
  { s with breakTo := some breakTo, cases := cases }

end Scope

/-- The graph under construction. -/
structure LoweringState where
  graph : FlowGraph
  /-- Number of temporaries in use. -/
  temps : Nat := 0
  /-- The blocks of the labels mentioned so far. -/
  labels : List (Name × BlockId) := []
  /-- The labels defined so far. -/
  defined : List Name := []

/-- A step of lowering. -/
abbrev Lowering := StateT LoweringState (Except BuildError)

namespace Lowering

def fail {α : Type} (e : InternalError) : Lowering α := throw (.internal e)

def newBlock : Lowering BlockId :=
  modifyGet fun s => (s.graph.size, { s with graph := s.graph.addBlock })

/-- Ends an open block. -/
def close (b : BlockId) (j : Jump) : Lowering Unit := fun s =>
  if (s.graph.jump b).isMissing then .ok ((), { s with graph := s.graph.setJump b j })
  else .error (.closedTwice b)

def numVars : Lowering Nat := return (← get).graph.numVars

def temps : Lowering Nat := return (← get).temps

/-- Adds instructions to a block. -/
def append (b : BlockId) (instrs : Array Instr) : Lowering Unit :=
  modify fun s => { s with
    graph := s.graph.modify b fun blk => { blk with instrs := blk.instrs ++ instrs } }

def beginStmt (b : BlockId) (span : Span) : Lowering Unit :=
  modify fun s => { s with
    graph := s.graph.modify b fun blk => { blk with spans := blk.spans.push span } }

/-- Adds the instructions of an expression to a block and returns the operand with its value. -/
def compute (b : BlockId) (e : Unit → Expr) : Lowering Operand := do
  let ⟨instrs, value, temps⟩ ← (e ()).flatten (← numVars) (← temps)
  modify fun s => { s with temps := temps }
  append b instrs
  return value

/-- Adds the instructions of an optional expression. -/
def computeOption (b : BlockId) : Option (Unit → Expr) → Lowering (Option Operand)
  | none => return none
  | some e => do
    let op ← compute b e
    return some op

/-- Adds the declarations of variables and their initial values. -/
def declareAll (b : BlockId) : List (Declarator (Unit → Expr)) → Lowering Unit
  | [] => return ()
  | d :: ds => do
    let v ← variableRef (← numVars) d.var
    append b #[.declare d.var]
    match d.init with
    | none => pure ()
    | some e =>
      let value ← compute b e
      append b #[.assign v value]
    declareAll b ds

/-- Adds what a `for` statement starts with. -/
def startFor (b : BlockId) : ForInit (Unit → Expr) → Lowering Unit
  | .nothing => return ()
  | .expr e => do
    let _ ← compute b e
    return ()
  | .decls ds => declareAll b ds

/-- The block of a label, made when it is first asked for. -/
def blockOfLabel (name : Name) : Lowering BlockId := do
  let s ← get
  match s.labels.lookup name with
  | some b => return b
  | none =>
    let b ← newBlock
    modify fun s => { s with labels := (name, b) :: s.labels }
    return b

/-- Ends a block with an always-taken jump and returns the shadow that takes in what follows. -/
def leaveFor (b target : BlockId) : Lowering BlockId := do
  let shadow ← newBlock
  close b (.transfer target shadow)
  return shadow

/-- Marks a label as defined, once. -/
def defineLabel (name : Name) (span : Span) : Lowering Unit := do
  let s ← get
  if s.defined.contains name then fail (.duplicateLabel name span)
  else set { s with defined := name :: s.defined }

/-! ## Labels of a switch -/

mutual

/-- The `case` and `default` labels that belong to a `switch` with the given body, in source order.
Labels inside a nested `switch` belong to that one. -/
def ownLabels : Stmt → Except BuildError (List (CaseLabel × Span))
  | .case span value body => do
    let rest ← ownLabels (body ())
    return (.value value, span) :: rest
  | .default span body => do
    let rest ← ownLabels (body ())
    return (.default, span) :: rest
  | .block _ body => ownLabelsAll body
  | .ifThen _ _ thenBody => ownLabels (thenBody ())
  | .ifElse _ _ thenBody elseBody => do
    let l ← ownLabels (thenBody ())
    let r ← ownLabels (elseBody ())
    return l ++ r
  | .whileLoop _ _ body | .doWhile _ body _ | .forLoop _ _ _ _ body | .label _ _ body =>
    ownLabels (body ())
  | .absent => .error .absentNode
  | .expr .. | .decl .. | .switch .. | .breakOut _ | .continueLoop _ | .goto .. | .ret .. | .empty _
  | .error _ => .ok []

def ownLabelsAll : List (Unit → Stmt) → Except BuildError (List (CaseLabel × Span))
  | [] => .ok []
  | s :: ss => do
    let l ← ownLabels (s ())
    let r ← ownLabelsAll ss
    return l ++ r

end

/-- The complaint about a label that a `switch` has already. -/
def repeatedLabel (span : Span) : CaseLabel → InternalError
  | .value v => .duplicateCase v span
  | .default => .malformed (.secondDefault span)

/-- Makes a block for each label, in order; `cases` holds those made so far, the latest first. -/
def openCases (cases : List (CaseLabel × BlockId)) :
    List (CaseLabel × Span) → Lowering (List (CaseLabel × BlockId))
  | [] => return cases.reverse
  | (label, span) :: rest => do
    let target ← newBlock
    if cases.any fun c => c.1 == label then fail (repeatedLabel span label)
    else openCases ((label, target) :: cases) rest

def caseOptions (cases : List (CaseLabel × BlockId)) : List (Int × BlockId) :=
  cases.filterMap fun
    | (.value v, b) => some (v, b)
    | (.default, _) => none

/-! ## Statements -/

def caseTarget (scope : Scope) (span : Span) (label : CaseLabel) : Lowering BlockId :=
  match scope.cases.lookup label with
  | some target => return target
  | none => fail (.caseOutsideSwitch span)

/-- The target of a jump, or the complaint that there is none. -/
def targetOr (e : InternalError) : Option BlockId → Lowering BlockId
  | some target => return target
  | none => fail e

mutual

/-- Lowers a statement into an open block; returns the open block where control goes on. -/
def lower (scope : Scope) (block : BlockId) : Stmt → Lowering BlockId
  | .expr span e => do
    beginStmt block span
    let _ ← compute block e
    return block
  | .decl span ds => do
    beginStmt block span
    declareAll block ds
    return block
  | .block _ body => lowerAll scope block body
  | .ifThen span cond thenBody => do
    beginStmt block span
    let c ← compute block cond
    let thenBlock ← newBlock
    let merge ← newBlock
    close block (.branch c thenBlock merge)
    let thenExit ← lower scope thenBlock (thenBody ())
    close thenExit (.goto merge)
    return merge
  | .ifElse span cond thenBody elseBody => do
    beginStmt block span
    let c ← compute block cond
    let thenBlock ← newBlock
    let merge ← newBlock
    let elseBlock ← newBlock
    close block (.branch c thenBlock elseBlock)
    let thenExit ← lower scope thenBlock (thenBody ())
    close thenExit (.goto merge)
    let elseExit ← lower scope elseBlock (elseBody ())
    close elseExit (.goto merge)
    return merge
  | .whileLoop span cond body => do
    beginStmt block span
    let header ← newBlock
    close block (.goto header)
    let c ← compute header cond
    let bodyBlock ← newBlock
    let after ← newBlock
    let bodyExit ← lower (scope.loop after header) bodyBlock (body ())
    close bodyExit (.goto header)
    close header (.branch c bodyBlock after)
    return after
  | .doWhile span body cond => do
    beginStmt block span
    let bodyBlock ← newBlock
    close block (.goto bodyBlock)
    let condBlock ← newBlock
    let after ← newBlock
    let bodyExit ← lower (scope.loop after condBlock) bodyBlock (body ())
    close bodyExit (.goto condBlock)
    let c ← compute condBlock cond
    close condBlock (.branch c bodyBlock after)
    return after
  | .forLoop span init cond step body => do
    beginStmt block span
    startFor block init
    let header ← newBlock
    close block (.goto header)
    let c ← computeOption header cond
    let bodyBlock ← newBlock
    let after ← newBlock
    let latch ← if step.isSome then newBlock else pure header
    let bodyExit ← lower (scope.loop after latch) bodyBlock (body ())
    close bodyExit (.goto latch)
    match step with
    | none => pure ()
    | some e =>
      let _ ← compute latch e
      close latch (.goto header)
    match c with
    | none => close header (.goto bodyBlock)
    | some c => close header (.branch c bodyBlock after)
    return after
  | .switch span scrutinee body => do
    beginStmt block span
    let value ← compute block scrutinee
    let after ← newBlock
    let labels ← ownLabels (body ())
    let cases ← openCases [] labels
    close block (.select value (caseOptions cases) ((cases.lookup .default).getD after))
    let head ← newBlock
    let bodyExit ← lower (scope.switch after cases) head (body ())
    close bodyExit (.goto after)
    return after
  | .case span value body => do
    let target ← caseTarget scope span (.value value)
    close block (.goto target)
    lower scope target (body ())
  | .default span body => do
    let target ← caseTarget scope span .default
    close block (.goto target)
    lower scope target (body ())
  | .breakOut span => do
    beginStmt block span
    let target ← targetOr (.breakOutsideLoop span) scope.breakTo
    leaveFor block target
  | .continueLoop span => do
    beginStmt block span
    let target ← targetOr (.continueOutsideLoop span) scope.continueTo
    leaveFor block target
  | .goto span label => do
    beginStmt block span
    let target ← blockOfLabel label
    leaveFor block target
  | .label span name body => do
    defineLabel name span
    let target ← blockOfLabel name
    close block (.goto target)
    lower scope target (body ())
  | .ret span value => do
    beginStmt block span
    let v ← computeOption block value
    let shadow ← newBlock
    close block (.ret shadow v)
    return shadow
  | .empty _ => return block
  | .error span => fail (.errorNode span)
  | .absent => throw .absentNode

def lowerAll (scope : Scope) (block : BlockId) : List (Unit → Stmt) → Lowering BlockId
  | [] => return block
  | s :: ss => do
    let next ← lower scope block (s ())
    lowerAll scope next ss

end

/-- Binds the parameters at the start of the entry, from the given position on. -/
def bindParams (index : Nat) : List VarId → Lowering Unit
  | [] => return ()
  | p :: ps => do
    let v ← variableRef (← numVars) p
    append FlowGraph.entry #[.param v index]
    bindParams (index + 1) ps

/-- Lowers a function body. Falling off its end returns without a value; the shadow of that jump is a
sink that leads to itself, so that no block is left open. -/
def lowerBody (params : List VarId) (body : Stmt) : Lowering Unit := do
  bindParams 0 params
  let exit ← lower {} FlowGraph.entry body
  let sink ← newBlock
  close sink (.ret sink none)
  close exit (.ret sink none)

end Lowering

/-- The flow graph of a function body. Only a label that is never defined leaves a block open. -/
def lowerTree (numVars : Nat) (params : List VarId) (body : Stmt) : Except BuildError FlowGraph :=
  match (Lowering.lowerBody params body).run { graph := .new numVars } with
  | .error e => .error e
  | .ok (_, s) =>
    match s.graph.ids.find? fun b => (s.graph.jump b).isMissing with
    | some b => .error (.internal (.missingTerminator b))
    | none => .ok { s.graph with numTemps := s.temps }

def Function.lower (fn : Function) : Except BuildError FlowGraph :=
  lowerTree fn.numVars fn.params fn.tree

end SsaFlow
