-- SUMMARY: Where lowering puts the code of structured statements.
import Mathlib
import SsaFlow.Proofs.BigStep
import SsaFlow.Proofs.Lowered

/-!
# Layout of structured code

`Code` says where in a graph the code of a statement stands: from one place to another, with the jumps
that lead out of it. It is a statement about the finished graph. Lowering works on one open block at a
time and never comes back to a block that it has closed, so code that stands in an unfinished graph stands
in the finished one as well (`Code.mono`).
-/

namespace SsaFlow

/-- A place in a block, before the instruction with the given number. -/
structure Place where
  block : BlockId
  offset : Nat

def Place.skip (p : Place) (n : Nat) : Place := ⟨p.block, p.offset + n⟩

/-- The jump of the header of a loop, which has a condition or none. -/
def Jump.loop (cond : Option Operand) (body after : BlockId) : Jump :=
  match cond with
  | none => .goto body
  | some c => .branch c body after

theorem Jump.loop_ne_missing (c : Option Operand) (body after : BlockId) :
    Jump.loop c body after ≠ .missing := by
  cases c <;> exact nofun

namespace FlowGraph

def startOf (b : BlockId) : Place := ⟨b, 0⟩

def endOf (g : FlowGraph) (b : BlockId) : Place := ⟨b, (g.block b).instrs.size⟩

def HasCode (g : FlowGraph) (p : Place) (is : List Instr) : Prop :=
  is <+: (g.block p.block).instrs.toList.drop p.offset

/-- The block ends at the place, with the given jump. -/
structure EndsAt (g : FlowGraph) (p : Place) (j : Jump) : Prop where
  offset : p.offset = (g.block p.block).instrs.size
  jump : g.jump p.block = j

/-- The code of an expression leads from `p` to `q`, where `op` has its value. -/
def ExprCode (g : FlowGraph) (e : Expr) (p q : Place) (op : Operand) : Prop :=
  e.settled = true ∧ ∃ numVars temps r, e.flatten numVars temps = .ok r ∧
    g.HasCode p r.instrs.toList ∧ q = p.skip r.instrs.size ∧ op = r.value

def ExprCodeOption (g : FlowGraph) (e : Option (Unit → Expr)) (p q : Place) (op : Option Operand) : Prop :=
  match e with
  | none => q = p ∧ op = none
  | some e => ∃ value, op = some value ∧ g.ExprCode (e ()) p q value

inductive DeclCode (g : FlowGraph) : List (Declarator (Unit → Expr)) → Place → Place → Prop
  | nil {p : Place} : DeclCode g [] p p
  | bare {x : VarId} {ds : List (Declarator (Unit → Expr))} {p q : Place} : g.HasCode p [.declare x] →
      DeclCode g ds (p.skip 1) q → DeclCode g (⟨x, none⟩ :: ds) p q
  | init {x : VarId} {e : Unit → Expr} {ds : List (Declarator (Unit → Expr))} {p q r : Place}
      {op : Operand} : g.HasCode p [.declare x] → g.ExprCode (e ()) (p.skip 1) q op →
      g.HasCode q [.assign (.unbound x) op] → DeclCode g ds (q.skip 1) r →
      DeclCode g (⟨x, some e⟩ :: ds) p r

inductive StartCode (g : FlowGraph) : ForInit (Unit → Expr) → Place → Place → Prop
  | nothing {p : Place} : StartCode g .nothing p p
  | expr {e : Unit → Expr} {p q : Place} {op : Operand} : g.ExprCode (e ()) p q op →
      StartCode g (.expr e) p q
  | decls {ds : List (Declarator (Unit → Expr))} {p q : Place} : g.DeclCode ds p q →
      StartCode g (.decls ds) p q

/-- The step of a loop leads from the latch to the header; without a step they are one block. -/
def LatchCode (g : FlowGraph) (step : Option (Unit → Expr)) (latch header : BlockId) : Prop :=
  match step with
  | none => latch = header
  | some e => ∃ q op, g.ExprCode (e ()) (startOf latch) q op ∧ g.EndsAt q (.goto header)

/-- The code of a phrase leads from one place to another, unless it leaves by a jump. -/
inductive Code (g : FlowGraph) : Scope → Phrase → Place → Place → Prop
  | expr {scope : Scope} {span : Span} {e : Unit → Expr} {p q : Place} {op : Operand} :
      g.ExprCode (e ()) p q op → Code g scope (.stmt (.expr span e)) p q
  | decl {scope : Scope} {span : Span} {ds : List (Declarator (Unit → Expr))} {p q : Place} :
      g.DeclCode ds p q → Code g scope (.stmt (.decl span ds)) p q
  | empty {scope : Scope} {span : Span} {p : Place} : Code g scope (.stmt (.empty span)) p p
  | breakOut {scope : Scope} {span : Span} {p : Place} {target shadow : BlockId} :
      scope.breakTo = some target → g.EndsAt p (.transfer target shadow) →
      Code g scope (.stmt (.breakOut span)) p (startOf shadow)
  | continueLoop {scope : Scope} {span : Span} {p : Place} {target shadow : BlockId} :
      scope.continueTo = some target → g.EndsAt p (.transfer target shadow) →
      Code g scope (.stmt (.continueLoop span)) p (startOf shadow)
  | ret {scope : Scope} {span : Span} {value : Option (Unit → Expr)} {p q : Place} {shadow : BlockId}
      {op : Option Operand} : g.ExprCodeOption value p q op → g.EndsAt q (.ret shadow op) →
      Code g scope (.stmt (.ret span value)) p (startOf shadow)
  | block {scope : Scope} {span : Span} {body : List (Unit → Stmt)} {p q : Place} :
      Code g scope (.seq body) p q → Code g scope (.stmt (.block span body)) p q
  | seqNil {scope : Scope} {p : Place} : Code g scope (.seq []) p p
  | seqCons {scope : Scope} {s : Unit → Stmt} {ss : List (Unit → Stmt)} {p q r : Place} :
      Code g scope (.stmt (s ())) p q → Code g scope (.seq ss) q r → Code g scope (.seq (s :: ss)) p r
  | ifThen {scope : Scope} {span : Span} {cond : Unit → Expr} {body : Unit → Stmt} {p q r : Place}
      {c : Operand} {thenBlock merge : BlockId} : g.ExprCode (cond ()) p q c →
      g.EndsAt q (.branch c thenBlock merge) → Code g scope (.stmt (body ())) (startOf thenBlock) r →
      g.EndsAt r (.goto merge) → Code g scope (.stmt (.ifThen span cond body)) p (startOf merge)
  | ifElse {scope : Scope} {span : Span} {cond : Unit → Expr} {thenBody elseBody : Unit → Stmt}
      {p q r r' : Place} {c : Operand} {thenBlock elseBlock merge : BlockId} :
      g.ExprCode (cond ()) p q c → g.EndsAt q (.branch c thenBlock elseBlock) →
      Code g scope (.stmt (thenBody ())) (startOf thenBlock) r → g.EndsAt r (.goto merge) →
      Code g scope (.stmt (elseBody ())) (startOf elseBlock) r' → g.EndsAt r' (.goto merge) →
      Code g scope (.stmt (.ifElse span cond thenBody elseBody)) p (startOf merge)
  | whileLoop {scope : Scope} {span : Span} {cond : Unit → Expr} {body : Unit → Stmt} {p q : Place}
      {header : BlockId} : g.EndsAt p (.goto header) →
      Code g scope (.loop (some cond) none body) (startOf header) q →
      Code g scope (.stmt (.whileLoop span cond body)) p q
  | doWhile {scope : Scope} {span : Span} {cond : Unit → Expr} {body : Unit → Stmt} {p r : Place}
      {bodyBlock header after : BlockId} : g.EndsAt p (.goto bodyBlock) →
      Code g (scope.loop after header) (.stmt (body ())) (startOf bodyBlock) r →
      g.EndsAt r (.goto header) →
      Code g scope (.loop (some cond) none body) (startOf header) (startOf after) →
      Code g scope (.stmt (.doWhile span body cond)) p (startOf after)
  | forLoop {scope : Scope} {span : Span} {init : ForInit (Unit → Expr)}
      {cond step : Option (Unit → Expr)} {body : Unit → Stmt} {p q r : Place} {header : BlockId} :
      g.StartCode init p q → g.EndsAt q (.goto header) →
      Code g scope (.loop cond step body) (startOf header) r →
      Code g scope (.stmt (.forLoop span init cond step body)) p r
  | loop {scope : Scope} {cond step : Option (Unit → Expr)} {body : Unit → Stmt} {q r : Place}
      {c : Option Operand} {header bodyBlock latch after : BlockId} :
      g.ExprCodeOption cond (startOf header) q c → g.EndsAt q (.loop c bodyBlock after) →
      Code g (scope.loop after latch) (.stmt (body ())) (startOf bodyBlock) r →
      g.EndsAt r (.goto latch) → g.LatchCode step latch header →
      Code g scope (.loop cond step body) (startOf header) (startOf after)

/-! ## Code stays where it is -/

/-- The second graph goes on from the first: open blocks may get more instructions, and closed blocks stay
as they are. -/
structure Extends (g g' : FlowGraph) : Prop where
  instrs : ∀ b, (g.block b).instrs.toList <+: (g'.block b).instrs.toList
  closed : ∀ b, g.jump b ≠ .missing →
    g'.jump b = g.jump b ∧ (g'.block b).instrs = (g.block b).instrs

namespace Extends

variable {g g' g'' : FlowGraph}

theorem refl (g : FlowGraph) : Extends g g := ⟨fun _ => List.prefix_refl _, fun _ _ => ⟨rfl, rfl⟩⟩

theorem trans (h : Extends g g') (k : Extends g' g'') : Extends g g'' where
  instrs b := (h.instrs b).trans (k.instrs b)
  closed b hb := by
    obtain ⟨hjump, hinstrs⟩ := h.closed b hb
    obtain ⟨hjump', hinstrs'⟩ := k.closed b (hjump ▸ hb)
    exact ⟨hjump'.trans hjump, hinstrs'.trans hinstrs⟩

theorem hasCode (h : Extends g g') {p : Place} {is : List Instr} (hp : g.HasCode p is) :
    g'.HasCode p is :=
  List.IsPrefix.trans hp (List.IsPrefix.drop (h.instrs p.block) p.offset)

theorem endsAt (h : Extends g g') {p : Place} {j : Jump} (hp : g.EndsAt p j) (hj : j ≠ .missing) :
    g'.EndsAt p j := by
  obtain ⟨hjump, hinstrs⟩ := h.closed p.block (hp.jump ▸ hj)
  exact ⟨by rw [hp.offset, hinstrs], hjump.trans hp.jump⟩

theorem exprCode (h : Extends g g') {e : Expr} {p q : Place} {op : Operand} (he : g.ExprCode e p q op) :
    g'.ExprCode e p q op := by
  obtain ⟨hsettled, numVars, temps, r, hflatten, hcode, hq, hop⟩ := he
  exact ⟨hsettled, numVars, temps, r, hflatten, h.hasCode hcode, hq, hop⟩

theorem exprCodeOption (h : Extends g g') {e : Option (Unit → Expr)} {p q : Place} {op : Option Operand}
    (he : g.ExprCodeOption e p q op) : g'.ExprCodeOption e p q op := by
  cases e with
  | none => exact he
  | some e =>
    obtain ⟨value, hvalue, hcode⟩ := he
    exact ⟨value, hvalue, h.exprCode hcode⟩

theorem declCode (h : Extends g g') {ds : List (Declarator (Unit → Expr))} {p q : Place}
    (hd : g.DeclCode ds p q) : g'.DeclCode ds p q := by
  induction hd with
  | nil => exact .nil
  | bare hcode _ ih => exact .bare (h.hasCode hcode) ih
  | init hcode hexpr hassign _ ih =>
    exact .init (h.hasCode hcode) (h.exprCode hexpr) (h.hasCode hassign) ih

theorem startCode (h : Extends g g') {init : ForInit (Unit → Expr)} {p q : Place}
    (hi : g.StartCode init p q) : g'.StartCode init p q := by
  cases hi with
  | nothing => exact .nothing
  | expr he => exact .expr (h.exprCode he)
  | decls hd => exact .decls (h.declCode hd)

theorem latchCode (h : Extends g g') {step : Option (Unit → Expr)} {latch header : BlockId}
    (hl : g.LatchCode step latch header) : g'.LatchCode step latch header := by
  cases step with
  | none => exact hl
  | some e =>
    obtain ⟨q, op, hcode, hend⟩ := hl
    exact ⟨q, op, h.exprCode hcode, h.endsAt hend nofun⟩

end Extends

/-- Code stays where it is. -/
theorem Code.mono {g g' : FlowGraph} (h : Extends g g') {scope : Scope} {phrase : Phrase} {p q : Place}
    (hcode : Code g scope phrase p q) : Code g' scope phrase p q := by
  induction hcode with
  | expr he => exact .expr (h.exprCode he)
  | decl hd => exact .decl (h.declCode hd)
  | empty => exact .empty
  | breakOut ht hend => exact .breakOut ht (h.endsAt hend nofun)
  | continueLoop ht hend => exact .continueLoop ht (h.endsAt hend nofun)
  | ret hv hend => exact .ret (h.exprCodeOption hv) (h.endsAt hend nofun)
  | block _ ih => exact .block ih
  | seqNil => exact .seqNil
  | seqCons _ _ ih ih' => exact .seqCons ih ih'
  | ifThen hc hbranch _ hend ih =>
    exact .ifThen (h.exprCode hc) (h.endsAt hbranch nofun) ih (h.endsAt hend nofun)
  | ifElse hc hbranch _ hend _ hend' ih ih' =>
    exact .ifElse (h.exprCode hc) (h.endsAt hbranch nofun) ih (h.endsAt hend nofun) ih'
      (h.endsAt hend' nofun)
  | whileLoop hend _ ih => exact .whileLoop (h.endsAt hend nofun) ih
  | doWhile hend _ hend' _ ih ih' =>
    exact .doWhile (h.endsAt hend nofun) ih (h.endsAt hend' nofun) ih'
  | forLoop hi hend _ ih => exact .forLoop (h.startCode hi) (h.endsAt hend nofun) ih
  | loop hc hjump _ hend hlatch ih =>
    exact .loop (h.exprCodeOption hc) (h.endsAt hjump (Jump.loop_ne_missing _ _ _)) ih
      (h.endsAt hend nofun) (h.latchCode hlatch)

end FlowGraph

end SsaFlow
