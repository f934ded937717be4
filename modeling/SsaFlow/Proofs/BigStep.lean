-- SUMMARY: What structured functions do: a big-step semantics of their expressions and statements.
import SsaFlow.Proofs.Machine
import SsaFlow.Source.Tree

/-!
# Structured execution

Expressions have a value and an effect on the variables and the world; operands are evaluated from left
to right. Statements run to a completion: they end normally, they leave or continue the loop around them,
or they return. Only the statements of structured programs have rules; a `switch`, a label or a `goto`
runs to no completion at all.
-/

namespace SsaFlow

/-- The values of the variables, and the world that calls read and change. -/
structure Env (V W : Type) where
  vars : VarId → V
  world : W

def Env.set {V W : Type} (env : Env V W) (x : VarId) (a : V) : Env V W :=
  { env with vars := Function.update env.vars x a }

@[simp] theorem Env.vars_set {V W : Type} (env : Env V W) (x : VarId) (a : V) :
    (env.set x a).vars = Function.update env.vars x a := rfl

/-! ## Expressions -/

section Expressions

variable {V W : Type} (I : Interp V W)

mutual

/-- The value of an expression and what holds after it. A combined assignment reads the variable after
its operand; expressions that cannot be compiled have no value. -/
def Expr.eval : Expr → Env V W → V × Env V W
  | .int n, env => (I.const n, env)
  | .var x, env => (env.vars x, env)
  | .unary op operand, env =>
    let r := (operand ()).eval env
    (I.unary op r.1, r.2)
  | .binary op lhs rhs, env =>
    let l := (lhs ()).eval env
    let r := (rhs ()).eval l.2
    (I.binary op l.1 r.1, r.2)
  | .assign x none value, env =>
    let r := (value ()).eval env
    (r.1, r.2.set x r.1)
  | .assign x (some op) value, env =>
    let r := (value ()).eval env
    let a := I.binary op (r.2.vars x) r.1
    (a, r.2.set x a)
  | .step x op, env =>
    let a := I.binary op.op (env.vars x) (I.const 1)
    (if op.yieldsOld then env.vars x else a, env.set x a)
  | .call callee args, env =>
    let r := Expr.evalAll args env
    let result := I.call callee r.1 r.2.world
    (result.1, { r.2 with world := result.2 })
  | .comma first second, env => (second ()).eval ((first ()).eval env).2
  | .error _, env | .absent, env => (I.undef, env)

def Expr.evalAll : List (Unit → Expr) → Env V W → List V × Env V W
  | [], env => ([], env)
  | e :: es, env =>
    let r := (e ()).eval env
    let rest := Expr.evalAll es r.2
    (r.1 :: rest.1, rest.2)

end

end Expressions

/-- The variable that the value of an expression is a mere read of: it is read only when the value is
used. -/
def Expr.bareRead? : Expr → Option VarId
  | .var x | .assign x _ _ => some x
  | .step x op => if op.yieldsOld then none else some x
  | .comma _ second => (second ()).bareRead?
  | .int _ | .unary .. | .binary .. | .call .. | .error _ | .absent => none

mutual

/-- Whether an assignment or a step anywhere in the expression writes the variable. -/
def Expr.assigns (x : VarId) : Expr → Bool
  | .assign y _ value => y == x || (value ()).assigns x
  | .step y _ => y == x
  | .unary _ operand => (operand ()).assigns x
  | .binary _ first second | .comma first second => (first ()).assigns x || (second ()).assigns x
  | .call _ args => Expr.assignsAny x args
  | .int _ | .var _ | .error _ | .absent => false

def Expr.assignsAny (x : VarId) : List (Unit → Expr) → Bool
  | [] => false
  | e :: es => (e ()).assigns x || Expr.assignsAny x es

end

mutual

/-- No operand of an operator or a call that merely reads a variable comes before one that writes it. -/
def Expr.settled : Expr → Bool
  | .unary _ operand => (operand ()).settled
  | .assign _ _ value => (value ()).settled
  | .binary _ lhs rhs =>
    (lhs ()).settled && (rhs ()).settled && (lhs ()).bareRead?.all fun x => !(rhs ()).assigns x
  | .comma first second => (first ()).settled && (second ()).settled
  | .call _ args => Expr.settledAll args
  | .int _ | .var _ | .step .. | .error _ | .absent => true

def Expr.settledAll : List (Unit → Expr) → Bool
  | [] => true
  | e :: es =>
    (e ()).settled && Expr.settledAll es && (e ()).bareRead?.all fun x => !Expr.assignsAny x es

end

mutual

/-- A variable that an expression does not write keeps its value. -/
theorem Expr.vars_eval_of_not_assigns {V W : Type} (I : Interp V W) {x : VarId} (e : Expr) (env : Env V W)
    (h : e.assigns x = false) : (e.eval I env).2.vars x = env.vars x := by
  match e with
  | .int _ | .var _ | .error _ | .absent => rw [Expr.eval]
  | .unary op operand => exact Expr.vars_eval_of_not_assigns I (operand ()) env h
  | .binary op lhs rhs =>
    rw [Expr.assigns, Bool.or_eq_false_iff] at h
    rw [Expr.eval]
    exact (Expr.vars_eval_of_not_assigns I (rhs ()) _ h.2).trans
      (Expr.vars_eval_of_not_assigns I (lhs ()) env h.1)
  | .assign y op value =>
    rw [Expr.assigns, Bool.or_eq_false_iff, beq_eq_false_iff_ne] at h
    have hvalue := Expr.vars_eval_of_not_assigns I (value ()) env h.2
    cases op with
    | none => exact (Function.update_of_ne (Ne.symm h.1) _ _).trans hvalue
    | some op => exact (Function.update_of_ne (Ne.symm h.1) _ _).trans hvalue
  | .step y op =>
    rw [Expr.assigns, beq_eq_false_iff_ne] at h
    exact Function.update_of_ne (Ne.symm h) _ _
  | .call callee args => exact Expr.vars_evalAll_of_not_assigns I args env h
  | .comma first second =>
    rw [Expr.assigns, Bool.or_eq_false_iff] at h
    rw [Expr.eval]
    exact (Expr.vars_eval_of_not_assigns I (second ()) _ h.2).trans
      (Expr.vars_eval_of_not_assigns I (first ()) env h.1)

theorem Expr.vars_evalAll_of_not_assigns {V W : Type} (I : Interp V W) {x : VarId}
    (es : List (Unit → Expr)) (env : Env V W) (h : Expr.assignsAny x es = false) :
    (Expr.evalAll I es env).2.vars x = env.vars x := by
  match es with
  | [] => rw [Expr.evalAll]
  | e :: es =>
    rw [Expr.assignsAny, Bool.or_eq_false_iff] at h
    rw [Expr.evalAll]
    exact (Expr.vars_evalAll_of_not_assigns I es _ h.2).trans
      (Expr.vars_eval_of_not_assigns I (e ()) env h.1)

end

/-! ## Statements -/

/-- How a statement ends. -/
inductive Completion (V : Type) where
  | normal
  | broke
  | continued
  | returned (value : Option V)

namespace Completion

variable {V : Type}

/-- Whether a loop goes on after its body ended so. -/
def resumes : Completion V → Bool
  | .normal | .continued => true
  | .broke | .returned _ => false

/-- How a loop ends that its body has left. -/
def afterLoop : Completion V → Completion V
  | .returned value => .returned value
  | .normal | .broke | .continued => .normal

end Completion

section Effects

variable {V W : Type} (I : Interp V W)

def Expr.evalOption : Option (Unit → Expr) → Env V W → Option V × Env V W
  | none, env => (none, env)
  | some e, env =>
    let r := (e ()).eval I env
    (some r.1, r.2)

/-- Whether a condition holds; one that is left out does. -/
def Interp.holds (value : Option V) : Bool := (value.map I.truthy).getD true

/-- A declared variable has no value until the initial one is written. -/
def Declarator.effect (env : Env V W) (d : Declarator (Unit → Expr)) : Env V W :=
  match d.init with
  | none => env.set d.var I.undef
  | some e =>
    let r := (e ()).eval I (env.set d.var I.undef)
    r.2.set d.var r.1

/-- What a `for` statement starts with. -/
def ForInit.effect (env : Env V W) : ForInit (Unit → Expr) → Env V W
  | .nothing => env
  | .expr e => ((e ()).eval I env).2
  | .decls ds => ds.foldl (Declarator.effect I) env

end Effects

/-- What is left to do: a statement, several statements, or the rounds of a loop from its condition on. -/
inductive Phrase where
  | stmt (s : Stmt)
  | seq (ss : List (Unit → Stmt))
  | loop (cond step : Option (Unit → Expr)) (body : Unit → Stmt)

/-- Structured execution. -/
inductive Exec {V W : Type} (I : Interp V W) : Phrase → Env V W → Completion V → Env V W → Prop
  | expr {span : Span} {e : Unit → Expr} {env : Env V W} :
      Exec I (.stmt (.expr span e)) env .normal ((e ()).eval I env).2
  | decl {span : Span} {ds : List (Declarator (Unit → Expr))} {env : Env V W} :
      Exec I (.stmt (.decl span ds)) env .normal (ds.foldl (Declarator.effect I) env)
  | empty {span : Span} {env : Env V W} : Exec I (.stmt (.empty span)) env .normal env
  | breakOut {span : Span} {env : Env V W} : Exec I (.stmt (.breakOut span)) env .broke env
  | continueLoop {span : Span} {env : Env V W} : Exec I (.stmt (.continueLoop span)) env .continued env
  | ret {span : Span} {value : Option (Unit → Expr)} {env : Env V W} :
      Exec I (.stmt (.ret span value)) env (.returned (Expr.evalOption I value env).1)
        (Expr.evalOption I value env).2
  | block {span : Span} {body : List (Unit → Stmt)} {env env' : Env V W} {k : Completion V} :
      Exec I (.seq body) env k env' → Exec I (.stmt (.block span body)) env k env'
  | seqNil {env : Env V W} : Exec I (.seq []) env .normal env
  | seqNext {s : Unit → Stmt} {ss : List (Unit → Stmt)} {env env' env'' : Env V W} {k : Completion V} :
      Exec I (.stmt (s ())) env .normal env' → Exec I (.seq ss) env' k env'' →
      Exec I (.seq (s :: ss)) env k env''
  | seqLeave {s : Unit → Stmt} {ss : List (Unit → Stmt)} {env env' : Env V W} {k : Completion V} :
      Exec I (.stmt (s ())) env k env' → k ≠ .normal → Exec I (.seq (s :: ss)) env k env'
  | ifThen {span : Span} {cond : Unit → Expr} {body : Unit → Stmt} {env env' : Env V W}
      {k : Completion V} : I.truthy ((cond ()).eval I env).1 = true →
      Exec I (.stmt (body ())) ((cond ()).eval I env).2 k env' →
      Exec I (.stmt (.ifThen span cond body)) env k env'
  | ifSkip {span : Span} {cond : Unit → Expr} {body : Unit → Stmt} {env : Env V W} :
      I.truthy ((cond ()).eval I env).1 = false →
      Exec I (.stmt (.ifThen span cond body)) env .normal ((cond ()).eval I env).2
  | ifElse {span : Span} {cond : Unit → Expr} {thenBody elseBody : Unit → Stmt} {env env' : Env V W}
      {k : Completion V} :
      Exec I (.stmt ((if I.truthy ((cond ()).eval I env).1 then thenBody else elseBody) ()))
        ((cond ()).eval I env).2 k env' →
      Exec I (.stmt (.ifElse span cond thenBody elseBody)) env k env'
  | whileLoop {span : Span} {cond : Unit → Expr} {body : Unit → Stmt} {env env' : Env V W}
      {k : Completion V} : Exec I (.loop (some cond) none body) env k env' →
      Exec I (.stmt (.whileLoop span cond body)) env k env'
  | doWhile {span : Span} {cond : Unit → Expr} {body : Unit → Stmt} {env env' env'' : Env V W}
      {k k' : Completion V} : Exec I (.stmt (body ())) env k env' → k.resumes = true →
      Exec I (.loop (some cond) none body) env' k' env'' →
      Exec I (.stmt (.doWhile span body cond)) env k' env''
  | doLeave {span : Span} {cond : Unit → Expr} {body : Unit → Stmt} {env env' : Env V W}
      {k : Completion V} : Exec I (.stmt (body ())) env k env' → k.resumes = false →
      Exec I (.stmt (.doWhile span body cond)) env k.afterLoop env'
  | forLoop {span : Span} {init : ForInit (Unit → Expr)} {cond step : Option (Unit → Expr)}
      {body : Unit → Stmt} {env env' : Env V W} {k : Completion V} :
      Exec I (.loop cond step body) (init.effect I env) k env' →
      Exec I (.stmt (.forLoop span init cond step body)) env k env'
  | loopDone {cond step : Option (Unit → Expr)} {body : Unit → Stmt} {env : Env V W} :
      I.holds (Expr.evalOption I cond env).1 = false →
      Exec I (.loop cond step body) env .normal (Expr.evalOption I cond env).2
  | loopNext {cond step : Option (Unit → Expr)} {body : Unit → Stmt} {env env' env'' : Env V W}
      {k k' : Completion V} : I.holds (Expr.evalOption I cond env).1 = true →
      Exec I (.stmt (body ())) (Expr.evalOption I cond env).2 k env' → k.resumes = true →
      Exec I (.loop cond step body) (Expr.evalOption I step env').2 k' env'' →
      Exec I (.loop cond step body) env k' env''
  | loopLeave {cond step : Option (Unit → Expr)} {body : Unit → Stmt} {env env' : Env V W}
      {k : Completion V} : I.holds (Expr.evalOption I cond env).1 = true →
      Exec I (.stmt (body ())) (Expr.evalOption I cond env).2 k env' → k.resumes = false →
      Exec I (.loop cond step body) env k.afterLoop env'

/-! ## Functions -/

def Expr.settledOption (e : Option (Unit → Expr)) : Bool := e.all fun e => (e ()).settled

def Declarator.settledAll (ds : List (Declarator (Unit → Expr))) : Bool :=
  ds.all fun d => Expr.settledOption d.init

def ForInit.settled : ForInit (Unit → Expr) → Bool
  | .nothing => true
  | .expr e => (e ()).settled
  | .decls ds => Declarator.settledAll ds

mutual

/-- The statement has settled expressions only, and no `switch`, no label and no `goto`. -/
def Stmt.structured : Stmt → Bool
  | .expr _ e => (e ()).settled
  | .decl _ ds => Declarator.settledAll ds
  | .block _ body => Stmt.structuredAll body
  | .ifThen _ cond body => (cond ()).settled && (body ()).structured
  | .ifElse _ cond thenBody elseBody =>
    (cond ()).settled && (thenBody ()).structured && (elseBody ()).structured
  | .whileLoop _ cond body | .doWhile _ body cond => (cond ()).settled && (body ()).structured
  | .forLoop _ init cond step body =>
    init.settled && Expr.settledOption cond && Expr.settledOption step && (body ()).structured
  | .ret _ value => Expr.settledOption value
  | .breakOut _ | .continueLoop _ | .empty _ => true
  | .switch .. | .case .. | .default .. | .goto .. | .label .. | .error _ | .absent => false

def Stmt.structuredAll : List (Unit → Stmt) → Bool
  | [] => true
  | s :: ss => (s ()).structured && Stmt.structuredAll ss

end

namespace Function

variable {V W : Type} (I : Interp V W) (fn : Function)

/-- What holds when the body of a function starts: the parameters are bound in order. -/
def startEnv (world : W) : Env V W :=
  fn.params.zipIdx.foldl (fun env p => env.set p.1 (I.param p.2)) ⟨fun _ => I.undef, world⟩

/-- Called in a world, the function ends with a value and leaves another world; falling off its end gives
no value. -/
def Ends (world : W) (value : Option V) (world' : W) : Prop :=
  ∃ env, env.world = world' ∧ (Exec I (.stmt fn.tree) (fn.startEnv I world) (.returned value) env ∨
    value = none ∧ Exec I (.stmt fn.tree) (fn.startEnv I world) .normal env)

end Function

end SsaFlow
