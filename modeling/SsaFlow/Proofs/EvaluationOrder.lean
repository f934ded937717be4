-- SUMMARY: Flattened expressions evaluate from left to right: same value, same variables, same calls in the same order.
import SsaFlow.Proofs.OpenBlocks
import SsaFlow.Proofs.Simulation

/-!
# Evaluation order

Evaluating an expression makes calls, and so does running its instructions. Calls may have any effect on the
world, so it matters which ones are made, with what arguments and in which order. The calls of an expression
are listed along its evaluation from left to right (`Expr.calls`), those of instructions along their execution
(`Machine.calls`), and the two lists agree (`Expr.flatten_calls`).
-/

namespace SsaFlow

open Machine

variable {V W : Type} (I : Interp V W)

/-! ## Calls -/

mutual

/-- The calls that evaluating an expression makes, with the values of their arguments. -/
def Expr.calls : Expr → Env V W → List (CallRecord V)
  | .unary _ operand, env => (operand ()).calls env
  | .binary _ first second, env | .comma first second, env =>
    (first ()).calls env ++ (second ()).calls ((first ()).eval I env).2
  | .assign _ _ value, env => (value ()).calls env
  | .call callee args, env => Expr.callsAll args env ++ [⟨callee, (Expr.evalAll I args env).1⟩]
  | .int _, _ | .var _, _ | .step .., _ | .error _, _ | .absent, _ => []

def Expr.callsAll : List (Unit → Expr) → Env V W → List (CallRecord V)
  | [], _ => []
  | e :: es, env => (e ()).calls env ++ Expr.callsAll es ((e ()).eval I env).2

end

namespace Machine

def call? (st : State (.cells I.undef) W) : Instr → Option (CallRecord V)
  | .call _ callee args => some ⟨callee, args.map (Machine.eval I (.cells I.undef) st)⟩
  | _ => none

def calls (st : State (.cells I.undef) W) : List Instr → List (CallRecord V)
  | [] => []
  | i :: is => (call? I st i).toList ++ calls (exec I (.cells I.undef) st i) is

theorem calls_append (st : State (.cells I.undef) W) (is js : List Instr) :
    calls I st (is ++ js) = calls I st is ++ calls I (after I st is) js := by
  induction is generalizing st with
  | nil => rfl
  | cons i is ih => rw [List.cons_append, calls, calls, ih, after_cons, List.append_assoc]

/-- An instruction at the end that makes no call. -/
theorem calls_push (st : State (.cells I.undef) W) (is : Array Instr) (i : Instr)
    (hi : call? I (after I st is.toList) i = none) : calls I st (is.push i).toList = calls I st is.toList := by
  rw [Array.toList_push, calls_append, calls, hi]
  exact List.append_nil _

end Machine

/-! ## Flattened expressions -/

mutual

/-- The code of an expression makes the calls of the expression. -/
theorem Expr.flatten_calls {numVars temps : Nat} {e : Expr} {r : Flattened Operand}
    (h : e.flatten numVars temps = .ok r) (hs : e.settled = true) (st : State (.cells I.undef) W) :
    Machine.calls I st r.instrs.toList = e.calls I st.env := by
  match e with
  | .int value =>
    cases h
    rfl
  | .var id =>
    obtain ⟨x, hx, h⟩ := Except.exists_of_bind h
    cases h
    rfl
  | .unary op operand =>
    obtain ⟨x, hx, h⟩ := Except.exists_of_bind h
    cases h
    exact (calls_push I st x.instrs _ rfl).trans (Expr.flatten_calls hx hs st)
  | .binary op lhs rhs =>
    rw [Expr.settled, Bool.and_eq_true, Bool.and_eq_true] at hs
    obtain ⟨x, hx, h⟩ := Except.exists_of_bind h
    obtain ⟨y, hy, h⟩ := Except.exists_of_bind h
    cases h
    refine (calls_push I st (x.instrs ++ y.instrs) _ rfl).trans ?_
    rw [Array.toList_append, calls_append, Expr.flatten_calls hx hs.1.1, Expr.flatten_calls hy hs.1.2, Expr.calls,
      (Expr.flatten_computes I hx hs.1.1).snd_eval]
  | .assign target op value =>
    obtain ⟨x, hx, h⟩ := Except.exists_of_bind h
    obtain ⟨y, hy, h⟩ := Except.exists_of_bind h
    have hvalue := Expr.flatten_calls hy hs st
    cases op with
    | none =>
      cases h
      exact (calls_push I st y.instrs _ rfl).trans hvalue
    | some op =>
      cases h
      exact (calls_push I st (y.instrs.push _) _ rfl).trans ((calls_push I st y.instrs _ rfl).trans hvalue)
  | .step target op =>
    obtain ⟨x, hx, h⟩ := Except.exists_of_bind h
    split at h
    · cases h
      rfl
    · cases h
      rfl
  | .call callee args =>
    obtain ⟨x, hx, h⟩ := Except.exists_of_bind h
    cases h
    rw [Array.toList_push, calls_append, Expr.flattenAll_calls hx hs, Expr.calls,
      (Expr.flattenAll_computes I hx hs).eval_eq]
    rfl
  | .comma first second =>
    rw [Expr.settled, Bool.and_eq_true] at hs
    obtain ⟨x, hx, h⟩ := Except.exists_of_bind h
    obtain ⟨y, hy, h⟩ := Except.exists_of_bind h
    cases h
    rw [Array.toList_append, calls_append, Expr.flatten_calls hx hs.1, Expr.flatten_calls hy hs.2, Expr.calls,
      (Expr.flatten_computes I hx hs.1).snd_eval]
  | .error span => exact nomatch h
  | .absent => exact nomatch h

theorem Expr.flattenAll_calls {numVars temps : Nat} {es : List (Unit → Expr)} {r : Flattened (List Operand)}
    (h : Expr.flattenAll numVars temps es = .ok r) (hs : Expr.settledAll es = true)
    (st : State (.cells I.undef) W) : Machine.calls I st r.instrs.toList = Expr.callsAll I es st.env := by
  match es with
  | [] =>
    cases h
    rfl
  | e :: es =>
    rw [Expr.settledAll, Bool.and_eq_true, Bool.and_eq_true] at hs
    obtain ⟨x, hx, h⟩ := Except.exists_of_bind h
    obtain ⟨y, hy, h⟩ := Except.exists_of_bind h
    cases h
    rw [Array.toList_append, calls_append, Expr.flatten_calls hx hs.1.1, Expr.flattenAll_calls hy hs.1.2,
      Expr.callsAll, (Expr.flatten_computes I hx hs.1.1).snd_eval]

end

/-- An expression without unreadable parts that keeps to the variables of the function can be flattened. If no
operand of an operator or a call that merely reads a variable comes before one that writes it, then for every
meaning of operators and calls and from every state, running the instructions and reading the operand gives what
evaluating the expression from left to right gives: the value, the variables and the world afterwards, and the
calls with their arguments in order. -/
theorem Expr.flatten_left_to_right {numVars : Nat} {e : Expr} (hcomplete : e.Complete)
    (herror : ∀ x ∈ e.nodes, x.isError = false) (hvars : ∀ x ∈ e.nodes, ∀ v ∈ x.mention?, v < numVars)
    (hsettled : e.settled = true) (temps : Nat) :
    ∃ r, e.flatten numVars temps = .ok r ∧
      ∀ {V W : Type} (I : Interp V W) (st : State (.cells I.undef) W),
        Machine.eval I (.cells I.undef) (after I st r.instrs.toList) r.value = (e.eval I st.env).1 ∧
          (after I st r.instrs.toList).env = (e.eval I st.env).2 ∧
          Machine.calls I st r.instrs.toList = e.calls I st.env := by
  have hverdict := @Expr.flatten_verdict numVars temps e hcomplete
  cases hflatten : e.flatten numVars temps with
  | error err =>
    rw [hflatten] at hverdict
    exact absurd ⟨hvars, herror⟩ hverdict.1
  | ok r =>
    refine ⟨r, rfl, fun I st => ?_⟩
    have hcomputes := Expr.flatten_computes I hflatten hsettled
    exact ⟨(hcomputes.fst_eval st).symm, (hcomputes.snd_eval st).symm, Expr.flatten_calls I hflatten hsettled st⟩

/-- The expression `f(a++, b = g(a) + (a += b, a))`. -/
def nestedEffects : Expr :=
  .call ⟨1⟩ [fun _ => .step 0 .postInc, fun _ => .assign 1 none fun _ => .binary .add
    (fun _ => .call ⟨2⟩ [fun _ => .var 0])
    (fun _ => .comma (fun _ => .assign 0 (some .add) fun _ => .var 1) (fun _ => .var 0))]

/-- From `a = 1` and `b = 2`: the call of `g` sees the new `a`, that of `f` sees the old `a` and the new `b`. -/
theorem flatten_left_to_right_nestedEffects :
    ∃ r, nestedEffects.flatten 2 0 = .ok r ∧
      ∀ st : State (.cells fromThree.undef) Unit, (∀ v, st.env.vars v = v + 1) →
        (after fromThree st r.instrs.toList).env.vars 0 = 4 ∧ (after fromThree st r.instrs.toList).env.vars 1 = 5 ∧
          Machine.calls fromThree st r.instrs.toList = [⟨⟨2⟩, [2]⟩, ⟨⟨1⟩, [1, 5]⟩] := by
  have hcomplete : nestedEffects.Complete := by
    simp [Expr.Complete, nestedEffects, Expr.nodes, Expr.nodesAll]
  have hfine : nestedEffects.Fine 2 := by simp [nestedEffects]
  obtain ⟨r, hflatten, hrun⟩ := Expr.flatten_left_to_right hcomplete hfine.noError hfine.vars (by rfl) 0
  refine ⟨r, hflatten, fun st hst => ?_⟩
  obtain ⟨-, henv, hcalls⟩ := hrun fromThree st
  rw [henv, hcalls]
  generalize st.env = env at hst
  simp [nestedEffects, Expr.eval, Expr.evalAll, Expr.calls, Expr.callsAll, hst, fromThree, StepOp.op,
    StepOp.yieldsOld]

end SsaFlow
