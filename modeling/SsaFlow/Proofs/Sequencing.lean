-- SUMMARY: The instructions of a flattened expression compute its value and its effects.
import SsaFlow.Proofs.BigStep
import SsaFlow.Proofs.Lowered

/-!
# Flattened expressions

Run on a machine with one cell per variable, the instructions of an expression have the effects of the
expression, and afterwards its operand has its value. The operand has to keep that value while the
operands after it are computed: temporaries are never written twice, and a bare read of a variable is
safe as long as nothing later writes the variable (`Expr.settled`).
-/

namespace SsaFlow

namespace Machine

variable {V W : Type}

def State.env {undef : V} (st : State (.cells undef) W) : Env V W := ⟨st.store, st.world⟩

def State.withTemp {undef : V} (st : State (.cells undef) W) (t : TempId) (a : V) :
    State (.cells undef) W :=
  { st with temps := Function.update st.temps t a }

@[simp] theorem State.env_withTemp {undef : V} (st : State (.cells undef) W) (t : TempId) (a : V) :
    (st.withTemp t a).env = st.env := rfl

@[simp] theorem State.temps_withTemp {undef : V} (st : State (.cells undef) W) (t : TempId) (a : V) :
    (st.withTemp t a).temps = Function.update st.temps t a := rfl

variable (I : Interp V W)

section Cells

variable (st : State (.cells I.undef) W)

@[simp] theorem eval_const (c : Int) : eval I (.cells I.undef) st (.const c) = I.const c := rfl

@[simp] theorem eval_temp (t : TempId) : eval I (.cells I.undef) st (.temp t) = st.temps t := rfl

@[simp] theorem eval_var (x : VersionedVar) :
    eval I (.cells I.undef) st (.var x) = st.env.vars x.var := rfl

@[simp] theorem env_assign (x : VersionedVar) (op : Operand) :
    (exec I (.cells I.undef) st (.assign x op)).env =
      st.env.set x.var (eval I (.cells I.undef) st op) := rfl

@[simp] theorem temps_assign (x : VersionedVar) (op : Operand) :
    (exec I (.cells I.undef) st (.assign x op)).temps = st.temps := rfl

@[simp] theorem exec_copy (t : TempId) (op : Operand) :
    exec I (.cells I.undef) st (.copy t op) = st.withTemp t (eval I (.cells I.undef) st op) := rfl

@[simp] theorem exec_unary (t : TempId) (o : UnaryOp) (op : Operand) :
    exec I (.cells I.undef) st (.unary t o op) =
      st.withTemp t (I.unary o (eval I (.cells I.undef) st op)) := rfl

@[simp] theorem exec_binary (t : TempId) (o : BinaryOp) (l r : Operand) :
    exec I (.cells I.undef) st (.binary t o l r) =
      st.withTemp t (I.binary o (eval I (.cells I.undef) st l) (eval I (.cells I.undef) st r)) := rfl

@[simp] theorem env_call (t : TempId) (callee : Name) (args : List Operand) :
    (exec I (.cells I.undef) st (.call t callee args)).env = { st.env with
      world := (I.call callee (args.map (eval I (.cells I.undef) st)) st.env.world).2 } := rfl

@[simp] theorem temps_call (t : TempId) (callee : Name) (args : List Operand) :
    (exec I (.cells I.undef) st (.call t callee args)).temps = Function.update st.temps t
      (I.call callee (args.map (eval I (.cells I.undef) st)) st.env.world).1 := rfl

end Cells

def after (st : State (.cells I.undef) W) (is : List Instr) : State (.cells I.undef) W :=
  is.foldl (exec I (.cells I.undef)) st

@[simp] theorem after_nil (st : State (.cells I.undef) W) : after I st [] = st := rfl

@[simp] theorem after_cons (st : State (.cells I.undef) W) (i : Instr) (is : List Instr) :
    after I st (i :: is) = after I (exec I (.cells I.undef) st i) is := rfl

@[simp] theorem after_append (st : State (.cells I.undef) W) (is js : List Instr) :
    after I st (is ++ js) = after I (after I st is) js := List.foldl_append

theorem execAll_eq_after (st : State (.cells I.undef) W) (is : List Instr) :
    (execAll I (.cells I.undef) st is).2 = after I st is := by
  induction is generalizing st with
  | nil => rfl
  | cons i is ih => exact ih _

end Machine

open Machine

variable {V W : Type} (I : Interp V W)

/-! ## Operands that keep their values -/

/-- The operand is a temporary in use, a constant, or a bare read of the given variable. -/
def Operand.Held (temps : Nat) (bare : Option VarId) : Operand → Prop
  | .const _ => True
  | .temp t => t < temps
  | .var x => bare = some x.var

/-- An operand keeps its value as long as what it may read stays. -/
theorem Operand.Held.eval_eq {temps : Nat} {bare : Option VarId} {op : Operand} (h : op.Held temps bare)
    {st st' : State (.cells I.undef) W} (htemps : ∀ t, t < temps → st'.temps t = st.temps t)
    (hvars : ∀ x, bare = some x → st'.env.vars x = st.env.vars x) :
    eval I (.cells I.undef) st' op = eval I (.cells I.undef) st op := by
  cases op with
  | const c => rfl
  | temp t => exact htemps t h
  | var x => exact hvars x.var h

/-- The code of an expression computes it, with the first `temps` temporaries left alone. -/
structure Flattened.Computes (temps : Nat) (e : Expr) (r : Flattened Operand) : Prop where
  temps_le : temps ≤ r.temps
  held : r.value.Held r.temps e.bareRead?
  eval_eq : ∀ st, e.eval I st.env =
    (eval I (.cells I.undef) (after I st r.instrs.toList) r.value, (after I st r.instrs.toList).env)
  frame : ∀ st t, t < temps → (after I st r.instrs.toList).temps t = st.temps t

structure Flattened.ComputesAll (temps : Nat) (es : List (Unit → Expr)) (r : Flattened (List Operand)) :
    Prop where
  temps_le : temps ≤ r.temps
  eval_eq : ∀ st, Expr.evalAll I es st.env =
    (r.value.map (eval I (.cells I.undef) (after I st r.instrs.toList)),
      (after I st r.instrs.toList).env)
  frame : ∀ st t, t < temps → (after I st r.instrs.toList).temps t = st.temps t

namespace Flattened.Computes

variable {I} {temps : Nat} {e : Expr} {r : Flattened Operand}

theorem fst_eval (h : Computes I temps e r) (st : State (.cells I.undef) W) :
    (e.eval I st.env).1 = eval I (.cells I.undef) (after I st r.instrs.toList) r.value := by
  rw [h.eval_eq]

theorem snd_eval (h : Computes I temps e r) (st : State (.cells I.undef) W) :
    (e.eval I st.env).2 = (after I st r.instrs.toList).env := by
  rw [h.eval_eq]

/-- The value of an operand is still there after an operand to its right. -/
theorem eval_after (h : Computes I temps e r) {e' : Expr} {r' : Flattened Operand}
    (h' : Computes I r.temps e' r') (hsettled : ∀ x, e.bareRead? = some x → e'.assigns x = false)
    (st : State (.cells I.undef) W) :
    eval I (.cells I.undef) (after I st r'.instrs.toList) r.value =
      eval I (.cells I.undef) st r.value := by
  refine h.held.eval_eq I (h'.frame st) fun x hx => ?_
  rw [← h'.snd_eval]
  exact Expr.vars_eval_of_not_assigns I e' st.env (hsettled x hx)

theorem eval_afterAll (h : Computes I temps e r) {es : List (Unit → Expr)} {r' : Flattened (List Operand)}
    (h' : ComputesAll I r.temps es r')
    (hsettled : ∀ x, e.bareRead? = some x → Expr.assignsAny x es = false)
    (st : State (.cells I.undef) W) :
    eval I (.cells I.undef) (after I st r'.instrs.toList) r.value =
      eval I (.cells I.undef) st r.value := by
  refine h.held.eval_eq I (h'.frame st) fun x hx => ?_
  have henv : (Expr.evalAll I es st.env).2 = (after I st r'.instrs.toList).env := by rw [h'.eval_eq]
  rw [← henv]
  exact Expr.vars_evalAll_of_not_assigns I es st.env (hsettled x hx)

end Flattened.Computes

theorem Expr.not_assigns_of_settled {bare : Option VarId} {assigns : VarId → Bool}
    (h : bare.all (fun x => !assigns x) = true) : ∀ x, bare = some x → assigns x = false := by
  rintro x rfl
  simpa using h

/-! ## Flattening -/

mutual

/-- Executing the code of a settled expression has its effects, and the operand then has its value.
By induction on the expression, with one case for each kind. -/
theorem Expr.flatten_computes {numVars temps : Nat} {e : Expr} {r : Flattened Operand}
    (h : e.flatten numVars temps = .ok r) (hs : e.settled = true) : r.Computes I temps e := by
  match e with
  | .int value =>
    cases h
    exact ⟨Nat.le_refl _, trivial, fun _ => rfl, fun _ _ _ => rfl⟩
  | .var id =>
    obtain ⟨x, hx, h⟩ := Except.exists_of_bind h
    obtain ⟨rfl, -⟩ := variableRef_ok hx
    cases h
    exact ⟨Nat.le_refl _, rfl, fun _ => rfl, fun _ _ _ => rfl⟩
  | .unary op operand =>
    obtain ⟨x, hx, h⟩ := Except.exists_of_bind h
    have hoperand := Expr.flatten_computes hx hs
    cases h
    refine ⟨Nat.le_succ_of_le hoperand.temps_le, Nat.lt_succ_self _, fun st => ?_, fun st t ht => ?_⟩
    · rw [Expr.eval, hoperand.eval_eq]
      simp
    · have hne : t ≠ x.temps := Nat.ne_of_lt (Nat.lt_of_lt_of_le ht hoperand.temps_le)
      simp [hne, hoperand.frame st t ht]
  | .binary op lhs rhs =>
    rw [Expr.settled, Bool.and_eq_true, Bool.and_eq_true] at hs
    obtain ⟨x, hx, h⟩ := Except.exists_of_bind h
    obtain ⟨y, hy, h⟩ := Except.exists_of_bind h
    have hleft := Expr.flatten_computes hx hs.1.1
    have hright := Expr.flatten_computes hy hs.1.2
    -- the left operand may be a bare read, which the right one must not write
    have hstays := hleft.eval_after hright (Expr.not_assigns_of_settled hs.2)
    cases h
    have hle := Nat.le_trans hleft.temps_le hright.temps_le
    refine ⟨Nat.le_succ_of_le hle, Nat.lt_succ_self _, fun st => ?_, fun st t ht => ?_⟩
    · rw [Expr.eval, hleft.eval_eq]
      dsimp only
      rw [hright.eval_eq, ← hstays]
      simp
    · have hne : t ≠ y.temps := Nat.ne_of_lt (Nat.lt_of_lt_of_le ht hle)
      have hframe := hright.frame (after I st x.instrs.toList) t (Nat.lt_of_lt_of_le ht hleft.temps_le)
      simp [hne, hframe, hleft.frame st t ht]
  | .assign target op value =>
    obtain ⟨x, hx, h⟩ := Except.exists_of_bind h
    obtain ⟨y, hy, h⟩ := Except.exists_of_bind h
    obtain ⟨rfl, -⟩ := variableRef_ok hx
    have hvalue := Expr.flatten_computes hy hs
    cases op with
    | none =>
      cases h
      refine ⟨hvalue.temps_le, rfl, fun st => ?_, fun st t ht => ?_⟩
      · rw [Expr.eval, hvalue.eval_eq]
        simp
      · simp [hvalue.frame st t ht]
    | some op =>
      cases h
      refine ⟨Nat.le_succ_of_le hvalue.temps_le, rfl, fun st => ?_, fun st t ht => ?_⟩
      · rw [Expr.eval, hvalue.eval_eq]
        simp
      · have hne : t ≠ y.temps := Nat.ne_of_lt (Nat.lt_of_lt_of_le ht hvalue.temps_le)
        simp [hne, hvalue.frame st t ht]
  | .step target op =>
    obtain ⟨x, hx, h⟩ := Except.exists_of_bind h
    obtain ⟨rfl, -⟩ := variableRef_ok hx
    cases hold : op.yieldsOld with
    | true =>
      rw [hold] at h
      cases h
      refine ⟨Nat.le_add_right _ _, Nat.lt_add_of_pos_right Nat.two_pos, fun st => ?_, fun st t ht => ?_⟩
      · rw [Expr.eval, hold]
        simp [stepInstrs]
      · simp [stepInstrs, Nat.ne_of_lt ht, Nat.ne_of_lt (Nat.lt_succ_of_lt ht)]
    | false =>
      rw [hold] at h
      cases h
      refine ⟨Nat.le_succ _, ?_, fun st => ?_, fun st t ht => ?_⟩
      · rw [Expr.bareRead?, hold]
        rfl
      · rw [Expr.eval, hold]
        simp [stepInstrs]
      · simp [stepInstrs, Nat.ne_of_lt ht]
  | .call callee args =>
    obtain ⟨x, hx, h⟩ := Except.exists_of_bind h
    have hargs := Expr.flattenAll_computes hx hs
    cases h
    refine ⟨Nat.le_succ_of_le hargs.temps_le, Nat.lt_succ_self _, fun st => ?_, fun st t ht => ?_⟩
    · rw [Expr.eval, hargs.eval_eq]
      simp
    · have hne : t ≠ x.temps := Nat.ne_of_lt (Nat.lt_of_lt_of_le ht hargs.temps_le)
      simp [hne, hargs.frame st t ht]
  | .comma first second =>
    rw [Expr.settled, Bool.and_eq_true] at hs
    obtain ⟨x, hx, h⟩ := Except.exists_of_bind h
    obtain ⟨y, hy, h⟩ := Except.exists_of_bind h
    have hfirst := Expr.flatten_computes hx hs.1
    have hsecond := Expr.flatten_computes hy hs.2
    cases h
    refine ⟨Nat.le_trans hfirst.temps_le hsecond.temps_le, hsecond.held, fun st => ?_, fun st t ht => ?_⟩
    · rw [Expr.eval, hfirst.snd_eval, hsecond.eval_eq]
      simp
    · have hframe := hsecond.frame (after I st x.instrs.toList) t (Nat.lt_of_lt_of_le ht hfirst.temps_le)
      simp [hframe, hfirst.frame st t ht]
  | .error span => exact nomatch h
  | .absent => exact nomatch h

theorem Expr.flattenAll_computes {numVars temps : Nat} {es : List (Unit → Expr)}
    {r : Flattened (List Operand)} (h : Expr.flattenAll numVars temps es = .ok r)
    (hs : Expr.settledAll es = true) : r.ComputesAll I temps es := by
  match es with
  | [] =>
    cases h
    exact ⟨Nat.le_refl _, fun _ => rfl, fun _ _ _ => rfl⟩
  | e :: es =>
    rw [Expr.settledAll, Bool.and_eq_true, Bool.and_eq_true] at hs
    obtain ⟨x, hx, h⟩ := Except.exists_of_bind h
    obtain ⟨y, hy, h⟩ := Except.exists_of_bind h
    have hhead := Expr.flatten_computes hx hs.1.1
    have hrest := Expr.flattenAll_computes hy hs.1.2
    have hstays := hhead.eval_afterAll hrest (Expr.not_assigns_of_settled hs.2)
    cases h
    refine ⟨Nat.le_trans hhead.temps_le hrest.temps_le, fun st => ?_, fun st t ht => ?_⟩
    · rw [Expr.evalAll, hhead.eval_eq]
      dsimp only
      rw [hrest.eval_eq, ← hstays]
      simp
    · have hframe := hrest.frame (after I st x.instrs.toList) t (Nat.lt_of_lt_of_le ht hhead.temps_le)
      simp [hframe, hhead.frame st t ht]

end

end SsaFlow
