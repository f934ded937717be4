-- SUMMARY: Flattening an expression into instructions, operands evaluated left to right.
import SsaFlow.Error
import SsaFlow.Graph.Instr
import SsaFlow.Source.Tree

/-!
# Flattening expressions

An expression becomes a sequence of instructions and an operand that holds its value. Operands are
evaluated from left to right, and every intermediate result gets the next temporary. The value of an
assignment is a read of the variable that was assigned; a postfix step keeps the old value in a
temporary first.
-/

namespace SsaFlow

/-- Why a function cannot be built. -/
inductive BuildError where
  | internal (e : InternalError)
  /-- A node names a part that the tables do not hold. -/
  | absentNode
  /-- A block that has a jump was to be ended once more. -/
  | closedTwice (block : BlockId)
deriving DecidableEq

/-- The instructions of an expression, the operand with its value, and the number of temporaries in
use afterwards. -/
structure Flattened (α : Type) where
  instrs : Array Instr
  value : α
  temps : Nat
deriving DecidableEq

/-- An unbound reference to a variable of a table of the given size. -/
def variableRef (numVars : Nat) (var : VarId) : Except BuildError VersionedVar :=
  if var < numVars then .ok (.unbound var) else .error (.internal (.unknownVariable var))

/-- Reads the variable, combines it with one, and writes it back. -/
def stepInstrs (target : VersionedVar) (op : StepOp) (temp : TempId) : Array Instr :=
  #[.binary temp op.op (.var target) (.const 1), .assign target (.temp temp)]

mutual

/-- Flattens an expression; `temps` temporaries are in use before it. -/
def Expr.flatten (numVars temps : Nat) : Expr → Except BuildError (Flattened Operand)
  | .int value => .ok ⟨#[], .const value, temps⟩
  | .var id => do
    let v ← variableRef numVars id
    return ⟨#[], .var v, temps⟩
  | .unary op operand => do
    let ⟨instrs, value, temps⟩ ← (operand ()).flatten numVars temps
    return ⟨instrs.push (.unary temps op value), .temp temps, temps + 1⟩
  | .binary op lhs rhs => do
    let ⟨left, l, temps⟩ ← (lhs ()).flatten numVars temps
    let ⟨right, r, temps⟩ ← (rhs ()).flatten numVars temps
    return ⟨(left ++ right).push (.binary temps op l r), .temp temps, temps + 1⟩
  | .assign target op value => do
    let v ← variableRef numVars target
    let ⟨instrs, value, temps⟩ ← (value ()).flatten numVars temps
    match op with
    | none => return ⟨instrs.push (.assign v value), .var v, temps⟩
    | some op =>
      return ⟨(instrs.push (.binary temps op (.var v) value)).push (.assign v (.temp temps)), .var v,
        temps + 1⟩
  | .step target op => do
    let v ← variableRef numVars target
    if op.yieldsOld then
      return ⟨#[.copy temps (.var v)] ++ stepInstrs v op (temps + 1), .temp temps, temps + 2⟩
    else
      return ⟨stepInstrs v op temps, .var v, temps + 1⟩
  | .call callee args => do
    let ⟨instrs, args, temps⟩ ← Expr.flattenAll numVars temps args
    return ⟨instrs.push (.call temps callee args), .temp temps, temps + 1⟩
  | .comma first second => do
    let ⟨before, _, temps⟩ ← (first ()).flatten numVars temps
    let ⟨after, value, temps⟩ ← (second ()).flatten numVars temps
    return ⟨before ++ after, value, temps⟩
  | .error span => .error (.internal (.errorNode span))
  | .absent => .error .absentNode

def Expr.flattenAll (numVars temps : Nat) :
    List (Unit → Expr) → Except BuildError (Flattened (List Operand))
  | [] => .ok ⟨#[], [], temps⟩
  | e :: es => do
    let ⟨instrs, value, temps⟩ ← (e ()).flatten numVars temps
    let ⟨rest, values, temps⟩ ← Expr.flattenAll numVars temps es
    return ⟨instrs ++ rest, value :: values, temps⟩

end

end SsaFlow
