-- SUMMARY: Branch-free instructions: what they read, what they write, and replacing their operands.
import SsaFlow.Graph.Value
import SsaFlow.Source.Name
import SsaFlow.Source.Operator

/-!
# Instructions

One instruction is one operation inside a block. Parameters and assignments write a source variable, the
computing instructions write a temporary, and `declare` marks where a variable comes into scope without
writing anything. Operands are listed in evaluation order; `Instr.replaceOperands` replaces them in that
order and stops at the first one that cannot be replaced.
-/

namespace SsaFlow

/-- A branch-free operation inside a block. -/
inductive Instr where
  /-- Binds an incoming argument to a variable. -/
  | param (dst : VersionedVar) (index : Nat)
  /-- Marks where a variable comes into scope. -/
  | declare (var : VarId)
  /-- Writes a source variable. -/
  | assign (dst : VersionedVar) (value : Operand)
  /-- Keeps a value in a temporary. -/
  | copy (dst : TempId) (src : Operand)
  | unary (dst : TempId) (op : UnaryOp) (operand : Operand)
  | binary (dst : TempId) (op : BinaryOp) (lhs rhs : Operand)
  | call (dst : TempId) (callee : Name) (args : List Operand)
deriving DecidableEq, Inhabited

/-- Replaces the elements of a list from the left until one cannot be replaced; that one and those
after it stay, and the reason is returned. -/
def replaceUntil {α ε : Type} (f : α → Except ε α) : List α → List α × Option ε
  | [] => ([], none)
  | x :: xs =>
    match f x with
    | .error e => (x :: xs, some e)
    | .ok y =>
      let (ys, e) := replaceUntil f xs
      (y :: ys, e)

namespace Instr

/-- The source variable that the instruction writes. -/
def defined? : Instr → Option VersionedVar
  | .param dst _ | .assign dst _ => some dst
  | _ => none

def temp? : Instr → Option TempId
  | .copy dst _ | .unary dst _ _ | .binary dst _ _ _ | .call dst _ _ => some dst
  | _ => none

/-- Replaces the source variable that the instruction writes. -/
def mapDefined (f : VersionedVar → VersionedVar) : Instr → Instr
  | .param dst index => .param (f dst) index
  | .assign dst value => .assign (f dst) value
  | i => i

/-- The operands in evaluation order. -/
def operands : Instr → List Operand
  | .param .. | .declare _ => []
  | .assign _ op | .copy _ op | .unary _ _ op => [op]
  | .binary _ _ lhs rhs => [lhs, rhs]
  | .call _ _ args => args

/-- The variables read, in evaluation order. -/
def used (i : Instr) : List VersionedVar := i.operands.filterMap Operand.var?

def mapOperands (f : Operand → Operand) : Instr → Instr
  | .assign dst value => .assign dst (f value)
  | .copy dst src => .copy dst (f src)
  | .unary dst op operand => .unary dst op (f operand)
  | .binary dst op lhs rhs => .binary dst op (f lhs) (f rhs)
  | .call dst callee args => .call dst callee (args.map f)
  | i => i

/-- Replaces the operands in evaluation order until one cannot be replaced; that one and those after
it stay, and the reason is returned. -/
def replaceOperands {ε : Type} (f : Operand → Except ε Operand) : Instr → Instr × Option ε
  | .assign dst value =>
    match f value with
    | .ok value' => (.assign dst value', none)
    | .error e => (.assign dst value, some e)
  | .copy dst src =>
    match f src with
    | .ok src' => (.copy dst src', none)
    | .error e => (.copy dst src, some e)
  | .unary dst op operand =>
    match f operand with
    | .ok operand' => (.unary dst op operand', none)
    | .error e => (.unary dst op operand, some e)
  | .binary dst op lhs rhs =>
    match f lhs with
    | .error e => (.binary dst op lhs rhs, some e)
    | .ok lhs' =>
      match f rhs with
      | .error e => (.binary dst op lhs' rhs, some e)
      | .ok rhs' => (.binary dst op lhs' rhs', none)
  | .call dst callee args =>
    let (args', e) := replaceUntil f args
    (.call dst callee args', e)
  | i => (i, none)

def text : Instr → String
  | .param dst index => s!"{dst} = param {index}"
  | .declare var =>
    let var := showVar var
    s!"declare {var}"
  | .assign dst value => s!"{dst} = {value}"
  | .copy dst src =>
    let dst := showTemp dst
    s!"{dst} = copy {src}"
  | .unary dst op operand =>
    let dst := showTemp dst
    s!"{dst} = {op}{operand}"
  | .binary dst op lhs rhs =>
    let dst := showTemp dst
    s!"{dst} = {lhs} {op} {rhs}"
  | .call dst callee args =>
    let dst := showTemp dst
    let raw := callee.raw
    let args := commaSeparated (args.map Operand.text)
    s!"{dst} = call @{raw}({args})"

instance : ToString Instr := ⟨text⟩

end Instr

end SsaFlow
