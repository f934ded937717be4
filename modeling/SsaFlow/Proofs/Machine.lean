-- SUMMARY: Running flow graphs: an interpretation of operators, two ways to store variables, and runs with their traces.
import Mathlib
import SsaFlow.Graph.Basic

/-!
# Running flow graphs

An interpretation says what constants, operators, parameters and calls mean; calls also read and change
a world, so that any effect can be told apart. How the values of variables are kept is a parameter of the
machine: with `Storage.cells` there is one cell per variable, and with `Storage.registers` one register
per version, where phis are followed along the edge taken.

A run is cut off after a number of blocks. Its trace lists the blocks it passes, with every value that is
read on the way.
-/

namespace SsaFlow

/-- What the operations of a graph mean. -/
structure Interp (V W : Type) where
  /-- The value of a variable that nothing was written to. -/
  undef : V
  const : Int → V
  unary : UnaryOp → V → V
  binary : BinaryOp → V → V → V
  param : Nat → V
  call : Name → List V → W → V × W
  /-- Which way a branch takes. -/
  truthy : V → Bool
  /-- Whether a selection takes the case of a number. -/
  isCase : V → Int → Bool

/-- A way to keep the values of variables. -/
structure Storage (V : Type) where
  Store : Type
  start : Store
  read : Store → VersionedVar → V
  write : Store → VersionedVar → V → Store
  /-- A variable comes into scope. -/
  declare : Store → VarId → Store
  /-- Control goes from a block to one with the given phis. -/
  follow : Store → BlockId → List Phi → Store

namespace Storage

variable {V : Type}

/-- One cell per variable; a declaration clears it. -/
def cells (undef : V) : Storage V where
  Store := VarId → V
  start := fun _ => undef
  read σ x := σ x.var
  write σ x a := Function.update σ x.var a
  declare σ v := Function.update σ v undef
  follow σ _ _ := σ

/-- The value of a version; no definition has been bound to version 0. -/
def readRegister (undef : V) (σ : VersionedVar → V) (x : VersionedVar) : V :=
  if x.version = 0 then undef else σ x

/-- One register per version. The phis of a block read the slots of the edge taken, all at once. -/
def registers (undef : V) : Storage V where
  Store := VersionedVar → V
  start := fun _ => undef
  read := readRegister undef
  write σ x a := Function.update σ x a
  declare σ _ := σ
  follow σ source phis := fun x =>
    match phis.find? fun φ => φ.target = x with
    | none => σ x
    | some φ => readRegister undef σ ((φ.incoming? source).getD (.unbound x.var))

end Storage

namespace Machine

variable {V W : Type}

/-- What a run holds between two instructions. -/
structure State (S : Storage V) (W : Type) where
  store : S.Store
  temps : TempId → V
  world : W

/-- One block as a run passes it: the values that each instruction and the jump read. -/
structure Passage (V : Type) where
  block : BlockId
  reads : List (List V)
  exit : Option V

/-- How a run ends. -/
inductive Outcome (V : Type) where
  | returned (value : Option V)
  /-- The jump of a block is missing. -/
  | undecided
  /-- The run was cut off. -/
  | running

/-- Where control goes at the end of a block. -/
inductive Exit (V : Type) where
  | goto (target : BlockId)
  | ret (value : Option V)
  | undecided

variable (I : Interp V W) (S : Storage V)

def eval (st : State S W) : Operand → V
  | .const c => I.const c
  | .temp t => st.temps t
  | .var x => S.read st.store x

def exec (st : State S W) : Instr → State S W
  | .param dst idx => { st with store := S.write st.store dst (I.param idx) }
  | .declare v => { st with store := S.declare st.store v }
  | .assign dst op => { st with store := S.write st.store dst (eval I S st op) }
  | .copy t op => { st with temps := Function.update st.temps t (eval I S st op) }
  | .unary t o op => { st with temps := Function.update st.temps t (I.unary o (eval I S st op)) }
  | .binary t o lhs rhs =>
    { st with temps := Function.update st.temps t (I.binary o (eval I S st lhs) (eval I S st rhs)) }
  | .call t callee args =>
    let r := I.call callee (args.map (eval I S st)) st.world
    { st with temps := Function.update st.temps t r.1, world := r.2 }

/-- Executes instructions and lists the values that they read. -/
def execAll (st : State S W) : List Instr → List (List V) × State S W
  | [] => ([], st)
  | i :: is =>
    let (reads, st') := execAll (exec I S st i) is
    (i.operands.map (eval I S st) :: reads, st')

def exit (st : State S W) : Jump → Exit V
  | .missing => .undecided
  | .goto target | .transfer target _ => .goto target
  | .branch cond t e => .goto (if I.truthy (eval I S st cond) then t else e)
  | .ret _ value => .ret (value.map (eval I S st))
  | .select value options default =>
    .goto (((options.find? fun o => I.isCase (eval I S st value) o.1).map Prod.snd).getD default)

/-- Runs a graph from a block on, through at most `fuel` blocks. -/
def run (g : FlowGraph) : (fuel : Nat) → BlockId → State S W → List (Passage V) × Outcome V × W
  | 0, _, st => ([], .running, st.world)
  | fuel + 1, b, st =>
    let (reads, st') := execAll I S st (g.block b).instrs.toList
    let passage : Passage V := ⟨b, reads, (g.jump b).operand?.map (eval I S st')⟩
    match exit I S st' (g.jump b) with
    | .ret value => ([passage], .returned value, st'.world)
    | .undecided => ([passage], .undecided, st'.world)
    | .goto c =>
      let (rest, result) := run g fuel c { st' with store := S.follow st'.store b (g.block c).phis }
      (passage :: rest, result)

def start (world : W) : State S W := ⟨S.start, fun _ => I.undef, world⟩

def runGraph (g : FlowGraph) (fuel : Nat) (world : W) : List (Passage V) × Outcome V × W :=
  run I S g fuel FlowGraph.entry (start I S world)

/-- Control goes to a target of the jump. -/
theorem mem_targets_of_exit {st : State S W} {j : Jump} {c : BlockId} (h : exit I S st j = .goto c) :
    c ∈ j.targets := by
  cases j with
  | missing | ret _ _ => exact nomatch h
  | goto t | transfer t _ =>
    cases h
    exact List.mem_singleton_self _
  | branch cond t e =>
    cases h
    exact Jump.ite_mem_targets _ _ _ _
  | select value options default =>
    cases h
    exact Jump.find?_mem_targets _ _ _ _

end Machine

end SsaFlow
