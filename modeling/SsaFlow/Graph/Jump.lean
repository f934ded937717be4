-- SUMMARY: Jumps: how control leaves a block, over live edges and towards shadow blocks.
import SsaFlow.Graph.IdSet
import SsaFlow.Graph.Instr

/-!
# Jumps

A jump ends a block. Jumps that always leave (`return`, `break`, `continue`, `goto`) also name a
*shadow*: a block that takes in whatever code follows the statement and that control never enters. The
shadow is a successor like the others, so that it hangs on the graph, but it is not a live one.
-/

namespace SsaFlow

/-- How control leaves a block. -/
inductive Jump where
  /-- Not decided yet. -/
  | missing
  | goto (target : BlockId)
  | branch (cond : Operand) (thenBlock elseBlock : BlockId)
  /-- Leaves the function; the shadow is never entered. -/
  | ret (shadow : BlockId) (value : Option Operand)
  /-- Goes to the target; the shadow takes in the code that follows. -/
  | transfer (target shadow : BlockId)
  | select (value : Operand) (options : List (Int × BlockId)) (default : BlockId)
deriving DecidableEq, Inhabited

namespace Jump

/-- The blocks that control can go to, each once. -/
def targets : Jump → List BlockId
  | .missing | .ret .. => []
  | .goto target | .transfer target _ => [target]
  | .branch _ thenBlock elseBlock =>
    if thenBlock = elseBlock then [thenBlock] else [thenBlock, elseBlock]
  | .select _ options default => IdSet.firstsOf ∅ (options.map Prod.snd ++ [default])

/-- The block that takes in the code after an always-taken jump. -/
def shadow? : Jump → Option BlockId
  | .ret shadow _ | .transfer _ shadow => some shadow
  | _ => none

/-- Every block that the jump names, the shadow last. -/
def successors (j : Jump) : List BlockId := j.targets ++ j.shadow?.toList

def goesTo (j : Jump) (b : BlockId) : Bool :=
  match j with
  | .missing | .ret .. => false
  | .goto target | .transfer target _ => b == target
  | .branch _ thenBlock elseBlock => b == thenBlock || b == elseBlock
  | .select _ options default => options.any (fun o => b == o.2) || b == default

def isShadow (j : Jump) (b : BlockId) : Bool := j.shadow? == some b

/-- The one block that control always goes to. -/
def onlyTarget? : Jump → Option BlockId
  | .goto target | .transfer target _ => some target
  | _ => none

/-- Sends every live reference to `src` to `dst` instead; the shadow stays. -/
def redirect (src dst : BlockId) : Jump → Jump
  | .missing => .missing
  | .goto target => .goto (swap target)
  | .branch cond thenBlock elseBlock => .branch cond (swap thenBlock) (swap elseBlock)
  | .ret shadow value => .ret shadow value
  | .transfer target shadow => .transfer (swap target) shadow
  | .select value options default =>
    .select value (options.map fun (v, b) => (v, swap b)) (swap default)
where
  /-- The new target of one reference. -/
  swap (b : BlockId) : BlockId := if b = src then dst else b

/-- The value that the jump reads. -/
def operand? : Jump → Option Operand
  | .branch cond _ _ => some cond
  | .select value _ _ => some value
  | .ret _ value => value
  | .missing | .goto _ | .transfer .. => none

def used? (j : Jump) : Option VersionedVar := j.operand?.bind Operand.var?

/-- Replaces the value that the jump reads, if it reads one. -/
def mapOperand (f : Operand → Operand) : Jump → Jump
  | .branch cond thenBlock elseBlock => .branch (f cond) thenBlock elseBlock
  | .select value options default => .select (f value) options default
  | .ret shadow value => .ret shadow (value.map f)
  | j => j

/-- Whether the block is still open. -/
def isMissing : Jump → Bool
  | .missing => true
  | _ => false

def kind : Jump → String
  | .missing => "missing"
  | .goto _ => "unconditional"
  | .branch .. => "conditional"
  | .ret .. => "impossible"
  | .transfer .. => "constant"
  | .select .. => "select"

def optionText : Int × BlockId → String
  | (value, target) =>
    let target := showBlock target
    s!"{value}: {target}, "

def text : Jump → String
  | .missing => "<missing>"
  | .goto target => "jump " ++ showBlock target
  | .branch cond thenBlock elseBlock =>
    let thenBlock := showBlock thenBlock
    let elseBlock := showBlock elseBlock
    s!"branch {cond}, {thenBlock}, {elseBlock}"
  | .ret shadow none =>
    let shadow := showBlock shadow
    s!"return (dead {shadow})"
  | .ret shadow (some value) =>
    let shadow := showBlock shadow
    s!"return {value} (dead {shadow})"
  | .transfer target shadow =>
    let target := showBlock target
    let shadow := showBlock shadow
    s!"jump {target} (dead {shadow})"
  | .select value options default =>
    let options := String.join (options.map optionText)
    let default := showBlock default
    s!"select {value} [{options}default: {default}]"

instance : ToString Jump := ⟨text⟩

/-! ## Successors -/

theorem mem_successors {j : Jump} {b : BlockId} :
    b ∈ j.successors ↔ b ∈ j.targets ∨ j.shadow? = some b := by
  simp [successors]

theorem mem_targets_select {value : Operand} {options : List (Int × BlockId)} {default b : BlockId} :
    b ∈ (select value options default).targets ↔ (∃ o ∈ options, b = o.2) ∨ b = default := by
  simp [targets, IdSet.mem_firstsOf, eq_comm]

/-- Every target is listed once. -/
theorem nodup_targets (j : Jump) : j.targets.Nodup := by
  cases j with
  | branch cond t e =>
    rw [targets]
    split <;> simp_all
  | select value options default => exact IdSet.nodup_firstsOf _ _
  | _ => simp [targets]

theorem goesTo_iff {j : Jump} {b : BlockId} : j.goesTo b = true ↔ b ∈ j.targets := by
  cases j with
  | branch cond t e =>
    rw [targets]
    split <;> simp_all [goesTo]
  | select value options default => simp [goesTo, mem_targets_select]
  | _ => simp [goesTo, targets]

/-- Whichever way a branch takes, it takes a target. -/
theorem ite_mem_targets (cond : Operand) (t e : BlockId) (c : Bool) :
    (if c then t else e) ∈ (branch cond t e).targets := by
  rw [← goesTo_iff]
  cases c <;> simp [goesTo]

/-- Whichever case a selection takes, it takes a target. -/
theorem find?_mem_targets (value : Operand) (options : List (Int × BlockId)) (default : BlockId)
    (p : Int × BlockId → Bool) :
    ((options.find? p).map Prod.snd).getD default ∈ (select value options default).targets := by
  rw [mem_targets_select]
  cases ho : options.find? p with
  | none => exact .inr rfl
  | some o => exact .inl ⟨o, List.mem_of_find?_eq_some ho, rfl⟩

end Jump

end SsaFlow
