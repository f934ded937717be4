-- SUMMARY: Lowered graphs are fresh, control enters no shadow, code keeps to the variables, and no block is open.
import SsaFlow.Proofs.Linked
import SsaFlow.Proofs.LoweringSteps
import SsaFlow.Proofs.WellFormed

/-!
# Lowered graphs

Lowering starts from a new graph and takes steps that all keep it sound: edges are consistent, nothing is
removed, there are no phis, and code and jumps mention variables of the function only. Which blocks there
are only grows, so a block that was made, or that belongs to a label, stays a block of the graph.

The shadow of a jump is made together with the jump, and no other jump goes to it. So the blocks that
control can go to (`FlowGraph.Landing`) and the shadows stay apart.

Lowering a statement lowers its parts on the way, each of them from a sound state of its own
(`Lowering.PartsDone`). What is then said of one statement can be said of all statements below it.
-/

namespace SsaFlow

theorem Except.exists_of_bind {ε α β : Type} {x : Except ε α} {f : α → Except ε β} {b : β}
    (h : (x >>= f) = .ok b) : ∃ a, x = .ok a ∧ f a = .ok b := by
  cases x with
  | error e => exact nomatch h
  | ok a => exact ⟨a, rfl, h⟩

theorem Except.exists_ok_of_decide {ε α : Type} {x : Except ε α} {P : α → Prop} [DecidablePred P]
    (h : (match x with | .error _ => false | .ok a => decide (P a)) = true) : ∃ a, x = .ok a ∧ P a := by
  cases x with
  | error e => exact nomatch h
  | ok a => exact ⟨a, rfl, of_decide_eq_true h⟩

/-! ## Expressions -/

/-- The operand reads a variable below `n`, if it reads one. -/
def Operand.VarsBelow (n : Nat) (op : Operand) : Prop := ∀ v ∈ op.varId?, v < n

/-- The instruction mentions variables below `n` only. -/
def Instr.VarsBelow (n : Nat) (i : Instr) : Prop := ∀ v ∈ i.mentions, v < n

theorem Operand.varsBelow_temp (n : Nat) (t : TempId) : (Operand.temp t).VarsBelow n :=
  fun _ hv => nomatch hv

theorem Operand.varsBelow_const (n : Nat) (c : Int) : (Operand.const c).VarsBelow n :=
  fun _ hv => nomatch hv

theorem Operand.varsBelow_var {n : Nat} {x : VersionedVar} (hx : x.var < n) : (Operand.var x).VarsBelow n := by
  intro v hv
  cases hv
  exact hx

theorem Instr.varsBelow_iff {n : Nat} {i : Instr} :
    i.VarsBelow n ↔ (∀ v, i.subject? = some v → v < n) ∧ ∀ op ∈ i.operands, op.VarsBelow n := by
  simp only [VarsBelow, mentions, reads, List.mem_append, Option.mem_toList, List.mem_filterMap]
  constructor
  · intro h
    exact ⟨fun v hv => h v (.inl hv), fun op hop v hv => h v (.inr ⟨op, hop, hv⟩)⟩
  · rintro ⟨hsub, hops⟩ v (hv | ⟨op, hop, hv⟩)
    · exact hsub v hv
    · exact hops op hop v hv

theorem Instr.varsBelow_of_operands {n : Nat} {i : Instr} (hi : i.subject? = none)
    (hops : ∀ op ∈ i.operands, op.VarsBelow n) : i.VarsBelow n :=
  varsBelow_iff.mpr ⟨fun _ hv => (nomatch hi.symm.trans hv), hops⟩

theorem Instr.varsBelow_assign {n : Nat} {x : VersionedVar} {op : Operand} (hx : x.var < n)
    (hop : op.VarsBelow n) : (Instr.assign x op).VarsBelow n := by
  refine varsBelow_iff.mpr ⟨fun v hv => ?_, List.forall_mem_singleton.mpr hop⟩
  cases hv
  exact hx

theorem stepInstrs_varsBelow {n : Nat} {x : VersionedVar} (hx : x.var < n) (op : StepOp) (temp : TempId) :
    ∀ i ∈ stepInstrs x op temp, i.VarsBelow n := by
  simp only [stepInstrs, Array.mem_def, List.forall_mem_cons]
  refine ⟨Instr.varsBelow_of_operands rfl ?_, Instr.varsBelow_assign hx (Operand.varsBelow_temp n temp), nofun⟩
  exact List.forall_mem_cons.mpr
    ⟨Operand.varsBelow_var hx, List.forall_mem_singleton.mpr (Operand.varsBelow_const n 1)⟩

theorem variableRef_ok {numVars : Nat} {var : VarId} {x : VersionedVar} (h : variableRef numVars var = .ok x) :
    x = .unbound var ∧ var < numVars := by
  rw [variableRef] at h
  split at h
  · next hlt =>
    cases h
    exact ⟨rfl, hlt⟩
  · exact nomatch h

/-- The code of an expression and the operand with its value keep to the variables of the function. -/
structure Flattened.VarsBelow {α : Type} (n : Nat) (value : α → Prop) (r : Flattened α) : Prop where
  instrs : ∀ i ∈ r.instrs, i.VarsBelow n
  value : value r.value

theorem Flattened.varsBelow_nil {α : Type} {n temps : Nat} {value : α → Prop} {a : α} (ha : value a) :
    VarsBelow n value ⟨#[], a, temps⟩ := ⟨nofun, ha⟩

theorem Instr.varsBelow_push {n : Nat} {is : Array Instr} {i : Instr} (his : ∀ j ∈ is, j.VarsBelow n)
    (hi : i.VarsBelow n) : ∀ j ∈ is.push i, j.VarsBelow n := by
  intro j hj
  rcases Array.mem_push.mp hj with hj | rfl
  · exact his j hj
  · exact hi

theorem Instr.varsBelow_append {n : Nat} {is js : Array Instr} (his : ∀ i ∈ is, i.VarsBelow n)
    (hjs : ∀ i ∈ js, i.VarsBelow n) : ∀ i ∈ is ++ js, i.VarsBelow n := by
  intro i hi
  rcases Array.mem_append.mp hi with hi | hi
  · exact his i hi
  · exact hjs i hi

mutual

/-- The code of an expression keeps to the variables of the function. -/
theorem Expr.flatten_varsBelow {numVars temps : Nat} {e : Expr} {r : Flattened Operand}
    (h : e.flatten numVars temps = .ok r) : r.VarsBelow numVars (Operand.VarsBelow numVars) := by
  match e with
  | .int value =>
    cases h
    exact Flattened.varsBelow_nil (Operand.varsBelow_const _ _)
  | .var id =>
    obtain ⟨x, hx, h⟩ := Except.exists_of_bind h
    obtain ⟨rfl, hlt⟩ := variableRef_ok hx
    cases h
    exact Flattened.varsBelow_nil (Operand.varsBelow_var hlt)
  | .unary op operand =>
    obtain ⟨x, hx, h⟩ := Except.exists_of_bind h
    have hoperand := Expr.flatten_varsBelow hx
    cases h
    refine ⟨Instr.varsBelow_push hoperand.instrs ?_, Operand.varsBelow_temp _ _⟩
    exact Instr.varsBelow_of_operands rfl (List.forall_mem_singleton.mpr hoperand.value)
  | .binary op lhs rhs =>
    obtain ⟨x, hx, h⟩ := Except.exists_of_bind h
    obtain ⟨y, hy, h⟩ := Except.exists_of_bind h
    have hleft := Expr.flatten_varsBelow hx
    have hright := Expr.flatten_varsBelow hy
    cases h
    refine ⟨Instr.varsBelow_push (Instr.varsBelow_append hleft.instrs hright.instrs) ?_,
      Operand.varsBelow_temp _ _⟩
    exact Instr.varsBelow_of_operands rfl
      (List.forall_mem_cons.mpr ⟨hleft.value, List.forall_mem_singleton.mpr hright.value⟩)
  | .assign target op value =>
    obtain ⟨x, hx, h⟩ := Except.exists_of_bind h
    obtain ⟨y, hy, h⟩ := Except.exists_of_bind h
    obtain ⟨rfl, hlt⟩ := variableRef_ok hx
    have hvalue := Expr.flatten_varsBelow hy
    cases op with
    | none =>
      cases h
      refine ⟨Instr.varsBelow_push hvalue.instrs ?_, Operand.varsBelow_var hlt⟩
      exact Instr.varsBelow_assign hlt hvalue.value
    | some op =>
      cases h
      refine ⟨Instr.varsBelow_push (Instr.varsBelow_push hvalue.instrs ?_) ?_, Operand.varsBelow_var hlt⟩
      · exact Instr.varsBelow_of_operands rfl
          (List.forall_mem_cons.mpr ⟨Operand.varsBelow_var hlt, List.forall_mem_singleton.mpr hvalue.value⟩)
      · exact Instr.varsBelow_assign hlt (Operand.varsBelow_temp _ _)
  | .step target op =>
    obtain ⟨x, hx, h⟩ := Except.exists_of_bind h
    obtain ⟨rfl, hlt⟩ := variableRef_ok hx
    have hread : (Operand.var (.unbound target)).VarsBelow numVars := Operand.varsBelow_var hlt
    split at h
    · cases h
      refine ⟨Instr.varsBelow_append ?_ (stepInstrs_varsBelow hlt op _), Operand.varsBelow_temp _ _⟩
      intro i hi
      rw [List.mem_singleton.mp (Array.mem_toList_iff.mpr hi)]
      exact Instr.varsBelow_of_operands rfl (List.forall_mem_singleton.mpr hread)
    · cases h
      exact ⟨stepInstrs_varsBelow hlt op _, hread⟩
  | .call callee args =>
    obtain ⟨x, hx, h⟩ := Except.exists_of_bind h
    have hargs := Expr.flattenAll_varsBelow hx
    cases h
    refine ⟨Instr.varsBelow_push hargs.instrs ?_, Operand.varsBelow_temp _ _⟩
    exact Instr.varsBelow_of_operands rfl hargs.value
  | .comma first second =>
    obtain ⟨x, hx, h⟩ := Except.exists_of_bind h
    obtain ⟨y, hy, h⟩ := Except.exists_of_bind h
    have hfirst := Expr.flatten_varsBelow hx
    have hsecond := Expr.flatten_varsBelow hy
    cases h
    exact ⟨Instr.varsBelow_append hfirst.instrs hsecond.instrs, hsecond.value⟩
  | .error span | .absent => exact nomatch h

theorem Expr.flattenAll_varsBelow {numVars temps : Nat} {es : List (Unit → Expr)}
    {r : Flattened (List Operand)} (h : Expr.flattenAll numVars temps es = .ok r) :
    r.VarsBelow numVars fun ops => ∀ op ∈ ops, op.VarsBelow numVars := by
  match es with
  | [] =>
    cases h
    exact Flattened.varsBelow_nil nofun
  | e :: es =>
    obtain ⟨x, hx, h⟩ := Except.exists_of_bind h
    obtain ⟨y, hy, h⟩ := Except.exists_of_bind h
    have hfirst := Expr.flatten_varsBelow hx
    have hrest := Expr.flattenAll_varsBelow hy
    cases h
    exact ⟨Instr.varsBelow_append hfirst.instrs hrest.instrs, List.forall_mem_cons.mpr ⟨hfirst.value, hrest.value⟩⟩

end

/-! ## Shadows -/

namespace FlowGraph

/-- A block that control may be sent to. -/
structure Landing (g : FlowGraph) (b : BlockId) : Prop where
  lt : b < g.size
  ne_entry : b ≠ entry
  noShadow : ∀ p, (g.jump p).shadow? ≠ some b

/-- Control goes neither to the entry nor to a shadow, and the entry is no shadow. -/
structure Apart (g : FlowGraph) : Prop where
  landing : ∀ {p t : BlockId}, g.Edge p t → g.Landing t
  entry : ∀ p, (g.jump p).shadow? ≠ some entry

variable {g : FlowGraph}

theorem apart_new (numVars : Nat) : (new numVars).Apart := by
  have hjump : ∀ p, (new numVars).jump p = .missing := by
    intro p
    rcases Nat.eq_zero_or_pos p with rfl | hp
    · rfl
    · exact jump_of_size_le hp
  refine ⟨fun {p t} he => ?_, fun p => ?_⟩
  · rw [Edge, targets, hjump] at he
    exact nomatch he
  · rw [hjump]
    exact nofun

/-- Which blocks are kept apart is a matter of the jumps alone. -/
theorem Landing.of_jumps {g' : FlowGraph} {b : BlockId} (h : g.Landing b) (hsize : g.size ≤ g'.size)
    (hjump : ∀ p, g'.jump p = g.jump p) : g'.Landing b :=
  ⟨Nat.lt_of_lt_of_le h.lt hsize, h.ne_entry, fun p => hjump p ▸ h.noShadow p⟩

theorem Apart.of_jumps {g' : FlowGraph} (h : g.Apart) (hsize : g.size ≤ g'.size)
    (hjump : ∀ p, g'.jump p = g.jump p) : g'.Apart := by
  refine ⟨fun {p t} he => ?_, fun p => hjump p ▸ h.entry p⟩
  rw [Edge, targets, hjump] at he
  exact (h.landing he).of_jumps hsize hjump

theorem Landing.setJump {c : BlockId} (h : g.Landing c) (b : BlockId) {j : Jump}
    (hj : j.shadow? ≠ some c) : (g.setJump b j).Landing c := by
  refine ⟨?_, h.ne_entry, fun p => ?_⟩
  · rw [size_setJump]
    exact h.lt
  · rw [jump_setJump]
    split
    · exact hj
    · exact h.noShadow p

/-- A jump to landing blocks, with a shadow that nothing leads to, keeps control off the shadows. -/
theorem Apart.setJump (h : g.Apart) (b : BlockId) {j : Jump}
    (htargets : ∀ c ∈ j.targets, g.Landing c ∧ j.shadow? ≠ some c)
    (hshadow : ∀ c, j.shadow? = some c → c ≠ FlowGraph.entry ∧ ∀ p, ¬ g.Edge p c) :
    (g.setJump b j).Apart := by
  refine ⟨fun {p t} he => ?_, fun p => ?_⟩
  · rw [Edge, targets, jump_setJump] at he
    split at he
    · obtain ⟨hlanding, hne⟩ := htargets t he
      exact hlanding.setJump b hne
    · exact (h.landing he).setJump b fun hs => (hshadow t hs).2 p he
  · rw [jump_setJump]
    split
    · exact fun hs => (hshadow _ hs).1 rfl
    · exact h.entry p

end FlowGraph

/-! ## Steps of lowering -/

/-- What holds of the graph under construction. -/
structure LoweringState.Sound (s : LoweringState) : Prop extends s.graph.Fresh where
  jumpVars : ∀ b, ∀ v ∈ (s.graph.jump b).reads, v < s.graph.numVars
  apart : s.graph.Apart
  labels : ∀ p ∈ s.labels, s.graph.Landing p.2

/-- A later state of the graph under construction. -/
structure LoweringState.Grows (s s' : LoweringState) : Prop where
  size : s.graph.size ≤ s'.graph.size
  numVars : s'.graph.numVars = s.graph.numVars
  landing : ∀ {b : BlockId}, s.graph.Landing b → s'.graph.Landing b
  steps : s.Steps s'

/-- The operand may be read at the end of a block: it keeps to the variables of the function, and its value
was computed there. -/
structure LoweringState.Ready (s : LoweringState) (b : BlockId) (op : Operand) : Prop where
  vars : op.VarsBelow s.graph.numVars
  computed : s.Computed b op

/-- A block that nothing but shadows may lead to. -/
structure LoweringState.Aside (s : LoweringState) (b : BlockId) : Prop where
  lt : b < s.graph.size
  ne_entry : b ≠ FlowGraph.entry
  noEdge : ∀ p, ¬ s.graph.Edge p b
  noLabel : ∀ p ∈ s.labels, p.2 ≠ b

namespace LoweringState

theorem Grows.refl (s : LoweringState) : s.Grows s := ⟨Nat.le_refl _, rfl, id, .refl⟩

theorem Grows.trans {s s' s'' : LoweringState} (h : s.Grows s') (h' : s'.Grows s'') : s.Grows s'' :=
  ⟨Nat.le_trans h.size h'.size, h'.numVars.trans h.numVars, fun hb => h'.landing (h.landing hb),
    h.steps.trans h'.steps⟩

theorem Grows.lt {s s' : LoweringState} (h : s.Grows s') {b : BlockId} (hb : b < s.graph.size) :
    b < s'.graph.size := Nat.lt_of_lt_of_le hb h.size

theorem Grows.ready {s s' : LoweringState} (h : s.Grows s') {b : BlockId} {op : Operand}
    (hop : s.Ready b op) : s'.Ready b op := ⟨h.numVars ▸ hop.vars, hop.computed.mono h.steps⟩

variable {s : LoweringState}

theorem Sound.addBlock (h : s.Sound) : Sound { s with graph := s.graph.addBlock } where
  toFresh := h.toFresh.addBlock
  jumpVars b v hv := by
    rw [FlowGraph.jump, FlowGraph.block_addBlock] at hv
    exact h.jumpVars b v hv
  apart := h.apart.of_jumps (FlowGraph.size_le_addBlock _) (FlowGraph.jump_addBlock _)
  labels p hp := (h.labels p hp).of_jumps (FlowGraph.size_le_addBlock _) (FlowGraph.jump_addBlock _)

theorem grows_addBlock (s : LoweringState) : s.Grows { s with graph := s.graph.addBlock } :=
  ⟨FlowGraph.size_le_addBlock _, rfl,
    fun hb => hb.of_jumps (FlowGraph.size_le_addBlock _) (FlowGraph.jump_addBlock _), .single .addBlock⟩

/-- Control may be sent to a new block. -/
theorem Sound.landing_addBlock (h : s.Sound) : s.graph.addBlock.Landing s.graph.size := by
  refine ⟨?_, Nat.ne_of_gt h.entry_lt, fun p hp => ?_⟩
  · rw [FlowGraph.size_addBlock]
    exact Nat.lt_succ_self _
  · rw [FlowGraph.jump_addBlock] at hp
    exact Nat.lt_irrefl _ (h.succ_lt (Jump.mem_successors.mpr (.inr hp)))

/-- Nothing leads to a new block yet, so it may become a shadow. -/
theorem Sound.aside_addBlock (h : s.Sound) :
    Aside { s with graph := s.graph.addBlock } s.graph.size := by
  refine ⟨h.landing_addBlock.lt, h.landing_addBlock.ne_entry, fun p he => ?_, fun p hp => ?_⟩
  · rw [FlowGraph.Edge, FlowGraph.targets, FlowGraph.jump_addBlock] at he
    exact Nat.lt_irrefl _ (h.edge_lt he)
  · exact Nat.ne_of_lt (h.labels p hp).lt

/-- A block may be given any jump to landings, with a shadow that stands aside. -/
theorem Sound.setJump (h : s.Sound) {b : BlockId} {j : Jump} (hb : b < s.graph.size)
    (htargets : ∀ c ∈ j.targets, s.graph.Landing c ∧ j.shadow? ≠ some c)
    (hshadow : ∀ c, j.shadow? = some c → s.Aside c)
    (hvars : ∀ op, j.operand? = some op → op.VarsBelow s.graph.numVars) :
    Sound { s with graph := s.graph.setJump b j } where
  toFresh := by
    refine h.toFresh.setJump hb fun c hc => ?_
    rcases Jump.mem_successors.mp hc with hc | hc
    · exact (htargets c hc).1.lt
    · exact (hshadow c hc).lt
  jumpVars c v hv := by
    rw [FlowGraph.jump_setJump] at hv
    rw [FlowGraph.numVars_setJump]
    split at hv
    · obtain ⟨op, hop, hv⟩ := Option.bind_eq_some_iff.mp (Option.mem_toList.mp hv)
      exact hvars op hop v hv
    · exact h.jumpVars c v hv
  apart := h.apart.setJump b htargets fun c hc => ⟨(hshadow c hc).ne_entry, (hshadow c hc).noEdge⟩
  labels p hp := (h.labels p hp).setJump b fun hs => (hshadow _ hs).noLabel p hp rfl

theorem grows_setJump (s : LoweringState) {b : BlockId} {j : Jump} (hopen : (s.graph.jump b).isMissing = true)
    (hj : j.shadow? = none) (hops : ∀ op, j.operand? = some op → s.Computed b op) :
    s.Grows { s with graph := s.graph.setJump b j } :=
  ⟨Nat.le_of_eq (FlowGraph.size_setJump _ _ _).symm, FlowGraph.numVars_setJump _ _ _,
    fun hb => hb.setJump b (by rw [hj]; exact nofun), .single (.close hopen hops)⟩

end LoweringState

/-- Control may be sent to the blocks that a scope names. -/
structure Scope.Within (scope : Scope) (g : FlowGraph) : Prop where
  breakTo : ∀ b, scope.breakTo = some b → g.Landing b
  continueTo : ∀ b, scope.continueTo = some b → g.Landing b
  cases : ∀ c ∈ scope.cases, g.Landing c.2

theorem Scope.within_empty (g : FlowGraph) : Scope.Within {} g :=
  ⟨fun _ hb => (nomatch hb), fun _ hb => (nomatch hb), fun _ hc => (nomatch hc)⟩

/-- What the scope of the parts of a statement has from the scope of the statement. -/
structure Scope.PassedOn (scope : Scope) (stmt : Stmt) (inner : Scope) : Prop where
  breakTo : stmt.isBreakable = false → inner.breakTo = scope.breakTo
  continueTo : stmt.isLoop = false → inner.continueTo = scope.continueTo
  cases : stmt.isSwitch = false → inner.cases = scope.cases

namespace Scope.PassedOn

variable {scope : Scope} {stmt : Stmt}

theorem same : scope.PassedOn stmt scope := ⟨fun _ => rfl, fun _ => rfl, fun _ => rfl⟩

theorem loop (hloop : stmt.isLoop = true) (breakTo continueTo : BlockId) :
    scope.PassedOn stmt (scope.loop breakTo continueTo) := by
  refine ⟨fun hno => ?_, fun hno => ?_, fun _ => rfl⟩
  · rw [Stmt.isBreakable, hloop] at hno
    exact nomatch hno
  · rw [hloop] at hno
    exact nomatch hno

theorem switch (hswitch : stmt.isSwitch = true) (breakTo : BlockId) (cases : List (CaseLabel × BlockId)) :
    scope.PassedOn stmt (scope.switch breakTo cases) := by
  refine ⟨fun hno => ?_, fun _ => rfl, fun hno => ?_⟩
  · rw [Stmt.isBreakable, hswitch, Bool.or_true] at hno
    exact nomatch hno
  · rw [hswitch] at hno
    exact nomatch hno

end Scope.PassedOn

namespace Scope.Within

variable {scope : Scope} {s s' : LoweringState} {g : FlowGraph}

theorem mono (h : scope.Within s.graph) (hs : s.Grows s') : scope.Within s'.graph :=
  ⟨fun b hb => hs.landing (h.breakTo b hb), fun b hb => hs.landing (h.continueTo b hb),
    fun c hc => hs.landing (h.cases c hc)⟩

theorem loop (h : scope.Within g) {breakTo continueTo : BlockId} (hb : g.Landing breakTo)
    (hc : g.Landing continueTo) : (scope.loop breakTo continueTo).Within g :=
  ⟨fun _ heq => Option.some.inj heq ▸ hb, fun _ heq => Option.some.inj heq ▸ hc, h.cases⟩

theorem switch (h : scope.Within g) {breakTo : BlockId} {cases : List (CaseLabel × BlockId)}
    (hb : g.Landing breakTo) (hcases : ∀ c ∈ cases, g.Landing c.2) :
    (scope.switch breakTo cases).Within g :=
  ⟨fun _ heq => Option.some.inj heq ▸ hb, h.continueTo, hcases⟩

end Scope.Within

namespace Lowering

variable {α β : Type} {s : LoweringState}

theorem bind_ok {m : Lowering α} {f : α → Lowering β} {r : β × LoweringState} (h : (m >>= f) s = .ok r) :
    ∃ a s', m s = .ok (a, s') ∧ f a s' = .ok r := by
  obtain ⟨⟨a, s'⟩, hm, hf⟩ := Except.exists_of_bind h
  exact ⟨a, s', hm, hf⟩

/-- If the step succeeds from `s`, then the graph stays sound, it only grows, and the result is as said. -/
def Keeps (s : LoweringState) (m : Lowering α) (post : α → LoweringState → Prop) : Prop :=
  ∀ a s', m s = .ok (a, s') → s'.Sound ∧ s.Grows s' ∧ post a s'

/-- What two steps keep is kept by one after the other. -/
theorem Keeps.bind {m : Lowering α} {f : α → Lowering β} {mid : α → LoweringState → Prop}
    {post : β → LoweringState → Prop} (hm : Keeps s m mid)
    (hf : ∀ a s', s'.Sound → s.Grows s' → mid a s' → Keeps s' (f a) post) : Keeps s (m >>= f) post := by
  intro b s'' hrun
  obtain ⟨a, s', hfirst, hsecond⟩ := bind_ok hrun
  obtain ⟨hsound, hgrows, hmid⟩ := hm a s' hfirst
  obtain ⟨hsound', hgrows', hpost⟩ := hf a s' hsound hgrows hmid b s'' hsecond
  exact ⟨hsound', hgrows.trans hgrows', hpost⟩

theorem Keeps.imp {m : Lowering α} {post post' : α → LoweringState → Prop} (hm : Keeps s m post)
    (himp : ∀ a s', post a s' → post' a s') : Keeps s m post' := fun a s' hrun =>
  ⟨(hm a s' hrun).1, (hm a s' hrun).2.1, himp a s' (hm a s' hrun).2.2⟩

theorem keeps_pure (h : s.Sound) {post : α → LoweringState → Prop} {a : α} (ha : post a s) :
    Keeps s (pure a) post := by
  intro b s' hrun
  cases hrun
  exact ⟨h, .refl s, ha⟩

theorem keeps_lift (h : s.Sound) {x : Except BuildError α} {post : α → LoweringState → Prop}
    (hx : ∀ a, x = .ok a → post a s) : Keeps s (liftM x : Lowering α) post := by
  intro a s' hrun
  cases x with
  | error e => exact nomatch hrun
  | ok b =>
    cases hrun
    exact ⟨h, .refl s, hx a rfl⟩

theorem keeps_throw (e : BuildError) (post : α → LoweringState → Prop) :
    Keeps s (throw e : Lowering α) post := fun _ _ hrun => nomatch hrun

theorem keeps_newBlock (h : s.Sound) : Keeps s newBlock fun b s' => s'.graph.Landing b := by
  intro b s' hrun
  cases hrun
  exact ⟨h.addBlock, s.grows_addBlock, h.landing_addBlock⟩

/-- Only an open block can be closed. -/
theorem close_eq_ok {b : BlockId} {j : Jump} {u : Unit} {s' : LoweringState} (h : close b j s = .ok (u, s')) :
    (s.graph.jump b).isMissing = true ∧ s' = { s with graph := s.graph.setJump b j } := by
  rw [close] at h
  split at h
  · next hopen =>
    cases h
    exact ⟨hopen, rfl⟩
  · exact nomatch h

/-- A block may be closed by a jump to landing blocks whose operand is ready there. -/
theorem keeps_close (h : s.Sound) {b : BlockId} {j : Jump} (hb : b < s.graph.size)
    (hshadow : j.shadow? = none) (htargets : ∀ c ∈ j.targets, s.graph.Landing c)
    (hops : ∀ op, j.operand? = some op → s.Ready b op) : Keeps s (close b j) fun _ _ => True := by
  intro u s' hrun
  obtain ⟨hopen, rfl⟩ := close_eq_ok hrun
  refine ⟨h.setJump hb (fun c hc => ⟨htargets c hc, ?_⟩) (fun c hc => ?_) (fun op hop => (hops op hop).vars),
    s.grows_setJump hopen hshadow fun op hop => (hops op hop).computed, trivial⟩
  · rw [hshadow]
    exact nofun
  · rw [hshadow] at hc
    exact nomatch hc

/-- Ends a block with a jump whose shadow is made along with it. -/
theorem keeps_leave (h : s.Sound) {b : BlockId} {j : BlockId → Jump} (hb : b < s.graph.size)
    (hshadow : ∀ c, (j c).shadow? = some c) (htargets : ∀ c, ∀ t ∈ (j c).targets, s.graph.Landing t)
    (hops : ∀ c op, (j c).operand? = some op → s.Ready b op) :
    Keeps s (do
      let shadow ← newBlock
      close b (j shadow)
      return shadow) fun c s' => c < s'.graph.size := by
  intro c s' hrun
  obtain ⟨shadow, s1, hnew, hrun⟩ := bind_ok hrun
  obtain ⟨_, s2, hclose, hrun⟩ := bind_ok hrun
  cases hrun
  cases hnew
  obtain ⟨hopen, rfl⟩ := close_eq_ok hclose
  have hready := fun op hop => s.grows_addBlock.ready (hops s.graph.size op hop)
  -- the shadow is the new block, and the jump goes to older ones
  have hne : ∀ {t}, s.graph.Landing t → (j s.graph.size).shadow? ≠ some t := fun ht heq =>
    Nat.ne_of_lt ht.lt (Option.some.inj ((hshadow _).symm.trans heq)).symm
  refine ⟨h.addBlock.setJump ?_ (fun t ht => ?_) (fun t ht => ?_) (fun op hop => (hready op hop).vars),
    ⟨?_, ?_, fun ht => ?_, ?_⟩, ?_⟩
  · exact s.grows_addBlock.lt hb
  · exact ⟨s.grows_addBlock.landing (htargets _ t ht), hne (htargets _ t ht)⟩
  · cases (hshadow _).symm.trans ht
    exact h.aside_addBlock
  · rw [FlowGraph.size_setJump]
    exact s.grows_addBlock.size
  · exact FlowGraph.numVars_setJump _ _ _
  · exact (s.grows_addBlock.landing ht).setJump b (hne ht)
  · exact s.grows_addBlock.steps.tail (.close hopen fun op hop => (hready op hop).computed)
  · dsimp only
    rw [FlowGraph.size_setJump]
    exact h.landing_addBlock.lt

/-- Changes of a block that add nothing but instructions on the variables of the function. -/
theorem sound_modify (h : s.Sound) {b : BlockId} {f : Block → Block} {temps : Nat}
    (hstep : s.Step { s with graph := s.graph.modify b f, temps := temps })
    (hf : ∀ blk, (f blk).jump = blk.jump ∧ (f blk).preds = blk.preds ∧ (f blk).isEntry = blk.isEntry ∧
      (f blk).removed = blk.removed ∧ (f blk).phis = blk.phis)
    (hvars : ∀ blk, ∀ i ∈ (f blk).instrs, i ∈ blk.instrs ∨ i.VarsBelow s.graph.numVars) :
    LoweringState.Sound { s with graph := s.graph.modify b f, temps := temps } ∧
      s.Grows { s with graph := s.graph.modify b f, temps := temps } := by
  have hjump : ∀ c, (s.graph.modify b f).jump c = s.graph.jump c := fun c =>
    s.graph.jump_modify b c fun blk => (hf blk).1
  have hsize : s.graph.size ≤ (s.graph.modify b f).size := Nat.le_of_eq (FlowGraph.size_modify _ _ _).symm
  refine ⟨⟨h.modify b hf hvars, fun c v hv => ?_, h.apart.of_jumps hsize hjump,
    fun p hp => (h.labels p hp).of_jumps hsize hjump⟩,
    ⟨hsize, rfl, fun hc => hc.of_jumps hsize hjump, .single hstep⟩⟩
  rw [hjump] at hv
  exact h.jumpVars c v hv

/-- An instruction without a temporary may be added where its operands were computed. -/
theorem keeps_append (h : s.Sound) {b : BlockId} {i : Instr} (hvars : i.VarsBelow s.graph.numVars)
    (htemp : i.temp? = none) (hops : ∀ op ∈ i.operands, s.Computed b op) :
    Keeps s (append b #[i]) fun _ _ => True := by
  intro u s' hrun
  cases hrun
  have hnew : ∀ j ∈ #[i], j.VarsBelow s.graph.numVars := by
    intro j hj
    rw [List.mem_singleton.mp (Array.mem_toList_iff.mpr hj)]
    exact hvars
  obtain ⟨hsound, hgrows⟩ := sound_modify h (.write htemp hops) (fun _ => ⟨rfl, rfl, rfl, rfl, rfl⟩)
    fun blk j hj => (Array.mem_append.mp hj).imp_right (hnew j)
  exact ⟨hsound, hgrows, trivial⟩

theorem keeps_beginStmt (h : s.Sound) (b : BlockId) (span : Span) :
    Keeps s (beginStmt b span) fun _ _ => True := by
  intro u s' hrun
  cases hrun
  obtain ⟨hsound, hgrows⟩ := sound_modify h .note (fun _ => ⟨rfl, rfl, rfl, rfl, rfl⟩) fun _ _ hi => .inl hi
  exact ⟨hsound, hgrows, trivial⟩

theorem keeps_get (h : s.Sound) : Keeps s (get : Lowering LoweringState) fun t s' => t = s ∧ s' = s := by
  intro t s' hrun
  cases hrun
  exact ⟨h, .refl s, rfl, rfl⟩

theorem keeps_numVars (h : s.Sound) : Keeps s numVars fun n s' => n = s'.graph.numVars := by
  intro n s' hrun
  cases hrun
  exact ⟨h, .refl s, rfl⟩

/-- Computing an expression appends its code to the block, and the temporaries count on from there.
-/
theorem compute_eq_ok {b : BlockId} {e : Unit → Expr} {op : Operand} {s' : LoweringState}
    (h : compute b e s = .ok (op, s')) :
    ∃ r, (e ()).flatten s.graph.numVars s.temps = .ok r ∧ r.value = op ∧
      s' = { s with
        graph := s.graph.modify b fun blk => { blk with instrs := blk.instrs ++ r.instrs }
        temps := r.temps } := by
  obtain ⟨n, s1, hn, h⟩ := bind_ok h
  cases hn
  obtain ⟨t, s2, ht, h⟩ := bind_ok h
  cases ht
  obtain ⟨r, s3, hr, h⟩ := bind_ok h
  cases hflatten : (e ()).flatten s.graph.numVars s.temps with
  | error err =>
    rw [hflatten] at hr
    exact nomatch hr
  | ok r' =>
    rw [hflatten] at hr
    cases hr
    obtain ⟨_, s4, hset, h⟩ := bind_ok h
    cases hset
    obtain ⟨_, s5, happend, h⟩ := bind_ok h
    cases happend
    cases h
    exact ⟨r, rfl, rfl, rfl⟩

/-- A computed operand is ready in its block. -/
theorem keeps_compute (h : s.Sound) {b : BlockId} (hb : b < s.graph.size) (e : Unit → Expr) :
    Keeps s (compute b e) fun op s' => s'.Ready b op := by
  intro op s' hrun
  obtain ⟨r, hflatten, rfl, rfl⟩ := compute_eq_ok hrun
  have hr := Expr.flatten_varsBelow hflatten
  obtain ⟨hsound, hgrows⟩ := sound_modify h (.compute hb hflatten) (fun _ => ⟨rfl, rfl, rfl, rfl, rfl⟩)
    fun blk i hi => (Array.mem_append.mp hi).imp_right (hr.instrs i)
  refine ⟨hsound, hgrows, hr.value, e (), _, _, r, hflatten, rfl, ?_⟩
  rw [LoweringState.instrs_append, if_pos ⟨rfl, hb⟩]
  exact (List.suffix_append _ _).isInfix

theorem keeps_computeOption (h : s.Sound) {b : BlockId} (hb : b < s.graph.size) (e : Option (Unit → Expr)) :
    Keeps s (computeOption b e) fun op s' => ∀ o ∈ op, s'.Ready b o := by
  cases e with
  | none => exact keeps_pure h nofun
  | some e =>
    refine (keeps_compute h hb e).bind fun op s1 h1 g1 hop => keeps_pure h1 ?_
    intro o ho
    cases ho
    exact hop

theorem keeps_variableRef (h : s.Sound) {n : Nat} (hn : n = s.graph.numVars) (var : VarId) :
    Keeps s (liftM (variableRef n var) : Lowering VersionedVar) fun x s' =>
      x.var = var ∧ var < s'.graph.numVars := by
  refine keeps_lift h fun x hx => ?_
  obtain ⟨rfl, hlt⟩ := variableRef_ok hx
  exact ⟨rfl, hn ▸ hlt⟩

theorem keeps_declareAll (h : s.Sound) {b : BlockId} (hb : b < s.graph.size)
    (ds : List (Declarator (Unit → Expr))) : Keeps s (declareAll b ds) fun _ _ => True := by
  induction ds generalizing s with
  | nil => exact keeps_pure h trivial
  | cons d ds ih =>
    refine (keeps_numVars h).bind fun n s1 h1 g1 hn => ?_
    refine (keeps_variableRef h1 hn d.var).bind fun x s2 h2 g2 hx => ?_
    have hdeclare : (Instr.declare d.var).VarsBelow s2.graph.numVars := by
      refine Instr.varsBelow_iff.mpr ⟨fun v hv => ?_, nofun⟩
      cases hv
      exact hx.2
    refine (keeps_append h2 hdeclare rfl nofun).bind fun _ s3 h3 g3 _ => ?_
    have hb3 : b < s3.graph.size := (g1.trans (g2.trans g3)).lt hb
    cases d.init with
    | none => exact ih h3 hb3
    | some e =>
      refine (keeps_compute h3 hb3 e).bind fun value s4 h4 g4 hvalue => ?_
      have hlt : x.var < s4.graph.numVars := by
        rw [hx.1, g4.numVars, g3.numVars]
        exact hx.2
      refine (keeps_append h4 (Instr.varsBelow_assign hlt hvalue.vars) rfl
        (List.forall_mem_singleton.mpr hvalue.computed)).bind ?_
      exact fun _ s5 h5 g5 _ => ih h5 ((g4.trans g5).lt hb3)

theorem keeps_startFor (h : s.Sound) {b : BlockId} (hb : b < s.graph.size) (init : ForInit (Unit → Expr)) :
    Keeps s (startFor b init) fun _ _ => True := by
  cases init with
  | nothing => exact keeps_pure h trivial
  | expr e => exact (keeps_compute h hb e).bind fun _ s1 h1 _ _ => keeps_pure h1 trivial
  | decls ds => exact keeps_declareAll h hb ds

/-- Control may be sent to the block of a label. -/
theorem keeps_blockOfLabel (h : s.Sound) (name : Name) :
    Keeps s (blockOfLabel name) fun b s' => s'.graph.Landing b := by
  refine (keeps_get h).bind ?_
  rintro _ s - - ⟨rfl, rfl⟩
  cases hlookup : s.labels.lookup name with
  | some b =>
    obtain ⟨before, after, hlabels, -⟩ := List.lookup_eq_some_iff.mp hlookup
    refine keeps_pure h (h.labels (name, b) ?_)
    rw [hlabels]
    exact List.mem_append_right before List.mem_cons_self
  | none =>
    refine (keeps_newBlock h).bind fun b s1 h1 _ hb => ?_
    rintro c s2 hrun
    cases hrun
    refine ⟨⟨h1.toFresh, h1.jumpVars, h1.apart, ?_⟩, ⟨Nat.le_refl _, rfl, id, .single .relabel⟩, hb⟩
    exact List.forall_mem_cons.mpr ⟨hb, h1.labels⟩

theorem keeps_defineLabel (h : s.Sound) (name : Name) (span : Span) :
    Keeps s (defineLabel name span) fun _ _ => True := by
  refine (keeps_get h).bind ?_
  rintro _ s - - ⟨rfl, rfl⟩
  split
  · exact keeps_throw _ _
  · intro u s' hrun
    cases hrun
    exact ⟨⟨h.toFresh, h.jumpVars, h.apart, h.labels⟩, ⟨Nat.le_refl _, rfl, id, .single .relabel⟩, trivial⟩

theorem keeps_leaveFor (h : s.Sound) {b target : BlockId} (hb : b < s.graph.size)
    (ht : s.graph.Landing target) : Keeps s (leaveFor b target) fun c s' => c < s'.graph.size := by
  refine keeps_leave h hb (fun _ => rfl) (fun _ t hmem => ?_) fun _ _ hop => nomatch hop
  rw [List.mem_singleton.mp hmem]
  exact ht

/-- Control may be sent to the blocks of cases. -/
theorem keeps_openCases (h : s.Sound) (cases : List (CaseLabel × BlockId))
    (hcases : ∀ c ∈ cases, s.graph.Landing c.2) (labels : List (CaseLabel × Span)) :
    Keeps s (openCases cases labels) fun cs s' => ∀ c ∈ cs, s'.graph.Landing c.2 := by
  induction labels generalizing s cases with
  | nil => exact keeps_pure h fun c hc => hcases c (List.mem_reverse.mp hc)
  | cons label labels ih =>
    obtain ⟨label, span⟩ := label
    refine (keeps_newBlock h).bind fun target s1 h1 g1 ht => ?_
    split
    · exact keeps_throw _ _
    · exact ih h1 _ (List.forall_mem_cons.mpr ⟨ht, fun c hc => g1.landing (hcases c hc)⟩)

theorem keeps_caseTarget (h : s.Sound) {scope : Scope} (hscope : scope.Within s.graph) (span : Span)
    (label : CaseLabel) : Keeps s (caseTarget scope span label) fun b s' => s'.graph.Landing b := by
  rw [caseTarget]
  cases hlookup : scope.cases.lookup label with
  | none => exact keeps_throw _ _
  | some b =>
    obtain ⟨before, after, hcases, -⟩ := List.lookup_eq_some_iff.mp hlookup
    refine keeps_pure h (hscope.cases (label, b) ?_)
    rw [hcases]
    exact List.mem_append_right before List.mem_cons_self

theorem keeps_targetOr (h : s.Sound) (e : InternalError) {target : Option BlockId}
    (ht : ∀ b, target = some b → s.graph.Landing b) :
    Keeps s (targetOr e target) fun b s' => s'.graph.Landing b := by
  cases target with
  | none => exact keeps_throw _ _
  | some b => exact keeps_pure h (ht b rfl)

theorem keeps_goto (h : s.Sound) {b c : BlockId} (hb : b < s.graph.size) (hc : s.graph.Landing c) :
    Keeps s (close b (.goto c)) fun _ _ => True := by
  refine keeps_close h hb rfl (fun d hd => ?_) fun _ hop => nomatch hop
  rw [List.mem_singleton.mp hd]
  exact hc

theorem keeps_branch (h : s.Sound) {b c d : BlockId} {op : Operand} (hb : b < s.graph.size)
    (hc : s.graph.Landing c) (hd : s.graph.Landing d) (hop : s.Ready b op) :
    Keeps s (close b (.branch op c d)) fun _ _ => True := by
  refine keeps_close h hb rfl (fun e he => ?_) fun _ heq => Option.some.inj heq ▸ hop
  rw [← Jump.goesTo_iff, Jump.goesTo, Bool.or_eq_true, beq_iff_eq, beq_iff_eq] at he
  rcases he with rfl | rfl
  · exact hc
  · exact hd

/-- A selection may go to the blocks of its cases and, if there is no `default`, to the block behind
it. -/
theorem keeps_select (h : s.Sound) {b after : BlockId} {value : Operand} {cases : List (CaseLabel × BlockId)}
    (hb : b < s.graph.size) (hcases : ∀ c ∈ cases, s.graph.Landing c.2) (hafter : s.graph.Landing after)
    (hvalue : s.Ready b value) :
    Keeps s (close b (.select value (caseOptions cases) ((cases.lookup .default).getD after)))
      fun _ _ => True := by
  refine keeps_close h hb rfl (fun c hc => ?_) fun _ heq => Option.some.inj heq ▸ hvalue
  rcases Jump.mem_targets_select.mp hc with ⟨o, ho, rfl⟩ | rfl
  · obtain ⟨⟨label, target⟩, hmem, heq⟩ := List.mem_filterMap.mp ho
    cases label with
    | default => exact nomatch heq
    | value v =>
      cases heq
      exact hcases _ hmem
  · cases hlookup : cases.lookup .default with
    | none => exact hafter
    | some target =>
      obtain ⟨before, rest, hsplit, -⟩ := List.lookup_eq_some_iff.mp hlookup
      refine hcases (.default, target) ?_
      rw [hsplit]
      exact List.mem_append_right before List.mem_cons_self

/-- A loop goes on in a block of its own or in its header. -/
theorem keeps_latch (h : s.Sound) {header : BlockId} (hheader : s.graph.Landing header) {fresh : Bool}
    {rest : BlockId → Lowering α} {post : α → LoweringState → Prop}
    (hrest : ∀ b s', s'.Sound → s.Grows s' → s'.graph.Landing b → Keeps s' (rest b) post) :
    Keeps s (if fresh then newBlock >>= rest else pure header >>= rest) post := by
  cases fresh with
  | false => exact (keeps_pure h hheader).bind hrest
  | true => exact (keeps_newBlock h).bind hrest

theorem keeps_ownLabels (h : s.Sound) (body : Stmt) :
    Keeps s (liftM (ownLabels body) : Lowering _) fun _ _ => True := keeps_lift h fun _ _ => trivial

/-! ## Statements -/

/-- A statement to be lowered, with the block that takes in its code and its scope there. -/
structure Job where
  scope : Scope
  block : BlockId
  stmt : Stmt

/-- The job is done from a sound state `s` to `s'`, and control goes on in block `c`. -/
structure Job.Runs (job : Job) (s : LoweringState) (c : BlockId) (s' : LoweringState) : Prop where
  sound : s.Sound
  within : job.scope.Within s.graph
  lt : job.block < s.graph.size
  lower : lower job.scope job.block job.stmt s = .ok (c, s')

/-- The job is done somewhere on the way from one state to another. -/
def Job.DoneBetween (job : Job) (s s' : LoweringState) : Prop :=
  ∃ s₁ c s₂, s.Steps s₁ ∧ job.Runs s₁ c s₂ ∧ s₂.Steps s'

theorem Job.DoneBetween.widen {job : Job} {t t' s' : LoweringState} (h : job.DoneBetween s s')
    (before : t.Steps s) (after : s'.Steps t') : job.DoneBetween t t' := by
  obtain ⟨s₁, c, s₂, hbefore, hruns, hafter⟩ := h
  exact ⟨s₁, c, s₂, before.trans hbefore, hruns, hafter.trans after⟩

/-- There is a job for each of the statements. It is done on the way from one state to another, and it is as
said. -/
def DoneEach (s s' : LoweringState) (stmts : List Stmt) (P : Job → Prop) : Prop :=
  ∃ jobs : List Job, jobs.map Job.stmt = stmts ∧ ∀ job ∈ jobs, job.DoneBetween s s' ∧ P job

namespace DoneEach

variable {s' : LoweringState} {stmts : List Stmt} {P : Job → Prop}

theorem nil : DoneEach s s' [] P := ⟨[], rfl, nofun⟩

theorem cons {job : Job} (hfirst : job.DoneBetween s s') (hP : P job) (hrest : DoneEach s s' stmts P) :
    DoneEach s s' (job.stmt :: stmts) P := by
  obtain ⟨jobs, hmap, hjobs⟩ := hrest
  exact ⟨job :: jobs, congrArg (job.stmt :: ·) hmap, List.forall_mem_cons.mpr ⟨⟨hfirst, hP⟩, hjobs⟩⟩

theorem imp {Q : Job → Prop} (h : DoneEach s s' stmts P) (himp : ∀ job, job.DoneBetween s s' → P job → Q job) :
    DoneEach s s' stmts Q := by
  obtain ⟨jobs, hmap, hjobs⟩ := h
  exact ⟨jobs, hmap, fun job hjob => ⟨(hjobs job hjob).1, himp job (hjobs job hjob).1 (hjobs job hjob).2⟩⟩

theorem widen {t t' : LoweringState} (h : DoneEach s s' stmts P) (before : t.Steps s) (after : s'.Steps t') :
    DoneEach t t' stmts P := by
  obtain ⟨jobs, hmap, hjobs⟩ := h
  exact ⟨jobs, hmap, fun job hjob => ⟨(hjobs job hjob).1.widen before after, (hjobs job hjob).2⟩⟩

end DoneEach

/-- The parts of a statement are lowered, in the scope that it gives them. -/
def PartsDone (scope : Scope) (stmt : Stmt) (s s' : LoweringState) : Prop :=
  DoneEach s s' (stmt.parts.map (· ())) fun job => scope.PassedOn stmt job.scope

/-- A statement that is lowered is itself a job that is done. -/
theorem keeps_self (h : s.Sound) {scope : Scope} (hscope : scope.Within s.graph) {b : BlockId}
    (hb : b < s.graph.size) {stmt : Stmt} {post : BlockId → LoweringState → Prop}
    (hlower : Keeps s (lower scope b stmt) post) :
    Keeps s (lower scope b stmt) fun c s' => Job.DoneBetween ⟨scope, b, stmt⟩ s s' ∧ post c s' := by
  intro c s' hrun
  obtain ⟨hsound, hgrows, hpost⟩ := hlower c s' hrun
  exact ⟨hsound, hgrows, ⟨s, c, s', .refl, ⟨h, hscope, hb, hrun⟩, .refl⟩, hpost⟩

mutual

/-- Lowering a statement ends in a block of the graph, and its parts are lowered on the way. -/
theorem keeps_lower {s : LoweringState} (h : s.Sound) {scope : Scope}
    (hscope : scope.Within s.graph) {b : BlockId} (hb : b < s.graph.size) (stmt : Stmt) :
    Keeps s (lower scope b stmt) fun c s' =>
      Job.DoneBetween ⟨scope, b, stmt⟩ s s' ∧ c < s'.graph.size ∧ PartsDone scope stmt s s' := by
  refine keeps_self h hscope hb ?_
  -- `s1`, `s2` and so on are the states on the way, and `g1`, `g2` say that each grows from the one before
  match stmt with
  | .expr span e =>
    refine (keeps_beginStmt h b span).bind fun _ s1 h1 g1 _ => ?_
    refine (keeps_compute h1 (g1.lt hb) e).bind fun _ s2 h2 g2 _ => ?_
    exact keeps_pure h2 ⟨g2.lt (g1.lt hb), .nil⟩
  | .decl span ds =>
    refine (keeps_beginStmt h b span).bind fun _ s1 h1 g1 _ => ?_
    refine (keeps_declareAll h1 (g1.lt hb) ds).bind fun _ s2 h2 g2 _ => ?_
    exact keeps_pure h2 ⟨g2.lt (g1.lt hb), .nil⟩
  | .block span body =>
    exact (keeps_lowerAll h hscope hb body).imp fun _ _ ⟨hc, hdone⟩ =>
      ⟨hc, hdone.imp fun _ _ heq => heq ▸ .same⟩
  | .ifThen span cond thenBody =>
    refine (keeps_beginStmt h b span).bind fun _ s1 h1 g1 _ => ?_
    refine (keeps_compute h1 (g1.lt hb) cond).bind fun c s2 h2 g2 hc => ?_
    refine (keeps_newBlock h2).bind fun thenBlock s3 h3 g3 hthen => ?_
    refine (keeps_newBlock h3).bind fun merge s4 h4 g4 hmerge => ?_
    have g := g1.trans (g2.trans (g3.trans g4))
    refine (keeps_branch h4 (g.lt hb) (g4.landing hthen) hmerge (g4.ready (g3.ready hc))).bind
      fun _ s5 h5 g5 _ => ?_
    refine (keeps_lower h5 (hscope.mono (g.trans g5)) ((g4.trans g5).lt hthen.lt) (thenBody ())).bind
      fun thenExit s6 h6 g6 ⟨hdone, hexit, _⟩ => ?_
    have gm := g5.trans g6
    refine (keeps_goto h6 hexit (gm.landing hmerge)).bind fun _ s7 h7 g7 _ => ?_
    have hdone := hdone.widen (g.trans g5).steps g7.steps
    exact keeps_pure h7 ⟨(gm.trans g7).lt hmerge.lt, .cons hdone .same .nil⟩
  | .ifElse span cond thenBody elseBody =>
    refine (keeps_beginStmt h b span).bind fun _ s1 h1 g1 _ => ?_
    refine (keeps_compute h1 (g1.lt hb) cond).bind fun c s2 h2 g2 hc => ?_
    refine (keeps_newBlock h2).bind fun thenBlock s3 h3 g3 hthen => ?_
    refine (keeps_newBlock h3).bind fun merge s4 h4 g4 hmerge => ?_
    refine (keeps_newBlock h4).bind fun elseBlock s5 h5 g5 helse => ?_
    have g := g1.trans (g2.trans (g3.trans (g4.trans g5)))
    have gt := g4.trans g5
    refine (keeps_branch h5 (g.lt hb) (gt.landing hthen) helse ((g3.trans gt).ready hc)).bind
      fun _ s6 h6 g6 _ => ?_
    refine (keeps_lower h6 (hscope.mono (g.trans g6)) ((gt.trans g6).lt hthen.lt) (thenBody ())).bind
      fun thenExit s7 h7 g7 ⟨hdone, hexit, _⟩ => ?_
    have gm := g5.trans (g6.trans g7)
    refine (keeps_goto h7 hexit (gm.landing hmerge)).bind fun _ s8 h8 g8 _ => ?_
    have ge := g6.trans (g7.trans g8)
    refine (keeps_lower h8 (hscope.mono (g.trans ge)) (ge.lt helse.lt) (elseBody ())).bind
      fun elseExit s9 h9 g9 ⟨hdone', hexit', _⟩ => ?_
    have gm := gm.trans (g8.trans g9)
    refine (keeps_goto h9 hexit' (gm.landing hmerge)).bind fun _ s10 h10 g10 _ => ?_
    have hdone := hdone.widen (g.trans g6).steps (g8.trans (g9.trans g10)).steps
    have hdone' := hdone'.widen (g.trans ge).steps g10.steps
    exact keeps_pure h10 ⟨(gm.trans g10).lt hmerge.lt, .cons hdone .same (.cons hdone' .same .nil)⟩
  | .whileLoop span cond body =>
    refine (keeps_beginStmt h b span).bind fun _ s1 h1 g1 _ => ?_
    refine (keeps_newBlock h1).bind fun header s2 h2 g2 hheader => ?_
    refine (keeps_goto h2 (g2.lt (g1.lt hb)) hheader).bind fun _ s3 h3 g3 _ => ?_
    refine (keeps_compute h3 (g3.lt hheader.lt) cond).bind fun c s4 h4 g4 hc => ?_
    refine (keeps_newBlock h4).bind fun bodyBlock s5 h5 g5 hbody => ?_
    refine (keeps_newBlock h5).bind fun after s6 h6 g6 hafter => ?_
    have g := g1.trans (g2.trans (g3.trans (g4.trans (g5.trans g6))))
    have gh := g3.trans (g4.trans (g5.trans g6))
    refine (keeps_lower h6 ((hscope.mono g).loop hafter (gh.landing hheader)) (g6.lt hbody.lt) (body ())).bind
      fun bodyExit s7 h7 g7 ⟨hdone, hexit, _⟩ => ?_
    refine (keeps_goto h7 hexit ((gh.trans g7).landing hheader)).bind fun _ s8 h8 g8 _ => ?_
    have g' := g7.trans g8
    refine (keeps_branch h8 ((gh.trans g').lt hheader.lt) ((g6.trans g').landing hbody) (g'.landing hafter)
      ((g5.trans (g6.trans g')).ready hc)).bind fun _ s9 h9 g9 _ => ?_
    have hdone := hdone.widen g.steps (g8.trans g9).steps
    exact keeps_pure h9 ⟨(g'.trans g9).lt hafter.lt, .cons hdone (.loop rfl _ _) .nil⟩
  | .doWhile span body cond =>
    refine (keeps_beginStmt h b span).bind fun _ s1 h1 g1 _ => ?_
    refine (keeps_newBlock h1).bind fun bodyBlock s2 h2 g2 hbody => ?_
    refine (keeps_goto h2 (g2.lt (g1.lt hb)) hbody).bind fun _ s3 h3 g3 _ => ?_
    refine (keeps_newBlock h3).bind fun condBlock s4 h4 g4 hcond => ?_
    refine (keeps_newBlock h4).bind fun after s5 h5 g5 hafter => ?_
    have g := g1.trans (g2.trans (g3.trans (g4.trans g5)))
    have gb := g3.trans (g4.trans g5)
    refine (keeps_lower h5 ((hscope.mono g).loop hafter (g5.landing hcond)) (gb.lt hbody.lt) (body ())).bind
      fun bodyExit s6 h6 g6 ⟨hdone, hexit, _⟩ => ?_
    refine (keeps_goto h6 hexit ((g5.trans g6).landing hcond)).bind fun _ s7 h7 g7 _ => ?_
    refine (keeps_compute h7 ((g5.trans (g6.trans g7)).lt hcond.lt) cond).bind fun c s8 h8 g8 hc => ?_
    have g' := g6.trans (g7.trans g8)
    refine (keeps_branch h8 ((g5.trans g').lt hcond.lt) ((gb.trans g').landing hbody) (g'.landing hafter)
      hc).bind fun _ s9 h9 g9 _ => ?_
    have hdone := hdone.widen g.steps (g7.trans (g8.trans g9)).steps
    exact keeps_pure h9 ⟨(g'.trans g9).lt hafter.lt, .cons hdone (.loop rfl _ _) .nil⟩
  | .forLoop span init cond step body =>
    refine (keeps_beginStmt h b span).bind fun _ s1 h1 g1 _ => ?_
    refine (keeps_startFor h1 (g1.lt hb) init).bind fun _ s2 h2 g2 _ => ?_
    refine (keeps_newBlock h2).bind fun header s3 h3 g3 hheader => ?_
    refine (keeps_goto h3 (g3.lt (g2.lt (g1.lt hb))) hheader).bind fun _ s4 h4 g4 _ => ?_
    refine (keeps_computeOption h4 (g4.lt hheader.lt) cond).bind fun c s5 h5 g5 hc => ?_
    refine (keeps_newBlock h5).bind fun bodyBlock s6 h6 g6 hbody => ?_
    refine (keeps_newBlock h6).bind fun after s7 h7 g7 hafter => ?_
    have gh := g4.trans (g5.trans (g6.trans g7))
    refine keeps_latch h7 (gh.landing hheader) fun latch s8 h8 g8 hlatch => ?_
    have g := g1.trans (g2.trans (g3.trans (gh.trans g8)))
    refine (keeps_lower h8 ((hscope.mono g).loop (g8.landing hafter) hlatch) ((g7.trans g8).lt hbody.lt)
      (body ())).bind fun bodyExit s9 h9 g9 ⟨hdone, hexit, _⟩ => ?_
    refine (keeps_goto h9 hexit (g9.landing hlatch)).bind fun _ s10 h10 g10 _ => ?_
    -- the header is closed last, whether there is a step or not
    have hlast : ∀ s', s'.Sound → s10.Grows s' → Keeps s' (do
        match c with
        | none => close header (.goto bodyBlock)
        | some c => close header (.branch c bodyBlock after)
        return after) fun c s' =>
          c < s'.graph.size ∧ PartsDone scope (.forLoop span init cond step body) s s' := by
      intro s11 h11 g11
      have g' := g8.trans (g9.trans (g10.trans g11))
      have hend : ∀ (_ : Unit) s', s'.Sound → s11.Grows s' → True → Keeps s' (pure after) fun c s' =>
          c < s'.graph.size ∧ PartsDone scope (.forLoop span init cond step body) s s' := by
        intro _ s12 h12 g12 _
        have hdone := hdone.widen g.steps (g10.trans (g11.trans g12)).steps
        exact keeps_pure h12 ⟨(g'.trans g12).lt hafter.lt, .cons hdone (.loop rfl _ _) .nil⟩
      cases c with
      | none =>
        exact (keeps_goto h11 ((gh.trans g').lt hheader.lt) ((g7.trans g').landing hbody)).bind hend
      | some c =>
        exact (keeps_branch h11 ((gh.trans g').lt hheader.lt) ((g7.trans g').landing hbody)
          (g'.landing hafter) ((g6.trans (g7.trans g')).ready (hc c rfl))).bind hend
    have g' := g9.trans g10
    cases step with
    | none => exact hlast s10 h10 (.refl s10)
    | some e =>
      refine (keeps_compute h10 (g'.lt hlatch.lt) e).bind fun _ s11 h11 g11 _ => ?_
      have g'' := g'.trans g11
      refine (keeps_goto h11 (g''.lt hlatch.lt) ((gh.trans (g8.trans g'')).landing hheader)).bind ?_
      exact fun _ s12 h12 g12 _ => hlast s12 h12 (g11.trans g12)
  | .switch span scrutinee body =>
    refine (keeps_beginStmt h b span).bind fun _ s1 h1 g1 _ => ?_
    refine (keeps_compute h1 (g1.lt hb) scrutinee).bind fun value s2 h2 g2 hvalue => ?_
    refine (keeps_newBlock h2).bind fun after s3 h3 g3 hafter => ?_
    refine (keeps_ownLabels h3 (body ())).bind fun labels s4 h4 g4 _ => ?_
    refine (keeps_openCases h4 [] nofun labels).bind fun cases s5 h5 g5 hcases => ?_
    have g := g1.trans (g2.trans (g3.trans (g4.trans g5)))
    refine (keeps_select h5 (g.lt hb) hcases ((g4.trans g5).landing hafter)
      ((g3.trans (g4.trans g5)).ready hvalue)).bind fun _ s6 h6 g6 _ => ?_
    refine (keeps_newBlock h6).bind fun head s7 h7 g7 hhead => ?_
    have g' := g6.trans g7
    have ga := g4.trans (g5.trans g')
    refine (keeps_lower h7 ((hscope.mono (g.trans g')).switch (ga.landing hafter)
      fun c hc => g'.landing (hcases c hc)) hhead.lt (body ())).bind
        fun bodyExit s8 h8 g8 ⟨hdone, hexit, _⟩ => ?_
    refine (keeps_goto h8 hexit ((ga.trans g8).landing hafter)).bind fun _ s9 h9 g9 _ => ?_
    have hdone := hdone.widen (g.trans g').steps g9.steps
    exact keeps_pure h9 ⟨(ga.trans (g8.trans g9)).lt hafter.lt, .cons hdone (.switch rfl _ _) .nil⟩
  | .case span value body =>
    refine (keeps_caseTarget h hscope span _).bind fun target s1 h1 g1 ht => ?_
    refine (keeps_goto h1 (g1.lt hb) ht).bind fun _ s2 h2 g2 _ => ?_
    refine (keeps_lower h2 (hscope.mono (g1.trans g2)) (g2.lt ht.lt) (body ())).imp ?_
    exact fun _ _ ⟨hdone, hc, _⟩ => ⟨hc, .cons (hdone.widen (g1.trans g2).steps .refl) .same .nil⟩
  | .default span body =>
    refine (keeps_caseTarget h hscope span _).bind fun target s1 h1 g1 ht => ?_
    refine (keeps_goto h1 (g1.lt hb) ht).bind fun _ s2 h2 g2 _ => ?_
    refine (keeps_lower h2 (hscope.mono (g1.trans g2)) (g2.lt ht.lt) (body ())).imp ?_
    exact fun _ _ ⟨hdone, hc, _⟩ => ⟨hc, .cons (hdone.widen (g1.trans g2).steps .refl) .same .nil⟩
  | .breakOut span =>
    refine (keeps_beginStmt h b span).bind fun _ s1 h1 g1 _ => ?_
    refine (keeps_targetOr h1 _ fun t ht => g1.landing (hscope.breakTo t ht)).bind fun target s2 h2 g2 ht => ?_
    exact (keeps_leaveFor h2 (g2.lt (g1.lt hb)) ht).imp fun _ _ hc => ⟨hc, .nil⟩
  | .continueLoop span =>
    refine (keeps_beginStmt h b span).bind fun _ s1 h1 g1 _ => ?_
    refine (keeps_targetOr h1 _ fun t ht => g1.landing (hscope.continueTo t ht)).bind
      fun target s2 h2 g2 ht => ?_
    exact (keeps_leaveFor h2 (g2.lt (g1.lt hb)) ht).imp fun _ _ hc => ⟨hc, .nil⟩
  | .goto span label =>
    refine (keeps_beginStmt h b span).bind fun _ s1 h1 g1 _ => ?_
    refine (keeps_blockOfLabel h1 label).bind fun target s2 h2 g2 ht => ?_
    exact (keeps_leaveFor h2 (g2.lt (g1.lt hb)) ht).imp fun _ _ hc => ⟨hc, .nil⟩
  | .label span name body =>
    refine (keeps_defineLabel h name span).bind fun _ s1 h1 g1 _ => ?_
    refine (keeps_blockOfLabel h1 name).bind fun target s2 h2 g2 ht => ?_
    refine (keeps_goto h2 (g2.lt (g1.lt hb)) ht).bind fun _ s3 h3 g3 _ => ?_
    have g := g1.trans (g2.trans g3)
    refine (keeps_lower h3 (hscope.mono g) (g3.lt ht.lt) (body ())).imp ?_
    exact fun _ _ ⟨hdone, hc, _⟩ => ⟨hc, .cons (hdone.widen g.steps .refl) .same .nil⟩
  | .ret span value =>
    refine (keeps_beginStmt h b span).bind fun _ s1 h1 g1 _ => ?_
    refine (keeps_computeOption h1 (g1.lt hb) value).bind fun v s2 h2 g2 hv => ?_
    exact (keeps_leave (j := fun shadow => .ret shadow v) h2 ((g1.trans g2).lt hb) (fun _ => rfl)
      (fun _ _ ht => nomatch ht) fun _ => hv).imp fun _ _ hc => ⟨hc, .nil⟩
  | .empty span => exact keeps_pure h ⟨hb, .nil⟩
  | .error span => exact keeps_throw _ _
  | .absent => exact keeps_throw _ _

/-- Statements in sequence share the scope of the sequence. -/
theorem keeps_lowerAll {s : LoweringState} (h : s.Sound) {scope : Scope}
    (hscope : scope.Within s.graph) {b : BlockId} (hb : b < s.graph.size)
    (stmts : List (Unit → Stmt)) :
    Keeps s (lowerAll scope b stmts) fun c s' =>
      c < s'.graph.size ∧ DoneEach s s' (stmts.map (· ())) fun job => job.scope = scope := by
  match stmts with
  | [] => exact keeps_pure h ⟨hb, .nil⟩
  | stmt :: stmts =>
    refine (keeps_lower h hscope hb (stmt ())).bind fun c s1 h1 g1 ⟨hdone, hc, _⟩ => ?_
    intro d s2 hrun
    obtain ⟨h2, g2, hd, hrest⟩ := keeps_lowerAll h1 (hscope.mono g1) hc stmts d s2 hrun
    exact ⟨h2, g2, hd, .cons (hdone.widen .refl g2.steps) rfl (hrest.widen g1.steps .refl)⟩

end

theorem keeps_bindParams (h : s.Sound) (index : Nat) (params : List VarId) :
    Keeps s (bindParams index params) fun _ _ => True := by
  induction params generalizing s index with
  | nil => exact keeps_pure h trivial
  | cons p ps ih =>
    refine (keeps_numVars h).bind fun n s1 h1 g1 hn => ?_
    refine (keeps_variableRef h1 hn p).bind fun x s2 h2 g2 hx => ?_
    have hparam : (Instr.param x index).VarsBelow s2.graph.numVars := by
      refine Instr.varsBelow_iff.mpr ⟨fun v hv => ?_, nofun⟩
      cases hv
      exact hx.1 ▸ hx.2
    refine (keeps_append h2 hparam rfl nofun).bind fun _ s3 h3 _ _ => ?_
    exact ih h3 (index + 1)

/-- A `return` without a value may have any shadow that stands aside, and the shadow still does so then. -/
theorem close_ret_sound (h : s.Sound) {b shadow : BlockId} (hb : b < s.graph.size) (hshadow : s.Aside shadow)
    {u : Unit} {s' : LoweringState} (hrun : close b (.ret shadow none) s = .ok (u, s')) :
    (s'.Sound ∧ s.Step s') ∧ s'.graph.size = s.graph.size ∧ s'.Aside shadow := by
  obtain ⟨hopen, rfl⟩ := close_eq_ok hrun
  refine ⟨⟨h.setJump hb (fun _ hc => nomatch hc) (fun c hc => ?_) (fun _ hop => nomatch hop),
    .close hopen fun _ hop => nomatch hop⟩, FlowGraph.size_setJump _ _ _, ?_, hshadow.ne_entry,
    fun p he => ?_, hshadow.noLabel⟩
  · cases hc
    exact hshadow
  · rw [FlowGraph.size_setJump]
    exact hshadow.lt
  · rw [FlowGraph.Edge, FlowGraph.targets, FlowGraph.jump_setJump] at he
    split at he
    · exact nomatch he
    · exact hshadow.noEdge p he

/-- A lowered body leaves a sound graph, which it reached by steps of lowering. -/
theorem lowerBody_sound (h : s.Sound) {params : List VarId} {body : Stmt} {u : Unit} {s' : LoweringState}
    (hrun : lowerBody params body s = .ok (u, s')) :
    s'.Sound ∧ s.Steps s' ∧ Job.DoneBetween ⟨{}, FlowGraph.entry, body⟩ s s' := by
  obtain ⟨_, s1, hparams, hrun⟩ := bind_ok hrun
  obtain ⟨last, s2, hbody, hrun⟩ := bind_ok hrun
  obtain ⟨sink, s3, hnew, hrun⟩ := bind_ok hrun
  obtain ⟨_, s4, hsink, hlast⟩ := bind_ok hrun
  obtain ⟨h1, g1, -⟩ := keeps_bindParams h 0 params _ s1 hparams
  obtain ⟨h2, g2, hdone, hlt, -⟩ := keeps_lower h1 (Scope.within_empty _) h1.entry_lt body last s2 hbody
  cases hnew
  -- the sink is a shadow twice, of its own jump and of the last one
  obtain ⟨⟨h4, step4⟩, hsize, haside⟩ :=
    close_ret_sound h2.addBlock h2.landing_addBlock.lt h2.aside_addBlock hsink
  have hlt4 : last < s4.graph.size := by
    rw [hsize]
    exact s2.grows_addBlock.lt hlt
  obtain ⟨⟨h5, step5⟩, -⟩ := close_ret_sound h4 hlt4 haside hlast
  have hlast := (s2.grows_addBlock.steps.tail step4).tail step5
  exact ⟨h5, (g1.trans g2).steps.trans hlast, hdone.widen g1.steps hlast⟩

end Lowering

/-- A lowered graph is what lowering the body has built, and has no open block. -/
theorem lowerTree_ok {numVars : Nat} {params : List VarId} {body : Stmt} {g : FlowGraph}
    (h : lowerTree numVars params body = .ok g) :
    ∃ s, Lowering.lowerBody params body { graph := .new numVars } = .ok ((), s) ∧
      g = { s.graph with numTemps := s.temps } ∧ ∀ b < s.graph.size, (s.graph.jump b).isMissing = false := by
  rw [lowerTree, StateT.run] at h
  cases hrun : Lowering.lowerBody params body { graph := .new numVars } with
  | error e =>
    rw [hrun] at h
    exact nomatch h
  | ok result =>
    obtain ⟨_, s⟩ := result
    rw [hrun] at h
    dsimp only at h
    split at h
    · exact nomatch h
    · next hnone =>
      cases h
      refine ⟨s, rfl, rfl, fun b hb => ?_⟩
      have hclosed := List.find?_eq_none.mp hnone b (List.mem_range.mpr hb)
      exact Bool.eq_false_iff.mpr hclosed

/-- If lowering succeeds, then the body was lowered and no block was left open. -/
theorem Function.lower_ok {fn : Function} {g : FlowGraph} (h : fn.lower = .ok g) :
    ∃ s, Lowering.lowerBody fn.params fn.tree { graph := .new fn.numVars } = .ok ((), s) ∧
      g = { s.graph with numTemps := s.temps } ∧ ∀ b < s.graph.size, (s.graph.jump b).isMissing = false :=
  lowerTree_ok h

/-- What a lowered graph is like. -/
structure FlowGraph.Lowered (g : FlowGraph) : Prop extends g.Fresh where
  jumpVars : ∀ b, ∀ v ∈ (g.jump b).reads, v < g.numVars
  apart : g.Apart
  closed : ∀ b < g.size, (g.jump b).isMissing = false

theorem LoweringState.sound_new (numVars : Nat) : LoweringState.Sound { graph := .new numVars } := by
  refine ⟨FlowGraph.fresh_new _, fun b v hv => ?_, FlowGraph.apart_new _, nofun⟩
  rcases Nat.eq_zero_or_pos b with rfl | hb
  · exact nomatch hv
  · rw [FlowGraph.jump_of_size_le hb] at hv
    exact nomatch hv

/-- Whatever a function is lowered to is a lowered graph. -/
theorem Function.lowered {fn : Function} {g : FlowGraph} (h : fn.lower = .ok g) : g.Lowered := by
  obtain ⟨s, hrun, rfl, hclosed⟩ := Function.lower_ok h
  obtain ⟨hsound, -⟩ := Lowering.lowerBody_sound (LoweringState.sound_new _) hrun
  exact ⟨⟨hsound.toLinked.of_blocks_eq rfl, hsound.marked, hsound.kept, hsound.noPhis, hsound.vars⟩,
    hsound.jumpVars, hsound.apart.of_jumps (Nat.le_refl _) fun _ => rfl, hclosed⟩

/-- A lowered graph is built step by step. -/
theorem Function.lower_steps {fn : Function} {g : FlowGraph} (h : fn.lower = .ok g) :
    ∃ s, LoweringState.Steps { graph := .new fn.numVars } s ∧ g = { s.graph with numTemps := s.temps } := by
  obtain ⟨s, hrun, hg, -⟩ := Function.lower_ok h
  exact ⟨s, (Lowering.lowerBody_sound (LoweringState.sound_new _) hrun).2.1, hg⟩

end SsaFlow
