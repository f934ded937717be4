-- SUMMARY: Lowering sees only the source that nodes stand for, also where it finds cases by the numbers of statements.
import SsaFlow.Proofs.Acceptance
import SsaFlow.Proofs.SameTree

/-!
# Cases by number

A `case` statement that is reached has to find the block that was made for it when its `switch` was opened.
`Lowering.lower` finds it by the label, on the tree. The other way is to walk the tables and to find it by the number
of the statement (`Function.lowerNode`); but a statement can be shared, between places of one `switch` as well as
between several, so its number does not tell where it was met. The two ways agree for all tables
(`Function.lowerNumbered_eq`): a statement has one label, a `switch` that can be opened has no label twice, and what is
reached in the body of a `switch` is what was gathered for it (`Function.Owns`).
-/

namespace SsaFlow

def StmtKind.caseLabel? : StmtKind → Option CaseLabel
  | .case value _ => some (.value value)
  | .default _ => some .default
  | _ => none

def StmtKind.isSwitch : StmtKind → Bool
  | .switch .. => true
  | _ => false

/-- Where the jumps inside a statement go. The blocks for the `case` and `default` statements of the innermost
`switch` are found by the numbers of these statements. -/
structure NodeScope where
  breakTo : Option BlockId := none
  continueTo : Option BlockId := none
  cases : List (StmtId × BlockId) := []

namespace NodeScope

def loop (s : NodeScope) (breakTo continueTo : BlockId) : NodeScope :=
  { s with breakTo := some breakTo, continueTo := some continueTo }

def switch (s : NodeScope) (breakTo : BlockId) (cases : List (StmtId × BlockId)) : NodeScope :=
  { s with breakTo := some breakTo, cases := cases }

end NodeScope

/-- The blocks that were made for a `switch`: by statement, the latest first, by value, and for `default`. -/
structure NodeCases where
  table : List (StmtId × BlockId) := []
  options : List (Int × BlockId) := []
  default : Option BlockId := none

namespace NodeCases

def has (made : NodeCases) : CaseLabel → Bool
  | .value v => made.options.any fun o => o.1 == v
  | .default => made.default.isSome

def push (made : NodeCases) (id : StmtId) (target : BlockId) : CaseLabel → NodeCases
  | .value v => { made with table := (id, target) :: made.table, options := made.options ++ [(v, target)] }
  | .default => { made with table := (id, target) :: made.table, default := some target }

end NodeCases

/-- Makes a block for each statement, in order; `made` holds what was made so far. -/
def Lowering.openNodes (made : NodeCases) : List (StmtId × CaseLabel × Span) → Lowering NodeCases
  | [] => return made
  | (id, label, span) :: rest => do
    let target ← newBlock
    if made.has label then fail (repeatedLabel span label)
    else openNodes (made.push id target label) rest

namespace Function

open Lowering

def caseLabel? (fn : Function) (id : StmtId) : Option CaseLabel := fn.stmts[id]?.bind (·.kind.caseLabel?)

/-- The `case` and `default` statements that belong to a `switch` with the given body, in source order. -/
def caseNodes (fn : Function) : (depth : Nat) → StmtId → Except BuildError (List (StmtId × CaseLabel × Span))
  | 0, _ => .error .absentNode
  | depth + 1, id =>
    match fn.stmts[id]? with
    | none => .error .absentNode
    | some ⟨span, kind⟩ =>
      if kind.isSwitch then .ok []
      else do
        let below ← kind.parts.mapM (fn.caseNodes depth)
        return (kind.caseLabel?.toList.map fun label => (id, label, span)) ++ below.flatten

/-- Lowers a statement of the table into an open block, followed to the given depth; returns the open block where
control goes on. -/
def lowerNode (fn : Function) : (depth : Nat) → NodeScope → BlockId → StmtId → Lowering BlockId
  | 0, _, _, _ => throw .absentNode
  | depth + 1, scope, block, id =>
    match fn.stmts[id]? with
    | none => throw .absentNode
    | some ⟨span, kind⟩ =>
      match kind with
      | .expr e => do
        beginStmt block span
        let _ ← compute block (fn.expr e)
        return block
      | .decl ds => do
        beginStmt block span
        declareAll block (ds.map (Declarator.map fn.expr))
        return block
      | .block body => body.foldlM (fn.lowerNode depth scope) block
      | .ifElse cond thenBody none => do
        beginStmt block span
        let c ← compute block (fn.expr cond)
        let thenBlock ← newBlock
        let merge ← newBlock
        close block (.branch c thenBlock merge)
        let thenExit ← fn.lowerNode depth scope thenBlock thenBody
        close thenExit (.goto merge)
        return merge
      | .ifElse cond thenBody (some elseBody) => do
        beginStmt block span
        let c ← compute block (fn.expr cond)
        let thenBlock ← newBlock
        let merge ← newBlock
        let elseBlock ← newBlock
        close block (.branch c thenBlock elseBlock)
        let thenExit ← fn.lowerNode depth scope thenBlock thenBody
        close thenExit (.goto merge)
        let elseExit ← fn.lowerNode depth scope elseBlock elseBody
        close elseExit (.goto merge)
        return merge
      | .whileLoop cond body => do
        beginStmt block span
        let header ← newBlock
        close block (.goto header)
        let c ← compute header (fn.expr cond)
        let bodyBlock ← newBlock
        let after ← newBlock
        let bodyExit ← fn.lowerNode depth (scope.loop after header) bodyBlock body
        close bodyExit (.goto header)
        close header (.branch c bodyBlock after)
        return after
      | .doWhile body cond => do
        beginStmt block span
        let bodyBlock ← newBlock
        close block (.goto bodyBlock)
        let condBlock ← newBlock
        let after ← newBlock
        let bodyExit ← fn.lowerNode depth (scope.loop after condBlock) bodyBlock body
        close bodyExit (.goto condBlock)
        let c ← compute condBlock (fn.expr cond)
        close condBlock (.branch c bodyBlock after)
        return after
      | .forLoop init cond step body => do
        beginStmt block span
        startFor block (init.map fn.expr)
        let header ← newBlock
        close block (.goto header)
        let c ← computeOption header (cond.map fn.expr)
        let bodyBlock ← newBlock
        let after ← newBlock
        let latch ← if (step.map fn.expr).isSome then newBlock else pure header
        let bodyExit ← fn.lowerNode depth (scope.loop after latch) bodyBlock body
        close bodyExit (.goto latch)
        match step.map fn.expr with
        | none => pure ()
        | some e =>
          let _ ← compute latch e
          close latch (.goto header)
        match c with
        | none => close header (.goto bodyBlock)
        | some c => close header (.branch c bodyBlock after)
        return after
      | .switch scrutinee body => do
        beginStmt block span
        let value ← compute block (fn.expr scrutinee)
        let after ← newBlock
        let nodes ← fn.caseNodes depth body
        let made ← openNodes {} nodes
        close block (.select value made.options (made.default.getD after))
        let head ← newBlock
        let bodyExit ← fn.lowerNode depth (scope.switch after made.table) head body
        close bodyExit (.goto after)
        return after
      | .case _ body | .default body => do
        let target ← targetOr (.caseOutsideSwitch span) (scope.cases.lookup id)
        close block (.goto target)
        fn.lowerNode depth scope target body
      | .breakOut => do
        beginStmt block span
        let target ← targetOr (.breakOutsideLoop span) scope.breakTo
        leaveFor block target
      | .continueLoop => do
        beginStmt block span
        let target ← targetOr (.continueOutsideLoop span) scope.continueTo
        leaveFor block target
      | .goto label => do
        beginStmt block span
        let target ← blockOfLabel label
        leaveFor block target
      | .label name body => do
        defineLabel name span
        let target ← blockOfLabel name
        close block (.goto target)
        fn.lowerNode depth scope target body
      | .ret value => do
        beginStmt block span
        let v ← computeOption block (value.map fn.expr)
        let shadow ← newBlock
        close block (.ret shadow v)
        return shadow
      | .empty => return block
      | .error => fail (.errorNode span)

/-- The flow graph of a function by a walk over its tables. -/
def lowerNumbered (fn : Function) : Except BuildError FlowGraph :=
  let walk : Lowering Unit := do
    bindParams 0 fn.params
    let exit ← fn.lowerNode fn.depth {} FlowGraph.entry fn.body
    let sink ← newBlock
    close sink (.ret sink none)
    close exit (.ret sink none)
  match walk.run { graph := .new fn.numVars } with
  | .error e => .error e
  | .ok (_, s) =>
    match s.graph.ids.find? fun b => (s.graph.jump b).isMissing with
    | some b => .error (.internal (.missingTerminator b))
    | none => .ok { s.graph with numTemps := s.temps }

end Function

/-! ## Gathering cases -/

namespace Function

open Lowering

variable {fn : Function} {depth : Nat}

/-- The statement `c` is a `case` or `default` statement of the statement `id`, not inside a `switch` there. -/
inductive Owns (fn : Function) : (depth : Nat) → (id c : StmtId) → Prop
  | self {depth : Nat} {c : StmtId} {label : CaseLabel} : fn.caseLabel? c = some label → Owns fn (depth + 1) c c
  | part {depth : Nat} {id p c : StmtId} {node : StmtNode} : fn.stmts[id]? = some node →
      node.kind.isSwitch = false → p ∈ node.kind.parts → Owns fn depth p c → Owns fn (depth + 1) id c

theorem mapM_ok {α β ε : Type} {f : α → Except ε β} {xs : List α} {ys : List β} (h : xs.mapM f = .ok ys) :
    (∀ x ∈ xs, ∃ y ∈ ys, f x = .ok y) ∧ ∀ y ∈ ys, ∃ x ∈ xs, f x = .ok y := by
  induction xs generalizing ys with
  | nil =>
    cases h
    simp
  | cons x xs ih =>
    rw [List.mapM_cons] at h
    obtain ⟨y, hy, h⟩ := Except.exists_of_bind h
    obtain ⟨rest, hrest, h⟩ := Except.exists_of_bind h
    cases h
    obtain ⟨hleft, hright⟩ := ih hrest
    simp only [List.forall_mem_cons, List.exists_mem_cons_iff]
    exact ⟨⟨.inl hy, fun x hx => .inr (hleft x hx)⟩, .inl hy, fun y hy => .inr (hright y hy)⟩

/-- What is gathered on the tree are the labels of the statements that are gathered in the table. -/
theorem ownLabels_stmtAt (fn : Function) (depth : Nat) (id : StmtId) :
    ownLabels (fn.stmtAt depth id) = List.map Prod.snd <$> fn.caseNodes depth id := by
  induction depth generalizing id with
  | zero => rfl
  | succ depth ih =>
    have hall : ∀ ps : List StmtId, ownLabelsAll (ps.map fun p _ => fn.stmtAt depth p) =
        (fun below => below.flatten.map Prod.snd) <$> ps.mapM (fn.caseNodes depth) := by
      intro ps
      induction ps with
      | nil => rfl
      | cons p ps ihps => simp [ownLabelsAll, ih, ihps]
    cases hnode : fn.stmts[id]? with
    | none =>
      simp only [stmtAt, ownLabels, caseNodes, hnode]
      rfl
    | some node =>
      obtain ⟨span, kind⟩ := node
      cases kind with
      | block body => simp [stmtAt, ownLabels, caseNodes, hnode, StmtKind.isSwitch, StmtKind.parts, StmtKind.caseLabel?, hall]
      | ifElse cond thenBody elseBody =>
        cases elseBody <;>
          simp [stmtAt, ownLabels, caseNodes, hnode, StmtKind.isSwitch, StmtKind.parts, StmtKind.caseLabel?, ih]
      | whileLoop | doWhile | forLoop | case | default | label =>
        simp [stmtAt, ownLabels, caseNodes, hnode, StmtKind.isSwitch, StmtKind.parts, StmtKind.caseLabel?, ih]
      | expr | decl | switch | breakOut | continueLoop | goto | ret | empty | error =>
        simp only [stmtAt, ownLabels, caseNodes, hnode]
        rfl

/-- What is gathered has the labels of the table, and all that a statement owns is gathered. -/
theorem caseNodes_spec {id : StmtId} {nodes : List (StmtId × CaseLabel × Span)}
    (h : fn.caseNodes depth id = .ok nodes) :
    (∀ n ∈ nodes, fn.caseLabel? n.1 = some n.2.1) ∧ ∀ c, fn.Owns depth id c → c ∈ nodes.map Prod.fst := by
  induction depth generalizing id nodes with
  | zero => cases h
  | succ depth ih =>
    rw [caseNodes] at h
    split at h
    · cases h
    · next span kind hnode =>
      have hlabel : fn.caseLabel? id = kind.caseLabel? := by rw [caseLabel?, hnode, Option.bind_some]
      split at h
      -- nothing inside a `switch` belongs to the one around it
      · next hswitch =>
        cases h
        refine ⟨by simp, fun c hc => ?_⟩
        cases hc with
        | self hself =>
          rw [hlabel] at hself
          cases kind <;> cases hswitch
          cases hself
        | part hnode' hswitch' =>
          cases hnode.symm.trans hnode'
          rw [hswitch] at hswitch'
          cases hswitch'
      · obtain ⟨below, hbelow, hnodes⟩ := Except.exists_of_bind h
        cases hnodes
        obtain ⟨hgathered, hparts⟩ := mapM_ok hbelow
        constructor
        · intro n hn
          rcases List.mem_append.mp hn with hown | hn
          · obtain ⟨label, hmem, rfl⟩ := List.mem_map.mp hown
            exact hlabel.trans (Option.mem_toList.mp hmem)
          · obtain ⟨l, hl, hn⟩ := List.mem_flatten.mp hn
            obtain ⟨p, -, hp⟩ := hparts l hl
            exact (ih hp).1 n hn
        · intro c hc
          rw [List.map_append, List.mem_append]
          cases hc with
          | self hself =>
            rw [hlabel] at hself
            exact .inl (by simp [hself])
          | part hnode' hswitch' hp hc =>
            cases hnode.symm.trans hnode'
            obtain ⟨l, hl, hpl⟩ := hgathered _ hp
            refine .inr (List.mem_map.mpr ?_)
            obtain ⟨n, hn, rfl⟩ := List.mem_map.mp ((ih hpl).2 c hc)
            exact ⟨n, List.mem_flatten.mpr ⟨l, hl, hn⟩, rfl⟩

end Function

/-! ## Opening a switch -/

namespace Lowering

theorem lookup_reverse {κ : Type} [BEq κ] [LawfulBEq κ] {l : List (κ × BlockId)} (h : (l.map Prod.fst).Nodup) (k : κ) :
    l.reverse.lookup k = l.lookup k := by
  cases hk : l.lookup k with
  | none =>
    rw [lookup_eq_none_iff_not_mem] at hk ⊢
    simpa using hk
  | some b =>
    obtain ⟨before, after, rfl, -⟩ := List.lookup_eq_some_iff.mp hk
    exact lookup_of_mem (by rwa [List.map_reverse, List.nodup_reverse]) (by simp)

theorem isSome_lookup {κ : Type} [BEq κ] [LawfulBEq κ] (l : List (κ × BlockId)) (k : κ) :
    (l.lookup k).isSome = l.any fun p => p.1 == k := by
  rw [Bool.eq_iff_iff, ← Bool.not_eq_false, Option.isSome_eq_false_iff, Option.isNone_iff_eq_none,
    lookup_eq_none_iff_not_mem, not_not]
  simp

/-- A selection has an option for a value exactly if a label has this value. -/
theorem any_caseOptions (cases : List (CaseLabel × BlockId)) (v : Int) :
    ((caseOptions cases).any fun o => o.1 == v) = cases.any fun c => c.1 == .value v := by
  induction cases with
  | nil => rfl
  | cons c cases ih =>
    obtain ⟨label, b⟩ := c
    cases label with
    | value w =>
      have hbeq : (w == v) = (CaseLabel.value w == CaseLabel.value v) := by
        rw [Bool.eq_iff_iff, beq_iff_eq, beq_iff_eq, CaseLabel.value.injEq]
      rw [show caseOptions ((.value w, b) :: cases) = (w, b) :: caseOptions cases from rfl, List.any_cons, List.any_cons,
        ih, hbeq]
    | default => exact ih

end Lowering

/-- What was made by number is what was made by label, `cases` with the latest first. -/
structure NodeCases.Agrees (fn : Function) (made : NodeCases) (cases : List (CaseLabel × BlockId)) : Prop where
  nodup : (cases.map Prod.fst).Nodup
  table : (made.table.map fun p => (fn.caseLabel? p.1, p.2)) = cases.map fun c => (some c.1, c.2)
  options : made.options = Lowering.caseOptions cases.reverse
  default : made.default = cases.lookup .default

namespace NodeCases.Agrees

variable {fn : Function} {made : NodeCases} {cases : List (CaseLabel × BlockId)}

theorem empty (fn : Function) : NodeCases.Agrees fn {} [] := ⟨List.nodup_nil, rfl, rfl, rfl⟩

/-- A statement and its label are found at the same place, since no label is there twice. -/
theorem lookup_eq (h : made.Agrees fn cases) {c : StmtId} {label : CaseLabel} (hc : c ∈ made.table.map Prod.fst)
    (hlabel : fn.caseLabel? c = some label) : made.table.lookup c = cases.lookup label := by
  obtain ⟨b, hb⟩ : ∃ b, made.table.lookup c = some b :=
    Option.ne_none_iff_exists'.mp fun hnone => Lowering.lookup_eq_none_iff_not_mem.mp hnone hc
  obtain ⟨before, after, htable, -⟩ := List.lookup_eq_some_iff.mp hb
  have hmem : (some label, b) ∈ cases.map fun c => (some c.1, c.2) := by
    rw [← h.table, htable]
    simp [hlabel]
  obtain ⟨⟨l, b'⟩, hentry, heq⟩ := List.mem_map.mp hmem
  cases heq
  rw [hb, Lowering.lookup_of_mem h.nodup hentry]

theorem has_eq (h : made.Agrees fn cases) (label : CaseLabel) :
    made.has label = cases.any fun c => c.1 == label := by
  cases label with
  | value v => rw [NodeCases.has, h.options, Lowering.any_caseOptions, List.any_reverse]
  | default => rw [NodeCases.has, h.default, Lowering.isSome_lookup]

/-- One more block, for a label that is not there yet. -/
theorem push (h : made.Agrees fn cases) {c : StmtId} {label : CaseLabel} (hlabel : fn.caseLabel? c = some label)
    (hnew : made.has label = false) (target : BlockId) :
    (made.push c target label).Agrees fn ((label, target) :: cases) := by
  have hmem : label ∉ cases.map Prod.fst := by
    rw [h.has_eq, ← Lowering.isSome_lookup, Option.isSome_eq_false_iff, Option.isNone_iff_eq_none] at hnew
    exact Lowering.lookup_eq_none_iff_not_mem.mp hnew
  have htable : (((c, target) :: made.table).map fun p => (fn.caseLabel? p.1, p.2)) =
      ((label, target) :: cases).map fun c => (some c.1, c.2) := by
    rw [List.map_cons, List.map_cons, h.table, hlabel]
  cases label with
  | value v =>
    refine ⟨List.nodup_cons.mpr ⟨hmem, h.nodup⟩, htable, ?_, h.default⟩
    rw [NodeCases.push, h.options, List.reverse_cons, Lowering.caseOptions, Lowering.caseOptions, List.filterMap_append]
    rfl
  | default =>
    refine ⟨List.nodup_cons.mpr ⟨hmem, h.nodup⟩, htable, ?_, List.lookup_cons_self.symm⟩
    rw [NodeCases.push, h.options, List.reverse_cons, Lowering.caseOptions, Lowering.caseOptions, List.filterMap_append]
    exact (List.append_nil _).symm

end NodeCases.Agrees

theorem NodeCases.table_push (made : NodeCases) (c : StmtId) (target : BlockId) (label : CaseLabel) :
    (made.push c target label).table = (c, target) :: made.table := by
  cases label <;> rfl

namespace Lowering

variable {fn : Function}

/-- Opening a `switch` by the numbers of its statements and by their labels goes the same way: it fails for the same
reason, or makes the same blocks and has one for every statement. -/
theorem openNodes_openCases {made : NodeCases} {cases : List (CaseLabel × BlockId)} (h : made.Agrees fn cases)
    {nodes : List (StmtId × CaseLabel × Span)} (hnodes : ∀ n ∈ nodes, fn.caseLabel? n.1 = some n.2.1)
    (s : LoweringState) :
    (∃ e, openNodes made nodes s = .error e ∧ openCases cases (nodes.map Prod.snd) s = .error e) ∨
    ∃ made' cases' s', openNodes made nodes s = .ok (made', s') ∧
      openCases cases (nodes.map Prod.snd) s = .ok (cases'.reverse, s') ∧ made'.Agrees fn cases' ∧
      ∀ c, c ∈ made.table.map Prod.fst ∨ c ∈ nodes.map Prod.fst → c ∈ made'.table.map Prod.fst := by
  induction nodes generalizing made cases s with
  | nil => exact .inr ⟨made, cases, s, rfl, rfl, h, by simp⟩
  | cons node nodes ih =>
    obtain ⟨c, label, span⟩ := node
    obtain ⟨hlabel, hnodes⟩ := List.forall_mem_cons.mp hnodes
    -- both ways make the block before they look for a repeated label
    let s' : LoweringState := { s with graph := s.graph.addBlock }
    have hopen : openNodes made ((c, label, span) :: nodes) s =
        (if made.has label then fail (repeatedLabel span label)
          else openNodes (made.push c s.graph.size label) nodes : Lowering NodeCases) s' := rfl
    have hcases : openCases cases (((c, label, span) :: nodes).map Prod.snd) s =
        (if cases.any fun q => q.1 == label then fail (repeatedLabel span label)
          else openCases ((label, s.graph.size) :: cases) (nodes.map Prod.snd) : Lowering _) s' := rfl
    rw [hopen, hcases, ← h.has_eq]
    cases hnew : made.has label with
    | true => exact .inl ⟨_, rfl, rfl⟩
    | false =>
      simp only [Bool.false_eq_true, if_false]
      refine (ih (h.push hlabel hnew s.graph.size) hnodes s').imp_right ?_
      rintro ⟨made', cases', s'', hmade, hcs, hagrees, hkeys⟩
      refine ⟨made', cases', s'', hmade, hcs, hagrees, fun d hd => hkeys d ?_⟩
      rw [NodeCases.table_push, List.map_cons, List.mem_cons]
      rw [List.map_cons, List.mem_cons] at hd
      tauto

/-- Two steps that go the same way can be followed by different steps, if these do the same then. -/
theorem bind_eq_bind {α β γ : Type} {m : Lowering α} {m' : Lowering β} {f : α → Lowering γ} {f' : β → Lowering γ}
    (h : ∀ s, (∃ e, m s = .error e ∧ m' s = .error e) ∨
      ∃ a b s', m s = .ok (a, s') ∧ m' s = .ok (b, s') ∧ f a s' = f' b s') : m >>= f = m' >>= f' := by
  funext s
  rcases h s with ⟨e, hm, hm'⟩ | ⟨a, b, s', hm, hm', hf⟩
  · simp only [bind, StateT.bind, hm, hm', Except.bind]
  · simp only [bind, StateT.bind, hm, hm', Except.bind]
    exact hf

theorem caseTarget_eq (scope : Scope) (span : Span) (label : CaseLabel) :
    caseTarget scope span label = targetOr (.caseOutsideSwitch span) (scope.cases.lookup label) := by
  unfold caseTarget
  cases scope.cases.lookup label <;> rfl

end Lowering

/-! ## The walk -/

/-- Two scopes of a statement send its jumps to the same blocks. -/
structure NodeScope.Matches (fn : Function) (ns : NodeScope) (scope : Scope) (depth : Nat) (id : StmtId) : Prop where
  breakTo : ns.breakTo = scope.breakTo
  continueTo : ns.continueTo = scope.continueTo
  cases : ∀ {c : StmtId} {label : CaseLabel}, fn.Owns depth id c → fn.caseLabel? c = some label →
    ns.cases.lookup c = scope.cases.lookup label

namespace NodeScope.Matches

variable {fn : Function} {ns : NodeScope} {scope : Scope} {depth : Nat} {id : StmtId}

theorem loop (h : ns.Matches fn scope depth id) (breakTo continueTo : BlockId) :
    (ns.loop breakTo continueTo).Matches fn (scope.loop breakTo continueTo) depth id :=
  ⟨rfl, rfl, h.cases⟩

theorem part (h : ns.Matches fn scope (depth + 1) id) {node : StmtNode} {p : StmtId} (hnode : fn.stmts[id]? = some node)
    (hswitch : node.kind.isSwitch = false) (hp : p ∈ node.kind.parts) : ns.Matches fn scope depth p :=
  ⟨h.breakTo, h.continueTo, fun howns => h.cases (.part hnode hswitch hp howns)⟩

theorem switch {made : NodeCases} {cases : List (CaseLabel × BlockId)} {body : StmtId}
    (h : ns.Matches fn scope (depth + 1) id) (after : BlockId) (hmade : made.Agrees fn cases)
    (howned : ∀ c, fn.Owns depth body c → c ∈ made.table.map Prod.fst) :
    (ns.switch after made.table).Matches fn (scope.switch after cases.reverse) depth body := by
  refine ⟨rfl, h.continueTo, fun {c label} hc hlabel => ?_⟩
  exact (hmade.lookup_eq (howned c hc) hlabel).trans (Lowering.lookup_reverse hmade.nodup label).symm

end NodeScope.Matches

namespace Function

open Lowering

variable {fn : Function}

/-- If the two ways to lower agree on each of several statements, then they agree on the sequence.
-/
theorem foldlM_lowerNode {ns : NodeScope} {scope : Scope} {depth : Nat} {ps : List StmtId}
    (h : ∀ p ∈ ps, ∀ block, fn.lowerNode depth ns block p = Lowering.lower scope block (fn.stmtAt depth p)) (block : BlockId) :
    ps.foldlM (fn.lowerNode depth ns) block = lowerAll scope block (ps.map fun p _ => fn.stmtAt depth p) := by
  induction ps generalizing block with
  | nil => rfl
  | cons p ps ih =>
    obtain ⟨hp, hps⟩ := List.forall_mem_cons.mp h
    rw [List.foldlM_cons, List.map_cons, lowerAll, hp]
    exact bind_congr fun next => ih hps next

/-- The walk over the tables does what lowering the tree does. -/
theorem lowerNode_eq {ns : NodeScope} {scope : Scope} {depth : Nat} {id : StmtId} (h : ns.Matches fn scope depth id)
    (block : BlockId) : fn.lowerNode depth ns block id = Lowering.lower scope block (fn.stmtAt depth id) := by
  induction depth generalizing ns scope id block with
  | zero => rfl
  | succ depth ih =>
    cases hnode : fn.stmts[id]? with
    | none => simp only [lowerNode, hnode, stmtAt, Lowering.lower]
    | some node =>
      obtain ⟨span, kind⟩ := node
      cases kind with
      | expr | decl | ret | empty | error | goto => simp only [lowerNode, hnode, stmtAt, Lowering.lower]
      | block body =>
        simp only [lowerNode, hnode, stmtAt, Lowering.lower]
        exact foldlM_lowerNode (fun p hp => ih (h.part hnode rfl hp)) block
      | ifElse cond thenBody elseBody =>
        have hthen := ih (h.part hnode rfl (p := thenBody) (by simp [StmtKind.parts]))
        cases elseBody with
        | none => simp only [lowerNode, hnode, stmtAt, Lowering.lower, hthen]
        | some elseBody =>
          have helse := ih (h.part hnode rfl (p := elseBody) (by simp [StmtKind.parts]))
          simp only [lowerNode, hnode, stmtAt, Lowering.lower, hthen, helse]
      | whileLoop cond body | doWhile body cond =>
        have hbody := fun a c => ih ((h.part hnode rfl (p := body) (by simp [StmtKind.parts])).loop a c)
        simp only [lowerNode, hnode, stmtAt, Lowering.lower, hbody]
      | forLoop init cond step body =>
        have hbody := fun a c => ih ((h.part hnode rfl (p := body) (by simp [StmtKind.parts])).loop a c)
        simp only [lowerNode, hnode, stmtAt, hbody]
        rfl
      | label name body =>
        have hbody := ih (h.part hnode rfl (p := body) (by simp [StmtKind.parts]))
        simp only [lowerNode, hnode, stmtAt, Lowering.lower, hbody]
      | breakOut | continueLoop => simp only [lowerNode, hnode, stmtAt, Lowering.lower, h.breakTo, h.continueTo]
      | case value body | default body =>
        have hlabel : fn.caseLabel? id = _ := congrArg (Option.bind · _) hnode
        have hbody := ih (h.part hnode rfl (p := body) (by simp [StmtKind.parts]))
        simp only [lowerNode, hnode, stmtAt, Lowering.lower, hbody, caseTarget_eq, h.cases (.self hlabel) hlabel]
      | switch scrutinee body =>
        simp only [lowerNode, hnode, stmtAt, Lowering.lower]
        -- up to the cases the two ways do the same
        refine bind_congr fun _ => bind_congr fun value => bind_congr fun after => bind_eq_bind fun s => ?_
        rw [ownLabels_stmtAt]
        cases hnodes : fn.caseNodes depth body with
        | error e => exact .inl ⟨e, rfl, rfl⟩
        | ok nodes =>
          obtain ⟨hlabels, hgathered⟩ := caseNodes_spec hnodes
          refine .inr ⟨nodes, nodes.map Prod.snd, s, rfl, rfl, congrFun (bind_eq_bind fun s => ?_) s⟩
          refine (openNodes_openCases (.empty fn) hlabels s).imp_right ?_
          rintro ⟨made, cases, s', hmade, hcases, hagrees, hkeys⟩
          refine ⟨made, cases.reverse, s', hmade, hcases, ?_⟩
          have hbody := ih (h.switch after hagrees fun c hc => hkeys c (.inr (hgathered c hc)))
          simp only [hbody, hagrees.options, hagrees.default, lookup_reverse hagrees.nodup]

/-- A walk over the tables that finds cases by the numbers of their statements gives what lowering gives, for tables of
any kind. -/
theorem lowerNumbered_eq (fn : Function) : fn.lowerNumbered = fn.lower := by
  have hbody : ∀ block, fn.lowerNode fn.depth {} block fn.body = Lowering.lower {} block fn.tree :=
    lowerNode_eq ⟨rfl, rfl, fun _ _ => rfl⟩
  simp only [lowerNumbered, hbody]
  rfl

/-! ## Numbering and sharing -/

/-- A grounded table is lowered to a graph, or there is a complaint. -/
theorem Grounded.lower_outcome (h : fn.Grounded) :
    (∃ g, fn.lower = .ok g) ∨ ∃ i, fn.lower = .error (.internal i) := by
  rcases h.lower_cases with ⟨-, herror⟩ | ⟨-, s, -, -, hlower⟩
  · exact .inr herror
  · split at hlower
    · exact .inr ⟨_, hlower⟩
    · exact .inl ⟨_, hlower⟩

/-- Lowering sees what the nodes of a table stand for, and neither how they are numbered nor which of them are shared:
tables whose bodies stand for the same source give the same graph or the same complaint. That is so as well if the
tables are walked and cases are found by the numbers of their statements. -/
theorem lower_eq_of_same {fn fn' : Function} (hfn : fn.Grounded) (hfn' : fn'.Grounded) (hparams : fn.params = fn'.params)
    (hvars : fn.numVars = fn'.numVars) (hbody : SameStmt fn fn' fn.body fn'.body) :
    ((∃ g, fn.lower = .ok g ∧ fn'.lower = .ok g) ∨
      ∃ i, fn.lower = .error (.internal i) ∧ fn'.lower = .error (.internal i)) ∧
    fn.lowerNumbered = fn.lower ∧ fn'.lowerNumbered = fn'.lower := by
  have hlower : fn.lower = fn'.lower := by
    rw [Function.lower, Function.lower, hvars, hparams, hbody.tree_eq hfn hfn']
  refine ⟨?_, fn.lowerNumbered_eq, fn'.lowerNumbered_eq⟩
  rw [← hlower]
  simpa only [and_self] using hfn.lower_outcome

end Function

/-- The function `switch (a) { case 1: break; switch (a) { case 1: break; } }`, where the two `switch` statements share
their case. -/
def sharedCase : Function :=
  let span : Span := ⟨0, 1⟩
  { name := ⟨0⟩, params := [0], numVars := 1, body := 4, span := span
    exprs := #[⟨span, .var 0⟩]
    stmts := #[⟨span, .breakOut⟩, ⟨span, .case 1 0⟩, ⟨span, .switch 0 1⟩, ⟨span, .block [1, 2]⟩, ⟨span, .switch 0 3⟩] }

/-- The same function, where nothing is shared. -/
def separateCases : Function :=
  let span : Span := ⟨0, 1⟩
  { name := ⟨0⟩, params := [0], numVars := 1, body := 6, span := span
    exprs := #[⟨span, .var 0⟩, ⟨span, .var 0⟩]
    stmts := #[⟨span, .breakOut⟩, ⟨span, .breakOut⟩, ⟨span, .case 1 1⟩, ⟨span, .case 1 0⟩, ⟨span, .switch 1 2⟩,
      ⟨span, .block [3, 4]⟩, ⟨span, .switch 0 5⟩] }

theorem lower_eq_of_same_sharedCase : ∃ g, sharedCase.lower = .ok g ∧ separateCases.lower = .ok g := by
  have hshared : sharedCase.Grounded := Function.grounded_of_earlier (by decide) (by decide) (by decide)
  have hseparate : separateCases.Grounded := Function.grounded_of_earlier (by decide) (by decide) (by decide)
  have hcase : SameStmt sharedCase separateCases 1 3 :=
    .node rfl rfl rfl rfl .nil (.cons (.node rfl rfl rfl rfl .nil .nil) .nil)
  have hcase' : SameStmt sharedCase separateCases 1 2 :=
    .node rfl rfl rfl rfl .nil (.cons (.node rfl rfl rfl rfl .nil .nil) .nil)
  have hinner : SameStmt sharedCase separateCases 2 4 :=
    .node rfl rfl rfl rfl (.cons (.node rfl rfl rfl rfl .nil) .nil) (.cons hcase' .nil)
  have hblock : SameStmt sharedCase separateCases 3 5 :=
    .node rfl rfl rfl rfl .nil (.cons hcase (.cons hinner .nil))
  have hbody : SameStmt sharedCase separateCases 4 6 :=
    .node rfl rfl rfl rfl (.cons (.node rfl rfl rfl rfl .nil) .nil) (.cons hblock .nil)
  have hok : sharedCase.lower.toBool = true := by decide +kernel
  obtain ⟨hsame | ⟨i, herror, -⟩, -⟩ := Function.lower_eq_of_same hshared hseparate rfl rfl hbody
  · exact hsame
  · rw [herror] at hok
    exact nomatch hok

end SsaFlow
