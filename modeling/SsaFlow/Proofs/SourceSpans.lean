-- SUMMARY: Spans that nest like source text, and where the spans in a lowered graph come from.
import Mathlib
import SsaFlow.Proofs.Lowered
import SsaFlow.Proofs.WellFormed

/-!
# Source spans of statements

In source text a statement lies in the statement that it is a part of, and the parts of a statement stand
side by side. Of two statements of such a tree, then, one encloses the other or they stand apart
(`Stmt.Nested.laminar`).

A block of a lowered graph holds the spans of the statements whose code begins there. Lowering takes them
from the tree and from nowhere else (`Function.lower_spans`).
-/

namespace SsaFlow

namespace Span

variable {s t s' t' : Span}

/-- `t` lies in `s`. -/
def Contains (s t : Span) : Prop := s.start ≤ t.start ∧ t.stop ≤ s.stop

/-- One of the two ends before the other begins. -/
def Apart (s t : Span) : Prop := s.stop ≤ t.start ∨ t.stop ≤ s.start

instance (s t : Span) : Decidable (s.Contains t) := inferInstanceAs (Decidable (_ ∧ _))

instance (s t : Span) : Decidable (s.Apart t) := inferInstanceAs (Decidable (_ ∨ _))

theorem Contains.refl (s : Span) : s.Contains s := ⟨Nat.le_refl _, Nat.le_refl _⟩

theorem Contains.trans {u : Span} (h : s.Contains t) (h' : t.Contains u) : s.Contains u :=
  ⟨Nat.le_trans h.1 h'.1, Nat.le_trans h'.2 h.2⟩

theorem Apart.symm (h : s.Apart t) : t.Apart s := Or.symm h

theorem Apart.mono (h : s.Apart t) (hs : s.Contains s') (ht : t.Contains t') : s'.Apart t' :=
  h.imp (fun hle => Nat.le_trans hs.2 (Nat.le_trans hle ht.1))
    fun hle => Nat.le_trans ht.2 (Nat.le_trans hle hs.1)

theorem isEmpty_eq_false : s.isEmpty = false ↔ s.start < s.stop := by simp [isEmpty]

end Span

/-! ## Nested statements -/

namespace Stmt

def span : Stmt → Span
  | .expr span _ | .decl span _ | .block span _ | .ifThen span _ _ | .ifElse span _ _ _ | .whileLoop span _ _
  | .doWhile span _ _ | .forLoop span _ _ _ _ | .switch span _ _ | .case span _ _ | .default span _
  | .breakOut span | .continueLoop span | .goto span _ | .label span _ _ | .ret span _ | .empty span
  | .error span => span
  | .absent => .nowhere

/-- The statements of a tree stand in the source one inside the other, like the tree. -/
@[mk_iff]
structure Nested (s : Stmt) : Prop where
  nonempty : ∀ x ∈ s.nodes, x.span.isEmpty = false
  inside : ∀ x ∈ s.nodes, ∀ p ∈ x.parts, x.span.Contains (p ()).span
  apart : ∀ x ∈ s.nodes, x.parts.Pairwise fun p q => (p ()).span.Apart (q ()).span

instance (s : Stmt) : Decidable s.Nested := decidable_of_iff' _ (nested_iff s)

mutual

/-- What follows from the parts of a statement holds of every statement. -/
theorem parts_induction {P : Stmt → Prop} (step : ∀ s, (∀ p ∈ s.parts, P (p ())) → P s) (s : Stmt) : P s := by
  match s with
  | .block span body => exact step _ (parts_induction_all step body)
  | .ifThen _ _ body | .whileLoop _ _ body | .doWhile _ body _ | .forLoop _ _ _ _ body | .switch _ _ body
  | .case _ _ body | .default _ body | .label _ _ body =>
    exact step _ (List.forall_mem_singleton.mpr (parts_induction step (body ())))
  | .ifElse _ _ thenBody elseBody =>
    exact step _ (List.forall_mem_cons.mpr ⟨parts_induction step (thenBody ()),
      List.forall_mem_singleton.mpr (parts_induction step (elseBody ()))⟩)
  | .expr .. | .decl .. | .breakOut _ | .continueLoop _ | .goto .. | .ret .. | .empty _ | .error _ | .absent =>
    exact step _ nofun

theorem parts_induction_all {P : Stmt → Prop} (step : ∀ s, (∀ p ∈ s.parts, P (p ())) → P s)
    (ss : List (Unit → Stmt)) : ∀ p ∈ ss, P (p ()) := by
  match ss with
  | [] => exact nofun
  | s :: ss => exact List.forall_mem_cons.mpr ⟨parts_induction step (s ()), parts_induction_all step ss⟩

end

namespace Nested

variable {s x y : Stmt}

theorem part (h : s.Nested) {p : Unit → Stmt} (hp : p ∈ s.parts) : (p ()).Nested where
  nonempty x hx := h.nonempty x (nodes_of_part hp hx)
  inside x hx := h.inside x (nodes_of_part hp hx)
  apart x hx := h.apart x (nodes_of_part hp hx)

/-- In a nested tree, a statement covers its parts at any depth. -/
theorem contains (h : s.Nested) (hx : x ∈ s.nodes) : s.span.Contains x.span := by
  induction s using parts_induction with
  | step s ih =>
    rcases mem_nodes.mp hx with rfl | ⟨p, hp, hx⟩
    · exact .refl _
    · exact (h.inside s s.self_mem_nodes p hp).trans (ih p hp (h.part hp) hx)

/-- Two statements stand apart, or one lies in the other. -/
theorem laminar (h : s.Nested) (hx : x ∈ s.nodes) (hy : y ∈ s.nodes) :
    x.span.Apart y.span ∨ x.span.Contains y.span ∨ y.span.Contains x.span := by
  induction s using parts_induction with
  | step s ih =>
    rcases mem_nodes.mp hx with rfl | ⟨p, hp, hxp⟩
    · exact .inr (.inl (h.contains hy))
    rcases mem_nodes.mp hy with rfl | ⟨q, hq, hyq⟩
    · exact .inr (.inr (h.contains hx))
    by_cases hpq : p = q
    · subst hpq
      exact ih p hp (h.part hp) hxp hyq
    · have hsymm : Std.Symm fun p q : Unit → Stmt => (p ()).span.Apart (q ()).span := ⟨fun _ _ => Span.Apart.symm⟩
      have hapart := (h.apart s s.self_mem_nodes).forall hp hq hpq
      exact .inl (hapart.mono ((h.part hp).contains hxp) ((h.part hq).contains hyq))

end Nested

end Stmt

/-! ## Notes of lowering -/

namespace FlowGraph

theorem not_mem_spans_new (numVars : Nat) (b : BlockId) (x : Span) : x ∉ ((new numVars).block b).spans := by
  rcases Nat.eq_zero_or_pos b with rfl | hb
  · exact Array.not_mem_empty x
  · rw [block_of_size_le (g := new numVars) hb]
    exact Array.not_mem_empty x

theorem spans_setJump (g : FlowGraph) (b c : BlockId) (j : Jump) :
    ((g.setJump b j).block c).spans = (g.block c).spans := by
  obtain ⟨preds, hblock, -⟩ := g.block_setJump b j c
  rw [hblock]

theorem spans_modify (g : FlowGraph) (b c : BlockId) {f : Block → Block}
    (hf : ∀ blk, (f blk).spans = blk.spans) : ((g.modify b f).block c).spans = (g.block c).spans := by
  rw [block_modify]
  split
  · exact hf _
  · rfl

end FlowGraph

namespace Lowering

variable {α β : Type} {S : Span → Prop}

/-- Whatever the step notes as the begin of a statement is one of the spans `S`. -/
def Notes (S : Span → Prop) (m : Lowering α) : Prop :=
  ∀ s a s', m s = .ok (a, s') →
    ∀ b, ∀ x ∈ (s'.graph.block b).spans, x ∈ (s.graph.block b).spans ∨ S x

theorem Notes.bind {m : Lowering α} {f : α → Lowering β} (hm : Notes S m) (hf : ∀ a, Notes S (f a)) :
    Notes S (m >>= f) := by
  intro s r s'' hrun b x hx
  obtain ⟨a, s', hfirst, hsecond⟩ := bind_ok hrun
  rcases hf a s' r s'' hsecond b x hx with hx | hx
  · exact hm s a s' hfirst b x hx
  · exact .inr hx

/-- Steps that leave the notes as they are. -/
theorem notes_of_spans_eq {m : Lowering α}
    (h : ∀ s a s', m s = .ok (a, s') → ∀ b, (s'.graph.block b).spans = (s.graph.block b).spans) :
    Notes S m := fun s a s' hrun b _ hx => .inl (h s a s' hrun b ▸ hx)

theorem notes_pure (a : α) : Notes S (pure a) := by
  refine notes_of_spans_eq fun s b s' hrun c => ?_
  cases hrun
  rfl

theorem notes_throw (e : BuildError) : Notes S (throw e : Lowering α) := fun _ _ _ hrun => nomatch hrun

theorem notes_lift (x : Except BuildError α) : Notes S (liftM x : Lowering α) := by
  cases x with
  | error e => exact notes_throw e
  | ok a => exact notes_pure a

theorem notes_newBlock : Notes S newBlock := by
  refine notes_of_spans_eq fun s b s' hrun c => ?_
  cases hrun
  dsimp only
  rw [FlowGraph.block_addBlock]

theorem notes_close (b : BlockId) (j : Jump) : Notes S (close b j) := by
  refine notes_of_spans_eq fun s u s' hrun c => ?_
  obtain ⟨-, rfl⟩ := close_eq_ok hrun
  exact s.graph.spans_setJump b c j

theorem notes_append (b : BlockId) (instrs : Array Instr) : Notes S (append b instrs) := by
  refine notes_of_spans_eq fun s u s' hrun c => ?_
  cases hrun
  exact s.graph.spans_modify b c fun _ => rfl

theorem notes_compute (b : BlockId) (e : Unit → Expr) : Notes S (compute b e) := by
  refine notes_of_spans_eq fun s op s' hrun c => ?_
  obtain ⟨r, -, -, rfl⟩ := compute_eq_ok hrun
  exact s.graph.spans_modify b c fun _ => rfl

/-- A span is noted where its statement begins. -/
theorem notes_beginStmt (b : BlockId) {span : Span} (hspan : S span) : Notes S (beginStmt b span) := by
  intro s u s' hrun c x hx
  cases hrun
  dsimp only at hx
  rw [FlowGraph.block_modify] at hx
  split at hx
  · rcases Array.mem_push.mp hx with hx | rfl
    · exact .inl hx
    · exact .inr hspan
  · exact .inl hx

theorem notes_get : Notes S (get : Lowering LoweringState) := by
  refine notes_of_spans_eq fun s t s' hrun c => ?_
  cases hrun
  rfl

theorem notes_numVars : Notes S numVars := notes_get.bind fun _ => notes_pure _

theorem notes_computeOption (b : BlockId) (e : Option (Unit → Expr)) : Notes S (computeOption b e) := by
  cases e with
  | none => exact notes_pure none
  | some e => exact (notes_compute b e).bind fun _ => notes_pure _

theorem notes_declareAll (b : BlockId) (ds : List (Declarator (Unit → Expr))) : Notes S (declareAll b ds) := by
  induction ds with
  | nil => exact notes_pure ()
  | cons d ds ih =>
    refine notes_numVars.bind fun n => (notes_lift _).bind fun v => (notes_append b _).bind fun _ => ?_
    cases d.init with
    | none => exact ih
    | some e => exact (notes_compute b e).bind fun value => (notes_append b _).bind fun _ => ih

theorem notes_startFor (b : BlockId) (init : ForInit (Unit → Expr)) : Notes S (startFor b init) := by
  cases init with
  | nothing => exact notes_pure ()
  | expr e => exact (notes_compute b e).bind fun _ => notes_pure ()
  | decls ds => exact notes_declareAll b ds

theorem notes_blockOfLabel (name : Name) : Notes S (blockOfLabel name) := by
  refine notes_get.bind fun s => ?_
  cases s.labels.lookup name with
  | some b => exact notes_pure b
  | none =>
    refine notes_newBlock.bind fun b => notes_of_spans_eq fun s c s' hrun d => ?_
    cases hrun
    rfl

theorem notes_leaveFor (b target : BlockId) : Notes S (leaveFor b target) :=
  notes_newBlock.bind fun _ => (notes_close b _).bind fun _ => notes_pure _

theorem notes_defineLabel (name : Name) (span : Span) : Notes S (defineLabel name span) := by
  intro s u s' hrun b x hx
  rw [defineLabel] at hrun
  obtain ⟨t, s1, hget, hrun⟩ := bind_ok hrun
  cases hget
  split at hrun
  · exact nomatch hrun
  · cases hrun
    exact .inl hx

theorem notes_openCases (cases : List (CaseLabel × BlockId)) (labels : List (CaseLabel × Span)) :
    Notes S (openCases cases labels) := by
  induction labels generalizing cases with
  | nil => exact notes_pure _
  | cons label labels ih =>
    refine notes_newBlock.bind fun target => ?_
    split
    · exact notes_throw _
    · exact ih _

theorem notes_caseTarget (scope : Scope) (span : Span) (label : CaseLabel) :
    Notes S (caseTarget scope span label) := by
  rw [caseTarget]
  split
  · exact notes_pure _
  · exact notes_throw _

theorem notes_targetOr (e : InternalError) (target : Option BlockId) : Notes S (targetOr e target) := by
  cases target with
  | some b => exact notes_pure b
  | none => exact notes_throw _

/-- A loop goes on in a block of its own or in its header. -/
theorem notes_latch {fresh : Bool} {header : BlockId} {rest : BlockId → Lowering α}
    (hrest : ∀ b, Notes S (rest b)) : Notes S (if fresh then newBlock >>= rest else pure header >>= rest) := by
  cases fresh with
  | false => exact (notes_pure header).bind hrest
  | true => exact notes_newBlock.bind hrest

theorem notes_bindParams (index : Nat) (params : List VarId) : Notes S (bindParams index params) := by
  induction params generalizing index with
  | nil => exact notes_pure ()
  | cons p ps ih =>
    exact notes_numVars.bind fun n => (notes_lift _).bind fun v => (notes_append _ _).bind fun _ => ih _

mutual

/-- Lowering a statement notes spans of its own and of its parts. -/
theorem notes_lower (scope : Scope) (b : BlockId) (stmt : Stmt) (h : ∀ x ∈ stmt.nodes, S x.span) :
    Notes S (lower scope b stmt) := by
  have hself : S stmt.span := h stmt stmt.self_mem_nodes
  have hparts : ∀ p ∈ stmt.parts, ∀ x ∈ (p ()).nodes, S x.span := fun p hp x hx =>
    h x (Stmt.nodes_of_part hp hx)
  match stmt with
  | .expr span e =>
    exact (notes_beginStmt b hself).bind fun _ => (notes_compute b e).bind fun _ => notes_pure b
  | .decl span ds =>
    exact (notes_beginStmt b hself).bind fun _ => (notes_declareAll b ds).bind fun _ => notes_pure b
  | .block span body => exact notes_lowerAll scope b body hparts
  | .ifThen span cond thenBody =>
    refine (notes_beginStmt b hself).bind fun _ => (notes_compute b cond).bind fun c => ?_
    refine notes_newBlock.bind fun thenBlock => notes_newBlock.bind fun merge => ?_
    refine (notes_close b _).bind fun _ => ?_
    refine (notes_lower scope thenBlock _ (hparts _ List.mem_cons_self)).bind fun thenExit => ?_
    exact (notes_close thenExit _).bind fun _ => notes_pure merge
  | .ifElse span cond thenBody elseBody =>
    refine (notes_beginStmt b hself).bind fun _ => (notes_compute b cond).bind fun c => ?_
    refine notes_newBlock.bind fun thenBlock => notes_newBlock.bind fun merge => ?_
    refine notes_newBlock.bind fun elseBlock => (notes_close b _).bind fun _ => ?_
    refine (notes_lower scope thenBlock _ (hparts _ List.mem_cons_self)).bind fun thenExit => ?_
    refine (notes_close thenExit _).bind fun _ => ?_
    refine (notes_lower scope elseBlock _ (hparts _ (.tail _ List.mem_cons_self))).bind fun elseExit => ?_
    exact (notes_close elseExit _).bind fun _ => notes_pure merge
  | .whileLoop span cond body =>
    refine (notes_beginStmt b hself).bind fun _ => notes_newBlock.bind fun header => ?_
    refine (notes_close b _).bind fun _ => (notes_compute header cond).bind fun c => ?_
    refine notes_newBlock.bind fun bodyBlock => notes_newBlock.bind fun after => ?_
    refine (notes_lower _ bodyBlock _ (hparts _ List.mem_cons_self)).bind fun bodyExit => ?_
    refine (notes_close bodyExit _).bind fun _ => (notes_close header _).bind fun _ => ?_
    exact notes_pure after
  | .doWhile span body cond =>
    refine (notes_beginStmt b hself).bind fun _ => notes_newBlock.bind fun bodyBlock => ?_
    refine (notes_close b _).bind fun _ => notes_newBlock.bind fun condBlock => ?_
    refine notes_newBlock.bind fun after => ?_
    refine (notes_lower _ bodyBlock _ (hparts _ List.mem_cons_self)).bind fun bodyExit => ?_
    refine (notes_close bodyExit _).bind fun _ => (notes_compute condBlock cond).bind fun c => ?_
    exact (notes_close condBlock _).bind fun _ => notes_pure after
  | .forLoop span init cond step body =>
    refine (notes_beginStmt b hself).bind fun _ => (notes_startFor b init).bind fun _ => ?_
    refine notes_newBlock.bind fun header => (notes_close b _).bind fun _ => ?_
    refine (notes_computeOption header cond).bind fun c => notes_newBlock.bind fun bodyBlock => ?_
    refine notes_newBlock.bind fun after => notes_latch fun latch => ?_
    refine (notes_lower _ bodyBlock _ (hparts _ List.mem_cons_self)).bind fun bodyExit => ?_
    refine (notes_close bodyExit _).bind fun _ => ?_
    have hlast : Notes S (do
        match c with
        | none => close header (.goto bodyBlock)
        | some c => close header (.branch c bodyBlock after)
        return after) := by
      cases c with
      | none => exact (notes_close header _).bind fun _ => notes_pure after
      | some c => exact (notes_close header _).bind fun _ => notes_pure after
    cases step with
    | none => exact hlast
    | some e => exact (notes_compute latch e).bind fun _ => (notes_close latch _).bind fun _ => hlast
  | .switch span scrutinee body =>
    refine (notes_beginStmt b hself).bind fun _ => (notes_compute b scrutinee).bind fun value => ?_
    refine notes_newBlock.bind fun after => (notes_lift _).bind fun labels => ?_
    refine (notes_openCases [] labels).bind fun cases => (notes_close b _).bind fun _ => ?_
    refine notes_newBlock.bind fun head => ?_
    refine (notes_lower _ head _ (hparts _ List.mem_cons_self)).bind fun bodyExit => ?_
    exact (notes_close bodyExit _).bind fun _ => notes_pure after
  | .case span value body =>
    refine (notes_caseTarget scope span _).bind fun target => (notes_close b _).bind fun _ => ?_
    exact notes_lower scope target _ (hparts _ List.mem_cons_self)
  | .default span body =>
    refine (notes_caseTarget scope span _).bind fun target => (notes_close b _).bind fun _ => ?_
    exact notes_lower scope target _ (hparts _ List.mem_cons_self)
  | .breakOut span =>
    refine (notes_beginStmt b hself).bind fun _ => (notes_targetOr _ _).bind fun target => ?_
    exact notes_leaveFor b target
  | .continueLoop span =>
    refine (notes_beginStmt b hself).bind fun _ => (notes_targetOr _ _).bind fun target => ?_
    exact notes_leaveFor b target
  | .goto span label =>
    refine (notes_beginStmt b hself).bind fun _ => (notes_blockOfLabel label).bind fun target => ?_
    exact notes_leaveFor b target
  | .label span name body =>
    refine (notes_defineLabel name span).bind fun _ => (notes_blockOfLabel name).bind fun target => ?_
    exact (notes_close b _).bind fun _ => notes_lower scope target _ (hparts _ List.mem_cons_self)
  | .ret span value =>
    refine (notes_beginStmt b hself).bind fun _ => (notes_computeOption b value).bind fun v => ?_
    exact notes_newBlock.bind fun shadow => (notes_close b _).bind fun _ => notes_pure shadow
  | .empty _ => exact notes_pure b
  | .error _ | .absent => exact notes_throw _

/-- Lowering statements notes the spans of their nodes only. -/
theorem notes_lowerAll (scope : Scope) (b : BlockId) (ss : List (Unit → Stmt))
    (h : ∀ p ∈ ss, ∀ x ∈ (p ()).nodes, S x.span) : Notes S (lowerAll scope b ss) := by
  match ss with
  | [] => exact notes_pure b
  | s :: ss =>
    obtain ⟨hs, hss⟩ := List.forall_mem_cons.mp h
    exact (notes_lower scope b (s ()) hs).bind fun next => notes_lowerAll scope next ss hss

end

end Lowering

/-- The code that begins in a block of a lowered graph is that of statements of the body. -/
theorem Function.lower_spans {fn : Function} {g : FlowGraph} (h : fn.lower = .ok g) {b : BlockId} {x : Span}
    (hx : x ∈ (g.block b).spans) : ∃ stmt ∈ fn.tree.nodes, stmt.span = x := by
  obtain ⟨s, hrun, rfl, -⟩ := Function.lower_ok h
  have hnotes : Lowering.Notes (fun x => ∃ stmt ∈ fn.tree.nodes, stmt.span = x)
      (Lowering.lowerBody fn.params fn.tree) := by
    refine (Lowering.notes_bindParams _ _).bind fun _ => ?_
    refine (Lowering.notes_lower _ _ _ fun stmt hstmt => ⟨stmt, hstmt, rfl⟩).bind fun exit => ?_
    refine Lowering.notes_newBlock.bind fun sink => (Lowering.notes_close _ _).bind fun _ => ?_
    exact Lowering.notes_close _ _
  rcases hnotes _ _ _ hrun b x hx with hnew | hx
  · exact absurd hnew (FlowGraph.not_mem_spans_new fn.numVars b x)
  · exact hx

end SsaFlow
