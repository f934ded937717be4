-- SUMMARY: The rules for functions, taken apart along the parts of expressions and statements.
import Mathlib
import SsaFlow.Proofs.WellFormed

/-!
# The rules, part by part

The rules for the body of a function speak of all its statements at once. Here they are stated for a
statement in a scope (`Stmt.Accepted`), where they can be taken apart: a statement follows the rules if it
does so by itself and its parts do so in the scope that it gives them.
-/

namespace SsaFlow

/-! ## Expressions -/

/-- The expression keeps to `n` variables, and the parser made sense of it. -/
structure Expr.Fine (n : Nat) (e : Expr) : Prop where
  vars : ∀ x ∈ e.nodes, ∀ v ∈ x.mention?, v < n
  noError : ∀ x ∈ e.nodes, x.isError = false

/-- An expression is fine if it is so by itself and all its parts are. -/
theorem Expr.fine_iff {n : Nat} {e : Expr} : e.Fine n ↔
    (∀ v ∈ e.mention?, v < n) ∧ e.isError = false ∧ ∀ p ∈ e.parts, (p ()).Fine n := by
  have hnodes : ∀ x, x ∈ e.nodes ↔ x = e ∨ ∃ p ∈ e.parts, x ∈ (p ()).nodes := by
    intro x
    rw [nodes_eq, List.mem_cons, mem_nodesAll]
  constructor
  · rintro ⟨hvars, hnoError⟩
    have hself := (hnodes e).mpr (.inl rfl)
    refine ⟨hvars e hself, hnoError e hself, fun p hp => ⟨fun x hx => ?_, fun x hx => ?_⟩⟩
    · exact hvars x ((hnodes x).mpr (.inr ⟨p, hp, hx⟩))
    · exact hnoError x ((hnodes x).mpr (.inr ⟨p, hp, hx⟩))
  · rintro ⟨hvars, hnoError, hparts⟩
    refine ⟨fun x hx => ?_, fun x hx => ?_⟩
    · rcases (hnodes x).mp hx with rfl | ⟨p, hp, hx⟩
      · exact hvars
      · exact (hparts p hp).vars x hx
    · rcases (hnodes x).mp hx with rfl | ⟨p, hp, hx⟩
      · exact hnoError
      · exact (hparts p hp).noError x hx

namespace Expr

variable {n : Nat} {a b : Unit → Expr}

@[simp] theorem fine_int (v : Int) : (int v).Fine n := by
  rw [fine_iff]
  simp [parts, mention?, isError]

@[simp] theorem fine_var {v : VarId} : (var v).Fine n ↔ v < n := by
  rw [fine_iff]
  simp [parts, mention?, isError]

@[simp] theorem fine_unary {op : UnaryOp} : (unary op a).Fine n ↔ (a ()).Fine n := by
  rw [fine_iff]
  simp [parts, mention?, isError]

@[simp] theorem fine_binary {op : BinaryOp} : (binary op a b).Fine n ↔ (a ()).Fine n ∧ (b ()).Fine n := by
  rw [fine_iff]
  simp [parts, mention?, isError]

@[simp] theorem fine_assign {v : VarId} {op : Option BinaryOp} :
    (assign v op a).Fine n ↔ v < n ∧ (a ()).Fine n := by
  rw [fine_iff]
  simp [parts, mention?, isError]

@[simp] theorem fine_step {v : VarId} {op : StepOp} : (step v op).Fine n ↔ v < n := by
  rw [fine_iff]
  simp [parts, mention?, isError]

@[simp] theorem fine_call {f : Name} {args : List (Unit → Expr)} :
    (call f args).Fine n ↔ ∀ e ∈ args, (e ()).Fine n := by
  rw [fine_iff]
  simp [parts, mention?, isError]

@[simp] theorem fine_comma : (comma a b).Fine n ↔ (a ()).Fine n ∧ (b ()).Fine n := by
  rw [fine_iff]
  simp [parts, mention?, isError]

@[simp] theorem not_fine_error {span : Span} : ¬ (error span).Fine n :=
  fun h => nomatch (fine_iff.mp h).2.1

end Expr

/-! ## Statements that follow the rules -/

namespace Stmt

/-- The rules for a statement by itself. -/
@[mk_iff]
structure Sane (n : Nat) (s : Stmt) : Prop where
  declared : ∀ v ∈ s.declared, v < n
  exprs : ∀ e ∈ s.exprs, (e ()).Fine n
  noError : s.isError = false
  switches : ∀ body ∈ s.switchBody?, (body ()).ownCases.Nodup

/-- The rules for a list of statements in a scope, after the labels `defs`. The list depends on which
bodies are left out. -/
@[mk_iff]
structure Follows (n : Nat) (scope : Scope) (defs : List Name) (listing : (Stmt → Bool) → List Stmt) :
    Prop where
  sane : ∀ x ∈ listing fun _ => false, x.Sane n
  breaks : ∀ x ∈ listing isBreakable, x.isBreak → scope.breakTo.isSome
  continues : ∀ x ∈ listing isLoop, x.isContinue → scope.continueTo.isSome
  cases : ∀ l ∈ (listing isSwitch).filterMap caseLabel?, (scope.cases.lookup l).isSome
  labels : (defs ++ (listing fun _ => false).filterMap labelName?).Nodup

/-- The rules for a statement and its parts. -/
def Accepted (n : Nat) (scope : Scope) (defs : List Name) (s : Stmt) : Prop :=
  Follows n scope defs fun stops => s.outside stops

def AcceptedAll (n : Nat) (scope : Scope) (defs : List Name) (ss : List (Unit → Stmt)) : Prop :=
  Follows n scope defs fun stops => outsideAll stops ss

variable {n : Nat} {scope : Scope} {defs : List Name}

/-- The rules for a sequence are those for its two halves, where the labels of the first half are
defined before the second. -/
theorem follows_append {f g : (Stmt → Bool) → List Stmt} :
    Follows n scope defs (fun stops => f stops ++ g stops) ↔
      Follows n scope defs f ∧ Follows n scope (defs ++ (f fun _ => false).filterMap labelName?) g := by
  simp only [follows_iff, List.mem_append, List.filterMap_append, List.append_assoc, or_imp, forall_and]
  constructor
  · rintro ⟨hs, hb, hc, hl, hd⟩
    refine ⟨⟨hs.1, hb.1, hc.1, hl.1, ?_⟩, hs.2, hb.2, hc.2, hl.2, hd⟩
    rw [← List.append_assoc] at hd
    exact hd.of_append_left
  · rintro ⟨⟨hs, hb, hc, hl, -⟩, hs', hb', hc', hl', hd⟩
    exact ⟨⟨hs, hs'⟩, ⟨hb, hb'⟩, ⟨hc, hc'⟩, ⟨hl, hl'⟩, hd⟩

theorem acceptedAll_nil : AcceptedAll n scope defs [] ↔ defs.Nodup := by
  simp [AcceptedAll, follows_iff, outsideAll]

theorem acceptedAll_cons {s : Unit → Stmt} {ss : List (Unit → Stmt)} : AcceptedAll n scope defs (s :: ss) ↔
    (s ()).Accepted n scope defs ∧ AcceptedAll n scope (defs ++ (s ()).labels) ss := follows_append

theorem acceptedAll_singleton {s : Unit → Stmt} : AcceptedAll n scope defs [s] ↔ (s ()).Accepted n scope defs := by
  simp [AcceptedAll, Accepted, outsideAll]

theorem acceptedAll_pair {s t : Unit → Stmt} : AcceptedAll n scope defs [s, t] ↔
    (s ()).Accepted n scope defs ∧ (t ()).Accepted n scope (defs ++ (s ()).labels) := by
  rw [acceptedAll_cons, acceptedAll_singleton]

theorem Follows.nodup {listing : (Stmt → Bool) → List Stmt} (h : Follows n scope defs listing) : defs.Nodup :=
  h.labels.of_append_left

/-- The scope has what the statement itself asks for. -/
def Fits (scope : Scope) : Stmt → Prop
  | .breakOut _ => scope.breakTo.isSome
  | .continueLoop _ => scope.continueTo.isSome
  | .case _ v _ => (scope.cases.lookup (.value v)).isSome
  | .default _ _ => (scope.cases.lookup .default).isSome
  | _ => True

/-- The parts of a statement, unless they are left out. -/
def inner (s : Stmt) (stops : Stmt → Bool) : List Stmt := if stops s then [] else outsideAll stops s.parts

theorem follows_singleton {s : Stmt} : Follows n scope defs (fun _ => [s]) ↔
    s.Sane n ∧ s.Fits scope ∧ (defs ++ s.labelName?.toList).Nodup := by
  have hlabel : [s].filterMap labelName? = s.labelName?.toList := by
    cases h : s.labelName? <;> simp [h]
  rw [follows_iff, hlabel]
  cases s <;> simp [Fits, caseLabel?, isBreak, isContinue]

/-- The rules for a statement and its parts are the rules for the statement by itself and for its
parts. -/
theorem accepted_iff {s : Stmt} : s.Accepted n scope defs ↔
    s.Sane n ∧ s.Fits scope ∧ Follows n scope (defs ++ s.labelName?.toList) s.inner := by
  have hlabel : [s].filterMap labelName? = s.labelName?.toList := by
    cases h : s.labelName? <;> simp [h]
  have hsplit : s.Accepted n scope defs ↔
      Follows n scope defs (fun _ => [s]) ∧ Follows n scope (defs ++ s.labelName?.toList) s.inner := by
    simp only [Accepted, outside_eq _ s]
    exact hlabel ▸ follows_append (f := fun _ => [s])
  rw [hsplit, follows_singleton]
  constructor
  · rintro ⟨⟨hsane, hfits, -⟩, hinner⟩
    exact ⟨hsane, hfits, hinner⟩
  · rintro ⟨hsane, hfits, hinner⟩
    exact ⟨⟨hsane, hfits, hinner.nodup⟩, hinner⟩

theorem follows_inner {s : Stmt} (hloop : s.isLoop = false) (hswitch : s.isSwitch = false) :
    Follows n scope defs s.inner ↔ AcceptedAll n scope defs s.parts := by
  simp [AcceptedAll, follows_iff, inner, isBreakable, hloop, hswitch]

theorem follows_inner_loop {s : Stmt} (hloop : s.isLoop = true) (hswitch : s.isSwitch = false)
    (breakTo continueTo : BlockId) :
    Follows n scope defs s.inner ↔ AcceptedAll n (scope.loop breakTo continueTo) defs s.parts := by
  simp [AcceptedAll, follows_iff, inner, isBreakable, hloop, hswitch, Scope.loop]

/-- The parts of a `switch` are judged in the scope of its labels. -/
theorem follows_inner_switch {s : Stmt} (hloop : s.isLoop = false) (hswitch : s.isSwitch = true) (breakTo : BlockId)
    {cases : List (CaseLabel × BlockId)}
    (hcases : ∀ l ∈ (outsideAll isSwitch s.parts).filterMap caseLabel?, (cases.lookup l).isSome) :
    Follows n scope defs s.inner ↔ AcceptedAll n (scope.switch breakTo cases) defs s.parts := by
  simp only [AcceptedAll, follows_iff, inner, isBreakable, hloop, hswitch, Scope.switch, iff_true_intro hcases]
  simp

/-- A statement without parts is judged by itself. -/
theorem accepted_leaf {s : Stmt} (hparts : s.parts = []) (hlabel : s.labelName? = none) (hdefs : defs.Nodup) :
    s.Accepted n scope defs ↔ s.Sane n ∧ s.Fits scope := by
  rw [accepted_iff]
  simp [follows_iff, inner, hparts, hlabel, outsideAll, hdefs]

variable {span : Span} {e : Unit → Expr} {body thenBody elseBody : Unit → Stmt}

theorem accepted_expr (hdefs : defs.Nodup) : (expr span e).Accepted n scope defs ↔ (e ()).Fine n := by
  rw [accepted_leaf rfl rfl hdefs]
  simp [sane_iff, Stmt.declared, Stmt.exprs, isError, switchBody?, Fits]

theorem accepted_decl {ds : List (Declarator (Unit → Expr))} (hdefs : defs.Nodup) :
    (decl span ds).Accepted n scope defs ↔
      (∀ v ∈ ds.map Declarator.var, v < n) ∧ ∀ e ∈ ds.filterMap Declarator.init, (e ()).Fine n := by
  rw [accepted_leaf rfl rfl hdefs, sane_iff]
  simp only [Stmt.declared, Stmt.exprs, isError, switchBody?, Fits]
  simp

theorem accepted_ret {value : Option (Unit → Expr)} (hdefs : defs.Nodup) :
    (ret span value).Accepted n scope defs ↔ ∀ e ∈ value.toList, (e ()).Fine n := by
  rw [accepted_leaf rfl rfl hdefs]
  simp [sane_iff, Stmt.declared, Stmt.exprs, isError, switchBody?, Fits]

theorem accepted_goto {name : Name} (hdefs : defs.Nodup) : (goto span name).Accepted n scope defs := by
  rw [accepted_leaf rfl rfl hdefs]
  simp [sane_iff, Stmt.declared, Stmt.exprs, isError, switchBody?, Fits]

theorem accepted_empty (hdefs : defs.Nodup) : (empty span).Accepted n scope defs := by
  rw [accepted_leaf rfl rfl hdefs]
  simp [sane_iff, Stmt.declared, Stmt.exprs, isError, switchBody?, Fits]

theorem accepted_breakOut (hdefs : defs.Nodup) :
    (breakOut span).Accepted n scope defs ↔ scope.breakTo.isSome := by
  rw [accepted_leaf rfl rfl hdefs]
  simp [sane_iff, Stmt.declared, Stmt.exprs, isError, switchBody?, Fits]

theorem accepted_continueLoop (hdefs : defs.Nodup) :
    (continueLoop span).Accepted n scope defs ↔ scope.continueTo.isSome := by
  rw [accepted_leaf rfl rfl hdefs]
  simp [sane_iff, Stmt.declared, Stmt.exprs, isError, switchBody?, Fits]

theorem not_accepted_error : ¬ (error span).Accepted n scope defs := fun h =>
  nomatch (accepted_iff.mp h).1.noError

theorem accepted_block {body : List (Unit → Stmt)} :
    (block span body).Accepted n scope defs ↔ AcceptedAll n scope defs body := by
  rw [accepted_iff, follows_inner rfl rfl]
  simp [sane_iff, Stmt.declared, Stmt.exprs, isError, switchBody?, Fits, labelName?, parts]

theorem accepted_ifThen :
    (ifThen span e body).Accepted n scope defs ↔ (e ()).Fine n ∧ (body ()).Accepted n scope defs := by
  rw [accepted_iff, follows_inner rfl rfl]
  simp [sane_iff, Stmt.declared, Stmt.exprs, isError, switchBody?, Fits, labelName?, parts, acceptedAll_singleton]

theorem accepted_ifElse : (ifElse span e thenBody elseBody).Accepted n scope defs ↔
    (e ()).Fine n ∧ (thenBody ()).Accepted n scope defs ∧
      (elseBody ()).Accepted n scope (defs ++ (thenBody ()).labels) := by
  rw [accepted_iff, follows_inner rfl rfl]
  simp [sane_iff, Stmt.declared, Stmt.exprs, isError, switchBody?, Fits, labelName?, parts, acceptedAll_pair]

theorem accepted_whileLoop (breakTo continueTo : BlockId) :
    (whileLoop span e body).Accepted n scope defs ↔
      (e ()).Fine n ∧ (body ()).Accepted n (scope.loop breakTo continueTo) defs := by
  rw [accepted_iff, follows_inner_loop rfl rfl breakTo continueTo]
  simp [sane_iff, Stmt.declared, Stmt.exprs, isError, switchBody?, Fits, labelName?, parts, acceptedAll_singleton]

theorem accepted_doWhile (breakTo continueTo : BlockId) :
    (doWhile span body e).Accepted n scope defs ↔
      (e ()).Fine n ∧ (body ()).Accepted n (scope.loop breakTo continueTo) defs := by
  rw [accepted_iff, follows_inner_loop rfl rfl breakTo continueTo]
  simp [sane_iff, Stmt.declared, Stmt.exprs, isError, switchBody?, Fits, labelName?, parts, acceptedAll_singleton]

theorem accepted_forLoop {init : ForInit (Unit → Expr)} {cond step : Option (Unit → Expr)}
    (breakTo continueTo : BlockId) : (forLoop span init cond step body).Accepted n scope defs ↔
      ((∀ v ∈ init.declared, v < n) ∧ ∀ e ∈ init.exprs, (e ()).Fine n) ∧ (∀ e ∈ cond.toList, (e ()).Fine n) ∧
        (∀ e ∈ step.toList, (e ()).Fine n) ∧ (body ()).Accepted n (scope.loop breakTo continueTo) defs := by
  rw [accepted_iff, follows_inner_loop rfl rfl breakTo continueTo, sane_iff]
  simp only [Stmt.declared, Stmt.exprs, isError, switchBody?, Fits, labelName?, parts, acceptedAll_singleton,
    List.mem_append]
  simp
  grind

/-- The label of a statement in a `switch` is one that the `switch` has. -/
theorem accepted_case {v : Int} : (case span v body).Accepted n scope defs ↔
    (scope.cases.lookup (.value v)).isSome ∧ (body ()).Accepted n scope defs := by
  rw [accepted_iff, follows_inner rfl rfl]
  simp only [Fits, labelName?, parts, acceptedAll_singleton, Option.toList_none, List.append_nil]
  simp [sane_iff, Stmt.declared, Stmt.exprs, isError, switchBody?]

theorem accepted_default : (default span body).Accepted n scope defs ↔
    (scope.cases.lookup .default).isSome ∧ (body ()).Accepted n scope defs := by
  rw [accepted_iff, follows_inner rfl rfl]
  simp only [Fits, labelName?, parts, acceptedAll_singleton, Option.toList_none, List.append_nil]
  simp [sane_iff, Stmt.declared, Stmt.exprs, isError, switchBody?]

/-- A `switch` has no label twice, and its labels are in scope in its body. -/
theorem accepted_switch (breakTo : BlockId) {cases : List (CaseLabel × BlockId)}
    (hcases : ∀ l ∈ (body ()).ownCases, (cases.lookup l).isSome) :
    (switch span e body).Accepted n scope defs ↔
      (e ()).Fine n ∧ (body ()).ownCases.Nodup ∧ (body ()).Accepted n (scope.switch breakTo cases) defs := by
  have hown : (outsideAll isSwitch [body]).filterMap caseLabel? = (body ()).ownCases := by
    simp [outsideAll, ownCases]
  rw [accepted_iff, follows_inner_switch rfl rfl breakTo (hown ▸ hcases)]
  simp [sane_iff, Stmt.declared, Stmt.exprs, isError, switchBody?, Fits, labelName?, parts, acceptedAll_singleton, and_assoc]

/-- A label has to be new, and it counts as defined in its own statement. -/
theorem accepted_label {name : Name} : (label span name body).Accepted n scope defs ↔
    name ∉ defs ∧ (body ()).Accepted n scope (defs ++ [name]) := by
  rw [accepted_iff, follows_inner rfl rfl]
  simp only [labelName?, parts, acceptedAll_singleton, Option.toList_some]
  constructor
  · rintro ⟨-, -, h⟩
    exact ⟨fun hname => (List.nodup_append.mp (Follows.nodup h)).2.2 name hname name List.mem_cons_self rfl, h⟩
  · rintro ⟨-, h⟩
    exact ⟨by simp [sane_iff, Stmt.declared, Stmt.exprs, isError, switchBody?], trivial, h⟩

end Stmt

namespace Function

variable {fn : Function}

/-- Outside of everything, the rules for the body are the rules for functions. -/
theorem legal_iff_accepted :
    fn.Legal ↔ (∀ v ∈ fn.params, v < fn.numVars) ∧ fn.tree.Accepted fn.numVars {} [] := by
  constructor
  · intro h
    refine ⟨h.params, fun x hx => ?_, fun x hx hbreak => ?_, fun x hx hcontinue => ?_, fun l hl => ?_, h.labels⟩
    · exact ⟨h.declared x hx, fun e he => ⟨h.mentioned x hx e he, h.noErrorExpr x hx e he⟩, h.noErrorStmt x hx,
        h.switches x hx⟩
    · exact nomatch (h.breaks x hx).symm.trans hbreak
    · exact nomatch (h.continues x hx).symm.trans hcontinue
    · obtain ⟨x, hx, heq⟩ := List.mem_filterMap.mp hl
      exact nomatch (h.cases x hx).symm.trans heq
  · rintro ⟨hparams, h⟩
    exact {
      params := hparams
      declared := fun x hx => (h.sane x hx).declared
      mentioned := fun x hx e he => ((h.sane x hx).exprs e he).vars
      noErrorExpr := fun x hx e he => ((h.sane x hx).exprs e he).noError
      noErrorStmt := fun x hx => (h.sane x hx).noError
      breaks := fun x hx => Bool.eq_false_iff.mpr fun hbreak => nomatch h.breaks x hx hbreak
      continues := fun x hx => Bool.eq_false_iff.mpr fun hcontinue => nomatch h.continues x hx hcontinue
      cases := fun x hx => Option.eq_none_iff_forall_ne_some.mpr fun l hl =>
        nomatch h.cases l (List.mem_filterMap.mpr ⟨x, hx, hl⟩)
      switches := fun x hx => (h.sane x hx).switches
      labels := h.labels }

end Function

end SsaFlow
