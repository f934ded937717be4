-- SUMMARY: Lowering succeeds exactly on well-formed functions, and it closes every block once.
import Mathlib
import SsaFlow.Proofs.OpenBlocks

/-!
# Which functions are lowered

A statement that is lowered into a block takes over the blocks of its own labels and hands back the block
where control goes on. Going through the body of a function with the ledger of the open blocks shows when
lowering succeeds, and that at the end only the blocks of undefined labels are open.
-/

namespace SsaFlow

/-! ## Statements -/

/-- The blocks of the labels in a list of statements, in the innermost `switch`. -/
def Scope.entered (scope : Scope) (stmts : List Stmt) : Multiset BlockId :=
  (stmts.filterMap Stmt.caseLabel?).filterMap fun l => scope.cases.lookup l

theorem Scope.entered_append (scope : Scope) (xs ys : List Stmt) :
    scope.entered (xs ++ ys) = scope.entered xs + scope.entered ys := by
  simp [entered]

theorem Scope.entered_cons {scope : Scope} {stmt : Stmt} {stmts : List Stmt} {label : CaseLabel} {b : BlockId}
    (hlabel : stmt.caseLabel? = some label) (hlookup : scope.cases.lookup label = some b) :
    scope.entered (stmt :: stmts) = {b} + scope.entered stmts := by
  rw [entered, List.filterMap_cons_some hlabel, List.filterMap_cons, hlookup]
  rfl

/-- Where no key is there twice, looking up all keys gives all values. -/
theorem filterMap_lookup {cases : List (CaseLabel × BlockId)} (hnodup : (cases.map Prod.fst).Nodup) :
    (cases.map Prod.fst).filterMap (fun l => cases.lookup l) = cases.map Prod.snd := by
  induction cases with
  | nil => rfl
  | cons c cases ih =>
    obtain ⟨label, b⟩ := c
    rw [List.map_cons, List.nodup_cons] at hnodup
    have hrest : (cases.map Prod.fst).filterMap (fun l => ((label, b) :: cases).lookup l) =
        (cases.map Prod.fst).filterMap fun l => cases.lookup l := by
      refine List.filterMap_congr fun l hl => ?_
      have hne : (l == label) = false := beq_eq_false_iff_ne.mpr fun heq => hnodup.1 (heq ▸ hl)
      rw [List.lookup_cons, hne]
    rw [List.map_cons, List.map_cons, List.filterMap_cons, List.lookup_cons_self, hrest, ih hnodup.2]

namespace Lowering

variable {n : Nat}

/-- Lowering decides about the statement. It succeeds exactly if the statement follows the rules; then it
enters the blocks of the statement's labels, and it goes on in an open block. -/
def Decided (n : Nat) (stmt : Stmt) : Prop :=
  ∀ ⦃s : LoweringState⦄ ⦃defs goals : List Name⦄ ⦃held : Multiset BlockId⦄ ⦃b : BlockId⦄ (scope : Scope),
    s.Ledger n defs goals ({b} + scope.entered (stmt.outside Stmt.isSwitch) + held) →
      Decides s (lower scope b stmt) (stmt.Accepted n scope defs) fun c s' =>
        s'.Ledger n (defs ++ stmt.labels) (goals ++ stmt.gotos) ({c} + held)

def DecidedAll (n : Nat) (stmts : List (Unit → Stmt)) : Prop :=
  ∀ ⦃s : LoweringState⦄ ⦃defs goals : List Name⦄ ⦃held : Multiset BlockId⦄ ⦃b : BlockId⦄ (scope : Scope),
    s.Ledger n defs goals ({b} + scope.entered (Stmt.outsideAll Stmt.isSwitch stmts) + held) →
      Decides s (lowerAll scope b stmts) (Stmt.AcceptedAll n scope defs stmts) fun c s' =>
        s'.Ledger n (defs ++ (Stmt.outsideAll (fun _ => false) stmts).filterMap Stmt.labelName?)
          (goals ++ (Stmt.outsideAll (fun _ => false) stmts).filterMap Stmt.gotoName?) ({c} + held)

section Forms

variable {span : Span} {cond : Unit → Expr} {body thenBody elseBody : Unit → Stmt}

-- Statements without parts

theorem decided_expr {e : Unit → Expr} (he : (e ()).Complete) : Decided n (.expr span e) := by
  intro s defs goals held b scope h
  rw [Stmt.accepted_expr h.nodup]
  refine (decides_beginStmt h b span).seq fun _ s h => ?_
  refine (decides_compute h b he).bind id fun hfine _ s h => ?_
  exact decides_pure hfine h.append_nil

theorem decided_decl {ds : List (Declarator (Unit → Expr))}
    (hds : ∀ e ∈ ds.filterMap Declarator.init, (e ()).Complete) : Decided n (.decl span ds) := by
  intro s defs goals held b scope h
  rw [Stmt.accepted_decl h.nodup]
  refine (decides_beginStmt h b span).seq fun _ s h => ?_
  refine (decides_declareAll h b hds).bind id fun hfine _ s h => ?_
  exact decides_pure hfine h.append_nil

/-- A `break` is accepted where something around it can be left. -/
theorem decided_breakOut : Decided n (.breakOut span) := by
  intro s defs goals held b scope h
  rw [Stmt.accepted_breakOut h.nodup]
  refine (decides_beginStmt h b span).seq fun _ s h => ?_
  refine (decides_targetOr h _ scope.breakTo).bind id fun hsome target s h => ?_
  exact decides_leave h.append_nil (fun _ => rfl) hsome

/-- A `continue` is accepted in the body of a loop. -/
theorem decided_continueLoop : Decided n (.continueLoop span) := by
  intro s defs goals held b scope h
  rw [Stmt.accepted_continueLoop h.nodup]
  refine (decides_beginStmt h b span).seq fun _ s h => ?_
  refine (decides_targetOr h _ scope.continueTo).bind id fun hsome target s h => ?_
  exact decides_leave h.append_nil (fun _ => rfl) hsome

/-- A `goto` is accepted anywhere; the block of its label may stay open until the end. -/
theorem decided_goto {label : Name} : Decided n (.goto span label) := by
  intro s defs goals held b scope h
  refine (decides_beginStmt h b span).seq fun _ s h => ?_
  refine (decides_blockOfLabel h label).seq fun target s h => ?_
  rw [← List.append_nil defs] at h
  exact decides_leave h (fun _ => rfl) (Stmt.accepted_goto (List.append_nil defs ▸ h.nodup))

theorem decided_ret {value : Option (Unit → Expr)} (hvalue : ∀ e ∈ value.toList, (e ()).Complete) :
    Decided n (.ret span value) := by
  intro s defs goals held b scope h
  rw [Stmt.accepted_ret h.nodup]
  refine (decides_beginStmt h b span).seq fun _ s h => ?_
  refine (decides_computeOption h b hvalue).bind id fun hfine v s h => ?_
  exact decides_leave h.append_nil (fun _ => rfl) hfine

-- Branches

/-- An `if` is accepted if its condition is fine and its arm is accepted. -/
theorem decided_ifThen (hcond : (cond ()).Complete) (hthen : Decided n (thenBody ())) :
    Decided n (.ifThen span cond thenBody) := by
  intro s defs goals held b scope h
  rw [Stmt.accepted_ifThen]
  change s.Ledger n defs goals ({b} + scope.entered ((thenBody ()).outside Stmt.isSwitch) + held) at h
  refine (decides_beginStmt h b span).seq fun _ s h => ?_
  refine (decides_compute h b hcond).bind And.left fun hfine c s h => ?_
  refine (decides_newBlock h).seq fun thenBlock s h => ?_
  refine (decides_newBlock h).seq fun merge s h => ?_
  have h := h.regroup
    ({b} + ({thenBlock} + scope.entered ((thenBody ()).outside Stmt.isSwitch) + ({merge} + held))) (by abel)
  refine (decides_close h rfl).seq fun _ s h => ?_
  refine (hthen scope h).bind And.right fun hbody thenExit s h => ?_
  refine (decides_close h rfl).seq fun _ s h => ?_
  exact decides_pure ⟨hfine, hbody⟩ h

theorem decided_ifElse (hcond : (cond ()).Complete) (hthen : Decided n (thenBody ()))
    (helse : Decided n (elseBody ())) : Decided n (.ifElse span cond thenBody elseBody) := by
  intro s defs goals held b scope h
  have hlabels : (Stmt.ifElse span cond thenBody elseBody).labels = (thenBody ()).labels ++ (elseBody ()).labels :=
    List.filterMap_append
  have hgotos : (Stmt.ifElse span cond thenBody elseBody).gotos = (thenBody ()).gotos ++ (elseBody ()).gotos :=
    List.filterMap_append
  rw [Stmt.accepted_ifElse, hlabels, hgotos, ← List.append_assoc, ← List.append_assoc]
  change s.Ledger n defs goals ({b} + scope.entered
    ((thenBody ()).outside Stmt.isSwitch ++ (elseBody ()).outside Stmt.isSwitch) + held) at h
  rw [Scope.entered_append] at h
  refine (decides_beginStmt h b span).seq fun _ s h => ?_
  refine (decides_compute h b hcond).bind And.left fun hfine c s h => ?_
  refine (decides_newBlock h).seq fun thenBlock s h => ?_
  refine (decides_newBlock h).seq fun merge s h => ?_
  refine (decides_newBlock h).seq fun elseBlock s h => ?_
  have h := h.regroup ({b} + ({thenBlock} + scope.entered ((thenBody ()).outside Stmt.isSwitch) +
    ({elseBlock} + scope.entered ((elseBody ()).outside Stmt.isSwitch) + ({merge} + held)))) (by abel)
  refine (decides_close h rfl).seq fun _ s h => ?_
  refine (hthen scope h).bind (fun hok => hok.2.1) fun hfirst thenExit s h => ?_
  refine (decides_close h rfl).seq fun _ s h => ?_
  refine (helse scope h).bind (fun hok => hok.2.2) fun hsecond elseExit s h => ?_
  refine (decides_close h rfl).seq fun _ s h => ?_
  exact decides_pure ⟨hfine, hfirst, hsecond⟩ h

-- Loops

theorem decided_whileLoop (hcond : (cond ()).Complete) (hbody : Decided n (body ())) :
    Decided n (.whileLoop span cond body) := by
  intro s defs goals held b scope h
  change s.Ledger n defs goals ({b} + scope.entered ((body ()).outside Stmt.isSwitch) + held) at h
  refine (decides_beginStmt h b span).seq fun _ s h => ?_
  refine (decides_newBlock h).seq fun header s h => ?_
  have h := h.regroup ({b} + ({header} + scope.entered ((body ()).outside Stmt.isSwitch) + held)) (by abel)
  refine (decides_close h rfl).seq fun _ s h => ?_
  refine (decides_compute h header hcond).bind
    (fun hok => ((Stmt.accepted_whileLoop 0 0).mp hok).1) fun hfine c s h => ?_
  refine (decides_newBlock h).seq fun bodyBlock s h => ?_
  refine (decides_newBlock h).seq fun after s h => ?_
  have h := h.regroup
    ({bodyBlock} + scope.entered ((body ()).outside Stmt.isSwitch) + ({header} + ({after} + held))) (by abel)
  refine (hbody (scope.loop after header) h).bind
    (fun hok => ((Stmt.accepted_whileLoop after header).mp hok).2) fun hloop bodyExit s h => ?_
  refine (decides_close h rfl).seq fun _ s h => ?_
  refine (decides_close h rfl).seq fun _ s h => ?_
  exact decides_pure ((Stmt.accepted_whileLoop after header).mpr ⟨hfine, hloop⟩) h

theorem decided_doWhile (hcond : (cond ()).Complete) (hbody : Decided n (body ())) :
    Decided n (.doWhile span body cond) := by
  intro s defs goals held b scope h
  change s.Ledger n defs goals ({b} + scope.entered ((body ()).outside Stmt.isSwitch) + held) at h
  refine (decides_beginStmt h b span).seq fun _ s h => ?_
  refine (decides_newBlock h).seq fun bodyBlock s h => ?_
  have h := h.regroup ({b} + ({bodyBlock} + scope.entered ((body ()).outside Stmt.isSwitch) + held)) (by abel)
  refine (decides_close h rfl).seq fun _ s h => ?_
  refine (decides_newBlock h).seq fun condBlock s h => ?_
  refine (decides_newBlock h).seq fun after s h => ?_
  have h := h.regroup
    ({bodyBlock} + scope.entered ((body ()).outside Stmt.isSwitch) + ({condBlock} + ({after} + held))) (by abel)
  refine (hbody (scope.loop after condBlock) h).bind
    (fun hok => ((Stmt.accepted_doWhile after condBlock).mp hok).2) fun hloop bodyExit s h => ?_
  refine (decides_close h rfl).seq fun _ s h => ?_
  refine (decides_compute h condBlock hcond).bind
    (fun hok => ((Stmt.accepted_doWhile after condBlock).mp hok).1) fun hfine c s h => ?_
  refine (decides_close h rfl).seq fun _ s h => ?_
  exact decides_pure ((Stmt.accepted_doWhile after condBlock).mpr ⟨hfine, hloop⟩) h

/-- The end of a `for` loop, with or without a condition. -/
theorem decides_closeFor {s : LoweringState} {defs goals : List Name} {held : Multiset BlockId} {ok : Prop}
    {header bodyBlock after : BlockId} (c : Option Operand) (hok : ok)
    (h : s.Ledger n defs goals ({header} + ({after} + held))) :
    Decides s (do
      match c with
      | none => close header (.goto bodyBlock)
      | some c => close header (.branch c bodyBlock after)
      return after) ok fun c s' => s'.Ledger n defs goals ({c} + held) := by
  cases c <;> exact (decides_close h rfl).seq fun _ s h => decides_pure hok h

/-- The body of a `for` statement is judged in a scope of its own, with the blocks to leave it and
to go on. -/
theorem decided_forLoop {init : ForInit (Unit → Expr)} {cond step : Option (Unit → Expr)}
    (hinit : ∀ e ∈ init.exprs, (e ()).Complete) (hcond : ∀ e ∈ cond.toList, (e ()).Complete)
    (hstep : ∀ e ∈ step.toList, (e ()).Complete) (hbody : Decided n (body ())) :
    Decided n (.forLoop span init cond step body) := by
  intro s defs goals held b scope h
  change s.Ledger n defs goals ({b} + scope.entered ((body ()).outside Stmt.isSwitch) + held) at h
  refine (decides_beginStmt h b span).seq fun _ s h => ?_
  refine (decides_startFor h b hinit).bind
    (fun hok => ((Stmt.accepted_forLoop 0 0).mp hok).1) fun hfirst _ s h => ?_
  refine (decides_newBlock h).seq fun header s h => ?_
  have h := h.regroup ({b} + ({header} + scope.entered ((body ()).outside Stmt.isSwitch) + held)) (by abel)
  refine (decides_close h rfl).seq fun _ s h => ?_
  refine (decides_computeOption h header hcond).bind
    (fun hok => ((Stmt.accepted_forLoop 0 0).mp hok).2.1) fun hfine c s h => ?_
  refine (decides_newBlock h).seq fun bodyBlock s h => ?_
  refine (decides_newBlock h).seq fun after s h => ?_
  -- without a step, rounds end in the header itself
  cases step with
  | none =>
    have hlatch : Decides s (pure header) True fun latch s' => header = latch ∧ s' = s := ⟨trivial, rfl, rfl⟩
    refine hlatch.seq ?_
    rintro _ s ⟨rfl, rfl⟩
    have h := h.regroup
      ({bodyBlock} + scope.entered ((body ()).outside Stmt.isSwitch) + ({header} + ({after} + held))) (by abel)
    refine (hbody (scope.loop after header) h).bind
      (fun hok => ((Stmt.accepted_forLoop after header).mp hok).2.2.2) fun hloop bodyExit s h => ?_
    refine (decides_close h rfl).seq fun _ s h => ?_
    exact decides_closeFor c ((Stmt.accepted_forLoop after header).mpr ⟨hfirst, hfine, nofun, hloop⟩) h
  | some e =>
    refine (decides_newBlock h).seq fun latch s h => ?_
    have h := h.regroup ({bodyBlock} + scope.entered ((body ()).outside Stmt.isSwitch) +
      ({latch} + ({header} + ({after} + held)))) (by abel)
    refine (hbody (scope.loop after latch) h).bind
      (fun hok => ((Stmt.accepted_forLoop after latch).mp hok).2.2.2) fun hloop bodyExit s h => ?_
    refine (decides_close h rfl).seq fun _ s h => ?_
    have he : e ∈ (some e).toList := List.mem_cons_self
    refine (decides_compute h latch (hstep e he)).bind
      (fun hok => ((Stmt.accepted_forLoop after latch).mp hok).2.2.1 e he) fun hlast _ s h => ?_
    refine (decides_close h rfl).seq fun _ s h => ?_
    exact decides_closeFor c ((Stmt.accepted_forLoop after latch).mpr
      ⟨hfirst, hfine, List.forall_mem_singleton.mpr hlast, hloop⟩) h

-- `switch` and labels

/-- A `switch` is accepted if no label of its own repeats, and its body is judged in the scope of
these labels. -/
theorem decided_switch {scrutinee : Unit → Expr} (hscrutinee : (scrutinee ()).Complete)
    (hcomplete : (body ()).Complete) (hbody : Decided n (body ())) : Decided n (.switch span scrutinee body) := by
  intro s defs goals held b scope h
  change s.Ledger n defs goals ({b} + held) at h
  refine (decides_beginStmt h b span).seq fun _ s h => ?_
  refine (decides_compute h b hscrutinee).bind
    (fun hok => (Stmt.accepted_iff.mp hok).1.exprs _ List.mem_cons_self) fun hvalue value s h => ?_
  refine (decides_newBlock h).seq fun after s h => ?_
  refine (decides_lift (ownLabels_verdict hcomplete)).seq ?_
  rintro labels s ⟨rfl, hlabels⟩
  have h := h.regroup (((([] : List (CaseLabel × BlockId)).map Prod.snd : List BlockId) : Multiset BlockId) +
    ({after} + ({b} + held))) (zero_add _).symm
  refine (decides_openCases h List.nodup_nil).bind ?_ ?_
  · intro hok
    rw [List.map_nil, List.nil_append, hlabels]
    exact (Stmt.accepted_iff.mp hok).1.switches _ rfl
  rintro hnodup cases s ⟨hcases, h⟩
  rw [List.map_nil, List.nil_append, hlabels] at hnodup
  have hfst : cases.map Prod.fst = (body ()).ownCases := hcases.trans hlabels
  -- every label of the body finds its block in the scope of the `switch`
  have hown : ∀ l ∈ (body ()).ownCases, (cases.lookup l).isSome := by
    intro l hl
    rw [Option.isSome_iff_ne_none]
    exact fun hnone => lookup_eq_none_iff_not_mem.mp hnone (hfst ▸ hl)
  -- the blocks of the labels are open, and the body enters each of them once
  have hentered : (scope.switch after cases).entered ((body ()).outside Stmt.isSwitch) =
      (cases.map Prod.snd : List BlockId) := by
    rw [← filterMap_lookup (hfst ▸ hnodup), hfst]
    rfl
  rw [← hentered] at h
  have h := h.regroup ({b} + ((scope.switch after cases).entered ((body ()).outside Stmt.isSwitch) +
    ({after} + held))) (by abel)
  refine (decides_close h rfl).seq fun _ s h => ?_
  refine (decides_newBlock h).seq fun head s h => ?_
  rw [← add_assoc] at h
  refine (hbody (scope.switch after cases) h).bind
    (fun hok => ((Stmt.accepted_switch after hown).mp hok).2.2) fun haccepted bodyExit s h => ?_
  refine (decides_close h rfl).seq fun _ s h => ?_
  exact decides_pure ((Stmt.accepted_switch after hown).mpr ⟨hvalue, hnodup, haccepted⟩) h

/-- Both kinds of labels of a `switch` go to the block that belongs to the label. -/
theorem decides_enterCase {s : LoweringState} {defs goals : List Name} {held : Multiset BlockId} {b : BlockId}
    {scope : Scope} {stmt : Stmt} {label : CaseLabel} {stmts : List Stmt} (hbody : Decided n (body ()))
    (hlabel : stmt.caseLabel? = some label) (hstmts : stmts = stmt :: (body ()).outside Stmt.isSwitch)
    (h : s.Ledger n defs goals ({b} + scope.entered stmts + held)) :
    Decides s (do
      let target ← caseTarget scope span label
      close b (.goto target)
      lower scope target (body ())) ((scope.cases.lookup label).isSome ∧ (body ()).Accepted n scope defs)
      fun c s' => s'.Ledger n (defs ++ (body ()).labels) (goals ++ (body ()).gotos) ({c} + held) := by
  refine (decides_caseTarget h scope span _).bind And.left ?_
  rintro hsome target s ⟨hlookup, h⟩
  rw [hstmts, Scope.entered_cons hlabel hlookup, add_assoc] at h
  refine (decides_close h rfl).seq fun _ s h => ?_
  exact (hbody scope h).mono (and_iff_right hsome).symm fun _ _ h => h

theorem decided_case {value : Int} (hbody : Decided n (body ())) : Decided n (.case span value body) := by
  intro s defs goals held b scope h
  rw [Stmt.accepted_case]
  exact decides_enterCase hbody rfl rfl h

theorem decided_default (hbody : Decided n (body ())) : Decided n (.default span body) := by
  intro s defs goals held b scope h
  rw [Stmt.accepted_default]
  exact decides_enterCase hbody rfl rfl h

/-- A label may not be defined before; from there on it counts as defined. -/
theorem decided_label {name : Name} (hbody : Decided n (body ())) : Decided n (.label span name body) := by
  intro s defs goals held b scope h
  rw [Stmt.accepted_label]
  change s.Ledger n defs goals ({b} + scope.entered ((body ()).outside Stmt.isSwitch) + held) at h
  refine (decides_defineLabel h name span).bind And.left ?_
  rintro hname _ _ rfl
  refine (decides_blockOfLabel_of_define h hname).seq fun target s h => ?_
  have h := h.regroup ({b} + ({target} + scope.entered ((body ()).outside Stmt.isSwitch) + held)) (by abel)
  refine (decides_close h rfl).seq fun _ s h => ?_
  refine (hbody scope h).mono (and_iff_right hname).symm ?_
  intro c s h
  rw [List.append_assoc] at h
  exact h

-- Sequences

theorem decidedAll_nil : DecidedAll n [] := by
  intro s defs goals held b scope h
  exact decides_pure (Stmt.acceptedAll_nil.mpr h.nodup) h.append_nil

/-- Statements in sequence are judged one after the other, with the labels defined so far. -/
theorem decidedAll_cons {stmt : Unit → Stmt} {stmts : List (Unit → Stmt)} (hstmt : Decided n (stmt ()))
    (hstmts : DecidedAll n stmts) : DecidedAll n (stmt :: stmts) := by
  intro s defs goals held b scope h
  rw [Stmt.acceptedAll_cons]
  simp only [Stmt.outsideAll, Scope.entered_append, List.filterMap_append, ← List.append_assoc] at h ⊢
  have h := h.regroup ({b} + scope.entered ((stmt ()).outside Stmt.isSwitch) +
    (scope.entered (Stmt.outsideAll Stmt.isSwitch stmts) + held)) (by abel)
  refine (hstmt scope h).bind And.left fun hfirst next s h => ?_
  rw [← add_assoc] at h
  exact (hstmts scope h).mono (and_iff_right hfirst).symm fun _ _ h => h

end Forms

mutual

/-- Lowering decides about every statement. -/
theorem decides_lower {stmt : Stmt} (hc : stmt.Complete) : Decided n stmt := by
  obtain ⟨habsent, hexprs, hparts⟩ := Stmt.complete_iff.mp hc
  -- each kind of statement has its own lemma, only the recursion over the parts is here
  match stmt with
  | .expr _ e => exact decided_expr (hexprs e List.mem_cons_self)
  | .decl .. => exact decided_decl hexprs
  | .block _ body =>
    intro s defs goals held b scope h
    rw [Stmt.accepted_block]
    exact decides_lowerAll hparts scope h
  | .ifThen _ cond thenBody =>
    exact decided_ifThen (hexprs cond List.mem_cons_self) (decides_lower (hparts thenBody List.mem_cons_self))
  | .ifElse _ cond thenBody elseBody =>
    exact decided_ifElse (hexprs cond List.mem_cons_self) (decides_lower (hparts thenBody List.mem_cons_self))
      (decides_lower (hparts elseBody (List.mem_cons_of_mem _ List.mem_cons_self)))
  | .whileLoop _ cond body =>
    exact decided_whileLoop (hexprs cond List.mem_cons_self) (decides_lower (hparts body List.mem_cons_self))
  | .doWhile _ body cond =>
    exact decided_doWhile (hexprs cond List.mem_cons_self) (decides_lower (hparts body List.mem_cons_self))
  | .forLoop _ init cond step body =>
    have hheld : ∀ e, e ∈ init.exprs ∨ e ∈ cond.toList ∨ e ∈ step.toList → (e ()).Complete := fun e he =>
      hexprs e (by simpa [Stmt.exprs, or_assoc] using he)
    exact decided_forLoop (fun e he => hheld e (.inl he)) (fun e he => hheld e (.inr (.inl he)))
      (fun e he => hheld e (.inr (.inr he))) (decides_lower (hparts body List.mem_cons_self))
  | .switch _ scrutinee body =>
    exact decided_switch (hexprs scrutinee List.mem_cons_self) (hparts body List.mem_cons_self)
      (decides_lower (hparts body List.mem_cons_self))
  | .case _ _ body => exact decided_case (decides_lower (hparts body List.mem_cons_self))
  | .default _ body => exact decided_default (decides_lower (hparts body List.mem_cons_self))
  | .breakOut _ => exact decided_breakOut
  | .continueLoop _ => exact decided_continueLoop
  | .goto .. => exact decided_goto
  | .label _ _ body => exact decided_label (decides_lower (hparts body List.mem_cons_self))
  | .ret .. => exact decided_ret hexprs
  | .empty _ =>
    intro s defs goals held b scope h
    exact decides_pure (Stmt.accepted_empty h.nodup) h.append_nil
  | .error _ =>
    intro s defs goals held b scope h
    exact decides_fail _ Stmt.not_accepted_error
  | .absent => exact absurd rfl habsent

theorem decides_lowerAll {stmts : List (Unit → Stmt)} (hc : ∀ p ∈ stmts, (p ()).Complete) :
    DecidedAll n stmts := by
  match stmts with
  | [] => exact decidedAll_nil
  | stmt :: stmts =>
    exact decidedAll_cons (decides_lower (hc stmt List.mem_cons_self))
      (decides_lowerAll fun p hp => hc p (List.mem_cons_of_mem _ hp))

end

/-- Parameters are accepted if they are variables of the function. -/
theorem decides_bindParams {s : LoweringState} {defs goals : List Name} {held : Multiset BlockId}
    (h : s.Ledger n defs goals held) (index : Nat) (params : List VarId) :
    Decides s (bindParams index params) (∀ v ∈ params, v < n) fun _ s' => s'.Ledger n defs goals held := by
  induction params generalizing s index with
  | nil => exact decides_pure nofun h
  | cons v params ih =>
    rw [List.forall_mem_cons]
    refine (decides_numVars h).seq ?_
    rintro k s ⟨rfl, rfl⟩
    refine (decides_variableRef h v).bind And.left fun hv x s h => ?_
    refine (decides_append h _ _).seq fun _ s h => ?_
    exact (ih h (index + 1)).mono (and_iff_right hv).symm fun _ _ h => h

end Lowering

/-! ## Functions -/

/-- At the start the entry is the one open block. -/
theorem LoweringState.ledger_new (numVars : Nat) :
    Ledger { graph := .new numVars } numVars [] [] ({FlowGraph.entry} + 0) := by
  refine ⟨rfl, List.nodup_nil, fun _ => Iff.rfl, List.nodup_nil, by simp, by simp [undefined], fun b => ?_⟩
  have hsize : (FlowGraph.new numVars).size = 1 := rfl
  simp only [IsOpen, hsize, undefined, List.filter_nil, List.map_nil, Multiset.coe_nil, add_zero,
    Multiset.mem_singleton, Nat.lt_one_iff]
  constructor
  · exact And.left
  · rintro rfl
    exact ⟨rfl, rfl⟩

theorem Scope.entered_empty (stmts : List Stmt) : Scope.entered {} stmts = 0 := by
  simp [Scope.entered]

namespace LoweringState.Ledger

variable {s : LoweringState} {n : Nat} {defs goals : List Name}

/-- The open blocks that nobody holds are the blocks of labels that were asked for in vain. -/
theorem isOpen_iff_lookup (h : s.Ledger n defs goals 0) {b : BlockId} : s.IsOpen b ↔
    ∃ name ∈ goals, name ∉ defs ∧ s.labels.lookup name = some b := by
  rw [h.isOpen_iff, zero_add, Multiset.mem_coe, undefined]
  simp only [List.mem_map, List.mem_filter, Bool.not_eq_true', List.contains_eq_mem, decide_eq_false_iff_not, h.defined]
  constructor
  · rintro ⟨⟨name, c⟩, ⟨hmem, hname⟩, rfl⟩
    have hkey : name ∈ s.labels.map Prod.fst := List.mem_map.mpr ⟨_, hmem, rfl⟩
    exact ⟨name, ((h.mem_names name).mp hkey).resolve_left hname, hname, Lowering.lookup_of_mem h.nodup_names hmem⟩
  · rintro ⟨name, -, hname, hlookup⟩
    obtain ⟨before, after, hlabels, -⟩ := List.lookup_eq_some_iff.mp hlookup
    exact ⟨(name, b), ⟨by simp [hlabels], hname⟩, rfl⟩

end LoweringState.Ledger

namespace Function

variable {fn : Function}

/-- A body is lowered exactly if it follows the rules other than that labels have to be defined. -/
theorem decides_lowerBody (hc : fn.tree.Complete) :
    Lowering.Decides { graph := .new fn.numVars } (Lowering.lowerBody fn.params fn.tree) fn.Legal fun _ s =>
      s.Ledger fn.numVars fn.tree.labels fn.tree.gotos 0 := by
  rw [legal_iff_accepted]
  refine (Lowering.decides_bindParams (LoweringState.ledger_new _) 0 fn.params).bind And.left fun hparams _ s h => ?_
  have h := h.regroup ({FlowGraph.entry} + Scope.entered {} (fn.tree.outside Stmt.isSwitch) + 0)
    (by rw [Scope.entered_empty, add_zero, add_zero])
  refine (Lowering.decides_lower hc {} h).bind And.right fun hbody last s h => ?_
  refine (Lowering.decides_newBlock h).seq fun sink s h => ?_
  refine (Lowering.decides_close h rfl).seq fun _ s h => ?_
  exact (Lowering.decides_close h rfl).mono (iff_of_true trivial ⟨hparams, hbody⟩) fun _ _ h => h

/-- How lowering ends: with a complaint, or with a graph in which only blocks of undefined labels are open. -/
theorem Grounded.lower_cases (h : fn.Grounded) :
    (¬ fn.Legal ∧ ∃ i, fn.lower = .error (.internal i)) ∨ fn.Legal ∧ ∃ s : LoweringState,
      Lowering.lowerBody fn.params fn.tree { graph := .new fn.numVars } = .ok ((), s) ∧
      s.Ledger fn.numVars fn.tree.labels fn.tree.gotos 0 ∧
      fn.lower = match s.graph.ids.find? fun b => (s.graph.jump b).isMissing with
        | some b => .error (.internal (.missingTerminator b))
        | none => .ok { s.graph with numTemps := s.temps } := by
  have hbody := decides_lowerBody h.complete
  unfold Lowering.Decides at hbody
  rw [Function.lower, lowerTree, StateT.run]
  cases hrun : Lowering.lowerBody fn.params fn.tree { graph := .new fn.numVars } with
  | error e =>
    rw [hrun] at hbody
    obtain ⟨hlegal, i, rfl⟩ := hbody
    exact .inl ⟨hlegal, i, rfl⟩
  | ok r =>
    rw [hrun] at hbody
    exact .inr ⟨hbody.1, r.2, rfl, hbody.2, rfl⟩

/-- A block is left open exactly for a label that is asked for and never defined. -/
theorem wellFormed_iff_of_ledger (hlegal : fn.Legal) {s : LoweringState}
    (h : s.Ledger fn.numVars fn.tree.labels fn.tree.gotos 0) : fn.WellFormed ↔ ∀ b, ¬ s.IsOpen b := by
  constructor
  · rintro hfn b hopen
    obtain ⟨name, hgoto, hlabel, -⟩ := h.isOpen_iff_lookup.mp hopen
    exact hlabel (hfn.gotos name hgoto)
  · refine fun hclosed => ⟨hlegal, fun name hgoto => Classical.byContradiction fun hlabel => ?_⟩
    have hkey := (h.mem_names name).mpr (.inr hgoto)
    obtain ⟨⟨_, b⟩, hmem, rfl⟩ := List.mem_map.mp hkey
    exact hclosed b (h.isOpen_iff_lookup.mpr ⟨_, hgoto, hlabel, Lowering.lookup_of_mem h.nodup_names hmem⟩)

/-- Lowering accepts exactly the well-formed functions, and it never ends a block twice. Where it accepts,
no block is open; where nothing is wrong but labels that are not defined, it complains about the first
block of such a label. -/
theorem lower_accepts_exactly (fn : Function) (h : fn.Grounded) :
    (∀ b, fn.lower ≠ .error (.closedTwice b)) ∧
    ((∃ g, fn.lower = .ok g) ↔ fn.WellFormed) ∧
    (∀ g, fn.lower = .ok g → ∀ b < g.size, g.jump b ≠ .missing) ∧
    (fn.Legal → ¬ fn.WellFormed → ∃ s b,
      Lowering.lowerBody fn.params fn.tree { graph := .new fn.numVars } = .ok ((), s) ∧
      IsLeast {c | ∃ name ∈ fn.tree.gotos, name ∉ fn.tree.labels ∧ s.labels.lookup name = some c} b ∧
      fn.lower = .error (.internal (.missingTerminator b))) := by
  rcases h.lower_cases with ⟨hlegal, i, herror⟩ | ⟨hlegal, s, hrun, hledger, hlower⟩
  · have hno : ∀ g, fn.lower ≠ .ok g := fun g hg => nomatch herror.symm.trans hg
    exact ⟨fun b hb => (nomatch herror.symm.trans hb),
      iff_of_false (fun ⟨g, hg⟩ => hno g hg) fun hfn => hlegal hfn.toLegal, fun g hg => absurd hg (hno g),
      fun hlegal' => absurd hlegal' hlegal⟩
  -- what is left to ask is whether a block has been left open
  have hfn := wellFormed_iff_of_ledger hlegal hledger
  cases hfind : s.graph.ids.find? fun b => (s.graph.jump b).isMissing with
  | none =>
    rw [hfind] at hlower
    have hclosed : ∀ b, ¬ s.IsOpen b := fun b hopen =>
      List.find?_eq_none.mp hfind b (List.mem_range.mpr hopen.1) hopen.2
    refine ⟨fun b hb => (nomatch hlower.symm.trans hb), ⟨fun _ => hfn.mpr hclosed, fun _ => ⟨_, hlower⟩⟩, ?_,
      fun _ hnot => absurd (hfn.mpr hclosed) hnot⟩
    intro g hg b hb hmissing
    cases hlower.symm.trans hg
    exact hclosed b ⟨hb, congrArg Jump.isMissing hmissing⟩
  | some b =>
    rw [hfind] at hlower
    obtain ⟨hmissing, hlt, hfirst⟩ := List.find?_range_eq_some.mp hfind
    have hopen : s.IsOpen b := ⟨List.mem_range.mp hlt, hmissing⟩
    have hno : ∀ g, fn.lower ≠ .ok g := fun g hg => nomatch hlower.symm.trans hg
    refine ⟨fun c hc => (nomatch hlower.symm.trans hc),
      iff_of_false (fun ⟨g, hg⟩ => hno g hg) fun hok => hfn.mp hok b hopen, fun g hg => absurd hg (hno g),
      fun _ _ => ⟨s, b, hrun, ⟨hledger.isOpen_iff_lookup.mp hopen, ?_⟩, hlower⟩⟩
    intro c hc
    -- the error names the first open block, and the open blocks are those of undefined labels
    have hc := hledger.isOpen_iff_lookup.mpr hc
    refine Nat.le_of_not_lt fun hcb => ?_
    have := hfirst c hcb
    rw [hc.2] at this
    exact nomatch this

end Function

/-- The function `again: while (a) { switch (a) { case 1: break; default: continue; } goto again; } return a;`. -/
def switchInLoop : Function :=
  let span : Span := ⟨0, 1⟩
  { name := ⟨0⟩, params := [0], numVars := 1, body := 11, span := span
    exprs := #[⟨span, .var 0⟩]
    stmts := #[⟨span, .breakOut⟩, ⟨span, .case 1 0⟩, ⟨span, .continueLoop⟩, ⟨span, .default 2⟩, ⟨span, .block [1, 3]⟩,
      ⟨span, .switch 0 4⟩, ⟨span, .goto ⟨1⟩⟩, ⟨span, .block [5, 6]⟩, ⟨span, .whileLoop 0 7⟩, ⟨span, .label ⟨1⟩ 8⟩,
      ⟨span, .ret (some 0)⟩, ⟨span, .block [9, 10]⟩] }

/-- The function `return; if (a) goto there; goto elsewhere;`, without the two labels. -/
def strayJumps : Function :=
  let span : Span := ⟨0, 1⟩
  { name := ⟨0⟩, params := [0], numVars := 1, body := 4, span := span
    exprs := #[⟨span, .var 0⟩]
    stmts := #[⟨span, .ret none⟩, ⟨span, .goto ⟨1⟩⟩, ⟨span, .ifElse 0 1 none⟩, ⟨span, .goto ⟨2⟩⟩,
      ⟨span, .block [0, 2, 3]⟩] }

theorem lower_accepts_exactly_switchInLoop :
    (switchInLoop.Grounded ∧ switchInLoop.WellFormed ∧ ∃ g, switchInLoop.lower = .ok g) ∧
      strayJumps.Grounded ∧ strayJumps.Legal ∧ ¬ strayJumps.WellFormed ∧
        ∃ b, strayJumps.lower = .error (.internal (.missingTerminator b)) := by
  have hswitch : switchInLoop.Grounded := Function.grounded_of_earlier (by decide) (by decide) (by decide)
  have hstray : strayJumps.Grounded := Function.grounded_of_earlier (by decide) (by decide) (by decide)
  refine ⟨⟨hswitch, by decide, (Function.lower_accepts_exactly _ hswitch).2.1.mpr (by decide)⟩,
    hstray, by decide, by decide, ?_⟩
  obtain ⟨-, -, -, hmissing⟩ := Function.lower_accepts_exactly _ hstray
  obtain ⟨s, b, -, -, hlower⟩ := hmissing (by decide) (by decide)
  exact ⟨b, hlower⟩

end SsaFlow
