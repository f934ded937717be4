-- SUMMARY: The jump of a `switch` names the labels of its body, with the blocks where lowering enters them.
import Mathlib
import SsaFlow.Proofs.LoweredCode
import SsaFlow.Proofs.OpenBlocks
import SsaFlow.Proofs.SourceSpans

/-!
# Dispatch of a switch

The labels of a `switch` are met twice: they are gathered before the body is lowered, which gives the jump its
options, and each of them is looked up when the lowering of the body comes to it. Both follow the same
statements, those of `Stmt.outside Stmt.isSwitch`. That the second does is seen part by part: lowering a
statement lowers its parts (`Lowering.PartsDone`), so it lowers all statements below it, and the scope
reaches them with all that no statement on the way sets for its own parts (`Scope.Reaches`).
-/

namespace SsaFlow

/-! ## Statements below a statement -/

/-- What the scope of a statement has in common with a scope below it, if the statements on the way are ones
where `stops` does not hold. -/
structure Scope.Reaches (stops : Stmt → Bool) (scope inner : Scope) : Prop where
  breakTo : (∀ x, x.isBreakable = true → stops x = true) → inner.breakTo = scope.breakTo
  continueTo : (∀ x, x.isLoop = true → stops x = true) → inner.continueTo = scope.continueTo
  cases : (∀ x, x.isSwitch = true → stops x = true) → inner.cases = scope.cases

namespace Scope.Reaches

variable {stops : Stmt → Bool} {scope inner below : Scope}

theorem refl : scope.Reaches stops scope := ⟨fun _ => rfl, fun _ => rfl, fun _ => rfl⟩

/-- What a statement passes on to its parts reaches whatever is below them. -/
theorem of_passedOn {stmt : Stmt} (hstops : stops stmt = false) (h : scope.PassedOn stmt inner)
    (hbelow : inner.Reaches stops below) : scope.Reaches stops below := by
  have hnot : ∀ {kind : Stmt → Bool}, (∀ x, kind x = true → stops x = true) → kind stmt = false := by
    intro kind hkind
    refine Bool.eq_false_iff.mpr fun hyes => ?_
    rw [hkind stmt hyes] at hstops
    cases hstops
  exact ⟨fun hb => (hbelow.breakTo hb).trans (h.breakTo (hnot hb)),
    fun hc => (hbelow.continueTo hc).trans (h.continueTo (hnot hc)),
    fun hs => (hbelow.cases hs).trans (h.cases (hnot hs))⟩

end Scope.Reaches

namespace Lowering

variable {s s' : LoweringState} {stops : Stmt → Bool}

theorem DoneEach.append {xs ys : List Stmt} {P : Job → Prop} (hxs : DoneEach s s' xs P)
    (hys : DoneEach s s' ys P) : DoneEach s s' (xs ++ ys) P := by
  obtain ⟨jobs, hmap, hjobs⟩ := hxs
  obtain ⟨jobs', hmap', hjobs'⟩ := hys
  exact ⟨jobs ++ jobs', by rw [List.map_append, hmap, hmap'], List.forall_mem_append.mpr ⟨hjobs, hjobs'⟩⟩

theorem DoneEach.exists_job {stmts : List Stmt} {P : Job → Prop} (h : DoneEach s s' stmts P) {stmt : Stmt}
    (hstmt : stmt ∈ stmts) : ∃ job : Job, job.stmt = stmt ∧ job.DoneBetween s s' ∧ P job := by
  obtain ⟨jobs, rfl, hjobs⟩ := h
  obtain ⟨job, hjob, rfl⟩ := List.mem_map.mp hstmt
  exact ⟨job, rfl, hjobs job hjob⟩

/-- Jobs for statements become jobs for all statements below them. -/
theorem DoneEach.outsideAll {stmts : List (Unit → Stmt)} {P Q : Job → Prop}
    (h : DoneEach s s' (stmts.map (· ())) P)
    (hjob : ∀ job : Job, (∃ p ∈ stmts, p () = job.stmt) → job.DoneBetween s s' → P job →
      DoneEach s s' (job.stmt.outside stops) Q) : DoneEach s s' (Stmt.outsideAll stops stmts) Q := by
  obtain ⟨jobs, hmap, hjobs⟩ := h
  induction stmts generalizing jobs with
  | nil => exact .nil
  | cons stmt stmts ih =>
    obtain ⟨job, jobs, rfl, hfirst, hrest⟩ := List.map_eq_cons_iff.mp hmap
    obtain ⟨⟨hdone, hP⟩, hjobs⟩ := List.forall_mem_cons.mp hjobs
    have hstmt : stmt () = job.stmt := hfirst.symm
    rw [Stmt.outsideAll, hstmt]
    refine (hjob job ⟨stmt, List.mem_cons_self, hstmt⟩ hdone hP).append (ih ?_ jobs hrest hjobs)
    rintro job ⟨p, hp, heq⟩
    exact hjob job ⟨p, List.mem_cons_of_mem _ hp, heq⟩

/-- Where a statement is lowered, the statements below it are, and its scope reaches them. -/
theorem Job.DoneBetween.outside {job : Job} (h : job.DoneBetween s s') :
    DoneEach s s' (job.stmt.outside stops) fun below => job.scope.Reaches stops below.scope := by
  obtain ⟨scope, b, stmt⟩ := job
  induction stmt using Stmt.parts_induction generalizing scope b with
  | step stmt ih =>
    obtain ⟨s₁, c, s₂, before, hruns, after⟩ := id h
    obtain ⟨-, -, -, -, hparts⟩ := keeps_lower hruns.sound hruns.within hruns.lt stmt c s₂ hruns.lower
    rw [Stmt.outside_eq]
    refine .cons h .refl ?_
    split
    · exact .nil
    · next hstops =>
      refine (hparts.widen before after).outsideAll ?_
      rintro ⟨inner, b', part⟩ ⟨p, hp, rfl⟩ hdone hpassed
      refine (ih p hp inner b' hdone).imp fun below _ hbelow => ?_
      exact .of_passedOn (Bool.not_eq_true _ |>.mp hstops) hpassed hbelow

/-- A lowered body has all its statements lowered on the way, each of them from a sound state. -/
theorem lowerTree_doneEach {numVars : Nat} {params : List VarId} {body : Stmt} {g : FlowGraph}
    (h : lowerTree numVars params body = .ok g) :
    ∃ s, DoneEach { graph := .new numVars } s body.nodes (fun _ => True) ∧
      g = { s.graph with numTemps := s.temps } := by
  obtain ⟨s, hrun, hg, -⟩ := lowerTree_ok h
  obtain ⟨-, -, hdone⟩ := lowerBody_sound (LoweringState.sound_new numVars) hrun
  exact ⟨s, hdone.outside.imp fun _ _ _ => trivial, hg⟩

/-! ## Statements that jump -/

/-- A case goes to the block that the innermost `switch` has made for its label. -/
theorem caseTarget_ok {scope : Scope} {span : Span} {label : CaseLabel} {target : BlockId}
    (h : caseTarget scope span label s = .ok (target, s')) : scope.cases.lookup label = some target ∧ s' = s := by
  rw [caseTarget] at h
  cases hlookup : scope.cases.lookup label with
  | none =>
    rw [hlookup] at h
    cases h
  | some b =>
    rw [hlookup] at h
    cases h
    exact ⟨rfl, rfl⟩

/-- Both kinds of labels of a `switch`: the block before the label goes to the block of the label, which takes
in the statement. -/
theorem enterCase_ok {scope : Scope} {b c : BlockId} {span : Span} {label : CaseLabel} {stmt : Stmt}
    (hs : s.Sound) (hscope : scope.Within s.graph) (hb : b < s.graph.size)
    (hrun : (do
      let target ← caseTarget scope span label
      close b (.goto target)
      lower scope target stmt : Lowering BlockId) s = .ok (c, s')) :
    ∃ target, scope.cases.lookup label = some target ∧ s'.graph.jump b = .goto target ∧
      Job.DoneBetween ⟨scope, target, stmt⟩ s s' := by
  obtain ⟨target, s1, hcase, hrun⟩ := bind_ok hrun
  obtain ⟨_, s2, hclose, hlower⟩ := bind_ok hrun
  obtain ⟨h1, g1, hlanding⟩ := keeps_caseTarget hs hscope span label target s1 hcase
  obtain ⟨h2, g2, -⟩ := keeps_goto h1 (g1.lt hb) hlanding _ s2 hclose
  have g := g1.trans g2
  obtain ⟨-, g3, hdone, -⟩ := keeps_lower h2 (hscope.mono g) (g2.lt hlanding.lt) stmt c s' hlower
  have hjump : s2.graph.jump b = .goto target := (close_ok hclose (g1.lt hb)).jump
  refine ⟨target, (caseTarget_ok hcase).1, ?_, hdone.widen g.steps .refl⟩
  rw [g3.steps.jump_of_closed (by rw [hjump]; rfl), hjump]

/-- What lowering a label of a `switch` leaves behind. -/
theorem Job.DoneBetween.entersCase {job : Job} (h : job.DoneBetween s s') {label : CaseLabel}
    (hlabel : job.stmt.caseLabel? = some label) :
    ∃ target part, job.scope.cases.lookup label = some target ∧ s'.graph.jump job.block = .goto target ∧
      job.stmt.parts = [part] ∧ Job.DoneBetween ⟨job.scope, target, part ()⟩ s s' := by
  obtain ⟨scope, b, stmt⟩ := job
  obtain ⟨s₁, c, s₂, before, ⟨hsound, hwithin, hlt, hlower⟩, after⟩ := h
  have hentered : ∃ target part, scope.cases.lookup label = some target ∧ s₂.graph.jump b = .goto target ∧
      stmt.parts = [part] ∧ Job.DoneBetween ⟨scope, target, part ()⟩ s₁ s₂ := by
    cases stmt with
    | case span v body | default span body =>
      cases hlabel
      obtain ⟨target, hlookup, hjump, hdone⟩ := enterCase_ok hsound hwithin hlt hlower
      exact ⟨target, body, hlookup, hjump, rfl, hdone⟩
    | _ => cases hlabel
  obtain ⟨target, part, hlookup, hjump, hparts, hdone⟩ := hentered
  refine ⟨target, part, hlookup, ?_, hparts, hdone.widen before after⟩
  rw [after.jump_of_closed (by rw [hjump]; rfl), hjump]

/-- What a statement leaves behind that only jumps to a target. -/
theorem Job.DoneBetween.leaves {job : Job} (h : job.DoneBetween s s') {span : Span} {e : InternalError}
    {o : Option BlockId} (hlower : lower job.scope job.block job.stmt = do
      beginStmt job.block span
      let target ← targetOr e o
      leaveFor job.block target) :
    ∃ target shadow, o = some target ∧ s'.graph.jump job.block = .transfer target shadow := by
  obtain ⟨s₁, c, s₂, -, hruns, after⟩ := h
  have hrun := hruns.lower
  rw [hlower] at hrun
  obtain ⟨_, s1, hbegin, hrun⟩ := bind_ok hrun
  obtain ⟨target, s2, htarget, hrun⟩ := bind_ok hrun
  obtain ⟨hsome, rfl⟩ := targetOr_ok htarget
  obtain ⟨-, -, hadds⟩ := leaveFor_ok hrun ((beginStmt_ok hbegin).lt hruns.lt)
  refine ⟨target, c, hsome, ?_⟩
  rw [after.jump_of_closed (by rw [hadds.jump]; rfl), hadds.jump]

theorem Job.DoneBetween.leaves_break {job : Job} (h : job.DoneBetween s s') (hbreak : job.stmt.isBreak = true) :
    ∃ target shadow, job.scope.breakTo = some target ∧ s'.graph.jump job.block = .transfer target shadow := by
  obtain ⟨scope, b, stmt⟩ := job
  cases stmt with
  | breakOut span => exact h.leaves rfl
  | _ => cases hbreak

theorem Job.DoneBetween.leaves_continue {job : Job} (h : job.DoneBetween s s')
    (hcontinue : job.stmt.isContinue = true) :
    ∃ target shadow, job.scope.continueTo = some target ∧ s'.graph.jump job.block = .transfer target shadow := by
  obtain ⟨scope, b, stmt⟩ := job
  cases stmt with
  | continueLoop span => exact h.leaves rfl
  | _ => cases hcontinue

/-! ## The blocks of the labels -/

/-- Every label gets the next block, in order, and no label is there twice. -/
theorem openCases_ok {cases cs : List (CaseLabel × BlockId)} {labels : List (CaseLabel × Span)}
    (h : openCases cases labels s = .ok (cs, s')) (hnodup : (cases.map Prod.fst).Nodup) :
    (cs.map Prod.fst).Nodup ∧ cs.map Prod.fst = (cases.map Prod.fst).reverse ++ labels.map Prod.fst ∧
      cs.map Prod.snd = (cases.map Prod.snd).reverse ++ List.range' s.graph.size labels.length := by
  induction labels generalizing s cases with
  | nil =>
    cases h
    simpa using hnodup
  | cons label labels ih =>
    obtain ⟨label, span⟩ := label
    obtain ⟨target, s1, hnew, h⟩ := bind_ok h
    cases hnew
    split at h
    · cases h
    · next hfresh =>
      have hmem : label ∉ cases.map Prod.fst := by simpa using hfresh
      obtain ⟨hcs, hfst, hsnd⟩ := ih h (List.nodup_cons.mpr ⟨hmem, hnodup⟩)
      refine ⟨hcs, ?_, ?_⟩
      · simp [hfst]
      · rw [hsnd, FlowGraph.size_addBlock]
        simp [List.range'_succ]

end Lowering

namespace CaseLabel

def value? : CaseLabel → Option Int
  | value v => some v
  | default => none

def entry (options : List (Int × BlockId)) (other : BlockId) : CaseLabel → Option BlockId
  | value v => options.lookup v
  | default => some other

end CaseLabel

namespace Lowering

variable {s s' : LoweringState}

theorem map_fst_caseOptions (cases : List (CaseLabel × BlockId)) :
    (caseOptions cases).map Prod.fst = (cases.map Prod.fst).filterMap CaseLabel.value? := by
  induction cases with
  | nil => rfl
  | cons c cases ih =>
    obtain ⟨label, target⟩ := c
    cases label with
    | value v => exact congrArg (v :: ·) ih
    | default => exact ih

/-- A selection sends a value to the block of the label with this value. -/
theorem lookup_caseOptions (cases : List (CaseLabel × BlockId)) (v : Int) :
    (caseOptions cases).lookup v = cases.lookup (.value v) := by
  induction cases with
  | nil => rfl
  | cons c cases ih =>
    obtain ⟨label, target⟩ := c
    cases label with
    | value w =>
      have hbeq : (CaseLabel.value v == CaseLabel.value w) = (v == w) := by simp
      rw [List.lookup_cons, hbeq, ← ih]
      rfl
    | default =>
      have hbeq : (CaseLabel.value v == CaseLabel.default) = false := beq_eq_false_iff_ne.mpr nofun
      rw [List.lookup_cons, hbeq]
      exact ih

/-- The selection names the block of every label. -/
theorem entry_caseOptions {cases : List (CaseLabel × BlockId)} {label : CaseLabel} {target after : BlockId}
    (h : cases.lookup label = some target) :
    label.entry (caseOptions cases) ((cases.lookup .default).getD after) = some target := by
  cases label with
  | value v => exact (lookup_caseOptions cases v).trans h
  | default => rw [CaseLabel.entry, h, Option.getD_some]

theorem map_snd_caseOptions_sublist (cases : List (CaseLabel × BlockId)) :
    ((caseOptions cases).map Prod.snd).Sublist (cases.map Prod.snd) := by
  induction cases with
  | nil => exact .refl _
  | cons c cases ih =>
    obtain ⟨label, target⟩ := c
    cases label with
    | value v => exact ih.cons_cons target
    | default => exact ih.cons target

theorem getD_lookup_mem (cases : List (CaseLabel × BlockId)) (label : CaseLabel) (after : BlockId) :
    (cases.lookup label).getD after ∈ after :: cases.map Prod.snd := by
  cases hlookup : cases.lookup label with
  | none => exact List.mem_cons_self
  | some target =>
    obtain ⟨before, rest, hsplit, -⟩ := List.lookup_eq_some_iff.mp hlookup
    simp [hsplit]

/-- Where the labels have blocks of their own, no two entries of the selection name the same block. -/
theorem nodup_entries {cases : List (CaseLabel × BlockId)} {after : BlockId}
    (h : (after :: cases.map Prod.snd).Nodup) :
    ((cases.lookup .default).getD after :: (caseOptions cases).map Prod.snd).Nodup := by
  induction cases with
  | nil => exact h
  | cons c cases ih =>
    obtain ⟨label, target⟩ := c
    have hsub := map_snd_caseOptions_sublist cases
    cases label with
    | value v =>
      obtain ⟨hafter, htarget, hcases⟩ : after ∉ target :: cases.map Prod.snd ∧
          target ∉ cases.map Prod.snd ∧ (cases.map Prod.snd).Nodup := by simpa using h
      have hrest := ih (List.nodup_cons.mpr ⟨fun hmem => hafter (List.mem_cons_of_mem _ hmem), hcases⟩)
      have hlookup : ((CaseLabel.value v, target) :: cases).lookup .default = cases.lookup .default := by
        have hbeq : (CaseLabel.default == CaseLabel.value v) = false := beq_eq_false_iff_ne.mpr nofun
        rw [List.lookup_cons, hbeq]
      rw [hlookup]
      obtain ⟨hother, hoptions⟩ := List.nodup_cons.mp hrest
      refine List.nodup_cons.mpr ⟨fun hmem => ?_, List.nodup_cons.mpr ⟨fun hmem => ?_, hoptions⟩⟩
      · rcases List.mem_cons.mp hmem with heq | hmem
        · rcases List.mem_cons.mp (heq ▸ getD_lookup_mem cases .default after) with rfl | hmem
          · exact hafter List.mem_cons_self
          · exact htarget hmem
        · exact hother hmem
      · exact htarget (hsub.subset hmem)
    | default => exact (List.nodup_cons.mp h).2.sublist (hsub.cons_cons target)

/-! ## The selection -/

/-- Lowering a `switch` selects among the labels that were gathered and lowers the body in a scope where
`break` goes to the block after it. -/
theorem Job.Runs.switch {scope : Scope} {b after : BlockId} {span : Span} {scrutinee : Unit → Expr}
    {body : Unit → Stmt} (h : Job.Runs ⟨scope, b, .switch span scrutinee body⟩ s after s') :
    ∃ value labels cases head, ownLabels (body ()) = .ok labels ∧ cases.map Prod.fst = labels.map Prod.fst ∧
      (cases.map Prod.fst).Nodup ∧ (after :: cases.map Prod.snd).Nodup ∧
      s'.graph.jump b = .select value (caseOptions cases) ((cases.lookup .default).getD after) ∧
      Job.DoneBetween ⟨scope.switch after cases, head, body ()⟩ s s' := by
  obtain ⟨hs, hscope, hb, hrun⟩ := h
  obtain ⟨_, s1, hbegin, hrun⟩ := bind_ok hrun
  obtain ⟨value, s2, hcompute, hrun⟩ := bind_ok hrun
  obtain ⟨after', s3, hafter, hrun⟩ := bind_ok hrun
  obtain ⟨labels, s4, hlift, hrun⟩ := bind_ok hrun
  obtain ⟨hlabels, rfl⟩ := lift_ok hlift
  obtain ⟨cases, s5, hopen, hrun⟩ := bind_ok hrun
  obtain ⟨_, s6, hselect, hrun⟩ := bind_ok hrun
  obtain ⟨head, s7, hhead, hrun⟩ := bind_ok hrun
  obtain ⟨bodyExit, s8, hbody, hrun⟩ := bind_ok hrun
  obtain ⟨_, s9, hlast, hrun⟩ := bind_ok hrun
  cases hrun
  obtain ⟨h1, g1, -⟩ := keeps_beginStmt hs b span _ s1 hbegin
  obtain ⟨h2, g2, hvalue⟩ := keeps_compute h1 (g1.lt hb) scrutinee value s2 hcompute
  obtain ⟨h3, g3, hafterLanding⟩ := keeps_newBlock h2 after s3 hafter
  obtain ⟨h5, g5, hcases⟩ := keeps_openCases h3 [] (fun _ hc => absurd hc List.not_mem_nil) labels cases s5 hopen
  have g := g1.trans (g2.trans (g3.trans g5))
  obtain ⟨h6, g6, -⟩ := keeps_select h5 (g.lt hb) hcases (g5.landing hafterLanding) ((g3.trans g5).ready hvalue)
    _ s6 hselect
  obtain ⟨h7, g7, hheadLanding⟩ := keeps_newBlock h6 head s7 hhead
  have g' := g6.trans g7
  have hwithin := (hscope.mono (g.trans g')).switch ((g5.trans g').landing hafterLanding)
    fun c hc => g'.landing (hcases c hc)
  obtain ⟨h8, g8, hdone, hexit, -⟩ := keeps_lower h7 hwithin hheadLanding.lt (body ()) bodyExit s8 hbody
  obtain ⟨-, g9, -⟩ := keeps_goto h8 hexit ((g5.trans (g'.trans g8)).landing hafterLanding) _ s' hlast
  obtain ⟨hnodup, hfst, hsnd⟩ := openCases_ok hopen List.nodup_nil
  have hjump := (close_ok hselect (g.lt hb)).jump
  refine ⟨value, labels, cases, head, hlabels, hfst, hnodup, ?_, ?_, hdone.widen (g.trans g').steps g9.steps⟩
  · -- the blocks of the labels are made right after the block behind the `switch`
    rw [hsnd]
    refine List.nodup_cons.mpr ⟨fun hmem => ?_, List.nodup_range'⟩
    exact Nat.not_le.mpr hafterLanding.lt (List.mem_range'_1.mp hmem).1
  · rw [(g7.trans (g8.trans g9)).steps.jump_of_closed (by rw [hjump]; rfl), hjump]

/-- From when a `switch` has been lowered, its block selects by the values of the labels that belong to it, in
source order and each of them once; without a `default` label the other values go on behind the `switch`. The
statement at a label is lowered into the block that the entry of the label names: the lookup there finds this
block, and the block before the label goes to it. A `break` that belongs to the `switch` goes behind it, and
a `continue` goes to where the loop around the `switch` goes on. Every `switch` of a lowered body has such a run
(`lowerTree_doneEach`). -/
theorem switch_dispatch_agrees {scope : Scope} {b after : BlockId} {span : Span} {scrutinee : Unit → Expr}
    {body : Unit → Stmt} {s'' : LoweringState} (hbody : (body ()).Complete)
    (hrun : Job.Runs ⟨scope, b, .switch span scrutinee body⟩ s after s') (hlater : s'.Steps s'') :
    ∃ value options other,
      s''.graph.jump b = .select value options other ∧
      options.map Prod.fst = (body ()).ownCases.filterMap CaseLabel.value? ∧ (body ()).ownCases.Nodup ∧
      (options.map Prod.fst).Nodup ∧ (other :: options.map Prod.snd).Nodup ∧
      (CaseLabel.default ∉ (body ()).ownCases → other = after) ∧
      DoneEach s s'' ((body ()).outside Stmt.isSwitch) (fun job =>
        ∀ label, job.stmt.caseLabel? = some label → ∃ target part,
          label.entry options other = some target ∧
          (∀ span st, caseTarget job.scope span label st = .ok (target, st)) ∧
          s''.graph.jump job.block = .goto target ∧
          job.stmt.parts = [part] ∧ Job.DoneBetween ⟨job.scope, target, part ()⟩ s s'') ∧
      DoneEach s s'' ((body ()).outside Stmt.isBreakable) (fun job =>
        job.stmt.isBreak = true → ∃ shadow, s''.graph.jump job.block = .transfer after shadow) ∧
      DoneEach s s'' ((body ()).outside Stmt.isLoop) fun job =>
        job.stmt.isContinue = true → ∃ target shadow, scope.continueTo = some target ∧
          s''.graph.jump job.block = .transfer target shadow := by
  obtain ⟨value, labels, cases, head, hlabels, hfst, hnodup, hsnd, hjump, hdone⟩ := hrun.switch
  obtain ⟨_, hgathered, hown⟩ := ownLabels_ok hbody
  -- the labels that were gathered are the ones of the body
  obtain rfl := Except.ok.inj (hgathered.symm.trans hlabels)
  rw [hown] at hfst
  rw [hfst] at hnodup
  have hdone : Job.DoneBetween ⟨scope.switch after cases, head, body ()⟩ s s'' := hdone.widen .refl hlater
  have hvalues : (caseOptions cases).map Prod.fst = (body ()).ownCases.filterMap CaseLabel.value? := by
    rw [map_fst_caseOptions, hfst]
  refine ⟨value, caseOptions cases, (cases.lookup .default).getD after, ?_, hvalues, hnodup, ?_,
    nodup_entries hsnd, fun hnone => ?_, ?_, ?_, ?_⟩
  · rw [hlater.jump_of_closed (by rw [hjump]; rfl), hjump]
  · rw [hvalues]
    refine hnodup.filterMap fun l l' v hv hv' => ?_
    cases l <;> cases l' <;> cases hv <;> cases hv'
    rfl
  · rw [lookup_eq_none_iff_not_mem.mpr (hfst ▸ hnone), Option.getD_none]
  · refine hdone.outside.imp fun job hjob hreaches label hlabel => ?_
    obtain ⟨target, part, hlookup, hgoto, hparts, hpart⟩ := hjob.entersCase hlabel
    refine ⟨target, part, entry_caseOptions ?_, fun span st => ?_, hgoto, hparts, hpart⟩
    · rwa [hreaches.cases fun _ hx => hx] at hlookup
    · rw [caseTarget, hlookup]
      rfl
  · refine hdone.outside.imp fun job hjob hreaches hbreak => ?_
    obtain ⟨target, shadow, htarget, htransfer⟩ := hjob.leaves_break hbreak
    rw [hreaches.breakTo fun _ hx => hx] at htarget
    cases htarget
    exact ⟨shadow, htransfer⟩
  · refine hdone.outside.imp fun job hjob hreaches hcontinue => ?_
    obtain ⟨target, shadow, htarget, htransfer⟩ := hjob.leaves_continue hcontinue
    rw [hreaches.continueTo fun _ hx => hx] at htarget
    exact ⟨target, shadow, htarget, htransfer⟩

/-- The body `{ case 1: while (x) case 2: break; default: break; continue; }`. -/
def nestedLabels : Stmt :=
  .block ⟨21, 83⟩ [
    fun _ => .case ⟨23, 55⟩ 1 fun _ => .whileLoop ⟨31, 55⟩ (fun _ => .var 0) fun _ =>
      .case ⟨41, 55⟩ 2 fun _ => .breakOut ⟨49, 55⟩,
    fun _ => .default ⟨56, 71⟩ fun _ => .breakOut ⟨65, 71⟩,
    fun _ => .continueLoop ⟨72, 81⟩]

/-- The loop `while (x) switch (x)` around that body. -/
def nestedSwitch : Stmt :=
  .whileLoop ⟨0, 83⟩ (fun _ => .var 0) fun _ => .switch ⟨10, 83⟩ (fun _ => .var 0) fun _ => nestedLabels

/-- The label in the inner loop is one of the `switch`, the `break` there is not. -/
theorem switch_dispatch_agrees_nestedLabels :
    ∃ s s', lowerTree 1 [] nestedSwitch = .ok { s'.graph with numTemps := s'.temps } ∧
      ∃ (scope : Scope) (b after : BlockId) (value : Operand) (options : List (Int × BlockId)) (other : BlockId),
        s'.graph.jump b = .select value options other ∧ options.map Prod.fst = [1, 2] ∧
        DoneEach s s' (nestedLabels.outside Stmt.isBreakable) (fun job =>
          job.stmt.isBreak = true → ∃ shadow, s'.graph.jump job.block = .transfer after shadow) ∧
        DoneEach s s' (nestedLabels.outside Stmt.isLoop) fun job =>
          job.stmt.isContinue = true → ∃ target shadow, scope.continueTo = some target ∧
            s'.graph.jump job.block = .transfer target shadow := by
  have hcomplete : nestedLabels.Complete := by
    constructor <;> simp [nestedLabels, Stmt.nodes, Stmt.outside, Stmt.outsideAll, Stmt.exprs, Expr.Complete,
      Expr.nodes]
  obtain ⟨g, hg, -⟩ : ∃ g, lowerTree 1 [] nestedSwitch = .ok g ∧ True := by
    refine Except.exists_ok_of_decide ?_
    cbv
  obtain ⟨s', hdone, rfl⟩ := lowerTree_doneEach hg
  obtain ⟨⟨scope, b, _⟩, rfl, ⟨s, after, _, -, hruns, hlater⟩, -⟩ :=
    hdone.exists_job (Stmt.nodes_of_part (List.mem_singleton_self _) (Stmt.self_mem_nodes _))
  obtain ⟨value, options, other, hjump, hvalues, -, -, -, -, -, hbreaks, hcontinues⟩ :=
    switch_dispatch_agrees hcomplete hruns hlater
  exact ⟨s, s', hg, scope, b, after, value, options, other, hjump, hvalues, hbreaks, hcontinues⟩

end Lowering

end SsaFlow
