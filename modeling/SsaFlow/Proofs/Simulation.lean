-- SUMMARY: Lowered code does what the structured program does.
import Mathlib
import SsaFlow.Proofs.LoweredCode
import SsaFlow.Proofs.Sequencing

/-!
# Lowered programs run as their source does

The code of a phrase is run from any place on (`returns?`), so that a run can be cut where one phrase ends
and the next begins. An execution of a phrase is then a stretch of a run (`finishes_of_exec`). In the other
direction, a phrase that has no execution keeps the run going for ever: a loop that is not left takes at
least one block per round (`exec_or_returns?_eq_none`).
-/

namespace SsaFlow

namespace Machine

open FlowGraph

variable {V W : Type} (I : Interp V W) (g : FlowGraph)

/-! ## Runs from a place -/

/-- What a run from a place on returns, if it does so within `fuel` blocks. -/
def returns? : (fuel : Nat) → Place → State (.cells I.undef) W → Option (Option V × W)
  | 0, _, _ => none
  | fuel + 1, p, st =>
    let st' := after I st ((g.block p.block).instrs.toList.drop p.offset)
    match exit I (.cells I.undef) st' (g.jump p.block) with
    | .ret value => some (value, st'.world)
    | .undecided => none
    | .goto c => returns? fuel (startOf c) st'

variable {I g}

/-- A run returns from a block exactly if it returns from the start of the block. -/
theorem run_eq_returned_iff {fuel : Nat} {b : BlockId} {st : State (.cells I.undef) W} {value : Option V}
    {world : W} : (run I (.cells I.undef) g fuel b st).2 = (.returned value, world) ↔
      returns? I g fuel (startOf b) st = some (value, world) := by
  induction fuel generalizing b st with
  | zero => exact ⟨nofun, nofun⟩
  | succ fuel ih =>
    have hafter := execAll_eq_after I st (g.block b).instrs.toList
    rw [run, returns?]
    simp only [startOf, List.drop_zero, hafter]
    cases exit I (.cells I.undef) (after I st (g.block b).instrs.toList) (g.jump b) with
    | ret value' => simp
    | undecided => simp
    | goto c => exact ih

/-- More fuel keeps what a run returns. -/
theorem returns?_mono {fuel : Nat} {p : Place} {st : State (.cells I.undef) W} {r : Option V × W}
    (h : returns? I g fuel p st = some r) (n : Nat) : returns? I g (fuel + n) p st = some r := by
  induction fuel generalizing p st with
  | zero => exact nomatch h
  | succ fuel ih =>
    rw [Nat.succ_add, returns?]
    rw [returns?] at h
    split at h
    · exact h
    · exact nomatch h
    · exact ih h

theorem returns?_unique {m n : Nat} {p : Place} {st : State (.cells I.undef) W} {r r' : Option V × W}
    (h : returns? I g m p st = some r) (h' : returns? I g n p st = some r') : r = r' := by
  have hm := returns?_mono h n
  have hn := returns?_mono h' m
  rw [Nat.add_comm, hm] at hn
  exact Option.some.inj hn

variable (I g)

/-- The run from one place goes on from another after `d` jumps. -/
def Leads (d : Nat) (p : Place) (st : State (.cells I.undef) W) (q : Place)
    (st' : State (.cells I.undef) W) : Prop :=
  ∀ fuel, returns? I g (fuel + d) p st = returns? I g fuel q st'

variable {I g}

namespace Leads

variable {d d' : Nat} {p q r : Place} {st st' st'' : State (.cells I.undef) W}

theorem refl (p : Place) (st : State (.cells I.undef) W) : Leads I g 0 p st p st := fun _ => rfl

theorem trans (h : Leads I g d p st q st') (h' : Leads I g d' q st' r st'') :
    Leads I g (d + d') p st r st'' := by
  intro fuel
  rw [Nat.add_comm d d', ← Nat.add_assoc, h, h']

/-- Instructions lead to the place after them. -/
theorem code {is : List Instr} (h : g.HasCode p is) (st : State (.cells I.undef) W) :
    Leads I g 0 p st (p.skip is.length) (after I st is) := by
  intro fuel
  obtain ⟨rest, hrest⟩ := h
  have hskip : (g.block p.block).instrs.toList.drop (p.offset + is.length) = rest := by
    rw [← List.drop_drop, ← hrest, List.drop_left]
  cases fuel with
  | zero => rfl
  | succ fuel => rw [Nat.add_zero, returns?, returns?, Place.skip, hskip, ← hrest, after_append]

/-- A jump leads to the start of its target. -/
theorem jump {j : Jump} {c : BlockId} (h : g.EndsAt p j) (hexit : exit I (.cells I.undef) st j = .goto c) :
    Leads I g 1 p st (startOf c) st := by
  intro fuel
  rw [returns?, h.offset, h.jump, ← Array.length_toList, List.drop_length, after_nil, hexit]

theorem goto {c : BlockId} (h : g.EndsAt p (.goto c)) (st : State (.cells I.undef) W) :
    Leads I g 1 p st (startOf c) st :=
  jump h rfl

/-- What is not returned from the later place is not returned from the earlier one. -/
theorem eq_none (h : Leads I g d p st q st') {n : Nat} (hnone : returns? I g n q st' = none) :
    returns? I g n p st = none := by
  cases hr : returns? I g n p st with
  | none => rfl
  | some r =>
    have hlater := returns?_mono hr d
    rw [h, hnone] at hlater
    exact nomatch hlater

/-- A jump on the way counts. -/
theorem eq_none_succ (h : Leads I g (d + 1) p st q st') {n : Nat} (hnone : returns? I g n q st' = none) :
    returns? I g (n + 1) p st = none := by
  cases hr : returns? I g (n + 1) p st with
  | none => rfl
  | some r =>
    have hlater := returns?_mono hr d
    rw [Nat.add_assoc, Nat.add_comm 1 d, h, hnone] at hlater
    exact nomatch hlater

end Leads

theorem returns?_of_endsAt {p : Place} {j : Jump} {value : Option V} {st : State (.cells I.undef) W}
    (h : g.EndsAt p j) (hexit : exit I (.cells I.undef) st j = .ret value) (fuel : Nat) :
    returns? I g (fuel + 1) p st = some (value, st.world) := by
  rw [returns?, h.offset, h.jump, ← Array.length_toList, List.drop_length, after_nil, hexit]

/-! ## Straight-line code -/

/-- Running over the code of an expression evaluates it. -/
theorem leads_of_exprCode {e : Expr} {p q : Place} {op : Operand} (h : g.ExprCode e p q op)
    (st : State (.cells I.undef) W) :
    ∃ st', Leads I g 0 p st q st' ∧ st'.env = (e.eval I st.env).2 ∧
      eval I (.cells I.undef) st' op = (e.eval I st.env).1 := by
  obtain ⟨hsettled, numVars, temps, r, hflatten, hcode, rfl, rfl⟩ := h
  have hcomputes := Expr.flatten_computes I hflatten hsettled
  refine ⟨_, ?_, (hcomputes.snd_eval st).symm, (hcomputes.fst_eval st).symm⟩
  rw [← Array.length_toList]
  exact .code hcode st

theorem leads_of_exprCodeOption {e : Option (Unit → Expr)} {p q : Place} {op : Option Operand}
    (h : g.ExprCodeOption e p q op) (st : State (.cells I.undef) W) :
    ∃ st', Leads I g 0 p st q st' ∧ st'.env = (Expr.evalOption I e st.env).2 ∧
      op.map (eval I (.cells I.undef) st') = (Expr.evalOption I e st.env).1 := by
  cases e with
  | none =>
    obtain ⟨rfl, rfl⟩ := h
    exact ⟨st, .refl _ st, rfl, rfl⟩
  | some e =>
    obtain ⟨value, rfl, hcode⟩ := h
    obtain ⟨st', hleads, henv, hvalue⟩ := leads_of_exprCode hcode st
    exact ⟨st', hleads, henv, congrArg some hvalue⟩

/-- Running over the code of declarations has their effect. -/
theorem leads_of_declCode {ds : List (Declarator (Unit → Expr))} {p q : Place} (h : g.DeclCode ds p q)
    (st : State (.cells I.undef) W) :
    ∃ st', Leads I g 0 p st q st' ∧ st'.env = ds.foldl (Declarator.effect I) st.env := by
  induction h generalizing st with
  | nil => exact ⟨st, .refl _ st, rfl⟩
  | bare hdeclare _ ih =>
    obtain ⟨st', hrest, henv⟩ := ih (after I st [.declare _])
    exact ⟨st', (Leads.code hdeclare st).trans hrest, henv⟩
  | @init x e _ _ _ _ op hdeclare hexpr hassign _ ih =>
    obtain ⟨st1, hvalue, henv1, hop⟩ := leads_of_exprCode hexpr (after I st [.declare x])
    obtain ⟨st2, hrest, henv2⟩ := ih (after I st1 [.assign (.unbound x) op])
    refine ⟨st2, (Leads.code hdeclare st).trans (hvalue.trans ((Leads.code hassign st1).trans hrest)), ?_⟩
    rw [henv2, List.foldl_cons, after_cons, after_nil, env_assign, hop, henv1]
    rfl

theorem leads_of_startCode {init : ForInit (Unit → Expr)} {p q : Place} (h : g.StartCode init p q)
    (st : State (.cells I.undef) W) : ∃ st', Leads I g 0 p st q st' ∧ st'.env = init.effect I st.env := by
  cases h with
  | nothing => exact ⟨st, .refl _ st, rfl⟩
  | expr he =>
    obtain ⟨st', hleads, henv, -⟩ := leads_of_exprCode he st
    exact ⟨st', hleads, henv⟩
  | decls hd => exact leads_of_declCode hd st

/-- From the latch a run goes on to the header, once the step is evaluated. -/
theorem leads_of_latchCode {step : Option (Unit → Expr)} {latch header : BlockId}
    (h : g.LatchCode step latch header) (st : State (.cells I.undef) W) :
    ∃ d st', Leads I g d (startOf latch) st (startOf header) st' ∧
      st'.env = (Expr.evalOption I step st.env).2 := by
  cases step with
  | none =>
    cases h
    exact ⟨0, st, .refl _ st, rfl⟩
  | some e =>
    obtain ⟨q, op, hcode, hend⟩ := h
    obtain ⟨st', hleads, henv, -⟩ := leads_of_exprCode hcode st
    exact ⟨_, st', hleads.trans (.goto hend st'), henv⟩

/-- A branch leads one way or the other. -/
theorem leads_of_branch {e : Expr} {p q : Place} {c : Operand} {t f : BlockId} (hcode : g.ExprCode e p q c)
    (hend : g.EndsAt q (.branch c t f)) (st : State (.cells I.undef) W) :
    ∃ st', st'.env = (e.eval I st.env).2 ∧
      Leads I g 1 p st (startOf (if I.truthy (e.eval I st.env).1 then t else f)) st' := by
  obtain ⟨st', hleads, henv, hvalue⟩ := leads_of_exprCode hcode st
  refine ⟨st', henv, hleads.trans (.jump hend ?_)⟩
  rw [exit, hvalue]

/-- The header of a loop leads to the body or out of the loop. -/
theorem leads_of_loopHeader {cond : Option (Unit → Expr)} {p q : Place} {c : Option Operand}
    {body next : BlockId} (hcode : g.ExprCodeOption cond p q c) (hend : g.EndsAt q (.loop c body next))
    (st : State (.cells I.undef) W) :
    ∃ st', st'.env = (Expr.evalOption I cond st.env).2 ∧
      Leads I g 1 p st (startOf (if I.holds (Expr.evalOption I cond st.env).1 then body else next)) st' := by
  cases cond with
  | none =>
    obtain ⟨rfl, rfl⟩ := hcode
    exact ⟨st, rfl, .goto hend st⟩
  | some e =>
    obtain ⟨value, rfl, hcode⟩ := hcode
    exact leads_of_branch hcode hend st

/-! ## Phrases -/

variable (I g)

/-- A stretch of a run that ends as the code of a phrase does: behind it, where a jump of its scope leads,
or by returning. -/
def Finishes (scope : Scope) (k : Completion V) (p : Place) (st : State (.cells I.undef) W) (q : Place)
    (st' : State (.cells I.undef) W) : Prop :=
  match k with
  | .normal => ∃ d, Leads I g d p st q st'
  | .broke => ∃ target, scope.breakTo = some target ∧ ∃ d, Leads I g d p st (startOf target) st'
  | .continued => ∃ target, scope.continueTo = some target ∧ ∃ d, Leads I g d p st (startOf target) st'
  | .returned value => ∃ d, returns? I g d p st = some (value, st'.world)

variable {I g}

/-- What leads to the start of a stretch can be put before it. -/
theorem Leads.finishes {d : Nat} {p q r : Place} {st st' st'' : State (.cells I.undef) W} {scope : Scope}
    {k : Completion V} (h : Leads I g d p st q st') (h' : Finishes I g scope k q st' r st'') :
    Finishes I g scope k p st r st'' := by
  cases k with
  | normal =>
    obtain ⟨d', h'⟩ := h'
    exact ⟨_, h.trans h'⟩
  | broke | continued =>
    obtain ⟨target, htarget, d', h'⟩ := h'
    exact ⟨target, htarget, _, h.trans h'⟩
  | returned value =>
    obtain ⟨d', h'⟩ := h'
    exact ⟨d' + d, (h d').trans h'⟩

namespace Finishes

variable {scope : Scope} {k : Completion V} {p q : Place} {st st' : State (.cells I.undef) W}

/-- A jump behind the code of a phrase is taken if the phrase ends normally. -/
theorem goto {c : BlockId} (h : Finishes I g scope k p st q st') (hend : g.EndsAt q (.goto c)) :
    Finishes I g scope k p st (startOf c) st' := by
  cases k with
  | normal =>
    obtain ⟨d, h⟩ := h
    exact ⟨_, h.trans (.goto hend st')⟩
  | broke | continued | returned value => exact h

/-- A body that a loop goes on after leads to the latch. -/
theorem leads_of_resumes {next latch : BlockId} (h : Finishes I g (scope.loop next latch) k p st q st')
    (hend : g.EndsAt q (.goto latch)) (hk : k.resumes = true) :
    ∃ d, Leads I g d p st (startOf latch) st' := by
  cases k with
  | normal =>
    obtain ⟨d, h⟩ := h
    exact ⟨_, h.trans (.goto hend st')⟩
  | continued =>
    obtain ⟨target, htarget, h⟩ := h
    cases htarget
    exact h
  | broke | returned value => exact nomatch hk

/-- A body that leaves the loop ends the loop. -/
theorem afterLoop {next latch : BlockId} (h : Finishes I g (scope.loop next latch) k p st q st')
    (hk : k.resumes = false) : Finishes I g scope k.afterLoop p st (startOf next) st' := by
  cases k with
  | broke =>
    obtain ⟨target, htarget, h⟩ := h
    cases htarget
    exact h
  | returned value => exact h
  | normal | continued => exact nomatch hk

end Finishes

/-- An execution of a phrase is a stretch of the run of its code. -/
theorem finishes_of_exec {phrase : Phrase} {env env' : Env V W} {k : Completion V}
    (h : Exec I phrase env k env') {scope : Scope} {p q : Place} (hcode : g.Code scope phrase p q)
    {st : State (.cells I.undef) W} (henv : st.env = env) :
    ∃ st', st'.env = env' ∧ Finishes I g scope k p st q st' := by
  induction h generalizing scope p q st with
  | expr =>
    subst henv
    cases hcode with
    | expr he =>
      obtain ⟨st', hleads, henv, -⟩ := leads_of_exprCode he st
      exact ⟨st', henv, _, hleads⟩
  | decl =>
    subst henv
    cases hcode with
    | decl hd =>
      obtain ⟨st', hleads, henv⟩ := leads_of_declCode hd st
      exact ⟨st', henv, _, hleads⟩
  | empty =>
    cases hcode
    exact ⟨st, henv, 0, .refl _ st⟩
  | breakOut =>
    cases hcode with
    | breakOut htarget hend => exact ⟨st, henv, _, htarget, 1, .jump hend rfl⟩
  | continueLoop =>
    cases hcode with
    | continueLoop htarget hend => exact ⟨st, henv, _, htarget, 1, .jump hend rfl⟩
  | ret =>
    subst henv
    cases hcode with
    | ret hvalue hend =>
      obtain ⟨st', hleads, henv, hop⟩ := leads_of_exprCodeOption hvalue st
      refine ⟨st', henv, 1, (hleads 1).trans ?_⟩
      rw [← hop]
      exact returns?_of_endsAt hend rfl 0
  | block _ ih =>
    cases hcode with
    | block hbody => exact ih hbody henv
  | seqNil =>
    cases hcode
    exact ⟨st, henv, 0, .refl _ st⟩
  | seqNext _ _ ih ih' =>
    cases hcode with
    | seqCons hfirst hrest =>
      obtain ⟨st1, henv1, d, hleads⟩ := ih hfirst henv
      obtain ⟨st2, henv2, hfinishes⟩ := ih' hrest henv1
      exact ⟨st2, henv2, hleads.finishes hfinishes⟩
  | @seqLeave _ _ _ _ k _ hk ih =>
    cases hcode with
    | seqCons hfirst _ =>
      obtain ⟨st1, henv1, hfinishes⟩ := ih hfirst henv
      refine ⟨st1, henv1, ?_⟩
      cases k with
      | normal => exact absurd rfl hk
      | broke | continued | returned value => exact hfinishes
  | ifThen htrue _ ih =>
    subst henv
    cases hcode with
    | ifThen hcond hbranch hbody hend =>
      obtain ⟨st1, henv1, hleads⟩ := leads_of_branch hcond hbranch st
      rw [htrue, if_pos rfl] at hleads
      obtain ⟨st2, henv2, hfinishes⟩ := ih hbody henv1
      exact ⟨st2, henv2, hleads.finishes (hfinishes.goto hend)⟩
  | ifSkip hfalse =>
    subst henv
    cases hcode with
    | ifThen hcond hbranch hbody hend =>
      obtain ⟨st1, henv1, hleads⟩ := leads_of_branch hcond hbranch st
      rw [hfalse, if_neg Bool.false_ne_true] at hleads
      exact ⟨st1, henv1, _, hleads⟩
  | @ifElse _ cond _ _ env _ _ _ ih =>
    subst henv
    cases hcode with
    | ifElse hcond hbranch hthen hend helse hend' =>
      obtain ⟨st1, henv1, hleads⟩ := leads_of_branch hcond hbranch st
      cases htruth : I.truthy ((cond ()).eval I st.env).1 with
      | true =>
        rw [htruth, if_pos rfl] at hleads ih
        obtain ⟨st2, henv2, hfinishes⟩ := ih hthen henv1
        exact ⟨st2, henv2, hleads.finishes (hfinishes.goto hend)⟩
      | false =>
        rw [htruth, if_neg Bool.false_ne_true] at hleads ih
        obtain ⟨st2, henv2, hfinishes⟩ := ih helse henv1
        exact ⟨st2, henv2, hleads.finishes (hfinishes.goto hend')⟩
  | whileLoop _ ih =>
    cases hcode with
    | whileLoop hend hloop =>
      obtain ⟨st', henv', hfinishes⟩ := ih hloop henv
      exact ⟨st', henv', (Leads.goto hend st).finishes hfinishes⟩
  | doWhile _ hk _ ih ih' =>
    cases hcode with
    | doWhile hstart hbody hend hloop =>
      obtain ⟨st1, henv1, hbody⟩ := ih hbody henv
      obtain ⟨d, hleads⟩ := hbody.leads_of_resumes hend hk
      obtain ⟨st2, henv2, hfinishes⟩ := ih' hloop henv1
      exact ⟨st2, henv2, ((Leads.goto hstart st).trans hleads).finishes hfinishes⟩
  | doLeave _ hk ih =>
    cases hcode with
    | doWhile hstart hbody hend hloop =>
      obtain ⟨st1, henv1, hbody⟩ := ih hbody henv
      exact ⟨st1, henv1, (Leads.goto hstart st).finishes (hbody.afterLoop hk)⟩
  | forLoop _ ih =>
    subst henv
    cases hcode with
    | forLoop hinit hend hloop =>
      obtain ⟨st1, hstart, henv1⟩ := leads_of_startCode hinit st
      obtain ⟨st2, henv2, hfinishes⟩ := ih hloop henv1
      exact ⟨st2, henv2, (hstart.trans (.goto hend st1)).finishes hfinishes⟩
  | loopDone hfalse =>
    subst henv
    cases hcode with
    | loop hcond hjump _ _ _ =>
      obtain ⟨st1, henv1, hleads⟩ := leads_of_loopHeader hcond hjump st
      rw [hfalse, if_neg Bool.false_ne_true] at hleads
      exact ⟨st1, henv1, _, hleads⟩
  | loopNext htrue _ hk _ ih ih' =>
    subst henv
    -- the code of the loop is needed again for the rounds that follow
    have hloop := hcode
    cases hcode with
    | loop hcond hjump hbody hend hlatch =>
      obtain ⟨st1, henv1, hheader⟩ := leads_of_loopHeader hcond hjump st
      rw [htrue, if_pos rfl] at hheader
      obtain ⟨st2, henv2, hbody⟩ := ih hbody henv1
      obtain ⟨d, hround⟩ := hbody.leads_of_resumes hend hk
      obtain ⟨d', st3, hstep, henv3⟩ := leads_of_latchCode hlatch st2
      rw [henv2] at henv3
      obtain ⟨st4, henv4, hfinishes⟩ := ih' hloop henv3
      exact ⟨st4, henv4, (hheader.trans (hround.trans hstep)).finishes hfinishes⟩
  | loopLeave htrue _ hk ih =>
    subst henv
    cases hcode with
    | loop hcond hjump hbody hend hlatch =>
      obtain ⟨st1, henv1, hheader⟩ := leads_of_loopHeader hcond hjump st
      rw [htrue, if_pos rfl] at hheader
      obtain ⟨st2, henv2, hbody⟩ := ih hbody henv1
      exact ⟨st2, henv2, hheader.finishes (hbody.afterLoop hk)⟩

/-- A phrase without an execution keeps the run of its code from returning. -/
theorem exec_or_returns?_eq_none {scope : Scope} {phrase : Phrase} {p q : Place}
    (hcode : g.Code scope phrase p q) (n : Nat) (st : State (.cells I.undef) W) :
    (∃ k env', Exec I phrase st.env k env') ∨ returns? I g n p st = none := by
  induction hcode generalizing n st with
  | expr => exact .inl ⟨_, _, .expr⟩
  | decl => exact .inl ⟨_, _, .decl⟩
  | empty => exact .inl ⟨_, _, .empty⟩
  | breakOut => exact .inl ⟨_, _, .breakOut⟩
  | continueLoop => exact .inl ⟨_, _, .continueLoop⟩
  | ret => exact .inl ⟨_, _, .ret⟩
  | block _ ih =>
    refine (ih n st).imp_left ?_
    rintro ⟨k, env', hexec⟩
    exact ⟨k, env', .block hexec⟩
  | seqNil => exact .inl ⟨_, _, .seqNil⟩
  | seqCons hfirst _ ih ih' =>
    rcases ih n st with ⟨k, env1, hexec⟩ | hnone
    · by_cases hk : k = .normal
      · subst hk
        obtain ⟨st1, rfl, d, hleads⟩ := finishes_of_exec hexec hfirst rfl
        refine (ih' n st1).imp ?_ hleads.eq_none
        rintro ⟨k, env', hrest⟩
        exact ⟨k, env', .seqNext hexec hrest⟩
      · exact .inl ⟨k, env1, .seqLeave hexec hk⟩
    · exact .inr hnone
  | @ifThen _ _ cond _ _ _ _ _ _ _ hcond hbranch _ _ ih =>
    obtain ⟨st1, henv, hleads⟩ := leads_of_branch hcond hbranch st
    cases htruth : I.truthy ((cond ()).eval I st.env).1 with
    | true =>
      rw [htruth, if_pos rfl] at hleads
      refine (ih n st1).imp ?_ hleads.eq_none
      rintro ⟨k, env', hexec⟩
      exact ⟨k, env', .ifThen htruth (henv ▸ hexec)⟩
    | false => exact .inl ⟨_, _, .ifSkip htruth⟩
  | @ifElse _ _ cond _ _ _ _ _ _ _ _ _ _ hcond hbranch _ _ _ _ ih ih' =>
    obtain ⟨st1, henv, hleads⟩ := leads_of_branch hcond hbranch st
    cases htruth : I.truthy ((cond ()).eval I st.env).1 with
    | true =>
      rw [htruth, if_pos rfl] at hleads
      refine (ih n st1).imp ?_ hleads.eq_none
      rintro ⟨k, env', hexec⟩
      refine ⟨k, env', .ifElse ?_⟩
      rw [htruth, if_pos rfl, ← henv]
      exact hexec
    | false =>
      rw [htruth, if_neg Bool.false_ne_true] at hleads
      refine (ih' n st1).imp ?_ hleads.eq_none
      rintro ⟨k, env', hexec⟩
      refine ⟨k, env', .ifElse ?_⟩
      rw [htruth, if_neg Bool.false_ne_true, ← henv]
      exact hexec
  | whileLoop hend _ ih =>
    refine (ih n st).imp ?_ (Leads.goto hend st).eq_none
    rintro ⟨k, env', hexec⟩
    exact ⟨k, env', .whileLoop hexec⟩
  | doWhile hstart hbody hend _ ih ih' =>
    rcases ih n st with ⟨k, env1, hexec⟩ | hnone
    · obtain ⟨st1, rfl, hfinishes⟩ := finishes_of_exec hexec hbody rfl
      cases hk : k.resumes with
      | true =>
        obtain ⟨d, hleads⟩ := hfinishes.leads_of_resumes hend hk
        refine (ih' n st1).imp ?_ ((Leads.goto hstart st).trans hleads).eq_none
        rintro ⟨k', env', hloop⟩
        exact ⟨k', env', .doWhile hexec hk hloop⟩
      | false => exact .inl ⟨_, _, .doLeave hexec hk⟩
    · exact .inr ((Leads.goto hstart st).eq_none hnone)
  | forLoop hinit hend _ ih =>
    obtain ⟨st1, hstart, henv⟩ := leads_of_startCode hinit st
    refine (ih n st1).imp ?_ (hstart.trans (.goto hend st1)).eq_none
    rintro ⟨k, env', hexec⟩
    exact ⟨k, env', .forLoop (henv ▸ hexec)⟩
  | @loop _ cond step body _ _ _ _ _ _ _ hcond hjump hbody hend hlatch ih =>
    -- by induction on the number of blocks, since every round takes at least one
    induction n generalizing st with
    | zero => exact .inr rfl
    | succ n ihn =>
      obtain ⟨st1, henv1, hheader⟩ := leads_of_loopHeader hcond hjump st
      cases hholds : I.holds (Expr.evalOption I cond st.env).1 with
      | false => exact .inl ⟨_, _, .loopDone hholds⟩
      | true =>
        rw [hholds, if_pos rfl] at hheader
        rcases ih (n + 1) st1 with ⟨k, env2, hexec⟩ | hnone
        · obtain ⟨st2, rfl, hfinishes⟩ := finishes_of_exec hexec hbody rfl
          rw [henv1] at hexec
          cases hk : k.resumes with
          | true =>
            obtain ⟨d, hround⟩ := hfinishes.leads_of_resumes hend hk
            obtain ⟨d', st3, hstep, henv3⟩ := leads_of_latchCode hlatch st2
            have hleads := hheader.trans (hround.trans hstep)
            rw [Nat.add_comm] at hleads
            refine (ihn st3).imp ?_ hleads.eq_none_succ
            rintro ⟨k', env', hloop⟩
            exact ⟨k', env', .loopNext hholds hexec hk (henv3 ▸ hloop)⟩
          | false => exact .inl ⟨_, _, .loopLeave hholds hexec hk⟩
        · exact .inr (hheader.eq_none hnone)

/-! ## Functions -/

theorem env_after_paramCode (index : Nat) (params : List VarId) (st : State (.cells I.undef) W) :
    (after I st (Lowering.paramCode index params)).env =
      (params.zipIdx index).foldl (fun env p => env.set p.1 (I.param p.2)) st.env := by
  induction params generalizing index st with
  | nil => rfl
  | cons p ps ih => exact ih (index + 1) _

/-- The run of a lowered graph returns what the function ends with. -/
theorem ends_iff_returned {fn : Function} (hs : fn.tree.structured = true) (h : fn.lower = .ok g)
    {world world' : W} {value : Option V} : fn.Ends I world value world' ↔
      ∃ fuel, (runGraph I (.cells I.undef) g fuel world).2 = (.returned value, world') := by
  obtain ⟨q, sink, hparams, hcode, hend⟩ := fn.code_of_lower h hs
  have hstart := Leads.code hparams (start I (.cells I.undef) world)
  have henv : _ = fn.startEnv I world := env_after_paramCode 0 fn.params (start I (.cells I.undef) world)
  rw [Lowering.length_paramCode] at hstart
  simp only [runGraph, run_eq_returned_iff]
  constructor
  · rintro ⟨env, rfl, hexec | ⟨rfl, hexec⟩⟩
    · obtain ⟨st, rfl, d, hreturns⟩ := finishes_of_exec hexec hcode henv
      exact ⟨d, (hstart d).trans hreturns⟩
    · obtain ⟨st, rfl, d, hleads⟩ := finishes_of_exec hexec hcode henv
      exact ⟨_, (hstart _).trans ((hleads _).trans (returns?_of_endsAt hend rfl 0))⟩
  · rintro ⟨fuel, hreturned⟩
    have hreturned := (hstart fuel).symm.trans hreturned
    -- a run that returns has an execution behind it, and executions fix what is returned
    rcases exec_or_returns?_eq_none hcode fuel _ with ⟨k, env, hexec⟩ | hnone
    · obtain ⟨st, rfl, hfinishes⟩ := finishes_of_exec hexec hcode rfl
      rw [henv] at hexec
      cases k with
      | normal =>
        obtain ⟨d, hleads⟩ := hfinishes
        cases returns?_unique hreturned ((hleads _).trans (returns?_of_endsAt hend rfl 0))
        exact ⟨st.env, rfl, .inr ⟨rfl, hexec⟩⟩
      | returned value' =>
        obtain ⟨d, hreturns⟩ := hfinishes
        cases returns?_unique hreturned hreturns
        exact ⟨st.env, rfl, .inl hexec⟩
      | broke | continued =>
        obtain ⟨target, htarget, -⟩ := hfinishes
        exact nomatch htarget
    · exact nomatch hreturned.symm.trans hnone

end Machine

/-! ## Observed calls -/

/-- A call as it is seen from outside. -/
structure CallRecord (V : Type) where
  callee : Name
  args : List V
deriving DecidableEq

/-- The same interpretation, with a list of the calls that were made. -/
def Interp.logged {V W : Type} (I : Interp V W) : Interp V (W × List (CallRecord V)) :=
  { I with call := fun callee args world =>
      let r := I.call callee args world.1
      (r.1, r.2, world.2 ++ [⟨callee, args⟩]) }

/-- Lowering preserves the execution of structured functions: whatever operators, parameters and calls
mean, the function ends with a value after a sequence of calls if and only if the run of its graph, with
one cell per variable, returns that value after the same calls. -/
theorem Function.lower_preserves_execution {fn : Function} {g : FlowGraph} (hs : fn.tree.structured = true)
    (h : fn.lower = .ok g) {V W : Type} (I : Interp V W) (world world' : W) (value : Option V)
    (calls : List (CallRecord V)) :
    fn.Ends I.logged (world, []) value (world', calls) ↔
      ∃ fuel, (Machine.runGraph I.logged (.cells I.undef) g fuel (world, [])).2 =
        (.returned value, world', calls) :=
  Machine.ends_iff_returned hs h

/-- The function `for (; x; x--) if (f(x)) continue; else return x;`. -/
def searchDown : Function :=
  let span : Span := ⟨0, 1⟩
  { name := ⟨0⟩, params := [0], numVars := 1, body := 3, span := span
    exprs := #[⟨span, .var 0⟩, ⟨span, .call ⟨1⟩ [0]⟩, ⟨span, .step 0 .postDec⟩]
    stmts := #[⟨span, .continueLoop⟩, ⟨span, .ret (some 0)⟩, ⟨span, .ifElse 1 0 (some 1)⟩,
      ⟨span, .forLoop .nothing (some 0) (some 2) 2⟩] }

/-- Numbers, called with 3; a call answers one less than its argument. -/
def fromThree : Interp Int Unit where
  undef := 0
  const := id
  unary _ a := a
  binary op a b := if op = .sub then a - b else a + b
  param _ := 3
  call _ args _ := (args.headD 0 - 1, ())
  truthy a := a != 0
  isCase a b := a == b

open Machine FlowGraph in
theorem lower_preserves_execution_searchDown :
    searchDown.tree.structured = true ∧ (∃ g, searchDown.lower = .ok g) ∧
      searchDown.Ends fromThree.logged ((), []) (some 1) ((), [⟨⟨1⟩, [3]⟩, ⟨⟨1⟩, [2]⟩, ⟨⟨1⟩, [1]⟩]) := by
  have hs : searchDown.tree.structured = true := by cbv
  have hrun : ∃ g, searchDown.lower = .ok g ∧
      returns? fromThree.logged g 12 (startOf entry) (start fromThree.logged (.cells 0) ((), [])) =
        some (some 1, (), [⟨⟨1⟩, [3]⟩, ⟨⟨1⟩, [2]⟩, ⟨⟨1⟩, [1]⟩]) := by
    refine Except.exists_ok_of_decide ?_
    cbv
  obtain ⟨g, hg, hreturns⟩ := hrun
  exact ⟨hs, ⟨g, hg⟩, (Function.lower_preserves_execution hs hg fromThree () () _ _).mpr
    ⟨12, run_eq_returned_iff.mpr hreturns⟩⟩

end SsaFlow
