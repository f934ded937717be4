-- SUMMARY: Lowering lays out the code of structured statements block by block.
import SsaFlow.Proofs.CodeLayout

/-!
# Lowering lays out code

A step of lowering adds code to one open block and may close it (`Adds`); a statement does so from one
open block to another and otherwise touches only blocks that it has made itself (`Evolves`). With that,
the code of every part of a statement is still in place when the whole statement is lowered.
-/

namespace SsaFlow

namespace FlowGraph

variable {g g' g'' : FlowGraph} {b c : BlockId}

/-! ## Changes to one block -/

/-- The block `b` has got the instructions `is` and the jump `j`, and there are `n` more blocks; the other
blocks are as they were. -/
structure Adds (b : BlockId) (is : List Instr) (j : Jump) (n : Nat) (g g' : FlowGraph) : Prop where
  size : g'.size = g.size + n
  instrs : (g'.block b).instrs.toList = (g.block b).instrs.toList ++ is
  jump : g'.jump b = j
  others : ∀ d, d ≠ b → (g'.block d).instrs = (g.block d).instrs ∧ g'.jump d = g.jump d

/-- Old blocks other than `b` are as they were, and `b` has at most got more instructions. -/
structure Evolves (b : BlockId) (g g' : FlowGraph) : Prop where
  lt : b < g.size
  size_le : g.size ≤ g'.size
  instrs : (g.block b).instrs.toList <+: (g'.block b).instrs.toList
  others : ∀ d, d < g.size → d ≠ b →
    (g'.block d).instrs = (g.block d).instrs ∧ g'.jump d = g.jump d

namespace Adds

variable {is js : List Instr} {i j : Jump} {m n : Nat}

theorem refl (g : FlowGraph) (b : BlockId) : Adds b [] (g.jump b) 0 g g :=
  ⟨rfl, (List.append_nil _).symm, rfl, fun _ _ => ⟨rfl, rfl⟩⟩

theorem trans (h : Adds b is i m g g') (k : Adds b js j n g' g'') : Adds b (is ++ js) j (m + n) g g'' where
  size := by rw [k.size, h.size, Nat.add_assoc]
  instrs := by rw [k.instrs, h.instrs, List.append_assoc]
  jump := k.jump
  others d hd := ⟨(k.others d hd).1.trans (h.others d hd).1, (k.others d hd).2.trans (h.others d hd).2⟩

theorem size_le (h : Adds b is j n g g') : g.size ≤ g'.size := by
  rw [h.size]
  exact Nat.le_add_right _ n

theorem lt (h : Adds b is j n g g') {d : BlockId} (hd : d < g.size) : d < g'.size :=
  Nat.lt_of_lt_of_le hd h.size_le

theorem evolves (h : Adds b is j n g g') (hb : b < g.size) : Evolves b g g' :=
  ⟨hb, h.size_le, h.instrs ▸ List.prefix_append _ _, fun d _ hd => h.others d hd⟩

theorem endOf_eq (h : Adds b is j n g g') : g'.endOf b = (g.endOf b).skip is.length := by
  have hsize := congrArg List.length h.instrs
  rw [List.length_append, Array.length_toList, Array.length_toList] at hsize
  rw [endOf, hsize]
  rfl

theorem hasCode (h : Adds b is j n g g') : g'.HasCode (g.endOf b) is := by
  rw [HasCode, endOf, h.instrs, ← Array.length_toList, List.drop_left]

theorem endsAt (h : Adds b is j n g g') : g'.EndsAt (g'.endOf b) j := ⟨rfl, h.jump⟩

/-- Without new instructions, the block ends where it ended. -/
theorem endOf_eq_of_nil (h : Adds b [] j n g g') : g'.endOf b = g.endOf b := h.endOf_eq

theorem endsAt_of_nil (h : Adds b [] j n g g') : g'.EndsAt (g.endOf b) j :=
  h.endOf_eq_of_nil ▸ h.endsAt

theorem endOf_of_ne (h : Adds b is j n g g') {d : BlockId} (hd : d ≠ b) : g'.endOf d = g.endOf d := by
  rw [endOf, (h.others d hd).1, endOf]

end Adds

/-- An open block without instructions. -/
structure Blank (g : FlowGraph) (d : BlockId) : Prop where
  lt : d < g.size
  isOpen : g.jump d = .missing
  endOf_eq : g.endOf d = startOf d

theorem Blank.adds {d : BlockId} (h : Blank g d) {is : List Instr} {j : Jump} {n : Nat}
    (k : Adds b is j n g g') (hd : d ≠ b) : Blank g' d :=
  ⟨k.lt h.lt, (k.others d hd).2.trans h.isOpen, (k.endOf_of_ne hd).trans h.endOf_eq⟩

namespace Evolves

theorem endOf_of_ne (h : Evolves b g g') {d : BlockId} (hlt : d < g.size) (hd : d ≠ b) :
    g'.endOf d = g.endOf d := by
  rw [endOf, (h.others d hlt hd).1, endOf]

theorem blank (h : Evolves b g g') {d : BlockId} (hblank : Blank g d) (hd : d ≠ b) : Blank g' d :=
  ⟨Nat.lt_of_lt_of_le hblank.lt h.size_le, (h.others d hblank.lt hd).2.trans hblank.isOpen,
    (h.endOf_of_ne hblank.lt hd).trans hblank.endOf_eq⟩

/-- Going on in the same block or in one that was made on the way. -/
theorem trans (h : Evolves b g g') (k : Evolves c g' g'') (hc : c = b ∨ g.size ≤ c) : Evolves b g g'' := by
  refine ⟨h.lt, Nat.le_trans h.size_le k.size_le, ?_, fun d hd hne => ?_⟩
  · rcases hc with rfl | hc
    · exact h.instrs.trans k.instrs
    · rw [(k.others b (Nat.lt_of_lt_of_le h.lt h.size_le)
        (Nat.ne_of_lt (Nat.lt_of_lt_of_le h.lt hc))).1]
      exact h.instrs
  · have hdc : d ≠ c := by
      rcases hc with rfl | hc
      · exact hne
      · exact Nat.ne_of_lt (Nat.lt_of_lt_of_le hd hc)
    obtain ⟨hinstrs, hjump⟩ := h.others d hd hne
    obtain ⟨hinstrs', hjump'⟩ := k.others d (Nat.lt_of_lt_of_le hd h.size_le) hdc
    exact ⟨hinstrs'.trans hinstrs, hjump'.trans hjump⟩

/-- Changes that begin in an open block leave all code in place. -/
theorem isExtension (h : Evolves b g g') (hopen : g.jump b = .missing) : Extends g g' := by
  constructor
  · intro d
    by_cases hd : d = b
    · rw [hd]
      exact h.instrs
    · rcases Nat.lt_or_ge d g.size with hlt | hge
      · rw [(h.others d hlt hd).1]
      · rw [block_of_size_le hge]
        exact List.nil_prefix
  · intro d hclosed
    have hd : d ≠ b := by
      rintro rfl
      exact hclosed hopen
    rcases Nat.lt_or_ge d g.size with hlt | hge
    · exact (h.others d hlt hd).symm
    · exact absurd (jump_of_size_le hge) hclosed

end Evolves

/-- The code of a phrase has been added from the end of the open block `b` to the end of the open block
`c`, and nothing else has changed among the old blocks. -/
structure Emits (scope : Scope) (phrase : Phrase) (b : BlockId) (g : FlowGraph) (c : BlockId)
    (g' : FlowGraph) : Prop extends Evolves b g g' where
  isOpen : g'.jump c = .missing
  lt' : c < g'.size
  fresh : c = b ∨ g.size ≤ c
  code : Code g' scope phrase (g.endOf b) (g'.endOf c)

end FlowGraph

/-! ## Steps of lowering -/

namespace Lowering

open FlowGraph

variable {α β : Type} {s s' : LoweringState} {b : BlockId} {u : Unit}

theorem lift_ok {x : Except BuildError α} {a : α} (h : (liftM x : Lowering α) s = .ok (a, s')) :
    x = .ok a ∧ s = s' := by
  cases x with
  | error e => exact nomatch h
  | ok b =>
    cases h
    exact ⟨rfl, rfl⟩

/-- A new block is blank, and no other block changes. -/
theorem newBlock_ok {t : BlockId} (h : newBlock s = .ok (t, s')) :
    t = s.graph.size ∧ Blank s'.graph t ∧ ∀ b, Adds b [] (s.graph.jump b) 1 s.graph s'.graph := by
  cases h
  have hblock := s.graph.block_addBlock
  refine ⟨rfl, ⟨?_, ?_, ?_⟩, fun b => ⟨size_addBlock _, ?_, ?_, fun d _ => ⟨?_, ?_⟩⟩⟩
  · rw [size_addBlock]
    exact Nat.lt_succ_self _
  · rw [FlowGraph.jump, hblock, block_of_size_le (Nat.le_refl _)]
  · rw [endOf, hblock, block_of_size_le (Nat.le_refl _)]
    rfl
  · rw [hblock, List.append_nil]
  · rw [FlowGraph.jump, hblock, FlowGraph.jump]
  · rw [hblock]
  · rw [FlowGraph.jump, hblock, FlowGraph.jump]

theorem close_ok {j : Jump} (h : close b j s = .ok (u, s')) (hb : b < s.graph.size) :
    Adds b [] j 0 s.graph s'.graph := by
  obtain ⟨-, rfl⟩ := close_eq_ok h
  have hinstrs : ∀ d, ((s.graph.setJump b j).block d).instrs = (s.graph.block d).instrs := by
    intro d
    obtain ⟨preds, hblock, -⟩ := s.graph.block_setJump b j d
    rw [hblock]
  refine ⟨size_setJump _ _ _, ?_, ?_, fun d hd => ⟨hinstrs d, ?_⟩⟩
  · rw [hinstrs, List.append_nil]
  · rw [jump_setJump, if_pos ⟨rfl, hb⟩]
  · rw [jump_setJump, if_neg fun hc => hd hc.1.symm]

theorem append_ok {instrs : Array Instr} (h : append b instrs s = .ok (u, s')) (hb : b < s.graph.size) :
    Adds b instrs.toList (s.graph.jump b) 0 s.graph s'.graph := by
  cases h
  have hother : ∀ d, d ≠ b → (s.graph.modify b fun blk =>
      { blk with instrs := blk.instrs ++ instrs }).block d = s.graph.block d := by
    intro d hd
    rw [block_modify, if_neg fun hc => hd hc.1.symm]
  refine ⟨size_modify _ _ _, ?_, ?_, fun d hd => ⟨by rw [hother d hd], ?_⟩⟩
  · rw [block_modify, if_pos ⟨rfl, hb⟩, Array.toList_append]
  · rw [FlowGraph.jump, block_modify, if_pos ⟨rfl, hb⟩, FlowGraph.jump]
  · rw [FlowGraph.jump, hother d hd, FlowGraph.jump]

theorem beginStmt_ok {span : Span} (h : beginStmt b span s = .ok (u, s')) :
    Adds b [] (s.graph.jump b) 0 s.graph s'.graph := by
  cases h
  have hsame : ∀ d, ((s.graph.modify b fun blk => { blk with spans := blk.spans.push span }).block d).instrs =
      (s.graph.block d).instrs ∧
      (s.graph.modify b fun blk => { blk with spans := blk.spans.push span }).jump d = s.graph.jump d := by
    intro d
    rw [FlowGraph.jump, block_modify, FlowGraph.jump]
    split <;> exact ⟨rfl, rfl⟩
  refine ⟨size_modify _ _ _, ?_, (hsame b).2, fun d _ => hsame d⟩
  rw [(hsame b).1, List.append_nil]

theorem compute_ok {e : Unit → Expr} {op : Operand} (h : compute b e s = .ok (op, s'))
    (hb : b < s.graph.size) (hs : (e ()).settled = true) :
    ∃ is, Adds b is (s.graph.jump b) 0 s.graph s'.graph ∧
      s'.graph.ExprCode (e ()) (s.graph.endOf b) (s'.graph.endOf b) op := by
  obtain ⟨r, hflatten, rfl, rfl⟩ := compute_eq_ok h
  have hadds := append_ok (s := s) (rfl : append b r.instrs s = .ok ((), _)) hb
  refine ⟨r.instrs.toList, hadds, hs, _, _, r, hflatten, hadds.hasCode, ?_, rfl⟩
  rw [hadds.endOf_eq, Array.length_toList]

/-- What is added for an expression that may be left out is its code. -/
theorem computeOption_ok {e : Option (Unit → Expr)} {op : Option Operand}
    (h : computeOption b e s = .ok (op, s')) (hb : b < s.graph.size) (hs : Expr.settledOption e = true) :
    ∃ is, Adds b is (s.graph.jump b) 0 s.graph s'.graph ∧
      s'.graph.ExprCodeOption e (s.graph.endOf b) (s'.graph.endOf b) op := by
  cases e with
  | none =>
    cases h
    exact ⟨[], .refl _ b, rfl, rfl⟩
  | some e =>
    obtain ⟨value, s1, hvalue, h⟩ := bind_ok h
    cases h
    obtain ⟨is, hadds, hcode⟩ := compute_ok hvalue hb hs
    exact ⟨is, hadds, value, rfl, hcode⟩

/-- What is added for declarations is their code, in order. -/
theorem declareAll_ok {ds : List (Declarator (Unit → Expr))} (h : declareAll b ds s = .ok (u, s'))
    (hb : b < s.graph.size) (hopen : s.graph.jump b = .missing) (hs : Declarator.settledAll ds = true) :
    ∃ is, Adds b is .missing 0 s.graph s'.graph ∧
      s'.graph.DeclCode ds (s.graph.endOf b) (s'.graph.endOf b) := by
  induction ds generalizing s with
  | nil =>
    cases h
    exact ⟨[], hopen ▸ .refl _ b, .nil⟩
  | cons d ds ih =>
    obtain ⟨x, init⟩ := d
    rw [Declarator.settledAll, List.all_cons, Bool.and_eq_true] at hs
    obtain ⟨n, s1, hn, h⟩ := bind_ok h
    cases hn
    obtain ⟨v, s2, hv, h⟩ := bind_ok h
    obtain ⟨hx, rfl⟩ := lift_ok hv
    obtain ⟨rfl, -⟩ := variableRef_ok hx
    obtain ⟨_, s3, hdeclare, h⟩ := bind_ok h
    have hdeclared := append_ok hdeclare hb
    rw [hopen] at hdeclared
    have hb3 := hdeclared.lt hb
    cases init with
    | none =>
      obtain ⟨is, hadds, hcode⟩ := ih h hb3 hdeclared.jump hs.2
      have hext := (hadds.evolves hb3).isExtension hdeclared.jump
      rw [hdeclared.endOf_eq] at hcode
      exact ⟨_, hdeclared.trans hadds, .bare (hext.hasCode hdeclared.hasCode) hcode⟩
    | some e =>
      obtain ⟨value, s4, hvalue, h⟩ := bind_ok h
      obtain ⟨is, hcomputed, hexpr⟩ := compute_ok hvalue hb3 hs.1
      rw [hdeclared.jump] at hcomputed
      have hb4 := hcomputed.lt hb3
      obtain ⟨_, s5, hassign, h⟩ := bind_ok h
      have hassigned := append_ok hassign hb4
      rw [hcomputed.jump] at hassigned
      have hb5 := hassigned.lt hb4
      obtain ⟨js, hadds, hcode⟩ := ih h hb5 hassigned.jump hs.2
      -- code at the end of an open block stays where it is while the block grows
      have hext5 := (hadds.evolves hb5).isExtension hassigned.jump
      have hext4 := ((hassigned.evolves hb4).isExtension hcomputed.jump).trans hext5
      have hext3 := ((hcomputed.evolves hb3).isExtension hdeclared.jump).trans hext4
      rw [hdeclared.endOf_eq] at hexpr
      rw [hassigned.endOf_eq] at hcode
      exact ⟨_, ((hdeclared.trans hcomputed).trans hassigned).trans hadds,
        .init (hext3.hasCode hdeclared.hasCode) (hext4.exprCode hexpr) (hext5.hasCode hassigned.hasCode) hcode⟩

theorem startFor_ok {init : ForInit (Unit → Expr)} (h : startFor b init s = .ok (u, s'))
    (hb : b < s.graph.size) (hopen : s.graph.jump b = .missing) (hs : init.settled = true) :
    ∃ is, Adds b is .missing 0 s.graph s'.graph ∧
      s'.graph.StartCode init (s.graph.endOf b) (s'.graph.endOf b) := by
  cases init with
  | nothing =>
    cases h
    exact ⟨[], hopen ▸ .refl _ b, .nothing⟩
  | expr e =>
    obtain ⟨value, s1, hvalue, h⟩ := bind_ok h
    cases h
    obtain ⟨is, hadds, hcode⟩ := compute_ok hvalue hb hs
    exact ⟨is, hopen ▸ hadds, .expr hcode⟩
  | decls ds =>
    obtain ⟨is, hadds, hcode⟩ := declareAll_ok h hb hopen hs
    exact ⟨is, hadds, .decls hcode⟩

/-! ## Statements -/

/-- Wherever the statement is lowered, its code is laid out. -/
def LaysOut (stmt : Stmt) : Prop :=
  ∀ ⦃scope : Scope⦄ ⦃b c : BlockId⦄ ⦃s s' : LoweringState⦄, lower scope b stmt s = .ok (c, s') →
    b < s.graph.size → s.graph.jump b = .missing → Emits scope (.stmt stmt) b s.graph c s'.graph

/-- Straight-line code ends in the block where it begins. -/
theorem emits_of_adds {scope : Scope} {phrase : Phrase} {is : List Instr} {g g' : FlowGraph}
    (h : Adds b is .missing 0 g g') (hb : b < g.size)
    (hcode : Code g' scope phrase (g.endOf b) (g'.endOf b)) : Emits scope phrase b g b g' :=
  ⟨h.evolves hb, h.jump, h.lt hb, .inl rfl, hcode⟩

theorem laysOut_expr {span : Span} {e : Unit → Expr} (hs : (e ()).settled = true) :
    LaysOut (.expr span e) := by
  intro scope b c s s' h hb hopen
  obtain ⟨_, s1, hbegin, h⟩ := bind_ok h
  obtain ⟨op, s2, hcompute, h⟩ := bind_ok h
  cases h
  have hbegun := beginStmt_ok hbegin
  obtain ⟨is, hadds, hcode⟩ := compute_ok hcompute (hbegun.lt hb) hs
  rw [hbegun.jump, hopen] at hadds
  rw [hbegun.endOf_eq_of_nil] at hcode
  exact emits_of_adds (hbegun.trans hadds) hb (.expr hcode)

theorem laysOut_decl {span : Span} {ds : List (Declarator (Unit → Expr))}
    (hs : Declarator.settledAll ds = true) : LaysOut (.decl span ds) := by
  intro scope b c s s' h hb hopen
  obtain ⟨_, s1, hbegin, h⟩ := bind_ok h
  obtain ⟨_, s2, hdeclare, h⟩ := bind_ok h
  cases h
  have hbegun := beginStmt_ok hbegin
  obtain ⟨is, hadds, hcode⟩ := declareAll_ok hdeclare (hbegun.lt hb) (hbegun.jump.trans hopen) hs
  rw [hbegun.endOf_eq_of_nil] at hcode
  exact emits_of_adds (hbegun.trans hadds) hb (.decl hcode)

theorem laysOut_empty {span : Span} : LaysOut (.empty span) := by
  intro scope b c s s' h hb hopen
  cases h
  have hnothing : Adds b [] .missing 0 s.graph s.graph := hopen ▸ .refl _ b
  exact emits_of_adds hnothing hb .empty

/-- A statement that has closed the block where it began goes on in a new one. -/
theorem emits_of_blank {scope : Scope} {phrase : Phrase} {g g' : FlowGraph} {c : BlockId}
    (h : Evolves b g g') (hc : Blank g' c) (hfresh : g.size ≤ c)
    (hcode : Code g' scope phrase (g.endOf b) (startOf c)) : Emits scope phrase b g c g' :=
  ⟨h, hc.isOpen, hc.lt, .inr hfresh, hc.endOf_eq ▸ hcode⟩

theorem targetOr_ok {e : InternalError} {o : Option BlockId} {t : BlockId}
    (h : targetOr e o s = .ok (t, s')) : o = some t ∧ s = s' := by
  cases o with
  | none => exact nomatch h
  | some t' =>
    cases h
    exact ⟨rfl, rfl⟩

/-- An always-taken jump leaves a blank block for what follows. -/
theorem leaveFor_ok {target c : BlockId} (h : leaveFor b target s = .ok (c, s')) (hb : b < s.graph.size) :
    s.graph.size ≤ c ∧ Blank s'.graph c ∧ Adds b [] (.transfer target c) 1 s.graph s'.graph := by
  obtain ⟨shadow, s1, hnew, h⟩ := bind_ok h
  obtain ⟨_, s2, hclose, h⟩ := bind_ok h
  cases h
  obtain ⟨rfl, hblank, hnew⟩ := newBlock_ok hnew
  have hclosed := close_ok hclose ((hnew b).lt hb)
  exact ⟨Nat.le_refl _, hblank.adds hclosed (Nat.ne_of_gt hb), (hnew b).trans hclosed⟩

/-- Statements that only jump out of their block. -/
theorem emits_of_leave {scope : Scope} {phrase : Phrase} {span : Span} {e : InternalError}
    {o : Option BlockId} {c : BlockId} (hb : b < s.graph.size)
    (h : (do beginStmt b span; let target ← targetOr e o; leaveFor b target : Lowering BlockId) s =
      .ok (c, s'))
    (hcode : ∀ target, o = some target → s'.graph.EndsAt (s.graph.endOf b) (.transfer target c) →
      Code s'.graph scope phrase (s.graph.endOf b) (startOf c)) :
    Emits scope phrase b s.graph c s'.graph := by
  obtain ⟨_, s1, hbegin, h⟩ := bind_ok h
  obtain ⟨target, s2, htarget, h⟩ := bind_ok h
  obtain ⟨hsome, rfl⟩ := targetOr_ok htarget
  have hbegun := beginStmt_ok hbegin
  obtain ⟨hfresh, hblank, hadds⟩ := leaveFor_ok h (hbegun.lt hb)
  have hall := hbegun.trans hadds
  refine emits_of_blank (hall.evolves hb) hblank (Nat.le_trans hbegun.size_le hfresh)
    (hcode target hsome hall.endsAt_of_nil)

theorem laysOut_breakOut {span : Span} : LaysOut (.breakOut span) :=
  fun _ _ _ _ _ h hb _ => emits_of_leave hb h fun _ htarget hend => .breakOut htarget hend

theorem laysOut_continueLoop {span : Span} : LaysOut (.continueLoop span) :=
  fun _ _ _ _ _ h hb _ => emits_of_leave hb h fun _ htarget hend => .continueLoop htarget hend

/-- The code of a `return` computes the value, if there is one, and leaves the function. -/
theorem laysOut_ret {span : Span} {value : Option (Unit → Expr)} (hs : Expr.settledOption value = true) :
    LaysOut (.ret span value) := by
  intro scope b c s s' h hb hopen
  obtain ⟨_, s1, hbegin, h⟩ := bind_ok h
  obtain ⟨op, s2, hvalue, h⟩ := bind_ok h
  obtain ⟨shadow, s3, hnew, h⟩ := bind_ok h
  obtain ⟨_, s4, hclose, h⟩ := bind_ok h
  cases h
  have hbegun := beginStmt_ok hbegin
  obtain ⟨is, hadds, hcode⟩ := computeOption_ok hvalue (hbegun.lt hb) hs
  obtain ⟨rfl, hblank, hnew⟩ := newBlock_ok hnew
  have hb2 := hadds.lt (hbegun.lt hb)
  have hclosed := close_ok hclose ((hnew b).lt hb2)
  have hall := (hnew b).trans hclosed
  have hext := (hall.evolves hb2).isExtension (hadds.jump.trans (hbegun.jump.trans hopen))
  rw [hbegun.endOf_eq_of_nil] at hcode
  refine emits_of_blank (((hbegun.trans hadds).trans hall).evolves hb)
    (hblank.adds hclosed (Nat.ne_of_gt hb2)) (Nat.le_trans hbegun.size_le hadds.size_le)
    (.ret (hext.exprCodeOption hcode) hall.endsAt_of_nil)

/-- The code of a branch of a statement, from the block where it starts to the block where it goes on. -/
structure Arm (scope : Scope) (stmt : Stmt) (t next : BlockId) (g g' : FlowGraph) : Prop
    extends Evolves t g g' where
  code : ∃ r, Code g' scope (.stmt stmt) (startOf t) r ∧ g'.EndsAt r (.goto next)

/-- A branch that is laid out and closed by a jump is an arm. -/
theorem arm_of_emits {scope : Scope} {stmt : Stmt} {t next e : BlockId} {g : FlowGraph}
    (hblank : Blank g t) (h : Emits scope (.stmt stmt) t g e s.graph)
    (hclose : close e (.goto next) s = .ok (u, s')) : Arm scope stmt t next g s'.graph := by
  have hclosed := close_ok hclose h.lt'
  have hevolves := hclosed.evolves h.lt'
  refine ⟨h.toEvolves.trans hevolves h.fresh, _, ?_, hclosed.endsAt⟩
  rw [hclosed.endOf_eq, ← hblank.endOf_eq]
  exact h.code.mono (hevolves.isExtension h.isOpen)

/-- An `if` without `else` branches to its arm or to the block behind it. -/
theorem laysOut_ifThen {span : Span} {cond : Unit → Expr} {body : Unit → Stmt}
    (hs : (cond ()).settled = true) (hbody : LaysOut (body ())) : LaysOut (.ifThen span cond body) := by
  intro scope b c s s' h hb hopen
  obtain ⟨_, s1, hbegin, h⟩ := bind_ok h
  obtain ⟨op, s2, hcond, h⟩ := bind_ok h
  obtain ⟨t, s3, hthen, h⟩ := bind_ok h
  obtain ⟨m, s4, hmerge, h⟩ := bind_ok h
  obtain ⟨_, s5, hclose, h⟩ := bind_ok h
  obtain ⟨e, s6, hlower, h⟩ := bind_ok h
  obtain ⟨_, s7, hgoto, h⟩ := bind_ok h
  cases h
  have hbegun := beginStmt_ok hbegin
  obtain ⟨is, hadds, hcode⟩ := compute_ok hcond (hbegun.lt hb) hs
  have hb2 := hadds.lt (hbegun.lt hb)
  obtain ⟨rfl, hthen, hnew⟩ := newBlock_ok hthen
  obtain ⟨rfl, hmerge, hnew'⟩ := newBlock_ok hmerge
  have hblocks := (hnew b).trans (hnew' b)
  have hclosed := close_ok hclose (hblocks.lt hb2)
  have hbranch := hblocks.trans hclosed
  have hopen2 := hadds.jump.trans (hbegun.jump.trans hopen)
  have hthen := (hthen.adds (hnew' b) (Nat.ne_of_gt hb2)).adds hclosed (Nat.ne_of_gt hb2)
  have hmerge := hmerge.adds hclosed (Nat.ne_of_gt ((hnew b).lt hb2))
  have hle := Nat.le_trans hbegun.size_le hadds.size_le
  have harm := arm_of_emits hthen (hbody hlower hthen.lt hthen.isOpen) hgoto
  obtain ⟨r, hthencode, hend⟩ := harm.code
  have hext := harm.toEvolves.isExtension hthen.isOpen
  rw [hbegun.endOf_eq_of_nil] at hcode
  have hcode := (((hbranch.evolves hb2).isExtension hopen2).trans hext).exprCode hcode
  have hjump := hext.endsAt hbranch.endsAt_of_nil nofun
  have hsize := (hnew b).size
  exact emits_of_blank
    ((((hbegun.trans hadds).trans hbranch).evolves hb).trans harm.toEvolves (.inr hle))
    (harm.toEvolves.blank hmerge (Nat.ne_of_gt (by omega))) (by omega) (.ifThen hcode hjump hthencode hend)

/-- Both arms of an `if` lead to the block behind it. -/
theorem laysOut_ifElse {span : Span} {cond : Unit → Expr} {thenBody elseBody : Unit → Stmt}
    (hs : (cond ()).settled = true) (hthenBody : LaysOut (thenBody ())) (helseBody : LaysOut (elseBody ())) :
    LaysOut (.ifElse span cond thenBody elseBody) := by
  intro scope b c s s' h hb hopen
  obtain ⟨_, s1, hbegin, h⟩ := bind_ok h
  obtain ⟨op, s2, hcond, h⟩ := bind_ok h
  obtain ⟨t, s3, hthen, h⟩ := bind_ok h
  obtain ⟨m, s4, hmerge, h⟩ := bind_ok h
  obtain ⟨e, s5, helse, h⟩ := bind_ok h
  obtain ⟨_, s6, hclose, h⟩ := bind_ok h
  obtain ⟨_, s7, hlower, h⟩ := bind_ok h
  obtain ⟨_, s8, hgoto, h⟩ := bind_ok h
  obtain ⟨_, s9, hlower', h⟩ := bind_ok h
  obtain ⟨_, s10, hgoto', h⟩ := bind_ok h
  cases h
  have hbegun := beginStmt_ok hbegin
  obtain ⟨is, hadds, hcode⟩ := compute_ok hcond (hbegun.lt hb) hs
  have hb2 := hadds.lt (hbegun.lt hb)
  obtain ⟨rfl, hthen, hnew3⟩ := newBlock_ok hthen
  obtain ⟨rfl, hmerge, hnew4⟩ := newBlock_ok hmerge
  obtain ⟨rfl, helse, hnew5⟩ := newBlock_ok helse
  have hb3 := (hnew3 b).lt hb2
  have hb4 := (hnew4 b).lt hb3
  have hclosed := close_ok hclose ((hnew5 b).lt hb4)
  have hbranch := (((hnew3 b).trans (hnew4 b)).trans (hnew5 b)).trans hclosed
  have hopen2 := hadds.jump.trans (hbegun.jump.trans hopen)
  have hthen := ((hthen.adds (hnew4 b) (Nat.ne_of_gt hb2)).adds (hnew5 b) (Nat.ne_of_gt hb2)).adds hclosed
    (Nat.ne_of_gt hb2)
  have hmerge := (hmerge.adds (hnew5 b) (Nat.ne_of_gt hb3)).adds hclosed (Nat.ne_of_gt hb3)
  have helse := helse.adds hclosed (Nat.ne_of_gt hb4)
  have hsize3 := (hnew3 b).size
  have hsize4 := (hnew4 b).size
  have hle := Nat.le_trans hbegun.size_le hadds.size_le
  -- the first arm leaves the blocks of the second and of the end blank
  have harm := arm_of_emits hthen (hthenBody hlower hthen.lt hthen.isOpen) hgoto
  have helse := harm.toEvolves.blank helse (Nat.ne_of_gt (by omega))
  have hmerge := harm.toEvolves.blank hmerge (Nat.ne_of_gt (by omega))
  have harm' := arm_of_emits helse (helseBody hlower' helse.lt helse.isOpen) hgoto'
  obtain ⟨r, hthencode, hend⟩ := harm.code
  obtain ⟨r', helsecode, hend'⟩ := harm'.code
  have hext' := harm'.toEvolves.isExtension helse.isOpen
  have hext := (harm.toEvolves.isExtension hthen.isOpen).trans hext'
  rw [hbegun.endOf_eq_of_nil] at hcode
  have hcode := (((hbranch.evolves hb2).isExtension hopen2).trans hext).exprCode hcode
  have hjump := hext.endsAt hbranch.endsAt_of_nil nofun
  exact emits_of_blank
    (((((hbegun.trans hadds).trans hbranch).evolves hb).trans harm.toEvolves (.inr hle)).trans
      harm'.toEvolves (.inr (by omega)))
    (harm'.toEvolves.blank hmerge (Nat.ne_of_lt (by omega))) (by omega)
    (.ifElse hcode hjump (hthencode.mono hext') (hext'.endsAt hend nofun) helsecode hend')

/-! ## Loops -/

/-- The block where a round of a loop ends: a new one for the step, or else the header. -/
def openLatch (step : Option (Unit → Expr)) (header : BlockId) : Lowering BlockId :=
  match step with
  | none => pure header
  | some _ => newBlock

/-- Adds the step of a loop to its latch. -/
def closeLatch (step : Option (Unit → Expr)) (latch header : BlockId) : Lowering Unit :=
  match step with
  | none => pure ()
  | some e => do
    let _ ← compute latch e
    close latch (.goto header)

/-- The blocks of a loop besides its header, and its condition. -/
structure LoopParts where
  cond : Option Operand
  body : BlockId
  after : BlockId
  latch : BlockId

/-- Computes the condition of a loop in its header and makes the other blocks. -/
def openLoop (header : BlockId) (cond step : Option (Unit → Expr)) : Lowering LoopParts := do
  let c ← computeOption header cond
  let body ← newBlock
  let after ← newBlock
  let latch ← openLatch step header
  return ⟨c, body, after, latch⟩

/-- The rounds of a loop, from its header on. -/
def lowerRounds (scope : Scope) (header : BlockId) (cond step : Option (Unit → Expr))
    (body : Unit → Stmt) : Lowering BlockId := do
  let parts ← openLoop header cond step
  let bodyExit ← lower (scope.loop parts.after parts.latch) parts.body (body ())
  close bodyExit (.goto parts.latch)
  closeLatch step parts.latch header
  close header (.loop parts.cond parts.body parts.after)
  return parts.after

/-- A `for` statement is what it starts with, followed by rounds. -/
theorem lower_forLoop (scope : Scope) (b : BlockId) (span : Span) (init : ForInit (Unit → Expr))
    (cond step : Option (Unit → Expr)) (body : Unit → Stmt) :
    lower scope b (.forLoop span init cond step body) = (do
      beginStmt b span
      startFor b init
      let header ← newBlock
      close b (.goto header)
      lowerRounds scope header cond step body) := by
  rw [lower]
  refine bind_congr fun _ => bind_congr fun _ => bind_congr fun header => bind_congr fun _ => ?_
  simp only [lowerRounds, openLoop, bind_assoc, pure_bind]
  refine bind_congr fun c => bind_congr fun bodyBlock => bind_congr fun after => ?_
  cases step <;> cases c <;> simp [openLatch, closeLatch, Jump.loop]

/-- A `while` loop is a `for` loop without a start and a step. -/
theorem lower_whileLoop (scope : Scope) (b : BlockId) (span : Span) (cond : Unit → Expr)
    (body : Unit → Stmt) : lower scope b (.whileLoop span cond body) =
      lower scope b (.forLoop span .nothing (some cond) none body) := by
  simp only [lower, startFor, computeOption, pure_bind, bind_assoc, Option.isSome_none,
    Bool.false_eq_true, if_false]

/-- The latch has not got its step yet. -/
def LatchReady (step : Option (Unit → Expr)) (latch header : BlockId) (g : FlowGraph) : Prop :=
  match step with
  | none => latch = header
  | some _ => Blank g latch ∧ latch ≠ header

theorem openLatch_ok {step : Option (Unit → Expr)} {latch header : BlockId}
    (h : openLatch step header s = .ok (latch, s')) (hheader : header < s.graph.size) :
    (latch = header ∨ latch = s.graph.size) ∧ LatchReady step latch header s'.graph ∧
      ∃ n, ∀ d, Adds d [] (s.graph.jump d) n s.graph s'.graph := by
  cases step with
  | none =>
    cases h
    exact ⟨.inl rfl, rfl, 0, .refl _⟩
  | some e =>
    obtain ⟨rfl, hblank, hnew⟩ := newBlock_ok h
    exact ⟨.inr rfl, ⟨hblank, Nat.ne_of_gt hheader⟩, 1, hnew⟩

/-- Closing the latch adds the step there and leaves the header as it was. -/
theorem closeLatch_ok {step : Option (Unit → Expr)} {latch header : BlockId}
    (h : closeLatch step latch header s = .ok (u, s')) (hready : LatchReady step latch header s.graph)
    (hheader : header < s.graph.size) (hs : Expr.settledOption step = true) :
    Evolves latch s.graph s'.graph ∧ Extends s.graph s'.graph ∧
      s'.graph.LatchCode step latch header ∧ s'.graph.jump header = s.graph.jump header ∧
      s'.graph.endOf header = s.graph.endOf header := by
  cases step with
  | none =>
    cases h
    cases hready
    exact ⟨(Adds.refl _ _).evolves hheader, .refl _, rfl, rfl, rfl⟩
  | some e =>
    obtain ⟨hblank, hne⟩ := hready
    obtain ⟨op, s1, hcompute, h⟩ := bind_ok h
    obtain ⟨is, hadds, hcode⟩ := compute_ok hcompute hblank.lt hs
    have hclosed := close_ok h (hadds.lt hblank.lt)
    have hall := hadds.trans hclosed
    have hext := (hclosed.evolves (hadds.lt hblank.lt)).isExtension (hadds.jump.trans hblank.isOpen)
    rw [hblank.endOf_eq] at hcode
    refine ⟨hall.evolves hblank.lt, (hall.evolves hblank.lt).isExtension hblank.isOpen,
      ⟨_, op, hext.exprCode hcode, hclosed.endsAt_of_nil⟩, ?_, ?_⟩
    · exact (hall.others header (Ne.symm hne)).2
    · exact hall.endOf_of_ne (Ne.symm hne)

theorem LatchReady.evolves {step : Option (Unit → Expr)} {latch header t : BlockId} {g g' : FlowGraph}
    (h : LatchReady step latch header g) (k : Evolves t g g') (hne : latch ≠ header → latch ≠ t) :
    LatchReady step latch header g' := by
  cases step with
  | none => exact h
  | some e => exact ⟨k.blank h.1 (hne h.2), h.2⟩

/-- The header has its condition and is still open; the other blocks are new. -/
structure LoopOpened (header : BlockId) (cond step : Option (Unit → Expr)) (parts : LoopParts)
    (g g' : FlowGraph) : Prop where
  adds : ∃ is n, Adds header is .missing n g g'
  test : g'.ExprCodeOption cond (startOf header) (g'.endOf header) parts.cond
  body : Blank g' parts.body
  after : Blank g' parts.after
  latch : LatchReady step parts.latch header g'
  le_body : g.size ≤ parts.body
  body_lt_after : parts.body < parts.after
  latch_cases : parts.latch = header ∨ parts.after < parts.latch

/-- Opening a loop computes the condition in the header, and the other blocks are new. -/
theorem openLoop_ok {header : BlockId} {cond step : Option (Unit → Expr)} {parts : LoopParts}
    (h : openLoop header cond step s = .ok (parts, s')) (hheader : Blank s.graph header)
    (hcond : Expr.settledOption cond = true) : LoopOpened header cond step parts s.graph s'.graph := by
  obtain ⟨c, s1, htest, h⟩ := bind_ok h
  obtain ⟨t, s2, hbody, h⟩ := bind_ok h
  obtain ⟨a, s3, hafter, h⟩ := bind_ok h
  obtain ⟨latch, s4, hlatch, h⟩ := bind_ok h
  cases h
  obtain ⟨is, hadds, htest⟩ := computeOption_ok htest hheader.lt hcond
  have hlt1 := hadds.lt hheader.lt
  have hopen1 := hadds.jump.trans hheader.isOpen
  obtain ⟨rfl, hbody, hnew2⟩ := newBlock_ok hbody
  have hlt2 := (hnew2 header).lt hlt1
  obtain ⟨rfl, hafter, hnew3⟩ := newBlock_ok hafter
  have hlt3 := (hnew3 header).lt hlt2
  obtain ⟨hlatch, hready, n, hnew4⟩ := openLatch_ok hlatch hlt3
  have hblocks := ((hnew2 header).trans (hnew3 header)).trans (hnew4 header)
  have hjump := (hnew3 header).jump.trans ((hnew2 header).jump.trans hopen1)
  have hsize2 := (hnew2 header).size
  have hsize3 := (hnew3 header).size
  have htest := ((hblocks.evolves hlt1).isExtension hopen1).exprCodeOption htest
  rw [hheader.endOf_eq, ← hblocks.endOf_eq_of_nil] at htest
  have hall := hadds.trans hblocks
  rw [hjump] at hall
  exact {
    adds := ⟨_, _, hall⟩
    test := htest
    body := (hbody.adds (hnew3 header) (Nat.ne_of_gt hlt1)).adds (hnew4 header) (Nat.ne_of_gt hlt1)
    after := hafter.adds (hnew4 header) (Nat.ne_of_gt hlt2)
    latch := hready
    le_body := hadds.size_le
    body_lt_after := by
      rw [hsize2]
      exact Nat.lt_succ_self _
    latch_cases := hlatch.imp_right fun heq => by
      rw [heq, hsize3]
      exact Nat.lt_succ_self _ }

/-- The rounds of a loop are laid out around its header. -/
theorem emits_lowerRounds {scope : Scope} {header after : BlockId} {cond step : Option (Unit → Expr)}
    {body : Unit → Stmt} (h : lowerRounds scope header cond step body s = .ok (after, s'))
    (hheader : Blank s.graph header) (hcond : Expr.settledOption cond = true)
    (hstep : Expr.settledOption step = true) (hbody : LaysOut (body ())) :
    Emits scope (.loop cond step body) header s.graph after s'.graph := by
  obtain ⟨parts, s1, hopened, h⟩ := bind_ok h
  obtain ⟨e, s2, hlower, h⟩ := bind_ok h
  obtain ⟨_, s3, hgoto, h⟩ := bind_ok h
  obtain ⟨_, s4, hlatch, h⟩ := bind_ok h
  obtain ⟨_, s5, hclose, h⟩ := bind_ok h
  cases h
  have hopened := openLoop_ok hopened hheader hcond
  obtain ⟨is, n, hadds⟩ := hopened.adds
  have hlt1 := hadds.lt hheader.lt
  have hbodyLt := Nat.lt_of_lt_of_le hheader.lt hopened.le_body
  have hafterLt := hopened.body_lt_after
  have harm := arm_of_emits hopened.body (hbody hlower hopened.body.lt hopened.body.isOpen) hgoto
  have hlt3 := Nat.lt_of_lt_of_le hlt1 harm.size_le
  have hready := hopened.latch.evolves harm.toEvolves fun hne =>
    Nat.ne_of_gt (Nat.lt_trans hafterLt (hopened.latch_cases.resolve_left hne))
  obtain ⟨hevolves, hext3, hlatchcode, hjump, hend⟩ := closeLatch_ok hlatch hready hlt3 hstep
  have hlt4 := Nat.lt_of_lt_of_le hlt3 hevolves.size_le
  -- the header is closed last, and has not changed since its condition was added
  have hclosed := close_ok hclose hlt4
  have hopen4 := hjump.trans ((harm.others header hlt1 (Nat.ne_of_lt hbodyLt)).2.trans hadds.jump)
  have hend4 := hend.trans (harm.toEvolves.endOf_of_ne hlt1 (Nat.ne_of_lt hbodyLt))
  have hext4 := (hclosed.evolves hlt4).isExtension hopen4
  have hext2 := hext3.trans hext4
  have hext1 := (harm.toEvolves.isExtension hopened.body.isOpen).trans hext2
  have hloopend := hclosed.endsAt_of_nil
  rw [hend4] at hloopend
  obtain ⟨r, hbodycode, hbodyend⟩ := harm.code
  have hcode : Code s'.graph scope (.loop cond step body) (startOf header) (startOf parts.after) :=
    .loop (hext1.exprCodeOption hopened.test) hloopend (hbodycode.mono hext2)
      (hext2.endsAt hbodyend nofun) (hext4.latchCode hlatchcode)
  have hne : parts.after ≠ parts.latch := by
    rcases hopened.latch_cases with heq | hgt
    · rw [heq]
      exact Nat.ne_of_gt (Nat.lt_trans hbodyLt hafterLt)
    · exact Nat.ne_of_lt hgt
  have hafter := (hevolves.blank (harm.toEvolves.blank hopened.after (Nat.ne_of_gt hafterLt)) hne).adds hclosed
    (Nat.ne_of_gt (Nat.lt_trans hbodyLt hafterLt))
  have hle := Nat.le_trans hopened.le_body (Nat.le_of_lt hafterLt)
  have hall := (((hadds.evolves hheader.lt).trans harm.toEvolves (.inr hopened.le_body)).trans hevolves
    (hopened.latch_cases.imp_right fun hgt => Nat.le_trans hle (Nat.le_of_lt hgt))).trans
      (hclosed.evolves hlt4) (.inl rfl)
  exact emits_of_blank hall hafter hle (hheader.endOf_eq ▸ hcode)

theorem laysOut_forLoop {span : Span} {init : ForInit (Unit → Expr)} {cond step : Option (Unit → Expr)}
    {body : Unit → Stmt} (hinit : init.settled = true) (hcond : Expr.settledOption cond = true)
    (hstep : Expr.settledOption step = true) (hbody : LaysOut (body ())) :
    LaysOut (.forLoop span init cond step body) := by
  intro scope b c s s' h hb hopen
  rw [lower_forLoop] at h
  obtain ⟨_, s1, hbegin, h⟩ := bind_ok h
  obtain ⟨_, s2, hstart, h⟩ := bind_ok h
  obtain ⟨header, s3, hnew, h⟩ := bind_ok h
  obtain ⟨_, s4, hclose, h⟩ := bind_ok h
  have hbegun := beginStmt_ok hbegin
  obtain ⟨is, hstarted, hstart⟩ := startFor_ok hstart (hbegun.lt hb) (hbegun.jump.trans hopen) hinit
  have hb2 := hstarted.lt (hbegun.lt hb)
  obtain ⟨rfl, hheader, hnew⟩ := newBlock_ok hnew
  have hclosed := close_ok hclose ((hnew b).lt hb2)
  have hgoto := (hnew b).trans hclosed
  have hheader := hheader.adds hclosed (Nat.ne_of_gt hb2)
  have hrounds := emits_lowerRounds h hheader hcond hstep hbody
  have hcode := hrounds.code
  have hext4 := hrounds.toEvolves.isExtension hheader.isOpen
  have hext2 := ((hgoto.evolves hb2).isExtension hstarted.jump).trans hext4
  have hle := Nat.le_trans hbegun.size_le hstarted.size_le
  rw [hheader.endOf_eq] at hcode
  rw [hbegun.endOf_eq_of_nil] at hstart
  have hfresh : s.graph.size ≤ c := by
    rcases hrounds.fresh with rfl | hge
    · exact hle
    · exact Nat.le_trans hle (Nat.le_trans hgoto.size_le hge)
  exact ⟨(((hbegun.trans hstarted).trans hgoto).evolves hb).trans hrounds.toEvolves (.inr hle),
    hrounds.isOpen, hrounds.lt', .inr hfresh,
    .forLoop (hext2.startCode hstart) (hext4.endsAt hgoto.endsAt_of_nil nofun) hcode⟩

/-- A `while` statement is rounds with a condition and no step. -/
theorem laysOut_whileLoop {span : Span} {cond : Unit → Expr} {body : Unit → Stmt}
    (hs : (cond ()).settled = true) (hbody : LaysOut (body ())) : LaysOut (.whileLoop span cond body) := by
  intro scope b c s s' h hb hopen
  rw [lower_whileLoop] at h
  have hfor := @laysOut_forLoop span .nothing (some cond) none body rfl hs rfl hbody _ _ _ _ _ h hb hopen
  refine ⟨hfor.toEvolves, hfor.isOpen, hfor.lt', hfor.fresh, ?_⟩
  cases hfor.code with
  | forLoop hstart hend hcode =>
    cases hstart
    exact .whileLoop hend hcode

/-- The body of a `do` statement comes first, and the condition sends control back to it. -/
theorem laysOut_doWhile {span : Span} {cond : Unit → Expr} {body : Unit → Stmt}
    (hs : (cond ()).settled = true) (hbody : LaysOut (body ())) : LaysOut (.doWhile span body cond) := by
  intro scope b c s s' h hb hopen
  obtain ⟨_, s1, hbegin, h⟩ := bind_ok h
  obtain ⟨t, s2, hnew, h⟩ := bind_ok h
  obtain ⟨_, s3, hclose, h⟩ := bind_ok h
  obtain ⟨d, s4, hnew', h⟩ := bind_ok h
  obtain ⟨a, s5, hnew'', h⟩ := bind_ok h
  obtain ⟨e, s6, hlower, h⟩ := bind_ok h
  obtain ⟨_, s7, hgoto, h⟩ := bind_ok h
  obtain ⟨op, s8, hcond, h⟩ := bind_ok h
  obtain ⟨_, s9, hloop, h⟩ := bind_ok h
  cases h
  -- the blocks
  have hbegun := beginStmt_ok hbegin
  have hb1 := hbegun.lt hb
  obtain ⟨rfl, hbodyBlock, hnew2⟩ := newBlock_ok hnew
  have hclosed := close_ok hclose ((hnew2 b).lt hb1)
  have hb3 := hclosed.lt ((hnew2 b).lt hb1)
  obtain ⟨rfl, hcondBlock, hnew4⟩ := newBlock_ok hnew'
  obtain ⟨rfl, hafter, hnew5⟩ := newBlock_ok hnew''
  have hentered := (hnew2 b).trans hclosed
  have hbodyBlock := hbodyBlock.adds hclosed (Nat.ne_of_gt hb1)
  have hext3 := (((hnew4 _).trans (hnew5 _)).evolves hbodyBlock.lt).isExtension hbodyBlock.isOpen
  have hbodyBlock := (hbodyBlock.adds (hnew4 b) (Nat.ne_of_gt hb1)).adds (hnew5 b) (Nat.ne_of_gt hb1)
  have hcondBlock := hcondBlock.adds (hnew5 b) (Nat.ne_of_gt hb3)
  have hsize3 := hentered.size
  have hsize4 := (hnew4 b).size
  have hle := hbegun.size_le
  -- the body, and then the condition
  have harm := arm_of_emits hbodyBlock (hbody hlower hbodyBlock.lt hbodyBlock.isOpen) hgoto
  have hcondBlock := harm.toEvolves.blank hcondBlock (Nat.ne_of_gt (by omega))
  have hafter := harm.toEvolves.blank hafter (Nat.ne_of_gt (by omega))
  obtain ⟨is, hadds, hcode⟩ := compute_ok hcond hcondBlock.lt hs
  have hlooped := close_ok hloop (hadds.lt hcondBlock.lt)
  have hcondAll := hadds.trans hlooped
  have hext8 := (hlooped.evolves (hadds.lt hcondBlock.lt)).isExtension (hadds.jump.trans hcondBlock.isOpen)
  have hext7 := (hcondAll.evolves hcondBlock.lt).isExtension hcondBlock.isOpen
  have hext5 := (harm.toEvolves.isExtension hbodyBlock.isOpen).trans hext7
  obtain ⟨r, hbodycode, hbodyend⟩ := harm.code
  have hbodycode := hbodycode.mono hext7
  have hbodyend := hext7.endsAt hbodyend nofun
  rw [hcondBlock.endOf_eq] at hcode
  have hstart := hentered.endsAt_of_nil
  rw [hbegun.endOf_eq_of_nil] at hstart
  refine emits_of_blank ?_ (hafter.adds hcondAll (Nat.ne_of_gt (by omega))) (by omega)
    (.doWhile ((hext3.trans hext5).endsAt hstart nofun) hbodycode hbodyend
      (.loop ⟨op, rfl, hext8.exprCode hcode⟩ hlooped.endsAt_of_nil hbodycode hbodyend rfl))
  have hblocks := ((hbegun.trans hentered).trans (hnew4 b)).trans (hnew5 b)
  exact ((hblocks.evolves hb).trans harm.toEvolves (.inr hle)).trans (hcondAll.evolves hcondBlock.lt)
    (.inr (by omega))

/-! ## All structured statements -/

mutual

/-- Every structured statement is laid out as its code says, by induction on the statement. -/
theorem laysOut_of_structured (stmt : Stmt) (hs : stmt.structured = true) : LaysOut stmt := by
  match stmt with
  | .expr span e => exact laysOut_expr hs
  | .decl span ds => exact laysOut_decl hs
  | .empty span => exact laysOut_empty
  | .breakOut span => exact laysOut_breakOut
  | .continueLoop span => exact laysOut_continueLoop
  | .ret span value => exact laysOut_ret hs
  | .block span body =>
    intro scope b c s s' h hb hopen
    have hall := emits_lowerAll body hs h hb hopen
    exact ⟨hall.toEvolves, hall.isOpen, hall.lt', hall.fresh, .block hall.code⟩
  | .ifThen span cond body =>
    rw [Stmt.structured, Bool.and_eq_true] at hs
    exact laysOut_ifThen hs.1 (laysOut_of_structured (body ()) hs.2)
  | .ifElse span cond thenBody elseBody =>
    rw [Stmt.structured, Bool.and_eq_true, Bool.and_eq_true] at hs
    exact laysOut_ifElse hs.1.1 (laysOut_of_structured (thenBody ()) hs.1.2)
      (laysOut_of_structured (elseBody ()) hs.2)
  | .whileLoop span cond body =>
    rw [Stmt.structured, Bool.and_eq_true] at hs
    exact laysOut_whileLoop hs.1 (laysOut_of_structured (body ()) hs.2)
  | .doWhile span body cond =>
    rw [Stmt.structured, Bool.and_eq_true] at hs
    exact laysOut_doWhile hs.1 (laysOut_of_structured (body ()) hs.2)
  | .forLoop span init cond step body =>
    rw [Stmt.structured, Bool.and_eq_true, Bool.and_eq_true, Bool.and_eq_true] at hs
    exact laysOut_forLoop hs.1.1.1 hs.1.1.2 hs.1.2 (laysOut_of_structured (body ()) hs.2)
  | .switch .. | .case .. | .default .. | .goto .. | .label .. | .error _ | .absent => exact nomatch hs

/-- The code of a sequence is the code of its statements, each behind the one before. -/
theorem emits_lowerAll (body : List (Unit → Stmt)) (hs : Stmt.structuredAll body = true) {scope : Scope}
    {b c : BlockId} {s s' : LoweringState} (h : lowerAll scope b body s = .ok (c, s'))
    (hb : b < s.graph.size) (hopen : s.graph.jump b = .missing) :
    Emits scope (.seq body) b s.graph c s'.graph := by
  match body with
  | [] =>
    cases h
    have hnothing : Adds b [] .missing 0 s.graph s.graph := hopen ▸ .refl _ b
    exact emits_of_adds hnothing hb .seqNil
  | stmt :: rest =>
    rw [Stmt.structuredAll, Bool.and_eq_true] at hs
    obtain ⟨d, s1, hfirst, h⟩ := bind_ok h
    have hfirst := laysOut_of_structured (stmt ()) hs.1 hfirst hb hopen
    have hrest := emits_lowerAll rest hs.2 h hfirst.lt' hfirst.isOpen
    have hext := hrest.toEvolves.isExtension hfirst.isOpen
    refine ⟨hfirst.toEvolves.trans hrest.toEvolves hfirst.fresh, hrest.isOpen, hrest.lt', ?_,
      .seqCons (hfirst.code.mono hext) hrest.code⟩
    rcases hrest.fresh with rfl | hge
    · exact hfirst.fresh
    · exact .inr (Nat.le_trans hfirst.size_le hge)

end

/-! ## Functions -/

/-- The instructions that bind parameters, from the given position on. -/
def paramCode (index : Nat) (params : List VarId) : List Instr :=
  (params.zipIdx index).map fun p => .param (.unbound p.1) p.2

theorem length_paramCode (index : Nat) (params : List VarId) :
    (paramCode index params).length = params.length := by
  rw [paramCode, List.length_map, List.length_zipIdx]

theorem bindParams_ok {index : Nat} {params : List VarId} (h : bindParams index params s = .ok (u, s'))
    (hentry : entry < s.graph.size) :
    Adds entry (paramCode index params) (s.graph.jump entry) 0 s.graph s'.graph := by
  induction params generalizing index s with
  | nil =>
    cases h
    exact .refl _ _
  | cons p ps ih =>
    obtain ⟨n, s1, hn, h⟩ := bind_ok h
    cases hn
    obtain ⟨v, s2, hv, h⟩ := bind_ok h
    obtain ⟨hp, rfl⟩ := lift_ok hv
    obtain ⟨rfl, -⟩ := variableRef_ok hp
    obtain ⟨_, s3, happend, h⟩ := bind_ok h
    have hbound := append_ok happend hentry
    have hrest := ih h (hbound.lt hentry)
    rw [hbound.jump] at hrest
    exact hbound.trans hrest

end Lowering

open FlowGraph Lowering in
/-- The entry of a lowered graph binds the parameters and goes on with the code of the body; where that
ends, the function returns without a value. -/
theorem Function.code_of_lower {fn : Function} {g : FlowGraph} (h : fn.lower = .ok g)
    (hs : fn.tree.structured = true) :
    ∃ q sink, g.HasCode (startOf entry) (paramCode 0 fn.params) ∧
      g.Code {} (.stmt fn.tree) ((startOf entry).skip fn.params.length) q ∧
      g.EndsAt q (.ret sink none) := by
  obtain ⟨s, hrun, rfl, -⟩ := Function.lower_ok h
  obtain ⟨_, s1, hparams, hrun⟩ := bind_ok hrun
  obtain ⟨c, s2, hbody, hrun⟩ := bind_ok hrun
  obtain ⟨sink, s3, hnew, hrun⟩ := bind_ok hrun
  obtain ⟨_, s4, hsink, hrun⟩ := bind_ok hrun
  have hbound := bindParams_ok hparams Nat.one_pos
  have hentry := hbound.lt Nat.one_pos
  have hemits := laysOut_of_structured fn.tree hs hbody hentry hbound.jump
  obtain ⟨rfl, hblank, hnew⟩ := newBlock_ok hnew
  have hlooped := close_ok hsink hblank.lt
  have hclosed := close_ok hrun (hlooped.lt ((hnew c).lt hemits.lt'))
  have hne : c ≠ s2.graph.size := Nat.ne_of_lt hemits.lt'
  have hopen := (hlooped.others c hne).2.trans ((hnew c).jump.trans hemits.isOpen)
  have hend := (hlooped.endOf_of_ne hne).trans (hnew c).endOf_eq_of_nil
  -- what comes after the code of the body only adds to the graph
  have hext1 := hemits.toEvolves.isExtension hbound.jump
  have hext2 := ((hnew c).evolves hemits.lt').isExtension hemits.isOpen
  have hext3 := (hlooped.evolves hblank.lt).isExtension hblank.isOpen
  have hext4 := (hclosed.evolves (hlooped.lt ((hnew c).lt hemits.lt'))).isExtension hopen
  have hext5 : Extends s.graph { s.graph with numTemps := s.temps } :=
    ⟨fun _ => List.prefix_refl _, fun _ _ => ⟨rfl, rfl⟩⟩
  have hext := hext2.trans (hext3.trans (hext4.trans hext5))
  have hcode := hemits.code.mono hext
  rw [hbound.endOf_eq, length_paramCode] at hcode
  have hreturn := hclosed.endsAt_of_nil
  rw [hend] at hreturn
  exact ⟨_, _, (hext1.trans hext).hasCode hbound.hasCode, hcode, hext5.endsAt hreturn nofun⟩

end SsaFlow
