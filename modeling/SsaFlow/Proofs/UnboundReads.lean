-- SUMMARY: What it means that an operand reads a variable at version 0: which writes can have come before it.
import SsaFlow.Proofs.Outcome

/-!
# Reads without a definition

An operand with version 0 reads a variable that no definition reaches. A write that a walk passes on the
way to the operand is lost only where the walk enters a block that dominates the home of the variable, so
that the variable goes out of scope; every other join after the write has a phi. This holds of variables
with two blocks of declarations and writes. Variables with one such block get no phis at all, so a write of
theirs reaches what comes after it in the block or is strictly dominated by the block, and nothing else.
-/

namespace SsaFlow

namespace FlowGraph

/-- An operand of an instruction or of a jump at a reachable place reads `x`. -/
def ReadsAt (g : FlowGraph) (x : VersionedVar) (at_ : Site) : Prop :=
  Reachable g.Edge entry at_.block ∧
    ((∃ i, g.instr? at_ = some i ∧ x ∈ i.used) ∨
      at_.point = .exit ∧ (g.jump at_.block).used? = some x)

/-- A walk `l` to the place `at_` passes the place `s` and then the blocks `after`, the latest first. -/
def Passes (l : List BlockId) (at_ s : Site) (after : List BlockId) : Prop :=
  (∃ before, l = after ++ s.block :: before) ∧ (after = [] → s.point.before at_.point = true)

/-- A read in SSA form has the name that renaming gives to the use. -/
theorem ReadsAt.version_use {r q : FlowGraph} {order : List BlockId} {tree : DominatorTree}
    (h : SsaForm r q order tree) {x : VersionedVar} {at_ : Site} (hx : r.ReadsAt x at_) :
    Reachable q.Edge entry at_.block ∧ (q.naming tree).use x.var at_ = x := by
  obtain ⟨hreach, hread⟩ := hx
  rw [h.edge] at hreach
  refine ⟨hreach, ?_⟩
  rcases hread with ⟨j, hj, hx⟩ | ⟨hpoint, hx⟩
  · rw [h.instr? hreach] at hj
    obtain ⟨i, -, rfl⟩ := Option.map_eq_some_iff.mp hj
    rw [Instr.used_named] at hx
    obtain ⟨y, -, rfl⟩ := List.mem_map.mp hx
    rw [use_naming_var]
  · rw [h.jump hreach, Jump.used?_named] at hx
    obtain ⟨y, -, rfl⟩ := Option.map_eq_some_iff.mp hx
    obtain ⟨b, p⟩ := at_
    obtain rfl : p = .exit := hpoint
    rw [use_naming_var]

/-- A definition is carried along a walk that enters no block which dominates the home of its variable:
wherever it stops to dominate, a phi takes over. -/
theorem Placed.exists_definition {q : FlowGraph} {order : List BlockId} {tree : DominatorTree}
    (h : q.Placed order tree) {v : VarId} {s : Site} {home : BlockId} (hs : q.DefinesAt v s)
    (htwo : ∃ x y, x ≠ y ∧ q.DefBlock v x ∧ q.DefBlock v y) (hhome : q.Home v home)
    {after before : List BlockId} {c : BlockId} (hwalk : Walk q.Edge entry (after ++ s.block :: before) c)
    (hcut : ∀ d ∈ after, ¬ Dominates q.Edge entry d home) :
    ∃ t, q.DefinesAt v t ∧ Dominates q.Edge entry t.block c ∧ (after ≠ [] → q.Before t ⟨c, .instr 0⟩) := by
  induction after generalizing c with
  | nil =>
    refine ⟨s, hs, ?_, fun hne => absurd rfl hne⟩
    rw [hwalk.head_eq]
    exact .refl c
  | cons d after ih =>
    rw [List.cons_append] at hwalk
    generalize hrest : after ++ s.block :: before = rest at hwalk
    cases hwalk with
    | start => exact absurd hrest (List.append_ne_nil_of_right_ne_nil _ (List.cons_ne_nil _ _))
    | @step _ p _ hw he =>
      subst hrest
      have hp : Reachable q.Edge entry p := ⟨_, hw⟩
      obtain ⟨t, ht, hdom, -⟩ := ih hw fun e he => hcut e (List.mem_cons_of_mem d he)
      by_cases hstrict : StrictlyDominates q.Edge entry t.block d
      · exact ⟨t, ht, hstrict.2, fun _ => before_start_iff.mpr (.inr hstrict)⟩
      · have hphi : q.PhiAt v d :=
          h.phiAt_of_definesAt ht hp hdom he hstrict htwo hhome (hcut d List.mem_cons_self)
        refine ⟨⟨d, .phi⟩, .inl ⟨rfl, hp.step he, h.phi_iff.mpr hphi⟩, .refl d, fun _ => ?_⟩
        exact before_start_iff.mpr (.inl rfl)

/-- What comes before the first instruction of a block comes before all operands of the block. -/
theorem Before.of_start {q : FlowGraph} {t at_ : Site} (h : q.Before t ⟨at_.block, .instr 0⟩)
    (hat : at_.point ≠ .phi) : q.Before t at_ := by
  rcases before_start_iff.mp h with rfl | hdom
  · refine .inl ⟨rfl, ?_⟩
    cases hp : at_.point with
    | phi => exact absurd hp hat
    | instr _ | exit => rfl
  · exact .inr hdom

theorem ReadsAt.point_ne_phi {r : FlowGraph} {x : VersionedVar} {at_ : Site} (h : r.ReadsAt x at_) :
    at_.point ≠ .phi := by
  intro hphi
  obtain ⟨b, p⟩ := at_
  obtain rfl : p = .phi := hphi
  rcases h.2 with ⟨i, hi, -⟩ | ⟨hp, -⟩
  · exact nomatch hi
  · exact nomatch hp

theorem exists_home (g : FlowGraph) (v : VarId) : ∃ home, g.Home v home := by
  by_cases h : ∃ s, g.Declares v s
  · obtain ⟨s, hs⟩ := h
    exact ⟨s.block, .inl ⟨s, rfl, hs⟩⟩
  · exact ⟨entry, .inr ⟨fun s hs => h ⟨s, hs⟩, rfl⟩⟩

end FlowGraph

open FlowGraph

/-- In the result of a build, let an operand read a variable at version 0. A parameter or assignment of the
variable that a walk to the operand passes does not come before the operand: its block does not strictly dominate
the operand, and it is not earlier in the block of the operand. If the variable is declared or written in two
blocks, then the walk goes on from the write to a block that dominates the home of the variable. If it is declared
and written in one block only, and that block strictly dominates the operand, then it is never written. -/
theorem unbound_read_out_of_scope {fn : Function} {config : BuildConfig} {queue : DiagnosticQueue}
    {r : FlowGraph} (hbuild : (fn.build config queue).2 = .ok r) {v : VarId} {at_ : Site}
    (hread : r.ReadsAt (.unbound v) at_) :
    (∀ l after s, Walk r.Edge entry l at_.block → Passes l at_ s after → r.Writes v s →
      ¬ r.Before s at_ ∧ ((∃ x y, x ≠ y ∧ r.DefBlock v x ∧ r.DefBlock v y) →
        ∃ d ∈ after, ∃ home, r.Home v home ∧ Dominates r.Edge entry d home)) ∧
    ∀ b, (∀ x, r.DefBlock v x → x = b) → StrictlyDominates r.Edge entry b at_.block → ∀ s, ¬ r.Writes v s := by
  obtain ⟨q, order, tree, h⟩ := Function.ssaForm_of_build hbuild
  obtain ⟨hreach, huse⟩ := hread.version_use h
  have hnone := (h.version_use_eq_zero_iff hreach).mp (congrArg VersionedVar.version huse)
  -- a write that came before the operand would have given it a version
  have hlost : ∀ s, r.Writes v s → ¬ r.Before s at_ := by
    intro s hs
    rw [h.writes] at hs
    rw [Before, h.edge]
    exact hnone s (.inr hs)
  refine ⟨fun l after s hwalk hpass hs => ⟨hlost s hs, fun htwo => ?_⟩, fun b honly hdom s hs => ?_⟩
  · rw [h.edge] at hwalk ⊢
    rw [h.writes] at hs
    rw [h.defBlock] at htwo
    rw [h.home]
    obtain ⟨home, hhome⟩ := q.exists_home v
    obtain ⟨⟨before, rfl⟩, hlast⟩ := hpass
    -- unless the scope is left on the way, phis carry the write to the operand
    refine Classical.byContradiction fun hcut => ?_
    obtain ⟨t, ht, -, hstart⟩ := h.exists_definition (.inr hs) htwo hhome hwalk
      fun d hd hdom => hcut ⟨d, hd, home, hhome, hdom⟩
    by_cases hafter : after = []
    · subst hafter
      exact hnone s (.inr hs) (.inl ⟨hwalk.head_eq, hlast rfl⟩)
    · exact hnone t ht ((hstart hafter).of_start hread.point_ne_phi)
  · rw [← honly s.block ⟨s, rfl, .inr hs⟩] at hdom
    exact hlost s hs (.inr hdom)

/-! ## A declaration in a loop -/

namespace FlowGraph

theorem getD_map_block {α : Type} (f : Block → α) (g : FlowGraph) (b : BlockId) :
    (g.blocks.toList.map f).getD b (f {}) = f (g.block b) := by
  rw [List.getD_eq_getElem?_getD, List.getElem?_map, Array.getElem?_toList, block,
    Array.getD_eq_getD_getElem?]
  cases g.blocks[b]? <;> rfl

/-- A block that control enters from one other block only has no phi. -/
theorem not_phiAt_of_one_pred {q : FlowGraph} {v : VarId} {p b : BlockId} (hb : b ≠ entry) (hne : p ≠ b)
    (hpred : ∀ {a}, q.Edge a b → a = p) : ¬ q.PhiAt v b := by
  rintro ⟨-, home, -, hmerges⟩
  obtain ⟨x, a, ha, he, hdom, hnot⟩ := hmerges.exists_inFrontier
  obtain rfl := hpred he
  refine hnot ⟨?_, .of_forall_edge hb fun c _ hc => hpred hc ▸ hdom⟩
  rintro rfl
  have hback : Dominates q.Edge entry a x := .of_forall_edge hb fun c _ hc => hpred hc ▸ .refl c
  exact hne (Dominates.antisymm (ha.step he) hback hdom)

end FlowGraph

namespace DeclaredInLoop

variable {g q : FlowGraph} {order : List BlockId} {tree : DominatorTree}

theorem jump (h : DeclaredInLoop g) (hq : Prepared g q order tree) (b : BlockId) :
    q.jump b = declaredInLoopJumps.getD b .missing := by
  rw [hq.jump, ← h.jumps]
  exact (getD_map_block Block.jump _ b).symm

theorem edge (h : DeclaredInLoop g) (hq : Prepared g q order tree) {a b : BlockId} :
    q.Edge a b ↔ b ∈ (declaredInLoopJumps.getD a .missing).targets := by
  rw [Edge, targets, h.jump hq]

theorem eq_top_of_edge (h : DeclaredInLoop g) (hq : Prepared g q order tree) {a b : BlockId}
    (he : q.Edge a b) (hb : b = 3 ∨ b = 4) : a = 1 := by
  have hlt : a < 10 := by
    refine Nat.lt_of_not_le fun hle => ?_
    rw [h.edge hq, List.getD_eq_getElem?_getD, List.getElem?_eq_none hle] at he
    exact nomatch he
  have hall : ∀ a < 10, ∀ b ∈ (declaredInLoopJumps.getD a .missing).targets, b = 3 ∨ b = 4 → a = 1 := by
    decide
  exact hall a hlt b ((h.edge hq).mp he) hb

/-- No definition of the variable comes before its use: the loop starts before the declaration, and has no
phi for it. -/
theorem use_eq_unbound (h : DeclaredInLoop g) (hq : Prepared g q order tree) :
    (q.naming tree).use 1 ⟨4, .exit⟩ = .unbound 1 := by
  have hwalk : Walk q.Edge entry [4, 1, 0] 4 :=
    .step (.step .start ((h.edge hq).mpr (by decide))) ((h.edge hq).mpr (by decide))
  have hhome : q.Home 1 3 := .inl ⟨⟨3, .instr 0⟩, rfl, hq.declares ▸ h.declares.mpr ⟨rfl, rfl⟩⟩
  have hdom : Dominates q.Edge entry 1 3 := by
    refine .of_forall_edge (by decide) fun p _ he => ?_
    rw [h.eq_top_of_edge hq he (.inl rfl)]
    exact .refl 1
  refine hq.use_eq_unbound ⟨_, hwalk⟩ fun s hs hbefore => ?_
  have hmem : s.block ∈ [4, 1, 0] := hbefore.dominates _ hwalk
  rcases hs with ⟨-, -, hphi⟩ | hwrite
  · have hphi := hq.phi_iff.mp hphi
    generalize s.block = b at hmem hphi
    rcases by simpa using hmem with rfl | rfl | rfl
    · exact not_phiAt_of_one_pred (by decide) (by decide) (fun he => h.eq_top_of_edge hq he (.inr rfl)) hphi
    · exact hq.not_phiAt_of_dominates hhome hdom hphi
    · exact hq.not_phiAt_of_dominates hhome (.root 3) hphi
  · rw [hq.writes] at hwrite
    rw [h.writes hwrite] at hmem
    exact absurd hmem (by decide)

end DeclaredInLoop

/-- The function is built, and the read at its end is unbound although a write comes before it on a
walk. -/
theorem build_declaredInLoop :
    ∃ r, (declaredInLoop.build .standard {}).2 = .ok r ∧ r.ReadsAt (.unbound 1) ⟨4, .exit⟩ ∧
      Walk r.Edge entry [4, 1, 6, 3, 1, 0] 4 ∧ r.Writes 1 ⟨6, .instr 0⟩ ∧
      ∀ {t}, r.Declares 1 t ↔ t = ⟨3, .instr 0⟩ := by
  obtain ⟨g, hg, h⟩ := lower_declaredInLoop
  obtain ⟨r, q, order, tree, hbuild, hq, hr⟩ :=
    Function.exists_ssaForm hg h.not_declaredTwice h.not_writtenEarly .standard {}
  have hwalk : Walk q.Edge entry [4, 1, 6, 3, 1, 0] 4 := by
    refine .step (.step (.step (.step (.step .start ?_) ?_) ?_) ?_) ?_
    all_goals exact (h.edge hq).mpr (by decide)
  refine ⟨r, hbuild, ⟨?_, .inr ⟨rfl, ?_⟩⟩, ?_, ?_, ?_⟩
  · rw [hr.edge]
    exact ⟨_, hwalk⟩
  · rw [hr.jump ⟨_, hwalk⟩, Jump.used?_named, h.jump hq]
    exact congrArg some (h.use_eq_unbound hq)
  · rw [hr.edge]
    exact hwalk
  · rw [hr.writes]
    refine ⟨hwalk.reachable_of_mem (by decide), .assign (.unbound 1) (.const 1), .unbound 1, ?_, rfl, rfl⟩
    rw [hq.instr?, h.instr?]
    exact .inr (.inr ⟨rfl, rfl⟩)
  · intro t
    rw [hr.declares, hq.declares, h.declares]
    exact and_iff_left rfl

theorem unbound_read_out_of_scope_declaredInLoop :
    ∃ r, (declaredInLoop.build .standard {}).2 = .ok r ∧ r.ReadsAt (.unbound 1) ⟨4, .exit⟩ ∧
      (∃ x y, x ≠ y ∧ r.DefBlock 1 x ∧ r.DefBlock 1 y) ∧ Walk r.Edge entry [4, 1, 6, 3, 1, 0] 4 ∧
      Passes [4, 1, 6, 3, 1, 0] ⟨4, .exit⟩ ⟨6, .instr 0⟩ [4, 1] ∧ r.Writes 1 ⟨6, .instr 0⟩ ∧
      ¬ r.Before ⟨6, .instr 0⟩ ⟨4, .exit⟩ ∧ ∃ d ∈ [4, 1], ∃ home, r.Home 1 home ∧ Dominates r.Edge entry d home := by
  obtain ⟨r, hbuild, hread, hwalk, hwrite, hdeclares⟩ := build_declaredInLoop
  have htwo : ∃ x y, x ≠ y ∧ r.DefBlock 1 x ∧ r.DefBlock 1 y :=
    ⟨3, 6, by decide, ⟨_, rfl, .inl (hdeclares.mpr rfl)⟩, ⟨_, rfl, .inr hwrite⟩⟩
  have hpass : Passes [4, 1, 6, 3, 1, 0] ⟨4, .exit⟩ ⟨6, .instr 0⟩ [4, 1] := ⟨⟨[3, 1, 0], rfl⟩, nofun⟩
  obtain ⟨hlost, hleaves⟩ := (unbound_read_out_of_scope hbuild hread).1 _ _ _ hwalk hpass hwrite
  exact ⟨r, hbuild, hread, htwo, hwalk, hpass, hwrite, hlost, hleaves htwo⟩

/-! ## A jump past a declaration -/

/-- The function `if (a) goto use; int x = 1; use: return x;`. -/
def jumpPastDeclaration : Function :=
  let span : Span := ⟨0, 1⟩
  { name := ⟨0⟩, params := [0], numVars := 2, body := 5, span := span
    exprs := #[⟨span, .var 0⟩, ⟨span, .int 1⟩, ⟨span, .var 1⟩]
    stmts := #[⟨span, .goto ⟨1⟩⟩, ⟨span, .ifElse 0 0 none⟩, ⟨span, .decl [⟨1, some 1⟩]⟩,
      ⟨span, .ret (some 2)⟩, ⟨span, .label ⟨1⟩ 3⟩, ⟨span, .block [1, 2, 4]⟩] }

theorem build_jumpPastDeclaration :
    ∃ r, (jumpPastDeclaration.build .standard {}).2 = .ok r ∧ r.ReadsAt (.unbound 1) ⟨3, .exit⟩ ∧
      Walk r.Edge entry [3, 2, 0] 3 ∧ r.Writes 1 ⟨2, .instr 1⟩ ∧
      ∀ {t}, r.Declares 1 t → t = ⟨2, .instr 0⟩ := by
  have h : ∃ r, (jumpPastDeclaration.build .standard {}).2 = .ok r ∧
      r.targets entry = [3, 2] ∧ r.targets 2 = [3] ∧ (r.jump 3).used? = some (.unbound 1) ∧
      r.code (List.range r.size) = [(⟨0, .instr 0⟩, .param ⟨0, 1⟩ 0), (⟨2, .instr 0⟩, .declare 1),
        (⟨2, .instr 1⟩, .assign ⟨1, 1⟩ (.const 1))] := by
    refine Except.exists_ok_of_decide ?_
    cbv
  obtain ⟨r, hbuild, hentry, htwo, hused, hcode⟩ := h
  have hinstr : ∀ {s i}, r.instr? s = some i ↔ s = ⟨0, .instr 0⟩ ∧ i = .param ⟨0, 1⟩ 0 ∨
      s = ⟨2, .instr 0⟩ ∧ i = .declare 1 ∨ s = ⟨2, .instr 1⟩ ∧ i = .assign ⟨1, 1⟩ (.const 1) := by
    intro s i
    rw [← mem_code_range, hcode]
    simp
  have hwalk : Walk r.Edge entry [3, 2, 0] 3 := by
    refine .step (.step .start ?_) ?_
    · rw [Edge, hentry]
      decide
    · rw [Edge, htwo]
      decide
  refine ⟨r, hbuild, ⟨⟨_, hwalk⟩, .inr ⟨rfl, hused⟩⟩, hwalk, ?_, ?_⟩
  · exact ⟨hwalk.reachable_of_mem (by decide), _, _, hinstr.mpr (.inr (.inr ⟨rfl, rfl⟩)), rfl, rfl⟩
  · rintro t ⟨-, ht⟩
    rcases hinstr.mp ht with ⟨-, hi⟩ | ⟨rfl, -⟩ | ⟨-, hi⟩
    · cases hi
    · rfl
    · cases hi

/-- Each write that a walk passes before a read at version 0 is followed by a declaration on the walk. -/
def FlowGraph.LosesNoWrite (r : FlowGraph) : Prop :=
  ∀ v at_ l s after, r.ReadsAt (.unbound v) at_ → Walk r.Edge entry l at_.block → Passes l at_ s after →
    r.Writes v s → ∃ t later, r.Declares v t ∧ Passes l at_ t later ∧
      (later.length < after.length ∨ later = after ∧ s.point.before t.point = true)

/-- Writes can be lost where a loop leaves the scope of the variable, and where a jump enters it. -/
theorem not_losesNoWrite :
    (∃ r, (declaredInLoop.build .standard {}).2 = .ok r ∧ ¬ r.LosesNoWrite) ∧
      ∃ r, (jumpPastDeclaration.build .standard {}).2 = .ok r ∧ ¬ r.LosesNoWrite := by
  constructor
  · obtain ⟨r, hbuild, hread, hwalk, hwrite, hdeclares⟩ := build_declaredInLoop
    refine ⟨r, hbuild, fun hall => ?_⟩
    obtain ⟨t, later, ht, ⟨⟨before, hl⟩, -⟩, hlater⟩ :=
      hall _ _ _ _ [4, 1] hread hwalk ⟨⟨[3, 1, 0], rfl⟩, nofun⟩ hwrite
    obtain rfl := hdeclares.mp ht
    rcases hlater with hlt | ⟨rfl, -⟩
    · match later, hlt with
      | [], _ | [_], _ => simp at hl
    · simp at hl
  · obtain ⟨r, hbuild, hread, hwalk, hwrite, hdeclares⟩ := build_jumpPastDeclaration
    refine ⟨r, hbuild, fun hall => ?_⟩
    obtain ⟨t, later, ht, ⟨⟨before, hl⟩, -⟩, hlater⟩ :=
      hall _ _ _ _ [3] hread hwalk ⟨⟨[0], rfl⟩, nofun⟩ hwrite
    obtain rfl := hdeclares ht
    rcases hlater with hlt | ⟨-, hpoint⟩
    · match later, hlt with
      | [], _ => simp at hl
    · exact absurd hpoint (by decide)

end SsaFlow
