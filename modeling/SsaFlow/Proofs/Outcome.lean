-- SUMMARY: Exactly when a function that can be lowered gets an SSA form, and which errors there are otherwise.
import Mathlib
import SsaFlow.Pipeline
import SsaFlow.Proofs.IndexRange
import SsaFlow.Proofs.Lowered
import SsaFlow.Proofs.SsaForm

/-!
# The outcome of a build

Once a function is lowered, a build can fail in two ways: a variable is declared twice, or a variable is
written before its declaration. Ordering, dominance analysis, phi placement and renaming find nothing else
to complain about, and all checks accept the result.
-/

namespace SsaFlow

namespace FlowGraph

/-- The variable is declared at two reachable places. -/
def DeclaredTwice (g : FlowGraph) (v : VarId) : Prop := ∃ s t, s ≠ t ∧ g.Declares v s ∧ g.Declares v t

/-- A reachable write of the variable comes before a declaration of it. -/
def WrittenEarly (g : FlowGraph) (v : VarId) : Prop := ∃ s t, g.Writes v s ∧ g.Declares v t ∧ g.Before s t

/-- The graph `q` is `g`, pruned and with its phis, ready to be renamed. -/
structure Prepared (g q : FlowGraph) (order : List BlockId) (tree : DominatorTree) : Prop
    extends q.Renamable order tree where
  /-- Code and jumps are those of the pruned graph. -/
  instr? : ∀ s, q.instr? s = g.instr? s
  jump : ∀ b, q.jump b = g.prune.1.jump b
  declares : q.Declares = g.Declares
  writes : q.Writes = g.Writes
  before_iff : ∀ {s t}, Reachable q.Edge entry s.block → Reachable q.Edge entry t.block →
    (q.Before s t ↔ g.Before s t)
  gone : ∀ {b : BlockId}, (q.block b).removed = true → q.jump b = .missing
  closed : ∀ {b : BlockId}, Reachable q.Edge entry b → (q.jump b).isMissing = false

theorem Prepared.edge {g q : FlowGraph} {order : List BlockId} {tree : DominatorTree}
    (h : Prepared g q order tree) : q.Edge = g.prune.1.Edge := by
  funext a b
  rw [Edge, targets, h.jump]
  rfl

/-- Where no definition reaches a declaration, renaming gives an SSA form. -/
theorem Prepared.ssaForm {g q r : FlowGraph} {order : List BlockId} {tree : DominatorTree}
    (h : Prepared g q order tree) (hnamed : Named q (q.naming tree) tree.preorder tree.preorder r)
    (hdecls : ∀ v s, q.Declares v s → ((q.naming tree).use v s).version = 0) : SsaForm r q order tree where
  toRenamable := h.toRenamable
  named := hnamed
  gone := h.gone
  closed := h.closed
  undefined {v s t} hs ht := (h.version_use_eq_zero_iff ht.1).mp (hdecls v t ht) s hs

namespace Lowered

variable {g : FlowGraph}

/-- Phi placement succeeds, unless a variable is declared twice. -/
theorem prepare (h : g.Lowered) :
    ∃ ordered analysed, g.prune.1.withOrder = .ok ordered ∧ ordered.withDominance = .ok analysed ∧
      ((∃ v, analysed.withPhis = .error (.duplicateDeclaration v) ∧ g.DeclaredTwice v) ∨
        (∀ v, ¬ g.DeclaredTwice v) ∧
          ∃ q count order tree, analysed.withPhis = .ok (q, count) ∧ Prepared g q order tree) := by
  obtain ⟨ordered, p, order, tree, hordered, hdominance, hblocks, hp, hshrunk, hvars, hempty⟩ :=
    h.toFresh.analyse
  refine ⟨ordered, p, hordered, hdominance, ?_⟩
  -- gathering the definition sites is all that can fail before renaming
  rcases hp.gather hvars with ⟨sites, hgather, hsites⟩ | ⟨v, s, t, hgather, hne, hs, ht⟩
  · obtain ⟨q, count, hphis, honly, hplaced⟩ := hp.withPhis hvars hempty hgather hsites
    have hkept : ∀ {b}, Reachable q.Edge entry b → (p.block b).removed = false := by
      intro b hb
      rw [honly.edge] at hb
      exact (hshrunk.reachable_iff.mp hb).2
    refine .inr ⟨?_, q, count, order, tree, hphis, ⟨hplaced, honly.varsInRange hvars, ?_⟩,
      fun s => (honly.instr? s).trans (hshrunk.instr? s), fun b => ?_, honly.declares.trans hshrunk.declares,
      honly.writes.trans hshrunk.writes, ?_, ?_, ?_⟩
    · rintro v ⟨s, t, hne, hs, ht⟩
      rw [← hshrunk.declares] at hs ht
      exact hne (hsites.once hs ht)
    · intro b hb v hv
      rw [honly.jump, Jump.reads, (hshrunk.operand (hkept hb)).1] at hv
      rw [honly.numVars, hshrunk.code.numVars]
      exact h.jumpVars b v hv
    · rw [honly.jump, FlowGraph.jump, block, hblocks]
      rfl
    · intro s t hs ht
      rw [honly.edge] at hs ht
      rw [Before, honly.edge]
      exact hshrunk.before_iff hs ht
    · intro b hremoved
      rw [honly.removed] at hremoved
      rw [honly.jump]
      exact hshrunk.gone hremoved
    · intro b hb
      rw [honly.jump, (hshrunk.operand (hkept hb)).2]
      refine h.closed b ?_
      rw [honly.edge] at hb
      exact h.reachable_lt (hshrunk.reachable_iff.mp hb).1
  · refine .inl ⟨v, ?_, s, t, hne, hshrunk.declares ▸ hs, hshrunk.declares ▸ ht⟩
    obtain ⟨frontiers, hdom⟩ := hp.dominance
    rw [withPhis_def, hdom]
    dsimp only
    rw [hgather]

/-- A pruned lowered graph gets an SSA form, unless a variable is declared twice or written before its
declaration. -/
theorem toSsa_cases (h : g.Lowered) (verify : Bool) :
    (∃ v, g.prune.1.toSsa verify = .error (.duplicateDeclaration v) ∧ g.DeclaredTwice v) ∨
      (∀ v, ¬ g.DeclaredTwice v) ∧
        ((∃ v b, g.prune.1.toSsa verify = .error (.redefinedBeforeDeclaration v b) ∧ g.WrittenEarly v) ∨
          (∀ v, ¬ g.WrittenEarly v) ∧
            ∃ r q order tree, g.prune.1.toSsa verify = .ok r ∧ Prepared g q order tree ∧
              SsaForm r q order tree) := by
  obtain ⟨ordered, p, hordered, hdominance, ⟨v, hphis, hv⟩ | ⟨honce, q, count, order, tree, hphis, hq⟩⟩ :=
    h.prepare
  · refine .inl ⟨v, ?_, hv⟩
    rw [FlowGraph.toSsa, hordered]
    simp only [bind, Except.bind, hdominance, hphis]
  · refine .inr ⟨honce, ?_⟩
    rcases hq.rename with ⟨r, n, hrename, hnamed, hdecls⟩ | ⟨r, v, s, hrename, hs, hversion⟩
    · have hr : SsaForm r q order tree := hq.ssaForm hnamed hdecls
      refine .inr ⟨?_, r, q, order, tree, ?_, hq, hr⟩
      · rintro v ⟨s, t, hs, ht, hbefore⟩
        rw [← hq.writes] at hs
        rw [← hq.declares] at ht
        exact hr.undefined (.inr hs) ht ((hq.before_iff hs.1 ht.1).mpr hbefore)
      · rw [FlowGraph.toSsa, hordered]
        simp only [bind, Except.bind, hdominance, hphis, hrename, completed, hr.check]
        cases verify <;> rfl
    · refine .inl ⟨v, s.block, ?_, ?_⟩
      · rw [FlowGraph.toSsa, hordered]
        simp only [bind, Except.bind, hdominance, hphis, hrename, completed]
      · obtain ⟨t, ht, hbefore⟩ : ∃ t, q.DefinesAt v t ∧ q.Before t s := by
          refine Classical.byContradiction fun hnone => hversion ?_
          exact (hq.version_use_eq_zero_iff hs.1).mpr fun t ht hbefore => hnone ⟨t, ht, hbefore⟩
        -- no phi comes before a declaration, so the definition that reaches it is a write
        have hwrite : q.Writes v t := by
          refine ht.resolve_left ?_
          rintro ⟨-, -, hphi⟩
          exact hq.not_phiAt_of_dominates (.inl ⟨s, rfl, hs⟩) hbefore.dominates (hq.phi_iff.mp hphi)
        refine ⟨t, s, hq.writes ▸ hwrite, hq.declares ▸ hs, ?_⟩
        exact (hq.before_iff hwrite.1 hs.1).mp hbefore

end Lowered

end FlowGraph

open FlowGraph

theorem Function.build_eq {fn : Function} {g : FlowGraph} (hg : fn.lower = .ok g) (config : BuildConfig)
    (q : DiagnosticQueue) : (fn.build config q).2 =
      match g.prune.1.toSsa config.verify with
      | .error e => .error (.internal e)
      | .ok r => .ok r := by
  rw [Function.build, hg]
  dsimp only
  cases g.prune.1.toSsa config.verify <;> rfl

/-- Without a variable that is declared twice or written early, a build gives an SSA form. -/
theorem Function.exists_ssaForm {fn : Function} {g : FlowGraph} (hg : fn.lower = .ok g)
    (honce : ∀ v, ¬ g.DeclaredTwice v) (hlate : ∀ v, ¬ g.WrittenEarly v) (config : BuildConfig)
    (queue : DiagnosticQueue) :
    ∃ r q order tree, (fn.build config queue).2 = .ok r ∧ Prepared g q order tree ∧ SsaForm r q order tree := by
  rw [Function.build_eq hg]
  rcases (Function.lowered hg).toSsa_cases config.verify with
    ⟨v, -, hv⟩ | ⟨-, ⟨v, -, -, hv⟩ | ⟨-, r, q, order, tree, hrun, hq, hr⟩⟩
  · exact absurd hv (honce v)
  · exact absurd hv (hlate v)
  · exact ⟨r, q, order, tree, by rw [hrun], hq, hr⟩

/-- A build that succeeds has lowered the function and turned the pruned graph into SSA form. -/
theorem Function.exists_toSsa_of_build {fn : Function} {config : BuildConfig} {q : DiagnosticQueue}
    {r : FlowGraph} (h : (fn.build config q).2 = .ok r) :
    ∃ g, fn.lower = .ok g ∧ g.prune.1.toSsa config.verify = .ok r := by
  cases hg : fn.lower with
  | error e =>
    rw [Function.build, hg] at h
    exact nomatch h
  | ok g =>
    rw [Function.build_eq hg] at h
    split at h
    · cases h
    · next hrun =>
      cases h
      exact ⟨g, rfl, hrun⟩

/-- What a build returns is an SSA form. -/
theorem Function.ssaForm_of_build {fn : Function} {config : BuildConfig} {q : DiagnosticQueue} {r : FlowGraph}
    (h : (fn.build config q).2 = .ok r) : ∃ g order tree, SsaForm r g order tree := by
  obtain ⟨g, hg, h⟩ := Function.exists_toSsa_of_build h
  rcases (Function.lowered hg).toSsa_cases config.verify with
    ⟨v, hrun, -⟩ | ⟨-, ⟨v, b, hrun, -⟩ | ⟨-, r', g', order, tree, hrun, -, hr'⟩⟩
  · cases hrun.symm.trans h
  · cases hrun.symm.trans h
  · cases hrun.symm.trans h
    exact ⟨g', order, tree, hr'⟩

/-- The outcome of a build of a function that can be lowered. The build reports a variable that is declared
twice if there is one; otherwise it reports a variable that is written before its declaration if there is
one; otherwise it succeeds. Ordering and dominance analysis never fail, and no pass looks up a block or a
variable that there is not: all those that the graph names are in range when a pass starts and when it ends,
and so are those in the list of blocks, the dominator tree, the frontiers and the definition sites. -/
theorem Function.build_outcome {fn : Function} {g : FlowGraph} (hg : fn.lower = .ok g) (config : BuildConfig)
    (q : DiagnosticQueue) :
    ((∃ v, (fn.build config q).2 = .error (.internal (.duplicateDeclaration v))) ↔
        ∃ v, g.DeclaredTwice v) ∧
      ((∀ v, ¬ g.DeclaredTwice v) →
        ((∃ v b, (fn.build config q).2 = .error (.internal (.redefinedBeforeDeclaration v b))) ↔
            ∃ v, g.WrittenEarly v) ∧
          ((∀ v, ¬ g.WrittenEarly v) → ∃ r, (fn.build config q).2 = .ok r)) ∧
      g.NamesInRange ∧ ∃ ordered analysed, g.prune.1.withOrder = .ok ordered ∧
        ordered.withDominance = .ok analysed ∧
        ∀ stage ∈ [g.prune.1, ordered, analysed, analysed.placePhis.1, analysed.placePhis.1.rename.1],
          stage.NamesInRange ∧ stage.TablesInRange := by
  rw [← and_assoc]
  refine ⟨?_, (Function.lowered hg).stages_inRange⟩
  rw [Function.build_eq hg]
  rcases (Function.lowered hg).toSsa_cases config.verify with
    ⟨v, hrun, hv⟩ | ⟨honce, ⟨v, b, hrun, hv⟩ | ⟨hlate, r, _, _, _, hrun, -⟩⟩
  · rw [hrun]
    exact ⟨⟨fun _ => ⟨v, hv⟩, fun _ => ⟨v, rfl⟩⟩, fun honce => absurd hv (honce v)⟩
  · rw [hrun]
    refine ⟨⟨fun ⟨_, h⟩ => (nomatch h), fun ⟨w, hw⟩ => absurd hw (honce w)⟩, fun _ => ⟨?_, fun hlate => ?_⟩⟩
    · exact ⟨fun _ => ⟨v, hv⟩, fun _ => ⟨v, b, rfl⟩⟩
    · exact absurd hv (hlate v)
  · rw [hrun]
    refine ⟨⟨fun ⟨_, h⟩ => (nomatch h), fun ⟨w, hw⟩ => absurd hw (honce w)⟩, fun _ => ⟨?_, fun _ => ⟨r, rfl⟩⟩⟩
    exact ⟨fun ⟨_, _, h⟩ => (nomatch h), fun ⟨w, hw⟩ => absurd hw (hlate w)⟩

/-! ## A declaration in a loop -/

/-- The function `top: if (a) goto use; int x; set: x = 1; goto top; use: return x;`. -/
def declaredInLoop : Function :=
  let span : Span := ⟨0, 1⟩
  { name := ⟨0⟩, params := [0], numVars := 2, body := 9, span := span
    exprs := #[⟨span, .var 0⟩, ⟨span, .int 1⟩, ⟨span, .var 1⟩, ⟨span, .assign 1 none 1⟩]
    stmts := #[⟨span, .goto ⟨2⟩⟩, ⟨span, .ifElse 0 0 none⟩, ⟨span, .label ⟨1⟩ 1⟩, ⟨span, .decl [⟨1, none⟩]⟩,
      ⟨span, .expr 3⟩, ⟨span, .label ⟨3⟩ 4⟩, ⟨span, .goto ⟨1⟩⟩, ⟨span, .ret (some 2)⟩, ⟨span, .label ⟨2⟩ 7⟩,
      ⟨span, .block [2, 3, 5, 6, 8]⟩] }

/-- The jumps of the function once it is pruned. -/
def declaredInLoopJumps : List Jump :=
  [.goto 1, .branch (.var (.unbound 0)) 4 3, .missing, .goto 6, .ret 8 (some (.var (.unbound 1))), .missing,
    .transfer 1 7, .missing, .missing, .missing]

/-- The graph of the function. -/
structure DeclaredInLoop (g : FlowGraph) : Prop where
  code : g.code (List.range g.size) =
    [(⟨0, .instr 0⟩, .param (.unbound 0) 0), (⟨3, .instr 0⟩, .declare 1),
      (⟨6, .instr 0⟩, .assign (.unbound 1) (.const 1))]
  entry_targets : g.targets entry = [1]
  top_targets : g.targets 1 = [2, 3]
  jumps : g.prune.1.blocks.toList.map Block.jump = declaredInLoopJumps

theorem lower_declaredInLoop : ∃ g, declaredInLoop.lower = .ok g ∧ DeclaredInLoop g := by
  have h : ∃ g, declaredInLoop.lower = .ok g ∧ g.code (List.range g.size) =
      [(⟨0, .instr 0⟩, .param (.unbound 0) 0), (⟨3, .instr 0⟩, .declare 1),
        (⟨6, .instr 0⟩, .assign (.unbound 1) (.const 1))] ∧
      g.targets entry = [1] ∧ g.targets 1 = [2, 3] ∧
      g.prune.1.blocks.toList.map Block.jump = declaredInLoopJumps := by
    refine Except.exists_ok_of_decide ?_
    cbv
  obtain ⟨g, hg, hcode, hentry, htop, hjumps⟩ := h
  exact ⟨g, hg, hcode, hentry, htop, hjumps⟩

namespace DeclaredInLoop

variable {g : FlowGraph}

theorem walk (h : DeclaredInLoop g) : Walk g.Edge entry [3, 1, 0] 3 := by
  refine .step (.step .start ?_) ?_
  · rw [Edge, h.entry_targets]
    decide
  · rw [Edge, h.top_targets]
    decide

theorem instr? (h : DeclaredInLoop g) {s : Site} {i : Instr} : g.instr? s = some i ↔
    s = ⟨0, .instr 0⟩ ∧ i = .param (.unbound 0) 0 ∨ s = ⟨3, .instr 0⟩ ∧ i = .declare 1 ∨
      s = ⟨6, .instr 0⟩ ∧ i = .assign (.unbound 1) (.const 1) := by
  rw [← mem_code_range, h.code]
  simp

theorem declares (h : DeclaredInLoop g) {v : VarId} {t : Site} :
    g.Declares v t ↔ t = ⟨3, .instr 0⟩ ∧ v = 1 := by
  rw [Declares, h.instr?]
  constructor
  · rintro ⟨-, ⟨-, hi⟩ | ⟨rfl, hi⟩ | ⟨-, hi⟩⟩
    · cases hi
    · exact ⟨rfl, Instr.declare.inj hi⟩
    · cases hi
  · rintro ⟨rfl, rfl⟩
    exact ⟨⟨_, h.walk⟩, .inr (.inl ⟨rfl, rfl⟩)⟩

theorem writes (h : DeclaredInLoop g) {s : Site} (hs : g.Writes 1 s) : s = ⟨6, .instr 0⟩ := by
  obtain ⟨-, i, w, hi, hw, hv⟩ := hs
  rcases h.instr?.mp hi with ⟨-, rfl⟩ | ⟨-, rfl⟩ | ⟨rfl, -⟩
  · cases hw
    exact nomatch hv
  · exact nomatch hw
  · rfl

theorem not_declaredTwice (h : DeclaredInLoop g) (v : VarId) : ¬ g.DeclaredTwice v := by
  rintro ⟨s, t, hne, hs, ht⟩
  exact hne ((h.declares.mp hs).1.trans (h.declares.mp ht).1.symm)

theorem not_writtenEarly (h : DeclaredInLoop g) (v : VarId) : ¬ g.WrittenEarly v := by
  rintro ⟨s, t, hs, ht, hbefore⟩
  obtain ⟨rfl, rfl⟩ := h.declares.mp ht
  obtain rfl := h.writes hs
  exact absurd (hbefore.dominates _ h.walk) (by decide)

end DeclaredInLoop

theorem build_outcome_declaredInLoop :
    ∃ g, declaredInLoop.lower = .ok g ∧ (∀ v, ¬ g.DeclaredTwice v) ∧ (∀ v, ¬ g.WrittenEarly v) ∧
      (∃ r, (declaredInLoop.build .standard {}).2 = .ok r) ∧ g.prune.1.NamesInRange := by
  obtain ⟨g, hg, h⟩ := lower_declaredInLoop
  obtain ⟨-, houtcome, -, ordered, analysed, -, -, hrange⟩ := Function.build_outcome hg .standard {}
  exact ⟨g, hg, h.not_declaredTwice, h.not_writtenEarly,
    (houtcome h.not_declaredTwice).2 h.not_writtenEarly, (hrange _ List.mem_cons_self).1⟩

end SsaFlow
