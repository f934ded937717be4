-- SUMMARY: The open blocks during lowering: who holds them, and what each step does to them.
import Mathlib
import SsaFlow.Proofs.Lowered
import SsaFlow.Proofs.Rules

/-!
# Open blocks

A step of lowering is described by when it succeeds and how it ends then; where it does not succeed it
complains (`Lowering.Decides`). What carries the proofs is a ledger of the open blocks: at any time a block
is open exactly if it belongs to a label that is not yet defined, or if some part of lowering still under
way holds it, and no block is held twice. Whoever closes a block holds it, so no block is closed twice.
-/

namespace SsaFlow

/-! ## Steps that succeed under a condition -/

/-- The result is there exactly if `ok`, and then it is as said; otherwise there is a complaint. -/
def Verdict {α : Type} (x : Except BuildError α) (ok : Prop) (post : α → Prop) : Prop :=
  match x with
  | .ok a => ok ∧ post a
  | .error e => ¬ ok ∧ ∃ i, e = .internal i

namespace Verdict

variable {α β : Type} {x : Except BuildError α} {ok ok' : Prop} {post : α → Prop}

/-- The second part is looked at only where the first succeeds, which it does if the whole does. -/
theorem bind {f : α → Except BuildError β} {post' : β → Prop} (hx : Verdict x ok post) (himp : ok' → ok)
    (hf : ok → ∀ a, post a → Verdict (f a) ok' post') : Verdict (x >>= f) ok' post' := by
  cases x with
  | ok a => exact hf hx.1 a hx.2
  | error e => exact ⟨fun h => hx.1 (himp h), hx.2⟩

theorem mono {post' : α → Prop} (hx : Verdict x ok post) (hok : ok ↔ ok') (hpost : ∀ a, post a → post' a) :
    Verdict x ok' post' := by
  cases x with
  | ok a => exact ⟨hok.mp hx.1, hpost a hx.2⟩
  | error e => exact ⟨fun h => hx.1 (hok.mpr h), hx.2⟩

end Verdict

namespace Lowering

variable {α β : Type} {s : LoweringState} {ok ok' : Prop}

/-- From `s` the step succeeds exactly if `ok`, and then it ends as said; otherwise it complains. -/
def Decides (s : LoweringState) (m : Lowering α) (ok : Prop) (post : α → LoweringState → Prop) : Prop :=
  Verdict (m s) ok fun r => post r.1 r.2

theorem Decides.bind {m : Lowering α} {f : α → Lowering β} {mid : α → LoweringState → Prop}
    {post : β → LoweringState → Prop} (hm : Decides s m ok mid) (himp : ok' → ok)
    (hf : ok → ∀ a s', mid a s' → Decides s' (f a) ok' post) : Decides s (m >>= f) ok' post :=
  Verdict.bind hm himp fun hok r hr => hf hok r.1 r.2 hr

/-- A step that always succeeds comes first. -/
theorem Decides.seq {m : Lowering α} {f : α → Lowering β} {mid : α → LoweringState → Prop}
    {post : β → LoweringState → Prop} (hm : Decides s m True mid)
    (hf : ∀ a s', mid a s' → Decides s' (f a) ok post) : Decides s (m >>= f) ok post :=
  hm.bind (fun _ => trivial) fun _ => hf

theorem Decides.mono {m : Lowering α} {post post' : α → LoweringState → Prop} (hm : Decides s m ok post)
    (hok : ok ↔ ok') (hpost : ∀ a s', post a s' → post' a s') : Decides s m ok' post' :=
  Verdict.mono hm hok fun r hr => hpost r.1 r.2 hr

theorem decides_pure {post : α → LoweringState → Prop} {a : α} (hok : ok) (ha : post a s) :
    Decides s (pure a) ok post := ⟨hok, ha⟩

theorem decides_fail {post : α → LoweringState → Prop} (i : InternalError) (hok : ¬ ok) :
    Decides s (fail i : Lowering α) ok post := ⟨hok, i, rfl⟩

theorem decides_lift {x : Except BuildError α} {post : α → Prop} (hx : Verdict x ok post) :
    Decides s (liftM x : Lowering α) ok fun a s' => s' = s ∧ post a := by
  cases x with
  | ok a => exact ⟨hx.1, rfl, hx.2⟩
  | error e => exact hx

end Lowering

/-! ## The open blocks -/

namespace LoweringState

def IsOpen (s : LoweringState) (b : BlockId) : Prop := b < s.graph.size ∧ (s.graph.jump b).isMissing = true

/-- The blocks of the labels that are not defined. -/
def undefined (s : LoweringState) : List BlockId :=
  (s.labels.filter fun p => !s.defined.contains p.1).map Prod.snd

/-- The state after the labels `defs` were defined and the labels `goals` were asked for: the open blocks
are the ones in `held` and those of undefined labels, each of them once. -/
structure Ledger (s : LoweringState) (numVars : Nat) (defs goals : List Name) (held : Multiset BlockId) :
    Prop where
  numVars : s.graph.numVars = numVars
  nodup : defs.Nodup
  defined : ∀ name, name ∈ s.defined ↔ name ∈ defs
  nodup_names : (s.labels.map Prod.fst).Nodup
  mem_names : ∀ name, name ∈ s.labels.map Prod.fst ↔ name ∈ defs ∨ name ∈ goals
  once : (held + (s.undefined : Multiset BlockId)).Nodup
  isOpen_iff : ∀ b, s.IsOpen b ↔ b ∈ held + (s.undefined : Multiset BlockId)

namespace Ledger

variable {s : LoweringState} {n : Nat} {defs goals : List Name} {held : Multiset BlockId} {b : BlockId}

/-- A change of the graph, with the blocks that are open then. -/
theorem of_graph (h : s.Ledger n defs goals held) {g : FlowGraph} (temps : Nat) {held' : Multiset BlockId}
    (hvars : g.numVars = s.graph.numVars) (honce : (held' + (s.undefined : Multiset BlockId)).Nodup)
    (hopen : ∀ b, b < g.size ∧ (g.jump b).isMissing = true ↔ b ∈ held' + (s.undefined : Multiset BlockId)) :
    Ledger { s with graph := g, temps := temps } n defs goals held' :=
  ⟨hvars.trans h.numVars, h.nodup, h.defined, h.nodup_names, h.mem_names, honce, hopen⟩

theorem isOpen (h : s.Ledger n defs goals ({b} + held)) : s.IsOpen b := by
  simp [h.isOpen_iff]

/-- A new block is open and is held from now on. -/
theorem addBlock (h : s.Ledger n defs goals held) :
    Ledger { s with graph := s.graph.addBlock } n defs goals ({s.graph.size} + held) := by
  refine h.of_graph s.temps rfl ?_ fun b => ?_
  · have hnew : ¬ s.IsOpen s.graph.size := fun hopen => Nat.lt_irrefl _ hopen.1
    rw [h.isOpen_iff] at hnew
    rw [add_assoc, Multiset.singleton_add, Multiset.nodup_cons]
    exact ⟨hnew, h.once⟩
  · rw [add_assoc, Multiset.singleton_add, Multiset.mem_cons, ← h.isOpen_iff, IsOpen,
      FlowGraph.size_addBlock, FlowGraph.jump_addBlock, Nat.lt_succ_iff_lt_or_eq]
    constructor
    · rintro ⟨hlt | heq, hmissing⟩
      · exact .inr ⟨hlt, hmissing⟩
      · exact .inl heq
    · rintro (rfl | ⟨hlt, hmissing⟩)
      · exact ⟨.inr rfl, by rw [FlowGraph.jump_of_size_le (Nat.le_refl _)]; rfl⟩
      · exact ⟨.inl hlt, hmissing⟩

/-- A block that gets its jump is no longer open. -/
theorem setJump (h : s.Ledger n defs goals ({b} + held)) {j : Jump} (hj : j.isMissing = false) :
    Ledger { s with graph := s.graph.setJump b j } n defs goals held := by
  have hopen := h.isOpen_iff
  have honce := h.once
  simp only [Multiset.singleton_add, Multiset.cons_add, Multiset.nodup_cons, Multiset.mem_cons] at honce hopen
  refine h.of_graph s.temps (FlowGraph.numVars_setJump _ _ _) honce.2 fun c => ?_
  rw [FlowGraph.size_setJump, FlowGraph.jump_setJump]
  by_cases hc : b = c
  · subst hc
    simp only [true_and]
    constructor
    · rintro ⟨hlt, hmissing⟩
      rw [if_pos hlt, hj] at hmissing
      exact nomatch hmissing
    · exact fun hb => absurd hb honce.1
  · rw [if_neg (fun h => hc h.1)]
    exact (hopen c).trans (or_iff_right (Ne.symm hc))

/-- A change of the labels that leaves the open blocks where they are. -/
theorem relabel (h : s.Ledger n defs goals held) {labels : List (Name × BlockId)} {defined defs' goals' : List Name}
    {held' : Multiset BlockId} (hnodup : defs'.Nodup) (hdefined : ∀ name, name ∈ defined ↔ name ∈ defs')
    (hnames : (labels.map Prod.fst).Nodup)
    (hmem : ∀ name, name ∈ labels.map Prod.fst ↔ name ∈ defs' ∨ name ∈ goals')
    (hheld : held' + (undefined { s with labels := labels, defined := defined } : Multiset BlockId) =
      held + (s.undefined : Multiset BlockId)) :
    Ledger { s with labels := labels, defined := defined } n defs' goals' held' :=
  ⟨h.numVars, hnodup, hdefined, hnames, hmem, hheld ▸ h.once, hheld ▸ h.isOpen_iff⟩

theorem regroup (h : s.Ledger n defs goals held) (held' : Multiset BlockId) (heq : held = held') :
    s.Ledger n defs goals held' := heq ▸ h

theorem append_nil (h : s.Ledger n defs goals held) : s.Ledger n (defs ++ []) (goals ++ []) held := by
  simpa using h

/-- Changes of a block that leave its jump alone. -/
theorem modify (h : s.Ledger n defs goals held) (b : BlockId) {f : Block → Block} (temps : Nat)
    (hf : ∀ blk, (f blk).jump = blk.jump) :
    Ledger { s with graph := s.graph.modify b f, temps := temps } n defs goals held := by
  refine h.of_graph temps rfl h.once fun c => ?_
  rw [FlowGraph.size_modify, s.graph.jump_modify b c hf]
  exact h.isOpen_iff c

end Ledger

end LoweringState

/-! ## Expressions -/

theorem variableRef_verdict (n : Nat) (v : VarId) : Verdict (variableRef n v) (v < n) fun _ => True := by
  unfold variableRef
  split
  · next h => exact ⟨h, trivial⟩
  · next h => exact ⟨h, _, rfl⟩

mutual

/-- An expression can be flattened exactly if it is fine. -/
theorem Expr.flatten_verdict {n temps : Nat} {e : Expr} (he : e.Complete) :
    Verdict (e.flatten n temps) (e.Fine n) fun _ => True := by
  obtain ⟨habsent, hparts⟩ := Expr.complete_iff.mp he
  match e with
  | .int value => exact ⟨Expr.fine_int value, trivial⟩
  | .var v =>
    rw [Expr.fine_var]
    exact (variableRef_verdict n v).bind id fun hv _ _ => ⟨hv, trivial⟩
  | .unary op operand =>
    rw [Expr.fine_unary]
    refine (Expr.flatten_verdict (hparts operand (by simp [Expr.parts]))).bind id fun hfine _ _ => ?_
    exact ⟨hfine, trivial⟩
  | .binary op lhs rhs =>
    rw [Expr.fine_binary]
    refine (Expr.flatten_verdict (hparts lhs (by simp [Expr.parts]))).bind And.left fun hl _ _ => ?_
    refine (Expr.flatten_verdict (hparts rhs (by simp [Expr.parts]))).bind And.right fun hr _ _ => ?_
    exact ⟨⟨hl, hr⟩, trivial⟩
  | .assign target op value =>
    rw [Expr.fine_assign]
    refine (variableRef_verdict n target).bind And.left fun ht _ _ => ?_
    refine (Expr.flatten_verdict (hparts value (by simp [Expr.parts]))).bind And.right fun hv _ _ => ?_
    cases op <;> exact ⟨⟨ht, hv⟩, trivial⟩
  | .step target op =>
    rw [Expr.fine_step]
    refine (variableRef_verdict n target).bind id fun ht _ _ => ?_
    split <;> exact ⟨ht, trivial⟩
  | .call callee args =>
    rw [Expr.fine_call]
    exact (Expr.flattenAll_verdict hparts).bind id fun hargs _ _ => ⟨hargs, trivial⟩
  | .comma first second =>
    rw [Expr.fine_comma]
    refine (Expr.flatten_verdict (hparts first (by simp [Expr.parts]))).bind And.left fun hl _ _ => ?_
    refine (Expr.flatten_verdict (hparts second (by simp [Expr.parts]))).bind And.right fun hr _ _ => ?_
    exact ⟨⟨hl, hr⟩, trivial⟩
  | .error span => exact ⟨Expr.not_fine_error, _, rfl⟩
  | .absent => exact absurd rfl habsent

theorem Expr.flattenAll_verdict {n temps : Nat} {es : List (Unit → Expr)} (hes : ∀ e ∈ es, (e ()).Complete) :
    Verdict (Expr.flattenAll n temps es) (∀ e ∈ es, (e ()).Fine n) fun _ => True := by
  match es with
  | [] => exact ⟨nofun, trivial⟩
  | e :: es =>
    simp only [List.forall_mem_cons] at hes ⊢
    refine (Expr.flatten_verdict hes.1).bind And.left fun hfirst _ _ => ?_
    refine (Expr.flattenAll_verdict hes.2).bind And.right fun hrest _ _ => ?_
    exact ⟨⟨hfirst, hrest⟩, trivial⟩

end

/-! ## Steps of lowering -/

namespace Lowering

variable {s : LoweringState} {n : Nat} {defs goals : List Name} {held : Multiset BlockId} {b : BlockId}

theorem decides_newBlock (h : s.Ledger n defs goals held) :
    Decides s newBlock True fun b s' => s'.Ledger n defs goals ({b} + held) := ⟨trivial, h.addBlock⟩

/-- Whoever holds a block can close it. -/
theorem decides_close (h : s.Ledger n defs goals ({b} + held)) {j : Jump} (hj : j.isMissing = false) :
    Decides s (close b j) True fun _ s' => s'.Ledger n defs goals held := by
  have hrun : close b j s = .ok ((), { s with graph := s.graph.setJump b j }) := if_pos h.isOpen.2
  unfold Decides
  rw [hrun]
  exact ⟨trivial, h.setJump hj⟩

theorem decides_append (h : s.Ledger n defs goals held) (b : BlockId) (instrs : Array Instr) :
    Decides s (append b instrs) True fun _ s' => s'.Ledger n defs goals held :=
  ⟨trivial, h.modify b s.temps fun _ => rfl⟩

theorem decides_beginStmt (h : s.Ledger n defs goals held) (b : BlockId) (span : Span) :
    Decides s (beginStmt b span) True fun _ s' => s'.Ledger n defs goals held :=
  ⟨trivial, h.modify b s.temps fun _ => rfl⟩

theorem decides_numVars (h : s.Ledger n defs goals held) : Decides s numVars True fun k s' => s' = s ∧ k = n :=
  ⟨trivial, rfl, h.numVars⟩

theorem decides_variableRef (h : s.Ledger n defs goals held) (v : VarId) :
    Decides s (liftM (variableRef n v) : Lowering VersionedVar) (v < n) fun _ s' =>
      s'.Ledger n defs goals held := by
  refine (decides_lift (variableRef_verdict n v)).mono Iff.rfl ?_
  rintro _ s ⟨rfl, -⟩
  exact h

/-- An expression can be computed exactly if it is fine. -/
theorem decides_compute (h : s.Ledger n defs goals held) (b : BlockId) {e : Unit → Expr} (he : (e ()).Complete) :
    Decides s (compute b e) ((e ()).Fine n) fun _ s' => s'.Ledger n defs goals held := by
  refine (decides_numVars h).seq ?_
  rintro k s ⟨rfl, rfl⟩
  have htemps : Decides s temps True fun _ s' => s' = s := ⟨trivial, rfl⟩
  refine htemps.seq ?_
  rintro t s rfl
  refine (decides_lift (Expr.flatten_verdict he)).bind id ?_
  rintro hfine ⟨instrs, value, t'⟩ s ⟨rfl, -⟩
  have hset : Decides s (modify fun s => { s with temps := t' } : Lowering Unit) True fun _ s' =>
      s'.Ledger k defs goals held := ⟨trivial, h.of_graph t' rfl h.once h.isOpen_iff⟩
  refine hset.seq fun _ s h => ?_
  exact (decides_append h b instrs).seq fun _ s h => decides_pure hfine h

theorem decides_computeOption (h : s.Ledger n defs goals held) (b : BlockId) {e : Option (Unit → Expr)}
    (he : ∀ x ∈ e.toList, (x ()).Complete) :
    Decides s (computeOption b e) (∀ x ∈ e.toList, (x ()).Fine n) fun _ s' => s'.Ledger n defs goals held := by
  cases e with
  | none => exact decides_pure nofun h
  | some e =>
    simp only [Option.toList_some, List.forall_mem_singleton] at he ⊢
    exact (decides_compute h b he).bind id fun hfine _ s h => decides_pure hfine h

/-- The declared variables are variables of the function, and the initial values are fine. -/
theorem decides_declareAll (h : s.Ledger n defs goals held) (b : BlockId)
    {ds : List (Declarator (Unit → Expr))} (hds : ∀ e ∈ ds.filterMap Declarator.init, (e ()).Complete) :
    Decides s (declareAll b ds)
      ((∀ v ∈ ds.map Declarator.var, v < n) ∧ ∀ e ∈ ds.filterMap Declarator.init, (e ()).Fine n)
      fun _ s' => s'.Ledger n defs goals held := by
  induction ds generalizing s with
  | nil => exact decides_pure ⟨nofun, nofun⟩ h
  | cons d ds ih =>
    rw [List.map_cons, List.forall_mem_cons]
    refine (decides_numVars h).seq ?_
    rintro k s ⟨rfl, rfl⟩
    refine (decides_variableRef h d.var).bind (fun hok => hok.1.1) fun hv x s h => ?_
    refine (decides_append h b _).seq fun _ s h => ?_
    cases hinit : d.init with
    | none =>
      rw [List.filterMap_cons_none hinit] at hds ⊢
      exact (ih h hds).mono (by tauto) fun _ _ h => h
    | some e =>
      rw [List.filterMap_cons_some hinit, List.forall_mem_cons] at hds ⊢
      refine (decides_compute h b hds.1).bind (fun hok => hok.2.1) fun hfine value s h => ?_
      refine (decides_append h b _).seq fun _ s h => ?_
      exact (ih h hds.2).mono (by tauto) fun _ _ h => h

theorem decides_startFor (h : s.Ledger n defs goals held) (b : BlockId) {init : ForInit (Unit → Expr)}
    (hinit : ∀ e ∈ init.exprs, (e ()).Complete) :
    Decides s (startFor b init) ((∀ v ∈ init.declared, v < n) ∧ ∀ e ∈ init.exprs, (e ()).Fine n)
      fun _ s' => s'.Ledger n defs goals held := by
  cases init with
  | nothing => exact decides_pure ⟨nofun, nofun⟩ h
  | decls ds => exact decides_declareAll h b hinit
  | expr e =>
    refine (decides_compute h b (hinit e List.mem_cons_self)).bind (fun hok => hok.2 e List.mem_cons_self)
      fun hfine _ s h => ?_
    exact decides_pure ⟨fun _ hv => absurd hv List.not_mem_nil, List.forall_mem_singleton.mpr hfine⟩ h

/-! ## Labels -/

theorem lookup_eq_none_iff_not_mem {κ : Type} [BEq κ] [LawfulBEq κ] {l : List (κ × BlockId)} {k : κ} :
    l.lookup k = none ↔ k ∉ l.map Prod.fst := by
  simp only [List.lookup_eq_none_iff, List.mem_map, not_exists, not_and, bne_iff_ne]
  exact ⟨fun h p hp heq => h p hp heq.symm, fun h p hp heq => h p hp heq.symm⟩

theorem mem_of_lookup {κ : Type} [BEq κ] [LawfulBEq κ] {l : List (κ × BlockId)} {k : κ} {b : BlockId}
    (h : l.lookup k = some b) : k ∈ l.map Prod.fst := by
  refine Classical.byContradiction fun hnot => ?_
  rw [lookup_eq_none_iff_not_mem.mpr hnot] at h
  exact nomatch h

/-- Where no key is there twice, lookup finds every entry. -/
theorem lookup_of_mem {κ : Type} [BEq κ] [LawfulBEq κ] {l : List (κ × BlockId)} {k : κ} {b : BlockId}
    (hnodup : (l.map Prod.fst).Nodup) (h : (k, b) ∈ l) : l.lookup k = some b := by
  induction l with
  | nil => exact nomatch h
  | cons p l ih =>
    rw [List.map_cons, List.nodup_cons] at hnodup
    rcases List.mem_cons.mp h with rfl | hmem
    · exact List.lookup_cons_self
    · have hne : (k == p.1) = false :=
        beq_eq_false_iff_ne.mpr fun heq => hnodup.1 (List.mem_map.mpr ⟨(k, b), hmem, heq⟩)
      rw [List.lookup_cons, hne]
      exact ih hnodup.2 hmem

/-- The block of a label is made when it is first asked for. -/
theorem blockOfLabel_eq (name : Name) : blockOfLabel name s = .ok (match s.labels.lookup name with
    | some b => (b, s)
    | none => (s.graph.size,
        { s with graph := s.graph.addBlock, labels := (name, s.graph.size) :: s.labels })) := by
  change (match s.labels.lookup name with
    | some b => (pure b : Lowering BlockId)
    | none => do
      let b ← newBlock
      modify fun s : LoweringState => { s with labels := (name, b) :: s.labels }
      return b) s = _
  cases s.labels.lookup name <;> rfl

/-- A label that is asked for is in the list from then on. -/
theorem decides_blockOfLabel (h : s.Ledger n defs goals held) (name : Name) :
    Decides s (blockOfLabel name) True fun _ s' => s'.Ledger n defs (goals ++ [name]) held := by
  unfold Decides
  rw [blockOfLabel_eq]
  refine ⟨trivial, ?_⟩
  cases hlookup : s.labels.lookup name with
  | some b =>
    have hname := mem_of_lookup hlookup
    refine { h with mem_names := fun k => ?_ }
    rw [h.mem_names] at hname ⊢
    rw [List.mem_append, List.mem_singleton]
    constructor
    · tauto
    · rintro (hk | hk | rfl)
      · exact .inl hk
      · exact .inr hk
      · exact hname
  | none =>
    have hname := lookup_eq_none_iff_not_mem.mp hlookup
    have hfree : name ∉ s.defined := fun hd => hname ((h.mem_names _).mpr (.inl ((h.defined _).mp hd)))
    refine h.addBlock.relabel h.nodup h.defined ?_ ?_ ?_
    · exact List.nodup_cons.mpr ⟨hname, h.nodup_names⟩
    · intro k
      rw [List.map_cons, List.mem_cons, h.mem_names, List.mem_append, List.mem_singleton]
      tauto
    · have hund : LoweringState.undefined { s with graph := s.graph.addBlock, labels := (name, s.graph.size) :: s.labels } =
          s.graph.size :: s.undefined := by simp [LoweringState.undefined, hfree]
      rw [hund, ← Multiset.cons_coe, ← Multiset.singleton_add, add_left_comm, add_assoc]
      rfl

/-- A label is defined once. -/
theorem decides_defineLabel (h : s.Ledger n defs goals held) (name : Name) (span : Span) :
    Decides s (defineLabel name span) (name ∉ defs) fun _ s' => s' = { s with defined := name :: s.defined } := by
  have hget : Decides s (get : Lowering LoweringState) True fun t s' => t = s ∧ s' = s := ⟨trivial, rfl, rfl⟩
  refine hget.seq ?_
  rintro _ s ⟨rfl, rfl⟩
  rw [← h.defined]
  split
  · next hname => exact decides_fail _ (by simpa using hname)
  · next hname => exact ⟨by simpa using hname, rfl⟩

theorem filter_defined {l : List (Name × BlockId)} {name : Name} (hname : name ∉ l.map Prod.fst)
    (defined : List Name) :
    (l.filter fun p => !(name :: defined).contains p.1) = l.filter fun p => !defined.contains p.1 := by
  refine List.filter_congr fun p hp => ?_
  have hne : p.1 ≠ name := fun heq => hname (List.mem_map.mpr ⟨p, hp, heq⟩)
  simp [hne]

/-- Once a label is defined, its block is no longer waiting for that. -/
theorem undefined_define {name : Name} {b : BlockId} (hnodup : (s.labels.map Prod.fst).Nodup)
    (hlookup : s.labels.lookup name = some b) (hname : name ∉ s.defined) :
    (s.undefined : Multiset BlockId) =
      {b} + (LoweringState.undefined { s with defined := name :: s.defined } : Multiset BlockId) := by
  obtain ⟨before, after, hlabels, -⟩ := List.lookup_eq_some_iff.mp hlookup
  rw [hlabels, List.map_append, List.map_cons] at hnodup
  have hperm := hnodup.perm List.perm_middle
  simp only [List.mem_append, not_or, List.nodup_cons] at hperm
  rw [LoweringState.undefined, LoweringState.undefined, hlabels]
  simp only [List.filter_append, List.filter_cons, filter_defined hperm.1.1, filter_defined hperm.1.2]
  simp [hname, ← Multiset.coe_add, Multiset.singleton_add, ← Multiset.cons_coe]

/-- Defining a label hands over its block. -/
theorem decides_blockOfLabel_of_define (h : s.Ledger n defs goals held) {name : Name} (hname : name ∉ defs) :
    Decides { s with defined := name :: s.defined } (blockOfLabel name) True fun b s' =>
      s'.Ledger n (defs ++ [name]) goals ({b} + held) := by
  have hnodup : (defs ++ [name]).Nodup := by
    simpa [List.nodup_append] using ⟨h.nodup, fun k hk heq => hname (heq ▸ hk)⟩
  have hdefined : ∀ k, k ∈ name :: s.defined ↔ k ∈ defs ++ [name] := by
    intro k
    simp [h.defined, or_comm]
  unfold Decides
  rw [blockOfLabel_eq]
  refine ⟨trivial, ?_⟩
  dsimp only
  cases hlookup : s.labels.lookup name with
  | some b =>
    -- the label was asked for before: its block counted as undefined and is held from now on
    have hmem := mem_of_lookup hlookup
    refine h.relabel hnodup hdefined h.nodup_names ?_ ?_
    · intro k
      rw [h.mem_names] at hmem ⊢
      simp only [List.mem_append, List.mem_singleton]
      constructor
      · tauto
      · rintro ((hk | rfl) | hk)
        · exact .inl hk
        · exact hmem
        · exact .inr hk
    · rw [undefined_define h.nodup_names hlookup (fun hd => hname ((h.defined _).mp hd)), add_left_comm, add_assoc]
  | none =>
    -- the label is new, and so is its block
    have hnew := lookup_eq_none_iff_not_mem.mp hlookup
    refine h.addBlock.relabel hnodup hdefined ?_ ?_ ?_
    · exact List.nodup_cons.mpr ⟨hnew, h.nodup_names⟩
    · intro k
      rw [List.map_cons, List.mem_cons, h.mem_names, List.mem_append, List.mem_singleton]
      tauto
    · have hund : LoweringState.undefined { s with
            graph := s.graph.addBlock, labels := (name, s.graph.size) :: s.labels, defined := name :: s.defined } =
          s.undefined := by
        rw [LoweringState.undefined, List.filter_cons_of_neg (by simp), filter_defined hnew]
        rfl
      rw [hund]
      rfl

/-! ## Labels of a switch -/

theorem complete_parts {stmt : Stmt} (h : stmt.Complete) {p : Unit → Stmt} (hp : p ∈ stmt.parts) :
    (p ()).Complete := (Stmt.complete_iff.mp h).2.2 p hp

mutual

/-- The labels that are gathered for a `switch` are its own. -/
theorem ownLabels_ok {stmt : Stmt} (h : stmt.Complete) :
    ∃ ls, ownLabels stmt = .ok ls ∧ ls.map Prod.fst = stmt.ownCases := by
  match stmt with
  | .case span v body =>
    obtain ⟨ls, hls, hmap⟩ := ownLabels_ok (complete_parts h List.mem_cons_self)
    refine ⟨(.value v, span) :: ls, ?_, ?_⟩
    · rw [ownLabels, hls]
      rfl
    · rw [List.map_cons, hmap]
      rfl
  | .default span body =>
    obtain ⟨ls, hls, hmap⟩ := ownLabels_ok (complete_parts h List.mem_cons_self)
    refine ⟨(.default, span) :: ls, ?_, ?_⟩
    · rw [ownLabels, hls]
      rfl
    · rw [List.map_cons, hmap]
      rfl
  | .block span body => exact ownLabelsAll_ok fun p hp => complete_parts h hp
  | .ifThen span cond body | .whileLoop span cond body | .doWhile span body cond | .label span name body
  | .forLoop span init cond step body =>
    have hbody := ownLabels_ok (complete_parts h List.mem_cons_self)
    exact hbody
  | .ifElse span cond thenBody elseBody =>
    obtain ⟨l, hl, hlmap⟩ := ownLabels_ok (complete_parts h List.mem_cons_self)
    obtain ⟨r, hr, hrmap⟩ := ownLabels_ok (complete_parts h (List.mem_cons_of_mem _ List.mem_cons_self))
    refine ⟨l ++ r, ?_, ?_⟩
    · rw [ownLabels, hl, hr]
      rfl
    · rw [List.map_append, hlmap, hrmap, Stmt.ownCases, Stmt.ownCases, ← List.filterMap_append]
      rfl
  | .absent => exact absurd rfl (Stmt.complete_iff.mp h).1
  | .expr span e | .decl span ds | .switch span e body | .breakOut span | .continueLoop span | .goto span name
  | .ret span value | .empty span | .error span => exact ⟨[], rfl, rfl⟩

/-- The labels of a `switch` can be collected whenever no part of the body is absent. -/
theorem ownLabelsAll_ok {stmts : List (Unit → Stmt)} (h : ∀ p ∈ stmts, (p ()).Complete) :
    ∃ ls, ownLabelsAll stmts = .ok ls ∧
      ls.map Prod.fst = (Stmt.outsideAll Stmt.isSwitch stmts).filterMap Stmt.caseLabel? := by
  match stmts with
  | [] => exact ⟨[], rfl, rfl⟩
  | stmt :: stmts =>
    obtain ⟨l, hl, hlmap⟩ := ownLabels_ok (h stmt List.mem_cons_self)
    obtain ⟨r, hr, hrmap⟩ := ownLabelsAll_ok fun p hp => h p (List.mem_cons_of_mem _ hp)
    refine ⟨l ++ r, ?_, ?_⟩
    · rw [ownLabelsAll, hl, hr]
      rfl
    · rw [List.map_append, hlmap, hrmap, Stmt.outsideAll, List.filterMap_append, Stmt.ownCases]

end

theorem ownLabels_verdict {stmt : Stmt} (h : stmt.Complete) :
    Verdict (ownLabels stmt) True fun ls => ls.map Prod.fst = stmt.ownCases := by
  obtain ⟨ls, hls, hmap⟩ := ownLabels_ok h
  rw [hls]
  exact ⟨trivial, hmap⟩

/-- Every label of a `switch` gets a block of its own, if no label is there twice. -/
theorem decides_openCases {cases : List (CaseLabel × BlockId)} {labels : List (CaseLabel × Span)}
    (h : s.Ledger n defs goals (((cases.map Prod.snd : List BlockId) : Multiset BlockId) + held))
    (hcases : (cases.map Prod.fst).Nodup) :
    Decides s (openCases cases labels) (cases.map Prod.fst ++ labels.map Prod.fst).Nodup fun cs s' =>
      cs.map Prod.fst = (cases.map Prod.fst).reverse ++ labels.map Prod.fst ∧
        s'.Ledger n defs goals (((cs.map Prod.snd : List BlockId) : Multiset BlockId) + held) := by
  induction labels generalizing s cases with
  | nil =>
    refine decides_pure (by simpa using hcases) ⟨by simp, ?_⟩
    rw [List.map_reverse, Multiset.coe_reverse]
    exact h
  | cons label labels ih =>
    obtain ⟨label, span⟩ := label
    have hperm : (cases.map Prod.fst ++ label :: labels.map Prod.fst).Perm
        (label :: cases.map Prod.fst ++ labels.map Prod.fst) := List.perm_middle
    rw [List.map_cons, hperm.nodup_iff]
    refine (decides_newBlock h).seq fun target s h => ?_
    have hany : (cases.any fun c => c.1 == label) = true ↔ label ∈ cases.map Prod.fst := by simp
    split
    · next hold =>
      refine decides_fail _ fun hnodup => ?_
      rw [List.cons_append, List.nodup_cons, List.mem_append] at hnodup
      exact hnodup.1 (.inl (hany.mp hold))
    · next hnew =>
      have hcases' := List.nodup_cons.mpr ⟨fun hmem => hnew (hany.mpr hmem), hcases⟩
      rw [← add_assoc] at h
      refine (@ih s ((label, target) :: cases) h hcases').mono Iff.rfl fun cs s ⟨hmap, h⟩ => ⟨?_, h⟩
      rw [hmap, List.map_cons, List.reverse_cons, List.append_assoc]
      rfl


/-! ## Jumps -/

theorem decides_targetOr (h : s.Ledger n defs goals held) (i : InternalError) (target : Option BlockId) :
    Decides s (targetOr i target) target.isSome fun _ s' => s'.Ledger n defs goals held := by
  cases target with
  | none => exact decides_fail i (by simp)
  | some t => exact decides_pure rfl h

theorem decides_caseTarget (h : s.Ledger n defs goals held) (scope : Scope) (span : Span) (label : CaseLabel) :
    Decides s (caseTarget scope span label) (scope.cases.lookup label).isSome fun t s' =>
      scope.cases.lookup label = some t ∧ s'.Ledger n defs goals held := by
  rw [caseTarget]
  cases hlookup : scope.cases.lookup label with
  | none => exact decides_fail _ (by simp)
  | some t => exact decides_pure rfl ⟨rfl, h⟩

/-- Leaving a block hands over the shadow in its place. -/
theorem decides_leave (h : s.Ledger n defs goals ({b} + held)) {j : BlockId → Jump}
    (hj : ∀ shadow, (j shadow).isMissing = false) {ok : Prop} (hok : ok) :
    Decides s (do
      let shadow ← newBlock
      close b (j shadow)
      return shadow) ok fun c s' => s'.Ledger n defs goals ({c} + held) := by
  refine (decides_newBlock h).seq fun shadow s h => ?_
  rw [add_left_comm] at h
  exact (decides_close h (hj shadow)).seq fun _ s h => decides_pure hok h

end Lowering

end SsaFlow
