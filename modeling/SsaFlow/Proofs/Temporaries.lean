-- SUMMARY: Every temporary is written once, and read only later in the same block.
import Mathlib
import SsaFlow.Proofs.Idempotence

/-!
# Temporaries

The code of an expression writes the temporaries from the first free one on, each once and in order, and
reads only temporaries that it has written before (`NumbersFrom`). A step of lowering adds such code at the
end of one block, or code that needs no new temporaries; what a jump reads was computed in its block, however
long ago. So in a lowered graph the temporaries in use are written once each, and a block reads only what it
has written itself. Pruning, phis and renaming leave temporaries alone.
-/

namespace SsaFlow

/-! ## Straight-line code -/

def writtenTemps (is : List Instr) : List TempId := is.filterMap Instr.temp?

/-- If the operand is a temporary, then the instructions write it. -/
def Operand.Available (is : List Instr) (op : Operand) : Prop := ∀ t, op = .temp t → t ∈ writtenTemps is

/-- Each instruction reads only temporaries that are written before it. -/
def SelfContained (is : List Instr) : Prop :=
  ∀ (k : Nat) (i : Instr), is[k]? = some i → ∀ op ∈ i.operands, op.Available (is.take k)

theorem writtenTemps_append (is js : List Instr) : writtenTemps (is ++ js) = writtenTemps is ++ writtenTemps js :=
  List.filterMap_append

theorem Operand.Available.of_subset {is js : List Instr} {op : Operand} (h : op.Available is)
    (hsub : ∀ t ∈ writtenTemps is, t ∈ writtenTemps js) : op.Available js := fun t ht => hsub t (h t ht)

theorem Operand.Available.append_right {is : List Instr} {op : Operand} (h : op.Available is) (js : List Instr) :
    op.Available (is ++ js) :=
  h.of_subset fun t ht => by
    rw [writtenTemps_append]
    exact List.mem_append_left _ ht

theorem Operand.Available.append_left {js : List Instr} {op : Operand} (h : op.Available js) (is : List Instr) :
    op.Available (is ++ js) :=
  h.of_subset fun t ht => by
    rw [writtenTemps_append]
    exact List.mem_append_right _ ht

theorem Operand.available_of_infix {is js : List Instr} {op : Operand} (h : op.Available is) (hsub : is <:+: js) :
    op.Available js := by
  obtain ⟨before, after, rfl⟩ := hsub
  exact (h.append_left before).append_right after

theorem Operand.available_const (is : List Instr) (c : Int) : (Operand.const c).Available is := nofun

theorem Operand.available_var (is : List Instr) (x : VersionedVar) : (Operand.var x).Available is := nofun

theorem selfContained_nil : SelfContained [] := nofun

/-- Code may be added that reads what was there before. -/
theorem SelfContained.append {is js : List Instr} (his : SelfContained is)
    (hjs : ∀ (k : Nat) (i : Instr), js[k]? = some i → ∀ op ∈ i.operands, op.Available (is ++ js.take k)) :
    SelfContained (is ++ js) := by
  intro k i hi op hop
  rcases Nat.lt_or_ge k is.length with hlt | hge
  · rw [List.getElem?_append_left hlt] at hi
    rw [List.take_append_of_le_length (Nat.le_of_lt hlt)]
    exact his k i hi op hop
  · rw [List.getElem?_append_right hge] at hi
    rw [List.take_append, List.take_of_length_le hge]
    exact hjs _ i hi op hop

theorem SelfContained.concat {is : List Instr} {i : Instr} (his : SelfContained is)
    (hi : ∀ op ∈ i.operands, op.Available is) : SelfContained (is ++ [i]) := by
  refine his.append fun k j hj op hop => ?_
  obtain ⟨rfl, rfl⟩ : k = 0 ∧ j = i := by
    cases k with
    | zero => exact ⟨rfl, (Option.some.inj hj).symm⟩
    | succ k => exact nomatch hj
  exact (hi op hop).append_right _

/-- The code writes the temporaries from `start` up to `stop`, and reads them only afterwards. -/
structure NumbersFrom (start : Nat) (is : Array Instr) (stop : Nat) : Prop where
  le : start ≤ stop
  writes : writtenTemps is.toList = List.range' start (stop - start)
  contained : SelfContained is.toList

namespace NumbersFrom

variable {start mid stop : Nat} {is js : Array Instr} {i : Instr}

theorem nil (start : Nat) : NumbersFrom start #[] start where
  le := Nat.le_refl start
  writes := by rw [Nat.sub_self]; rfl
  contained := selfContained_nil

/-- Two pieces of code, of which the second counts on from the first, make one such piece. -/
theorem append (h : NumbersFrom start is mid) (k : NumbersFrom mid js stop) :
    NumbersFrom start (is ++ js) stop where
  le := Nat.le_trans h.le k.le
  writes := by
    have hle := h.le
    have hsum : stop - start = (mid - start) + (stop - mid) := by
      have := k.le
      omega
    rw [Array.toList_append, writtenTemps_append, h.writes, k.writes, hsum, ← List.range'_append_1,
      Nat.add_sub_cancel' hle]
  contained := by
    rw [Array.toList_append]
    exact h.contained.append fun n i hi op hop => (k.contained n i hi op hop).append_left _

/-- An instruction that writes the next temporary. -/
theorem pushTemp (h : NumbersFrom start is stop) (htemp : i.temp? = some stop)
    (hops : ∀ op ∈ i.operands, op.Available is.toList) : NumbersFrom start (is.push i) (stop + 1) where
  le := Nat.le_succ_of_le h.le
  writes := by
    rw [Array.toList_push, writtenTemps_append, h.writes, Nat.succ_sub h.le, List.range'_1_concat,
      Nat.add_sub_cancel' h.le, writtenTemps, List.filterMap_cons_some htemp]
    rfl
  contained := by
    rw [Array.toList_push]
    exact h.contained.concat hops

/-- An instruction that writes no temporary. -/
theorem push (h : NumbersFrom start is stop) (htemp : i.temp? = none)
    (hops : ∀ op ∈ i.operands, op.Available is.toList) : NumbersFrom start (is.push i) stop where
  le := h.le
  writes := by
    rw [Array.toList_push, writtenTemps_append, h.writes, writtenTemps, List.filterMap_cons_none htemp]
    exact List.append_nil _
  contained := by
    rw [Array.toList_push]
    exact h.contained.concat hops

end NumbersFrom

/-- The temporary that an instruction has written is available after it. -/
theorem Operand.available_push {is : Array Instr} {i : Instr} {t : TempId} (htemp : i.temp? = some t) :
    (Operand.temp t).Available (is.push i).toList := by
  rintro _ ⟨⟩
  rw [Array.toList_push, writtenTemps_append, writtenTemps, writtenTemps, List.filterMap_cons_some htemp]
  exact List.mem_append_right _ List.mem_cons_self

/-! ## Expressions -/

theorem numbersFrom_stepInstrs (x : VersionedVar) (op : StepOp) (t : TempId) :
    NumbersFrom t (stepInstrs x op t) (t + 1) := by
  have hbinary : NumbersFrom t (#[].push (.binary t op.op (.var x) (.const 1))) (t + 1) :=
    (NumbersFrom.nil t).pushTemp rfl (by simp [Instr.operands, Operand.available_var, Operand.available_const])
  exact hbinary.push rfl (List.forall_mem_singleton.mpr (Operand.available_push rfl))

mutual

/-- The code of an expression numbers its temporaries from the first free one, and has computed the value. -/
theorem Expr.flatten_numbersFrom {numVars temps : Nat} {e : Expr} {r : Flattened Operand}
    (h : e.flatten numVars temps = .ok r) :
    NumbersFrom temps r.instrs r.temps ∧ r.value.Available r.instrs.toList := by
  match e with
  | .int value =>
    cases h
    exact ⟨.nil temps, Operand.available_const _ _⟩
  | .var id =>
    obtain ⟨x, -, h⟩ := Except.exists_of_bind h
    cases h
    exact ⟨.nil temps, Operand.available_var _ _⟩
  | .unary op operand =>
    obtain ⟨x, hx, h⟩ := Except.exists_of_bind h
    obtain ⟨hcode, hvalue⟩ := Expr.flatten_numbersFrom hx
    cases h
    exact ⟨hcode.pushTemp rfl (List.forall_mem_singleton.mpr hvalue), Operand.available_push rfl⟩
  | .binary op lhs rhs =>
    obtain ⟨x, hx, h⟩ := Except.exists_of_bind h
    obtain ⟨y, hy, h⟩ := Except.exists_of_bind h
    obtain ⟨hleft, hl⟩ := Expr.flatten_numbersFrom hx
    obtain ⟨hright, hr⟩ := Expr.flatten_numbersFrom hy
    cases h
    refine ⟨(hleft.append hright).pushTemp rfl ?_, Operand.available_push rfl⟩
    rw [Array.toList_append]
    exact List.forall_mem_cons.mpr ⟨hl.append_right _, List.forall_mem_singleton.mpr (hr.append_left _)⟩
  | .assign target op value =>
    obtain ⟨x, -, h⟩ := Except.exists_of_bind h
    obtain ⟨y, hy, h⟩ := Except.exists_of_bind h
    obtain ⟨hcode, hvalue⟩ := Expr.flatten_numbersFrom hy
    cases op with
    | none =>
      cases h
      exact ⟨hcode.push rfl (List.forall_mem_singleton.mpr hvalue), Operand.available_var _ _⟩
    | some op =>
      cases h
      refine ⟨(hcode.pushTemp rfl ?_).push rfl ?_, Operand.available_var _ _⟩
      · exact List.forall_mem_cons.mpr ⟨Operand.available_var _ _, List.forall_mem_singleton.mpr hvalue⟩
      · exact List.forall_mem_singleton.mpr (Operand.available_push rfl)
  | .step target op =>
    obtain ⟨x, -, h⟩ := Except.exists_of_bind h
    split at h
    · cases h
      have hcopy : NumbersFrom temps (#[].push (.copy temps (.var x))) (temps + 1) :=
        (NumbersFrom.nil temps).pushTemp rfl (List.forall_mem_singleton.mpr (Operand.available_var _ _))
      have hold : (Operand.temp temps).Available (#[].push (Instr.copy temps (.var x))).toList :=
        Operand.available_push rfl
      refine ⟨hcopy.append (numbersFrom_stepInstrs x op (temps + 1)), ?_⟩
      rw [Array.toList_append]
      exact hold.append_right _
    · cases h
      exact ⟨numbersFrom_stepInstrs x op temps, Operand.available_var _ _⟩
  | .call callee args =>
    obtain ⟨x, hx, h⟩ := Except.exists_of_bind h
    obtain ⟨hcode, hargs⟩ := Expr.flattenAll_numbersFrom hx
    cases h
    exact ⟨hcode.pushTemp rfl hargs, Operand.available_push rfl⟩
  | .comma first second =>
    obtain ⟨x, hx, h⟩ := Except.exists_of_bind h
    obtain ⟨y, hy, h⟩ := Except.exists_of_bind h
    obtain ⟨hfirst, -⟩ := Expr.flatten_numbersFrom hx
    obtain ⟨hsecond, hvalue⟩ := Expr.flatten_numbersFrom hy
    cases h
    refine ⟨hfirst.append hsecond, ?_⟩
    rw [Array.toList_append]
    exact hvalue.append_left _
  | .error span | .absent => exact nomatch h

theorem Expr.flattenAll_numbersFrom {numVars temps : Nat} {es : List (Unit → Expr)}
    {r : Flattened (List Operand)} (h : Expr.flattenAll numVars temps es = .ok r) :
    NumbersFrom temps r.instrs r.temps ∧ ∀ op ∈ r.value, op.Available r.instrs.toList := by
  match es with
  | [] =>
    cases h
    exact ⟨.nil temps, nofun⟩
  | e :: es =>
    obtain ⟨x, hx, h⟩ := Except.exists_of_bind h
    obtain ⟨y, hy, h⟩ := Except.exists_of_bind h
    obtain ⟨hfirst, hvalue⟩ := Expr.flatten_numbersFrom hx
    obtain ⟨hrest, hvalues⟩ := Expr.flattenAll_numbersFrom hy
    cases h
    refine ⟨hfirst.append hrest, ?_⟩
    rw [Array.toList_append]
    exact List.forall_mem_cons.mpr ⟨hvalue.append_right _, fun op hop => (hvalues op hop).append_left _⟩

end

/-! ## Steps of lowering -/

namespace LoweringState

variable {s s' : LoweringState} {b : BlockId}

/-- The temporaries in use are written once each, and blocks read what they have written before. -/
structure Numbered (s : LoweringState) : Prop where
  lt_iff : ∀ {t : TempId}, t < s.temps ↔ ∃ b, t ∈ writtenTemps (s.graph.block b).instrs.toList
  nodup : ∀ b, (writtenTemps (s.graph.block b).instrs.toList).Nodup
  apart : ∀ {b c : BlockId} {t : TempId}, t ∈ writtenTemps (s.graph.block b).instrs.toList →
    t ∈ writtenTemps (s.graph.block c).instrs.toList → b = c
  contained : ∀ b, SelfContained (s.graph.block b).instrs.toList
  operand : ∀ {b : BlockId} {op : Operand}, (s.graph.jump b).operand? = some op →
    op.Available (s.graph.block b).instrs.toList

theorem Computed.available {op : Operand} (h : s.Computed b op) :
    op.Available (s.graph.block b).instrs.toList := by
  obtain ⟨e, numVars, temps, r, hflatten, rfl, hcode⟩ := h
  exact Operand.available_of_infix (Expr.flatten_numbersFrom hflatten).2 hcode

/-- Where code, jumps and the number of temporaries stay, all stays as it is. -/
theorem Numbered.of_code_eq (h : s.Numbered) (htemps : s'.temps = s.temps)
    (hinstrs : ∀ b, (s'.graph.block b).instrs = (s.graph.block b).instrs)
    (hjump : ∀ b op, (s'.graph.jump b).operand? = some op → op.Available (s.graph.block b).instrs.toList) :
    s'.Numbered := by
  refine ⟨?_, fun b => ?_, ?_, fun b => ?_, fun {b op} hop => ?_⟩
  · simp only [hinstrs, htemps]
    exact h.lt_iff
  · rw [hinstrs]
    exact h.nodup b
  · simp only [hinstrs]
    exact h.apart
  · rw [hinstrs]
    exact h.contained b
  · rw [hinstrs]
    exact hjump b op hop

/-- Code is added at the end of a block that writes the next temporaries, if any. -/
theorem Numbered.append (h : s.Numbered) {is : Array Instr} {temps : Nat} (hle : s.temps ≤ temps)
    (hwrites : writtenTemps is.toList = List.range' s.temps (temps - s.temps))
    (hplace : b < s.graph.size ∨ temps = s.temps)
    (hcontained : SelfContained ((s.graph.block b).instrs.toList ++ is.toList)) :
    Numbered { s with
      graph := s.graph.modify b fun blk => { blk with instrs := blk.instrs ++ is }, temps := temps } := by
  -- new temporaries are above all that were in use
  have hold : ∀ {c t}, t ∈ writtenTemps (s.graph.block c).instrs.toList → t < s.temps := fun ht =>
    h.lt_iff.mpr ⟨_, ht⟩
  have hmem : ∀ {c t}, t ∈ writtenTemps ((s.graph.modify b fun blk =>
      { blk with instrs := blk.instrs ++ is }).block c).instrs.toList ↔
        t ∈ writtenTemps (s.graph.block c).instrs.toList ∨
          (b = c ∧ c < s.graph.size) ∧ s.temps ≤ t ∧ t < temps := by
    intro c t
    rw [instrs_append, writtenTemps_append, List.mem_append]
    split
    · next hc => rw [hwrites, List.mem_range'_1, Nat.add_sub_cancel' hle, and_iff_right hc]
    · next hc => simp [hc, writtenTemps]
  refine ⟨fun {t} => ?_, fun c => ?_, fun {c d t} hc hd => ?_, fun c => ?_, fun {c op} hop => ?_⟩
  · simp only [hmem]
    constructor
    · intro ht
      rcases Nat.lt_or_ge t s.temps with hlt | hge
      · obtain ⟨c, hc⟩ := h.lt_iff.mp hlt
        exact ⟨c, .inl hc⟩
      · have hb : b < s.graph.size := hplace.resolve_right fun heq =>
          Nat.lt_irrefl _ (Nat.lt_of_le_of_lt hge (heq ▸ ht))
        exact ⟨b, .inr ⟨⟨rfl, hb⟩, hge, ht⟩⟩
    · rintro ⟨c, hc | ⟨-, -, ht⟩⟩
      · exact Nat.lt_of_lt_of_le (hold hc) hle
      · exact ht
  · rw [instrs_append, writtenTemps_append]
    split
    · rw [hwrites]
      refine (h.nodup c).append List.nodup_range' fun t ht hnew => ?_
      exact Nat.not_lt.mpr (List.mem_range'_1.mp hnew).1 (hold ht)
    · exact (List.append_nil _).symm ▸ h.nodup c
  · rcases hmem.mp hc with hc | ⟨⟨rfl, -⟩, hge, -⟩
    · rcases hmem.mp hd with hd | ⟨-, hge, -⟩
      · exact h.apart hc hd
      · exact absurd (hold hc) (Nat.not_lt.mpr hge)
    · rcases hmem.mp hd with hd | ⟨⟨rfl, -⟩, -⟩
      · exact absurd (hold hd) (Nat.not_lt.mpr hge)
      · rfl
  · rw [instrs_append]
    split
    · next hc => exact hc.1 ▸ hcontained
    · exact (List.append_nil _).symm ▸ h.contained c
  · dsimp only at hop
    rw [FlowGraph.jump_modify _ _ _ (fun _ => by rfl)] at hop
    rw [instrs_append]
    exact (h.operand hop).append_right _

/-- No step of lowering writes a temporary a second time, or reads one that its block has not
written. -/
theorem Numbered.step (h : s.Numbered) (hstep : Step s s') : s'.Numbered := by
  cases hstep with
  | addBlock =>
    refine h.of_code_eq rfl (fun b => by rw [FlowGraph.block_addBlock]) fun b op hop => ?_
    rw [FlowGraph.jump_addBlock] at hop
    exact h.operand hop
  | close isOpen operand =>
    refine h.of_code_eq rfl (fun c => instrs_setJump _ _ c _) fun c op hop => ?_
    rw [FlowGraph.jump_setJump] at hop
    split at hop
    · next hc => exact hc.1 ▸ (operand op hop).available
    · exact h.operand hop
  | compute lt flatten =>
    obtain ⟨hcode, -⟩ := Expr.flatten_numbersFrom flatten
    refine h.append hcode.le hcode.writes (.inl lt) ((h.contained _).append fun k i hi op hop => ?_)
    exact (hcode.contained k i hi op hop).append_left _
  | write noTemp operands =>
    refine h.append (Nat.le_refl _) ?_ (.inr rfl) ((h.contained _).concat fun op hop => ?_)
    · rw [Nat.sub_self, writtenTemps, List.filterMap_cons_none noTemp]
      rfl
    · exact (operands op hop).available
  | note =>
    refine h.of_code_eq rfl (fun c => instrs_note _ _ c _) fun c op hop => ?_
    dsimp only at hop
    rw [FlowGraph.jump_modify _ _ _ (fun _ => by rfl)] at hop
    exact h.operand hop
  | relabel => exact h.of_code_eq rfl (fun _ => rfl) fun _ _ hop => h.operand hop

theorem Numbered.steps (h : s.Numbered) (hsteps : Steps s s') : s'.Numbered := by
  induction hsteps with
  | refl => exact h
  | tail _ hstep ih => exact ih.step hstep

theorem numbered_new (numVars : Nat) : Numbered { graph := .new numVars } := by
  have hblock : ∀ b, ((FlowGraph.new numVars).block b).instrs = #[] ∧
      (FlowGraph.new numVars).jump b = .missing := by
    intro b
    rcases Nat.eq_zero_or_pos b with rfl | hb
    · exact ⟨rfl, rfl⟩
    · rw [FlowGraph.jump, FlowGraph.block_of_size_le hb]
      exact ⟨rfl, rfl⟩
  refine ⟨fun {t} => ?_, fun b => ?_, fun {b c t} hb _ => ?_, fun b => ?_, fun {b op} hop => ?_⟩
  · simp [hblock, writtenTemps]
  · simp [hblock, writtenTemps]
  · simp [hblock, writtenTemps] at hb
  · simp [hblock, selfContained_nil]
  · rw [(hblock b).2] at hop
    cases hop

end LoweringState

/-! ## Places -/

namespace FlowGraph

/-- The instruction at a place writes the temporary. -/
def WritesTemp (g : FlowGraph) (t : TempId) (s : Site) : Prop :=
  ∃ i, g.instr? s = some i ∧ i.temp? = some t

/-- The instruction at a place, or the jump at the end of a block, reads the temporary. -/
def ReadsTemp (g : FlowGraph) (t : TempId) (s : Site) : Prop :=
  (∃ i, g.instr? s = some i ∧ .temp t ∈ i.operands) ∨
    s.point = .exit ∧ (g.jump s.block).operand? = some (.temp t)

/-- The blocks that are kept have no temporary in common, write each at most once, and read it later only. -/
structure TempsLocal (g : FlowGraph) (kept : BlockId → Prop) : Prop where
  lt : ∀ {t : TempId} {s : Site}, kept s.block → g.WritesTemp t s ∨ g.ReadsTemp t s → t < g.numTemps
  once : ∀ {t : TempId} {s s' : Site}, kept s.block → kept s'.block → g.WritesTemp t s →
    g.WritesTemp t s' → s = s'
  before : ∀ {t : TempId} {s : Site}, kept s.block → g.ReadsTemp t s →
    ∃ d, g.WritesTemp t d ∧ d.block = s.block ∧ d.point.before s.point = true

theorem exists_writesTemp {g : FlowGraph} {t : TempId} {b : BlockId} {k : Nat}
    (h : t ∈ writtenTemps ((g.block b).instrs.toList.take k)) :
    ∃ j < k, g.WritesTemp t ⟨b, .instr j⟩ := by
  obtain ⟨i, hi, htemp⟩ := List.mem_filterMap.mp h
  obtain ⟨j, hj, hi⟩ := List.mem_take_iff_getElem.mp hi
  refine ⟨j, ?_, i, ?_, htemp⟩
  · omega
  · rw [instr?, ← Array.getElem?_toList, ← hi]
    exact List.getElem?_eq_getElem _

theorem WritesTemp.exists_index {g : FlowGraph} {t : TempId} {s : Site} (h : g.WritesTemp t s) :
    ∃ k i, s.point = .instr k ∧ (g.block s.block).instrs.toList[k]? = some i ∧ i.temp? = some t := by
  obtain ⟨b, p⟩ := s
  obtain ⟨i, hi, htemp⟩ := h
  cases p with
  | phi | exit => exact nomatch hi
  | instr k => exact ⟨k, i, rfl, Array.getElem?_toList.trans hi, htemp⟩

theorem WritesTemp.mem {g : FlowGraph} {t : TempId} {s : Site} (h : g.WritesTemp t s) :
    t ∈ writtenTemps (g.block s.block).instrs.toList := by
  obtain ⟨k, i, -, hi, htemp⟩ := h.exists_index
  exact List.mem_filterMap.mpr ⟨i, List.mem_of_getElem? hi, htemp⟩

/-- Where each temporary is written once, it is written in one position. -/
theorem index_eq_of_nodup {is : List Instr} (h : (writtenTemps is).Nodup) {j k : Nat} {x y : Instr} {t : TempId}
    (hj : is[j]? = some x) (hx : x.temp? = some t) (hk : is[k]? = some y) (hy : y.temp? = some t) : j = k := by
  have hpair := List.pairwise_iff_getElem.mp (List.pairwise_filterMap.mp h)
  obtain ⟨hjlt, rfl⟩ := List.getElem?_eq_some_iff.mp hj
  obtain ⟨hklt, rfl⟩ := List.getElem?_eq_some_iff.mp hk
  rcases Nat.lt_trichotomy j k with hlt | heq | hgt
  · exact absurd rfl (hpair j k hjlt hklt hlt t hx t hy)
  · exact heq
  · exact absurd rfl (hpair k j hklt hjlt hgt t hy t hx)

end FlowGraph

open FlowGraph

/-- The temporaries of a graph under construction are single assignments within blocks. -/
theorem LoweringState.Numbered.tempsLocal {s : LoweringState} (h : s.Numbered) :
    TempsLocal { s.graph with numTemps := s.temps } fun _ => True := by
  -- a block reads what it has written itself, further up
  have hbefore : ∀ {t : TempId} {u : Site}, ReadsTemp { s.graph with numTemps := s.temps } t u →
      ∃ d, WritesTemp { s.graph with numTemps := s.temps } t d ∧ d.block = u.block ∧
        d.point.before u.point = true := by
    rintro t ⟨b, p⟩ (⟨i, hi, hread⟩ | ⟨hexit, hread⟩)
    · cases p with
      | phi | exit => exact nomatch hi
      | instr k =>
        have hi : (s.graph.block b).instrs.toList[k]? = some i := Array.getElem?_toList.trans hi
        obtain ⟨j, hlt, hwrite⟩ := exists_writesTemp (h.contained b k i hi _ hread t rfl)
        exact ⟨⟨b, .instr j⟩, hwrite, rfl, decide_eq_true hlt⟩
    · obtain rfl : p = .exit := hexit
      have hmem := h.operand hread t rfl
      rw [← List.take_length (l := (s.graph.block b).instrs.toList)] at hmem
      obtain ⟨j, -, hwrite⟩ := exists_writesTemp hmem
      exact ⟨⟨b, .instr j⟩, hwrite, rfl, rfl⟩
  refine ⟨fun {t u} _ hu => ?_, fun {t u v} _ _ hu hv => ?_, fun _ hu => hbefore hu⟩
  · rcases hu with hu | hu
    · exact h.lt_iff.mpr ⟨_, hu.mem⟩
    · obtain ⟨d, hd, -⟩ := hbefore hu
      exact h.lt_iff.mpr ⟨_, hd.mem⟩
  · obtain ⟨j, x, hj, hx, hxt⟩ := hu.exists_index
    obtain ⟨k, y, hk, hy, hyt⟩ := hv.exists_index
    have hblock : u.block = v.block := h.apart hu.mem hv.mem
    rw [hblock] at hx
    obtain rfl : j = k := index_eq_of_nodup (h.nodup v.block) hx hxt hy hyt
    obtain ⟨b, p⟩ := u
    obtain ⟨c, q⟩ := v
    obtain rfl : b = c := hblock
    obtain rfl : p = q := hj.trans hk.symm
    rfl

/-! ## Passes -/

theorem Operand.named_eq_temp_iff {N : Naming} {at_ : Site} {op : Operand} {t : TempId} :
    op.named N at_ = .temp t ↔ op = .temp t := by
  cases op <;> simp [Operand.named, Operand.mapVar]

theorem Instr.temp?_named (N : Naming) (at_ : Site) (i : Instr) : (i.named N at_).temp? = i.temp? := by
  cases i <;> rfl

namespace FlowGraph

variable {g q r : FlowGraph}

theorem numTemps_foldl {α : Type} {f : FlowGraph → α → FlowGraph} (hf : ∀ g a, (f g a).numTemps = g.numTemps)
    (l : List α) (g : FlowGraph) : (l.foldl f g).numTemps = g.numTemps :=
  List.foldlRecOn l f (motive := fun c => c.numTemps = g.numTemps) rfl fun c hc a _ => (hf c a).trans hc

theorem numTemps_setJump (g : FlowGraph) (p : BlockId) (j : Jump) : (g.setJump p j).numTemps = g.numTemps := by
  have hlink : ∀ g ss, (linkFrom p g ss).numTemps = g.numTemps := fun g ss =>
    numTemps_foldl (fun _ _ => by rfl) ss g
  have hunlink : ∀ g ss, (unlinkFrom p g ss).numTemps = g.numTemps := fun g ss =>
    numTemps_foldl (fun _ _ => by rfl) ss g
  exact (hlink _ _).trans (hunlink _ _)

theorem numTemps_detach (g : FlowGraph) (b : BlockId) : (g.detach b).numTemps = g.numTemps :=
  numTemps_setJump g b .missing

theorem numTemps_collapse (g : FlowGraph) (b target : BlockId) : (g.collapse b target).numTemps = g.numTemps :=
  (numTemps_detach _ b).trans (numTemps_foldl (fun g p => numTemps_setJump g p _) _ g)

theorem numTemps_prune (g : FlowGraph) : g.prune.1.numTemps = g.numTemps := by
  have hcollapsed : ∀ reached, (collapseAll reached g.forgetAnalyses).1.numTemps = g.numTemps := fun reached =>
    collapseAll_induction (P := fun c => c.numTemps = g.numTemps)
      (fun {c b target} hc _ => (numTemps_collapse c b target).trans hc) reached rfl
  exact (numTemps_foldl numTemps_detach _ _).trans (hcollapsed _)

theorem numTemps_addPhisFor (dom : Dominance) (sites : DefinitionSites) (p : FlowGraph × Nat) (v : VarId) :
    (addPhisFor dom sites p v).1.numTemps = p.1.numTemps := by
  obtain ⟨placed, hplaced⟩ := exists_placed_addPhisFor dom sites p.1 p.2 v
  rw [hplaced]
  exact numTemps_foldl (f := addPhi v) (fun _ _ => rfl) placed p.1

theorem numTemps_withPhis {n : Nat} (h : g.withPhis = .ok (q, n)) : q.numTemps = g.numTemps := by
  rw [withPhis_def] at h
  split at h
  · cases h
  · next dom _ =>
    split at h
    · cases h
    · next sites _ =>
      cases h
      exact List.foldlRecOn (b := (g, 0)) _ (addPhisFor dom sites)
        (motive := fun p => p.1.numTemps = g.numTemps) rfl
        fun p hp v _ => (numTemps_addPhisFor dom sites p v).trans hp

theorem numTemps_rename (g : FlowGraph) : g.rename.1.numTemps = g.numTemps :=
  Renaming.rename_induction (P := fun c => c.numTemps = g.numTemps) (fun _ _ _ _ hc => hc) (fun _ _ _ hc => hc) rfl

/-- The passes neither add temporaries nor forget any. -/
theorem Stages.numTemps_eq {ordered analysed placed : FlowGraph} {report : PassReport}
    (h : Stages g ordered analysed placed r report) : r.numTemps = g.numTemps := by
  have hordered : ordered.numTemps = g.prune.1.numTemps := by
    have hrun := h.ordering
    rw [withOrder_def] at hrun
    split at hrun <;> cases hrun
    rfl
  have hanalysed : analysed.numTemps = ordered.numTemps := by
    have hrun := h.dominance
    rw [withDominance_def] at hrun
    split at hrun <;> cases hrun
    rfl
  have hrenamed : placed.rename.1 = r := congrArg Prod.fst h.numbering
  rw [← hrenamed, numTemps_rename, numTemps_withPhis h.placement, hanalysed, hordered, numTemps_prune]

/-- Locality of temporaries depends only on who reads and writes them in the blocks that are kept. -/
theorem TempsLocal.transfer {kept kept' : BlockId → Prop} (h : g.TempsLocal kept)
    (hsub : ∀ {b}, kept' b → kept b) (htemps : r.numTemps = g.numTemps)
    (hwrites : ∀ {t s}, kept' s.block → (r.WritesTemp t s ↔ g.WritesTemp t s))
    (hreads : ∀ {t s}, kept' s.block → (r.ReadsTemp t s ↔ g.ReadsTemp t s)) : r.TempsLocal kept' where
  lt hs ht := by
    rw [hwrites hs, hreads hs] at ht
    exact htemps ▸ h.lt (hsub hs) ht
  once hs hs' ht ht' := h.once (hsub hs) (hsub hs') ((hwrites hs).mp ht) ((hwrites hs').mp ht')
  before hs ht := by
    obtain ⟨d, hd, hblock, hbefore⟩ := h.before (hsub hs) ((hreads hs).mp ht)
    exact ⟨d, (hwrites (hblock ▸ hs)).mpr hd, hblock, hbefore⟩

/-- Names do not touch temporaries. -/
theorem SsaForm.writesTemp_iff {order : List BlockId} {tree : DominatorTree} (h : SsaForm r q order tree)
    {t : TempId} {s : Site} (hs : Reachable q.Edge entry s.block) : r.WritesTemp t s ↔ q.WritesTemp t s := by
  unfold WritesTemp
  rw [h.instr? hs]
  simp [Instr.temp?_named]

/-- Renaming does not touch temporaries. -/
theorem SsaForm.readsTemp_iff {order : List BlockId} {tree : DominatorTree} (h : SsaForm r q order tree)
    {t : TempId} {s : Site} (hs : Reachable q.Edge entry s.block) : r.ReadsTemp t s ↔ q.ReadsTemp t s := by
  have hoperand : (r.jump s.block).operand? =
      (q.jump s.block).operand?.map (Operand.named (q.naming tree) ⟨s.block, .exit⟩) := by
    rw [h.jump hs]
    cases q.jump s.block <;> rfl
  unfold ReadsTemp
  rw [h.instr? hs, hoperand]
  simp [Instr.operands_named, Operand.named_eq_temp_iff]

/-- Pruning and phis leave the code of the blocks that are kept alone. -/
theorem Prepared.readsTemp_iff {order : List BlockId} {tree : DominatorTree} (h : Prepared g q order tree)
    (hg : g.Lowered) {t : TempId} {s : Site} (hs : Reachable q.Edge entry s.block) :
    q.ReadsTemp t s ↔ g.ReadsTemp t s := by
  obtain ⟨hpruned, hshrunk⟩ := hg.toFresh.prune
  rw [h.edge] at hs
  unfold ReadsTemp
  rw [h.instr?, h.jump, (hshrunk.operand (hpruned.kept_iff.mpr hs).2).1]

theorem Prepared.writesTemp_iff {order : List BlockId} {tree : DominatorTree} (h : Prepared g q order tree)
    {t : TempId} {s : Site} : q.WritesTemp t s ↔ g.WritesTemp t s := by
  unfold WritesTemp
  rw [h.instr?]

end FlowGraph

/-- Temporaries are written once and used within one block. In a lowered graph each temporary in use is
written at exactly one place, no other temporary occurs, and where one is read it was written before in the
same block. The same is true of the blocks that are left in the result of a build, except that the place
where a temporary is written may be gone. -/
theorem Function.temporaries_local {fn : Function} {g : FlowGraph} (hg : fn.lower = .ok g) :
    (∀ t < g.numTemps, ∃! s, g.WritesTemp t s) ∧ g.TempsLocal (fun _ => True) ∧
      ∀ config queue r, (fn.build config queue).2 = .ok r → r.TempsLocal (· ∈ r.liveIds) := by
  have hlocal : g.TempsLocal fun _ => True := by
    obtain ⟨s, hsteps, rfl⟩ := Function.lower_steps hg
    exact ((LoweringState.numbered_new fn.numVars).steps hsteps).tempsLocal
  refine ⟨fun t ht => ?_, hlocal, fun config queue r hbuild => ?_⟩
  · obtain ⟨s, hsteps, rfl⟩ := Function.lower_steps hg
    obtain ⟨b, hb⟩ := ((LoweringState.numbered_new fn.numVars).steps hsteps).lt_iff.mp ht
    rw [← List.take_length (l := (s.graph.block b).instrs.toList)] at hb
    obtain ⟨j, -, hwrite⟩ := exists_writesTemp hb
    exact ⟨⟨b, .instr j⟩, hwrite, fun u hu => hlocal.once trivial trivial hu hwrite⟩
  · rw [Function.build_eq hg] at hbuild
    rcases (Function.lowered hg).toSsa_cases config.verify with
      ⟨v, hrun, -⟩ | ⟨-, ⟨v, b, hrun, -⟩ | ⟨-, r', q, order, tree, hrun, hq, hr⟩⟩
    · rw [hrun] at hbuild
      cases hbuild
    · rw [hrun] at hbuild
      cases hbuild
    · rw [hrun] at hbuild
      cases hbuild
      obtain ⟨_, _, _, _, hstages⟩ := exists_stages_of_toSsa hrun
      refine hlocal.transfer (fun _ => trivial) hstages.numTemps_eq (fun hs => ?_) fun hs => ?_
      · exact (hr.writesTemp_iff (hr.mem_liveIds_iff.mp hs)).trans hq.writesTemp_iff
      · have hreach := hr.mem_liveIds_iff.mp hs
        exact (hr.readsTemp_iff hreach).trans (hq.readsTemp_iff (Function.lowered hg) hreach)

/-- The function `while (a < 3) a += 1;`. -/
def countToThree : Function :=
  let span : Span := ⟨0, 1⟩
  { name := ⟨0⟩, params := [0], numVars := 1, body := 1, span := span
    exprs := #[⟨span, .var 0⟩, ⟨span, .int 3⟩, ⟨span, .binary .lt 0 1⟩, ⟨span, .int 1⟩,
      ⟨span, .assign 0 (some .add) 3⟩]
    stmts := #[⟨span, .expr 4⟩, ⟨span, .whileLoop 2 0⟩] }

/-- The condition is computed in the loop's header 1 before the body is lowered; the header's jump, which is
set after that, still finds it there. -/
theorem temporaries_local_countToThree :
    ∃ g r, countToThree.lower = .ok g ∧ (countToThree.build .standard {}).2 = .ok r ∧
      (0 < g.numTemps ∧ ∃! s, g.WritesTemp 0 s) ∧
      (1 ∈ r.liveIds ∧ r.ReadsTemp 0 ⟨1, .exit⟩ ∧
        ∃ d, r.WritesTemp 0 d ∧ d.block = 1 ∧ d.point.before .exit = true) := by
  obtain ⟨g, hg, htemps⟩ : ∃ g, countToThree.lower = .ok g ∧ g.numTemps = 2 := by
    refine Except.exists_ok_of_decide ?_
    cbv
  obtain ⟨r, hr, hlive, hread⟩ : ∃ r, (countToThree.build .standard {}).2 = .ok r ∧ 1 ∈ r.liveIds ∧
      (r.jump 1).operand? = some (.temp 0) := by
    refine Except.exists_ok_of_decide ?_
    cbv
  obtain ⟨hunique, -, hbuilt⟩ := Function.temporaries_local hg
  have hlocal := hbuilt .standard {} r hr
  have hpos : 0 < g.numTemps := htemps ▸ Nat.two_pos
  have hreads : r.ReadsTemp 0 ⟨1, .exit⟩ := .inr ⟨rfl, hread⟩
  exact ⟨g, r, hg, hr, ⟨hpos, hunique 0 hpos⟩, hlive, hreads, hlocal.before hlive hreads⟩

end SsaFlow
