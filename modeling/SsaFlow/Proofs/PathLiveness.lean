-- SUMMARY: A value is live at the start of a block exactly if a path from there reads it before it is defined.
import SsaFlow.Proofs.LivenessDominance
import SsaFlow.Proofs.Unrewired

/-!
# Liveness along paths

The rules of liveness carry a value from a block back to the blocks before it, one edge at a time. Put
together, the edges are a path along which nothing defines the value, up to a block that needs it
(`FlowGraph.liveIn_iff`). The paths run through the blocks that the liveness pass looks at, which are the listed
ones. A path can leave these only for a block that was removed.
-/

namespace SsaFlow

/-- In a phi whose predecessors ascend, each has the value of its one slot. -/
theorem Phi.incoming?_eq_some_iff {φ : Phi} (h : φ.preds.Pairwise (· < ·)) {p : BlockId} {v : VersionedVar} :
    φ.incoming? p = some v ↔ (p, v) ∈ φ.slots := by
  obtain ⟨target, slots⟩ := φ
  simp only [preds, incoming?] at h ⊢
  induction slots with
  | nil => simp
  | cons slot slots ih =>
    obtain ⟨q, x⟩ := slot
    rw [List.map_cons, List.pairwise_cons] at h
    rw [List.lookup_cons, List.mem_cons, Prod.mk.injEq]
    by_cases hq : p = q
    · subst hq
      have hlater : (p, v) ∉ slots := fun hv => Nat.lt_irrefl p (h.1 p (List.mem_map_of_mem hv))
      simp [hlater, eq_comm]
    · rw [beq_false_of_ne hq, or_iff_right fun hpq => hq hpq.1]
      exact ih h.2

namespace FlowGraph

/-- A phi where control can go from `p` takes the value from `p`. -/
def TakenFrom (g : FlowGraph) (p : BlockId) (v : VersionedVar) : Prop :=
  ∃ s, g.Edge p s ∧ ∃ φ ∈ (g.block s).phis, (p, v) ∈ φ.slots

theorem mem_handedOn_iff {g : FlowGraph} (h : ∀ b, ∀ φ ∈ (g.block b).phis, φ.preds.Pairwise (· < ·))
    {b : BlockId} {v : VersionedVar} : v ∈ g.handedOn b ↔ v.isBound = true ∧ g.TakenFrom b v := by
  rw [mem_handedOn]
  refine and_congr_right fun _ => exists_congr fun s => and_congr_right fun _ => ?_
  exact exists_congr fun φ => and_congr_right fun hφ => Phi.incoming?_eq_some_iff (h s φ hφ)

/-! ## Paths -/

/-- The block needs the value from before: it reads it first, or it hands it on without defining it. -/
def Needs (g : FlowGraph) (b : BlockId) (v : VersionedVar) : Prop :=
  (g.block b).ReadsFirst v ∨ ¬ (g.block b).Defines v ∧ g.TakenFrom b v

/-- A path of listed blocks leads from `b`, through blocks that do not define the value, to one that needs it. -/
def NeededFrom (g : FlowGraph) (order : List BlockId) (v : VersionedVar) (b : BlockId) : Prop :=
  ∃ path last, Walk g.Edge b path last ∧ (∀ c ∈ path, c ∈ order) ∧
    (∀ c ∈ path.tail, ¬ (g.block c).Defines v) ∧ g.Needs last v

section Paths

variable {g : FlowGraph} {order : List BlockId} {v : VersionedVar} {b : BlockId}

/-- A need is carried back through a block that does not define the value. -/
theorem NeededFrom.carried {c : BlockId} (h : g.NeededFrom order v c) (hb : b ∈ order) (he : g.Edge b c)
    (hnot : ¬ (g.block b).Defines v) : g.NeededFrom order v b := by
  obtain ⟨path, last, hpath, hlisted, hundefined, hneeds⟩ := h
  refine ⟨path ++ [b], last, hpath.prepend he, ?_, ?_, hneeds⟩
  · intro a ha
    rcases List.mem_append.mp ha with ha | ha
    · exact hlisted a ha
    · exact List.mem_singleton.mp ha ▸ hb
  · intro a ha
    rw [List.tail_append_of_ne_nil (List.ne_nil_of_mem hpath.end_mem)] at ha
    rcases List.mem_append.mp ha with ha | ha
    · exact hundefined a ha
    · exact List.mem_singleton.mp ha ▸ hnot

/-- Where edges do not leave the listed blocks, every path counts. -/
theorem neededFrom_iff (hclosed : ∀ {a c : BlockId}, a ∈ order → g.Edge a c → c ∈ order) (hb : b ∈ order) :
    g.NeededFrom order v b ↔ ∃ path last, Walk g.Edge b path last ∧
      (∀ c ∈ path.tail, ¬ (g.block c).Defines v) ∧ g.Needs last v := by
  constructor
  · rintro ⟨path, last, hpath, -, hundefined, hneeds⟩
    exact ⟨path, last, hpath, hundefined, hneeds⟩
  · rintro ⟨path, last, hpath, hundefined, hneeds⟩
    refine ⟨path, last, hpath, ?_, hundefined, hneeds⟩
    clear hundefined hneeds
    induction hpath with
    | start => exact fun c hc => List.mem_singleton.mp hc ▸ hb
    | step hl he ih => exact List.forall_mem_cons.mpr ⟨hclosed (ih _ hl.end_mem) he, ih⟩

/-- Liveness is carried back along a path on which nothing defines the value. -/
theorem LiveIn.of_walk {path : List BlockId} {last : BlockId} (h : g.LiveIn order v last)
    (hpath : Walk g.Edge b path last) (hlisted : ∀ c ∈ path, c ∈ order)
    (hundefined : ∀ c ∈ path.tail, ¬ (g.block c).Defines v) : g.LiveIn order v b := by
  induction hpath with
  | start => exact h
  | @step l a c hl he ih =>
    have ha : a ∈ l := hl.end_mem
    have hlive : g.LiveIn order v a :=
      .carried h (hlisted a (List.mem_cons_of_mem c ha)) he fun hv =>
        hundefined a ha (Block.mem_defined_scan.mp hv)
    exact ih hlive (fun d hd => hlisted d (List.mem_cons_of_mem c hd))
      fun d hd => hundefined d (List.mem_of_mem_tail hd)

/-- The rules of liveness say what the paths say. -/
theorem liveIn_iff (h : ∀ b, ∀ φ ∈ (g.block b).phis, φ.preds.Pairwise (· < ·)) :
    g.LiveIn order v b ↔ v.isBound = true ∧ g.NeededFrom order v b := by
  constructor
  · intro hlive
    induction hlive with
    | @read b hb hread =>
      obtain ⟨hbound, hread⟩ := Block.mem_exposed_scan.mp hread
      refine ⟨hbound, [b], b, .start, ?_, nofun, .inl hread⟩
      exact fun c hc => List.mem_singleton.mp hc ▸ hb
    | @taken b hb htaken hnot =>
      obtain ⟨hbound, htaken⟩ := (mem_handedOn_iff h).mp htaken
      refine ⟨hbound, [b], b, .start, ?_, nofun, .inr ⟨mt Block.mem_defined_scan.mpr hnot, htaken⟩⟩
      exact fun c hc => List.mem_singleton.mp hc ▸ hb
    | carried _ hb he hnot ih =>
      exact ⟨ih.1, ih.2.carried hb he (mt Block.mem_defined_scan.mpr hnot)⟩
  · rintro ⟨hbound, path, last, hpath, hlisted, hundefined, hneeds⟩
    have hlast : last ∈ order := hlisted last hpath.end_mem
    refine LiveIn.of_walk ?_ hpath hlisted hundefined
    rcases hneeds with hread | ⟨hnot, htaken⟩
    · exact .read hlast (Block.mem_exposed_scan.mpr ⟨hbound, hread⟩)
    · exact .taken hlast ((mem_handedOn_iff h).mpr ⟨hbound, htaken⟩) (mt Block.mem_defined_scan.mp hnot)

end Paths

/-- The liveness of a pruned and ordered graph whose edges stayed, whatever its blocks have come to hold, is
computed by sweeps of which the last changes nothing, and it is what the paths say.

The paths run through listed blocks. These are closed under edges, except that a removed block may have been
connected again: a path through it does not count, while blocks behind it may be listed although no listed block
leads there. If removed blocks were left alone, the listed blocks are the reachable ones and all paths count. -/
theorem liveness_along_paths {g g' : FlowGraph} (hg : g.Attainable) (hg' : Unrewired g.prune.1 g')
    (hordered : g'.isOrdered = true) (hslots : ∀ b, ∀ φ ∈ (g'.block b).phis, φ.preds.Pairwise (· < ·)) :
    ∃ order l, g'.reachable = some order ∧ g'.liveness = .ok l ∧
      g'.sweep (g'.scans order) order l = (l, false) ∧
      entry ∈ order ∧ (∀ a ∈ order, ∀ b, g'.Edge a b → (g'.block b).removed = false → b ∈ order) ∧
      (∀ b ∈ order, ∀ v : VersionedVar, v.isBound = true →
        (v ∈ l.liveIn.getD b ∅ ↔ g'.NeededFrom order v b) ∧
        (v ∈ l.liveOut.getD b ∅ ↔ (∃ s, g'.Edge b s ∧ v ∈ l.liveIn.getD s ∅) ∨ g'.TakenFrom b v)) ∧
      (∀ b, b ∉ order → l.liveIn.getD b ∅ = ∅ ∧ l.liveOut.getD b ∅ = ∅) ∧
      (∀ b, ∀ v : VersionedVar, v.isBound = false → v ∉ l.liveIn.getD b ∅ ∧ v ∉ l.liveOut.getD b ∅) ∧
      (g.Intact → (∀ b, b ∈ order ↔ Reachable g'.Edge entry b) ∧
        ∀ b ∈ order, ∀ v, g'.NeededFrom order v b ↔ ∃ path last, Walk g'.Edge b path last ∧
          (∀ c ∈ path.tail, ¬ (g'.block c).Defines v) ∧ g'.Needs last v) := by
  have hstart := hg.linked.prune
  have hfits := hg.fits hg'
  obtain ⟨order, hlisted, -, hkept, hcomplete⟩ := hfits.listed
  obtain ⟨front, rest, hlisting⟩ := hfits.listing hordered
  have hlt : ∀ b ∈ order, b < g'.size := fun b hb => Nat.lt_of_lt_of_le (hkept hb).1 hfits.refilled.size_le
  obtain ⟨l, hl, hsweep, hin, hout⟩ := liveness_exact hlisted hordered hlt
  refine ⟨order, l, hlisted, hl, hsweep, ?_, ?_, ?_, ?_, ?_, ?_⟩
  · obtain ⟨more, hmore⟩ := hlisting.head
    cases hlisted.symm.trans hlisting.listed
    exact List.mem_append_left rest (hmore ▸ List.mem_cons_self)
  · intro a _ b he hb
    rw [hfits.refilled.edge] at he
    rw [hfits.refilled.removed (hstart.edge_lt he)] at hb
    exact hcomplete (hstart.edge_lt he) hb
  · intro b hb v hbound
    refine ⟨hin.trans ((liveIn_iff hslots).trans (and_iff_right hbound)), ?_⟩
    rw [hout, LiveOut, and_iff_right hb, mem_handedOn_iff hslots, and_iff_right hbound, or_comm]
    simp only [hin]
    rfl
  · intro b hb
    exact ⟨Std.ExtTreeSet.eq_empty_iff_forall_not_mem.mpr fun v hv => hb (hin.mp hv).mem,
      Std.ExtTreeSet.eq_empty_iff_forall_not_mem.mpr fun v hv => hb (hout.mp hv).1⟩
  · intro b v hunbound
    have hnot : ∀ {c}, v ∉ l.liveIn.getD c ∅ := by
      intro c hv
      have hbound := ((liveIn_iff hslots).mp (hin.mp hv)).1
      rw [hunbound] at hbound
      exact nomatch hbound
    refine ⟨hnot, fun hv => ?_⟩
    obtain ⟨-, htaken | ⟨c, -, hc⟩⟩ := hout.mp hv
    · have hbound := (mem_handedOn.mp htaken).1
      rw [hunbound] at hbound
      exact nomatch hbound
    · exact hnot (hin.mpr hc)
  · intro hintact
    have hreached : ∀ {b}, b ∈ order ↔ Reachable g'.Edge entry b := hfits.mem_iff_reachable hintact hlisted
    refine ⟨fun _ => hreached, fun b hb v => neededFrom_iff (fun ha he => ?_) hb⟩
    exact hreached.mpr ((hreached.mp ha).step he)

/-- The parameter is live in the loop, which does not read it; the counter is live at the end of the loop only. -/
theorem liveness_along_paths_paramLoop :
    ∃ g' l, (fillParamLoop paramLoop.prune.1).withOrder = .ok g' ∧ g'.liveness = .ok l ∧
      ⟨0, 1⟩ ∈ l.liveIn.getD 1 ∅ ∧ ⟨1, 2⟩ ∈ l.liveOut.getD 1 ∅ ∧ ⟨1, 2⟩ ∉ l.liveIn.getD 1 ∅ := by
  obtain ⟨g', horder, hordered, hlisted, hall, hloop, hread, hdefined, hphis, hend, hinstrs, hjump⟩ :
      ∃ g', (fillParamLoop paramLoop.prune.1).withOrder = .ok g' ∧ g'.isOrdered = true ∧ g'.reachable = some [0, 1, 2] ∧
        (∀ b ∈ List.range g'.size, ∀ φ ∈ (g'.block b).phis, φ.preds.Pairwise (· < ·)) ∧
        g'.targets 1 = [1, 2] ∧ (g'.block 1).scan.exposed = ∅ ∧
        (g'.block 1).scan.defined.toList = [⟨1, 1⟩, ⟨1, 2⟩] ∧
        (g'.block 1).phis = [⟨⟨1, 1⟩, [(0, ⟨0, 1⟩), (1, ⟨1, 2⟩)]⟩] ∧
        (g'.block 2).phis = [] ∧ (g'.block 2).instrs = #[] ∧ (g'.block 2).jump.used? = some ⟨0, 1⟩ := by
    refine Except.exists_ok_of_decide ?_
    cbv
  have hslots : ∀ b, ∀ φ ∈ (g'.block b).phis, φ.preds.Pairwise (· < ·) := by
    intro b φ hφ
    by_cases hb : b < g'.size
    · exact hall b (List.mem_range.mpr hb) φ hφ
    · rw [block_of_size_le (Nat.le_of_not_lt hb)] at hφ
      cases hφ
  have hunrewired : Unrewired paramLoop.prune.1 g' := .order (unrewired_fillParamLoop _) horder
  obtain ⟨order, l, hlist, hl, -, -, -, hlive, -⟩ :=
    liveness_along_paths (g := paramLoop) (.applyAll (.start (.new 2)) _) hunrewired hordered hslots
  cases hlist.symm.trans hlisted
  refine ⟨g', l, horder, hl, ?_, ?_, ?_⟩
  · refine (hlive 1 (by decide) ⟨0, 1⟩ rfl).1.mpr ⟨[2, 1], 2, .step .start ?_, by decide, ?_, .inl ⟨?_, .inr ?_⟩⟩
    · rw [Edge, hloop]
      decide
    · intro c hc hdefines
      obtain rfl : c = 1 := List.mem_singleton.mp hc
      rw [← Block.mem_defined_scan, ← Std.ExtTreeSet.mem_toList, hdefined] at hdefines
      revert hdefines
      decide
    · rw [hend]
      exact fun _ hφ => absurd hφ List.not_mem_nil
    · rw [hinstrs, hjump]
      exact ⟨rfl, fun _ hi => absurd hi (Array.not_mem_empty _)⟩
  · refine (hlive 1 (by decide) ⟨1, 2⟩ rfl).2.mpr (.inr ⟨1, ?_, _, hphis ▸ List.mem_singleton_self _, by decide⟩)
    rw [Edge, hloop]
    decide
  · rw [(hlive 1 (by decide) ⟨1, 2⟩ rfl).1]
    rintro ⟨path, last, hpath, -, hundefined, hneeds⟩
    have hdefines : (g'.block 1).Defines ⟨1, 2⟩ := by
      rw [← Block.mem_defined_scan, ← Std.ExtTreeSet.mem_toList, hdefined]
      decide
    cases hpath with
    | start =>
      rcases hneeds with hfirst | hneeds
      · have hfirst := Block.mem_exposed_scan.mpr ⟨rfl, hfirst⟩
        rw [hread] at hfirst
        exact Std.ExtTreeSet.not_mem_empty hfirst
      · exact hneeds.1 hdefines
    | step hl _ => exact hundefined 1 hl.root_mem hdefines

end FlowGraph

end SsaFlow
