-- SUMMARY: The name of a use is the name of the nearest definition before it; names tell definitions apart.
import SsaFlow.Proofs.Renaming

/-!
# Reaching definitions

Blocks are renamed dominators first, so definitions are listed in an order that never runs against
`Before`. The latest definition that reaches a place is therefore the nearest one: all others that reach
it come before that one.
-/

namespace SsaFlow.FlowGraph

open Renaming
open Definitions hiding none

/-- A phi, a parameter or an assignment defines `v` at a reachable place. -/
def DefinesAt (g : FlowGraph) (v : VarId) (s : Site) : Prop :=
  (s.point = .phi ∧ Reachable g.Edge entry s.block ∧ ∃ φ ∈ (g.block s.block).phis, φ.var = v) ∨ g.Writes v s

/-- Among the definitions of `v` before a place, `s` is the last one. -/
def Nearest (g : FlowGraph) (v : VarId) (at_ s : Site) : Prop :=
  g.DefinesAt v s ∧ g.Before s at_ ∧ ∀ t, g.DefinesAt v t → g.Before t at_ → t = s ∨ g.Before t s

theorem DefinesAt.reachable {g : FlowGraph} {v : VarId} {s : Site} (h : g.DefinesAt v s) :
    Reachable g.Edge entry s.block := by
  rcases h with ⟨-, hs, -⟩ | hs
  · exact hs
  · exact hs.1

theorem DefinesAt.phi_or_instr {g : FlowGraph} {v : VarId} {s : Site} (h : g.DefinesAt v s) :
    s.point = .phi ∨ ∃ i, g.instr? s = some i := by
  rcases h with ⟨hp, -⟩ | ⟨-, i, -, hi, -⟩
  · exact .inl hp
  · exact .inr ⟨i, hi⟩

/-- Where a definition stops to dominate there is a phi, unless the variable has one block of definitions
only or its home is dominated. -/
theorem Placed.phiAt_of_definesAt {g : FlowGraph} {order : List BlockId} {tree : DominatorTree}
    (h : g.Placed order tree) {v : VarId} {s : Site} {b c home : BlockId} (hs : g.DefinesAt v s)
    (hb : Reachable g.Edge entry b) (hdom : Dominates g.Edge entry s.block b) (he : g.Edge b c)
    (hnot : ¬ StrictlyDominates g.Edge entry s.block c)
    (htwo : ∃ x y, x ≠ y ∧ g.DefBlock v x ∧ g.DefBlock v y) (hhome : g.Home v home)
    (hcut : ¬ Dominates g.Edge entry c home) : g.PhiAt v c := by
  have hfrontier : InFrontier g.Edge entry s.block c := ⟨b, hb, he, hdom, hnot⟩
  refine ⟨htwo, home, hhome, ?_⟩
  rcases hs with ⟨-, -, hphi⟩ | hs
  · obtain ⟨-, home', hhome', hmerges⟩ := h.phi_iff.mp hphi
    rw [h.home_unique hhome' hhome] at hmerges
    exact .ofMerge hmerges hfrontier hcut
  · exact .ofDef ⟨s, rfl, .inr hs⟩ hfrontier hcut

/-! ## The lists of all definitions and uses -/

/-- The definitions listed for a block are those of its phis and its instructions. -/
theorem mem_definitionsIn {g : FlowGraph} {b : BlockId} {x : VersionedVar} {s : Site} :
    (x, s) ∈ g.definitionsIn b ↔ s.block = b ∧
      (s.point = .phi ∧ (∃ φ ∈ (g.block b).phis, φ.target = x) ∨
        ∃ i, g.instr? s = some i ∧ i.defined? = some x) := by
  rw [definitionsIn, List.mem_append, List.mem_map, List.mem_filterMap]
  constructor
  · rintro (⟨φ, hφ, heq⟩ | ⟨⟨i, k⟩, hi, heq⟩)
    · cases heq
      exact ⟨rfl, .inl ⟨rfl, φ, hφ, rfl⟩⟩
    · obtain ⟨y, hy, heq⟩ := Option.map_eq_some_iff.mp heq
      cases heq
      refine ⟨rfl, .inr ⟨i, ?_, hy⟩⟩
      rw [List.mem_zipIdx_iff_getElem?, Array.getElem?_toList] at hi
      exact hi
  · obtain ⟨c, p⟩ := s
    rintro ⟨rfl, ⟨rfl, φ, hφ, rfl⟩ | ⟨i, hi, hx⟩⟩
    · exact .inl ⟨φ, hφ, rfl⟩
    · obtain ⟨_, k, ⟨⟩⟩ := exists_of_instr? hi
      refine .inr ⟨(i, k), ?_, ?_⟩
      · rw [List.mem_zipIdx_iff_getElem?, Array.getElem?_toList]
        exact hi
      · exact Option.map_eq_some_iff.mpr ⟨x, hx, rfl⟩

/-- Block `b` reads the value at a place. A phi reads its slots at the ends of their blocks. -/
inductive Reads (g : FlowGraph) (b : BlockId) (v : VersionedVar) : Site → Prop
  | instr {k : Nat} {i : Instr} : (g.block b).instrs[k]? = some i → v ∈ i.used → Reads g b v ⟨b, .instr k⟩
  | jump : (g.jump b).used? = some v → Reads g b v ⟨b, .exit⟩
  | slot {φ : Phi} {p : BlockId} : φ ∈ (g.block b).phis → (p, v) ∈ φ.slots → Reads g b v ⟨p, .exit⟩

/-- The uses listed for a block are its reads, with those of phis at the ends of predecessors. -/
theorem mem_usesIn {g : FlowGraph} {b : BlockId} {v : VersionedVar} {s : Site} :
    (v, s) ∈ g.usesIn b ↔ g.Reads b v s := by
  rw [usesIn, List.mem_append, List.mem_append, List.mem_flatMap, List.mem_flatMap, List.mem_map]
  constructor
  · rintro ((⟨φ, hφ, hs⟩ | ⟨⟨i, k⟩, hi, hs⟩) | ⟨w, hw, hs⟩)
    · obtain ⟨⟨p, w⟩, hp, hs⟩ := List.mem_map.mp hs
      cases hs
      exact .slot hφ hp
    · obtain ⟨w, hw, hs⟩ := List.mem_map.mp hs
      cases hs
      rw [List.mem_zipIdx_iff_getElem?, Array.getElem?_toList] at hi
      exact .instr hi hw
    · cases hs
      exact .jump (Option.mem_toList.mp hw)
  · rintro (⟨hi, hv⟩ | hv | ⟨hφ, hp⟩)
    · refine .inl (.inr ⟨(_, _), ?_, List.mem_map.mpr ⟨v, hv, rfl⟩⟩)
      rw [List.mem_zipIdx_iff_getElem?, Array.getElem?_toList]
      exact hi
    · exact .inr ⟨v, Option.mem_toList.mpr hv, rfl⟩
    · exact .inl (.inl ⟨_, hφ, List.mem_map.mpr ⟨(_, v), hp, rfl⟩⟩)

theorem pairwise_defsOf (b : BlockId) (is : List Instr) (k : Nat) :
    (defsOf b is k).Pairwise fun p q =>
      ∃ i j, p.2 = ⟨b, .instr i⟩ ∧ q.2 = ⟨b, .instr j⟩ ∧ i < j := by
  induction is generalizing k with
  | nil => exact .nil
  | cons i is ih =>
    rw [defsOf_cons, List.pairwise_append]
    refine ⟨?_, ih (k + 1), fun p hp q hq => ?_⟩
    · rw [defOf]
      cases i.defined? with
      | none => exact .nil
      | some x => exact List.pairwise_singleton _ _
    · obtain ⟨x, -, rfl⟩ := Option.map_eq_some_iff.mp (Option.mem_toList.mp hp)
      obtain ⟨j, hj, hsite⟩ := mem_defsOf hq
      exact ⟨k, j, rfl, hsite, hj⟩

namespace Renamable

variable {g : FlowGraph} {order : List BlockId} {tree : DominatorTree}

/-- Renaming comes past every place that defines a variable, and no other. -/
theorem mem_sitesOf_allDefs (h : g.Renamable order tree) {v : VarId} {s : Site} :
    s ∈ sitesOf v (g.allDefs tree) ↔ g.DefinesAt v s := by
  rw [mem_sitesOf]
  simp only [allDefs, List.mem_flatMap, h.exact.mem_preorder, mem_definitionsIn]
  constructor
  · rintro ⟨x, ⟨b, hb, rfl, ⟨hp, φ, hφ, rfl⟩ | ⟨i, hi, hx⟩⟩, rfl⟩
    · exact .inl ⟨hp, hb, φ, hφ, rfl⟩
    · exact .inr ⟨hb, i, x, hi, hx, rfl⟩
  · rintro (⟨hp, hb, φ, hφ, rfl⟩ | ⟨hb, i, x, hi, hx, rfl⟩)
    · exact ⟨φ.target, ⟨s.block, hb, rfl, .inl ⟨hp, φ, hφ, rfl⟩⟩, rfl⟩
    · exact ⟨x, ⟨s.block, hb, rfl, .inr ⟨i, hi, hx⟩⟩, rfl⟩

/-- Dominators come first in the preorder. -/
theorem pairwise_preorder (h : g.Renamable order tree) :
    tree.preorder.Pairwise fun b c => b ≠ c ∧ ¬ StrictlyDominates g.Edge entry c b := by
  have hsuffix : ∀ xs ys, tree.preorder = xs ++ ys →
      ys.Pairwise fun b c => b ≠ c ∧ ¬ StrictlyDominates g.Edge entry c b := by
    intro xs ys
    induction ys generalizing xs with
    | nil => exact fun _ => .nil
    | cons b ys ih =>
      intro hsplit
      have hnodup := h.exact.nodup
      rw [hsplit, List.nodup_append, List.nodup_cons] at hnodup
      refine List.pairwise_cons.mpr ⟨fun c hc => ⟨?_, fun hdom => ?_⟩, ih (xs ++ [b]) ?_⟩
      · rintro rfl
        exact hnodup.2.1.1 hc
      · exact hnodup.2.2 c (h.exact.after hsplit hdom) c (List.mem_cons_of_mem b hc) rfl
      · rw [hsplit, List.append_cons]
  exact hsuffix [] tree.preorder (List.nil_append _).symm

/-- Within a block phis come first, then the instructions in order. -/
theorem pairwise_definitionsIn (h : g.Renamable order tree) (b : BlockId) :
    (g.definitionsIn b).Pairwise fun p q =>
      ¬ g.Before q.2 p.2 ∧ (p.1.var = q.1.var → p.2 ≠ q.2) := by
  have hinside : ∀ {p q : Point}, q.before p = false → ¬ g.Before ⟨b, q⟩ ⟨b, p⟩ := by
    rintro p q hqp (⟨-, hbefore⟩ | hdom)
    · rw [hqp] at hbefore
      cases hbefore
    · exact hdom.1 rfl
  rw [definitionsIn, List.pairwise_append]
  refine ⟨?_, ?_, ?_⟩
  · rw [List.pairwise_map]
    refine (List.pairwise_map.mp (h.phis_nodup b)).imp fun {φ ψ} hne => ⟨hinside rfl, fun heq => ?_⟩
    exact absurd heq hne
  · refine (pairwise_defsOf b (g.block b).instrs.toList 0).imp fun {p q} hpq => ?_
    obtain ⟨i, j, hp, hq, hij⟩ := hpq
    rw [hp, hq]
    refine ⟨hinside (decide_eq_false (Nat.lt_asymm hij)), fun _ heq => ?_⟩
    cases heq
    exact Nat.lt_irrefl _ hij
  · intro p hp q hq
    obtain ⟨φ, -, rfl⟩ := List.mem_map.mp hp
    obtain ⟨j, -, hsite⟩ := mem_defsOf hq
    rw [hsite]
    exact ⟨hinside rfl, fun _ heq => by cases heq⟩

/-- No definition comes before one that was made earlier, and no place defines a variable twice. -/
theorem pairwise_allDefs (h : g.Renamable order tree) :
    (g.allDefs tree).Pairwise fun p q =>
      ¬ g.Before q.2 p.2 ∧ (p.1.var = q.1.var → p.2 ≠ q.2) := by
  rw [allDefs, List.pairwise_flatMap]
  refine ⟨fun b _ => h.pairwise_definitionsIn b, h.pairwise_preorder.imp fun {b c} hbc p hp q hq => ?_⟩
  have hpb := block_of_mem_definitionsIn hp
  have hqc := block_of_mem_definitionsIn hq
  constructor
  · rintro (⟨heq, -⟩ | hdom)
    · exact hbc.1 (hpb ▸ hqc ▸ heq.symm)
    · exact hbc.2 (hpb ▸ hqc ▸ hdom)
  · rintro - heq
    exact hbc.1 (hpb ▸ hqc ▸ congrArg Site.block heq)

/-- The places that define a variable are listed in an order that does not run against `Before`. -/
theorem pairwise_sitesOf (h : g.Renamable order tree) (v : VarId) :
    (sitesOf v (g.allDefs tree)).Pairwise fun s t => ¬ g.Before t s ∧ s ≠ t := by
  rw [sitesOf, List.pairwise_map, List.pairwise_filter]
  refine h.pairwise_allDefs.imp fun {p q} hpq hp hq => ⟨hpq.1, hpq.2 ?_⟩
  rw [of_decide_eq_true hp, of_decide_eq_true hq]

theorem pairwise_chain (h : g.Renamable order tree) (v : VarId) :
    (chainOf (sitesOf v (g.allDefs tree))).Pairwise fun d e =>
      ¬ g.Before d.site e.site ∧ e.site ≠ d.site := by
  have hreverse := List.pairwise_reverse.mpr (h.pairwise_sitesOf v)
  rw [← map_site_chainOf, List.pairwise_map] at hreverse
  exact hreverse

theorem eq_of_site_eq (h : g.Renamable order tree) {v : VarId} {d e : Definition}
    (hd : d ∈ chainOf (sitesOf v (g.allDefs tree))) (he : e ∈ chainOf (sitesOf v (g.allDefs tree)))
    (heq : d.site = e.site) : d = e := by
  have hnodup : ((chainOf (sitesOf v (g.allDefs tree))).map Definition.site).Nodup := by
    rw [map_site_chainOf, List.nodup_reverse]
    exact (h.pairwise_sitesOf v).imp fun hst => hst.2
  exact List.inj_on_of_nodup_map hnodup hd he heq

/-- Definitions are found under their names. -/
theorem exists_write (h : g.Renamable order tree) {v : VarId} {s : Site} (hs : g.DefinesAt v s) :
    ∃ d ∈ chainOf (sitesOf v (g.allDefs tree)), d.site = s ∧ (g.naming tree).write v s = ⟨v, d.version⟩ := by
  have hmem : s ∈ (chainOf (sitesOf v (g.allDefs tree))).map Definition.site := by
    rw [map_site_chainOf, List.mem_reverse]
    exact h.mem_sitesOf_allDefs.mpr hs
  obtain ⟨e, he, hes⟩ := List.mem_map.mp hmem
  have hfind : ((chainOf (sitesOf v (g.allDefs tree))).find? fun d => d.site = s).isSome := by
    rw [List.find?_isSome]
    exact ⟨e, he, decide_eq_true hes⟩
  obtain ⟨d, hd⟩ := Option.isSome_iff_exists.mp hfind
  have hsite := List.find?_some hd
  refine ⟨d, List.mem_of_find?_eq_some hd, decide_eq_true_eq.mp hsite, ?_⟩
  change defName (g.allDefs tree) v s = _
  rw [defName, hd]

/-- Every definition has a version. -/
theorem version_write_ne_zero (h : g.Renamable order tree) {v : VarId} {s : Site} (hs : g.DefinesAt v s) :
    ((g.naming tree).write v s).version ≠ 0 := by
  obtain ⟨d, hd, -, hname⟩ := h.exists_write hs
  obtain ⟨k, hk, -⟩ := mem_chainOf.mp hd
  rw [hname, hk]
  exact Nat.succ_ne_zero k

/-- Different definitions of a variable have different names. -/
theorem write_inj (h : g.Renamable order tree) {v : VarId} {s t : Site} (hs : g.DefinesAt v s)
    (ht : g.DefinesAt v t) (heq : (g.naming tree).write v s = (g.naming tree).write v t) : s = t := by
  obtain ⟨d, hd, rfl, hname⟩ := h.exists_write hs
  obtain ⟨e, he, rfl, hname'⟩ := h.exists_write ht
  rw [hname, hname'] at heq
  obtain ⟨k, hk, hsite⟩ := mem_chainOf.mp hd
  obtain ⟨l, hl, hsite'⟩ := mem_chainOf.mp he
  have hkl : k = l := by
    have hversion := congrArg VersionedVar.version heq
    dsimp only at hversion
    omega
  subst hkl
  exact Option.some.inj (hsite.symm.trans hsite')

/-- A use has the name of the nearest definition before it, or no definition comes before it. -/
theorem use_cases (h : g.Renamable order tree) (v : VarId) {at_ : Site}
    (hat : Reachable g.Edge entry at_.block) :
    ((g.naming tree).use v at_ = .unbound v ∧ ∀ s, g.DefinesAt v s → ¬ g.Before s at_) ∨
      ∃ s, g.Nearest v at_ s ∧ (g.naming tree).use v at_ = (g.naming tree).write v s := by
  have hreaches : ∀ s, tree.reaches s at_ = true ↔ g.Before s at_ := by
    intro s
    rw [h.reaches_iff]
    exact ⟨fun hs => hs.2, fun hs => ⟨hat, hs⟩⟩
  have hmem : ∀ s, g.DefinesAt v s → ∃ d ∈ chainOf (sitesOf v (g.allDefs tree)), d.site = s := by
    intro s hs
    obtain ⟨d, hd, hsite, -⟩ := h.exists_write hs
    exact ⟨d, hd, hsite⟩
  cases hfind : (chainOf (sitesOf v (g.allDefs tree))).find? fun d => tree.reaches d.site at_ with
  | none =>
    refine .inl ⟨?_, fun s hs hbefore => ?_⟩
    · change useName tree (g.allDefs tree) v at_ = _
      rw [useName, hfind]
    · obtain ⟨d, hd, rfl⟩ := hmem s hs
      exact List.find?_eq_none.mp hfind d hd ((hreaches _).mpr hbefore)
  | some d =>
    obtain ⟨hreach, later, earlier, hsplit, hlater⟩ := List.find?_eq_some_iff_append.mp hfind
    have hdef : g.DefinesAt v d.site := by
      refine h.mem_sitesOf_allDefs.mp (List.mem_reverse.mp ?_)
      rw [← map_site_chainOf, hsplit]
      exact List.mem_map_of_mem (List.mem_append_right later List.mem_cons_self)
    have hname : (g.naming tree).write v d.site = ⟨v, d.version⟩ := by
      obtain ⟨e, he, hsite, hname⟩ := h.exists_write hdef
      rw [hname, h.eq_of_site_eq he (hsplit ▸ List.mem_append_right later List.mem_cons_self) hsite]
    refine .inr ⟨d.site, ⟨hdef, (hreaches _).mp hreach, fun t ht hbefore => ?_⟩, ?_⟩
    · obtain ⟨e, he, rfl⟩ := hmem t ht
      rw [hsplit, List.mem_append, List.mem_cons] at he
      rcases he with he | rfl | he
      · have hnot := hlater e he
        rw [(hreaches _).mpr hbefore] at hnot
        cases hnot
      · exact .inl rfl
      -- definitions further down the chain were made earlier, so they cannot come in between
      · have horder := h.pairwise_chain v
        rw [hsplit, List.pairwise_append, List.pairwise_cons] at horder
        have hnot := (horder.2.1.1 e he).1
        rcases Before.total hat hbefore ((hreaches _).mp hreach) with hes | hse | heq
        · exact .inr hes
        · exact absurd hse hnot
        · exact .inl heq
    · rw [hname]
      change useName tree (g.allDefs tree) v at_ = _
      rw [useName, hfind]

/-- The name of a use is that of its nearest definition. -/
theorem use_eq_write (h : g.Renamable order tree) {v : VarId} {at_ s : Site}
    (hat : Reachable g.Edge entry at_.block) (hs : g.Nearest v at_ s) :
    (g.naming tree).use v at_ = (g.naming tree).write v s := by
  rcases h.use_cases v hat with ⟨-, hnone⟩ | ⟨t, ht, huse⟩
  · exact absurd hs.2.1 (hnone s hs.1)
  · rcases ht.2.2 s hs.1 hs.2.1 with rfl | hst
    · exact huse
    · rcases hs.2.2 t ht.1 ht.2.1 with rfl | hts
      · exact huse
      · exact absurd hts (hst.asymm ht.1.reachable)

/-- A use that no definition comes before is unbound. -/
theorem use_eq_unbound (h : g.Renamable order tree) {v : VarId} {at_ : Site}
    (hat : Reachable g.Edge entry at_.block) (hnone : ∀ s, g.DefinesAt v s → ¬ g.Before s at_) :
    (g.naming tree).use v at_ = .unbound v := by
  rcases h.use_cases v hat with ⟨huse, -⟩ | ⟨t, ht, -⟩
  · exact huse
  · exact absurd ht.2.1 (hnone t ht.1)

/-- A use keeps version 0 exactly if no definition of its variable comes before it. -/
theorem version_use_eq_zero_iff (h : g.Renamable order tree) {v : VarId} {at_ : Site}
    (hat : Reachable g.Edge entry at_.block) :
    ((g.naming tree).use v at_).version = 0 ↔ ∀ s, g.DefinesAt v s → ¬ g.Before s at_ := by
  constructor
  · intro hzero
    rcases h.use_cases v hat with ⟨-, hnone⟩ | ⟨t, ht, huse⟩
    · exact hnone
    · rw [huse] at hzero
      exact absurd hzero (h.version_write_ne_zero ht.1)
  · intro hnone
    rw [h.use_eq_unbound hat hnone]
    rfl

/-- Places with the same definitions before them have the same names for uses. -/
theorem use_congr (h : g.Renamable order tree) {v : VarId} {p q : Site}
    (hp : Reachable g.Edge entry p.block) (hq : Reachable g.Edge entry q.block)
    (hiff : ∀ s, g.DefinesAt v s → (g.Before s p ↔ g.Before s q)) :
    (g.naming tree).use v p = (g.naming tree).use v q := by
  rcases h.use_cases v hp with ⟨huse, hnone⟩ | ⟨s, hs, huse⟩
  · rw [huse, h.use_eq_unbound hq fun s hs hbefore => hnone s hs ((hiff s hs).mpr hbefore)]
  · rw [huse]
    refine (h.use_eq_write hq ⟨hs.1, (hiff s hs.1).mp hs.2.1, fun t ht hbefore => ?_⟩).symm
    exact hs.2.2 t ht ((hiff t ht).mpr hbefore)

end Renamable

end SsaFlow.FlowGraph
