-- SUMMARY: Walks in a directed graph, and dominance as a property of all walks from a root.

/-!
# Walks and dominance

A walk is listed from its end back to its start, so that a step adds to the front of the list. A node
dominates another if it lies on every walk from the root to it. Nothing here depends on how a graph is
stored: the edges are any relation.
-/

namespace SsaFlow

variable {α : Type} {E : α → α → Prop} {r : α}

/-- In `Walk E r l b`, `l` lists the nodes of a walk along `E` from `r` to `b`, the latest first. -/
inductive Walk (E : α → α → Prop) (r : α) : List α → α → Prop
  | start : Walk E r [r] r
  | step {l : List α} {b c : α} : Walk E r l b → E b c → Walk E r (c :: l) c

/-- Some walk from `r` gets to `b`. -/
def Reachable (E : α → α → Prop) (r b : α) : Prop := ∃ l, Walk E r l b

/-- Every walk from `r` to `b` passes through `a`. -/
def Dominates (E : α → α → Prop) (r a b : α) : Prop := ∀ l, Walk E r l b → a ∈ l

/-- Every walk from `r` to `b` passes through `a`, which is another node. -/
def StrictlyDominates (E : α → α → Prop) (r a b : α) : Prop := a ≠ b ∧ Dominates E r a b

/-- The node `d` is the strict dominator of `b` that all strict dominators of `b` dominate. -/
def ImmediatelyDominates (E : α → α → Prop) (r d b : α) : Prop :=
  StrictlyDominates E r d b ∧ ∀ x, StrictlyDominates E r x b → Dominates E r x d

/-! ## Taking walks apart and putting them together -/

namespace Walk

theorem head_eq {l : List α} {a b : α} (h : Walk E r (a :: l) b) : a = b := by
  cases h with
  | start | step _ _ => rfl

theorem end_mem {l : List α} {b : α} (h : Walk E r l b) : b ∈ l := by
  cases h with
  | start => exact List.mem_singleton_self r
  | step _ _ => exact List.mem_cons_self

theorem root_mem {l : List α} {b : α} (h : Walk E r l b) : r ∈ l := by
  induction h with
  | start => exact List.mem_singleton_self r
  | step _ _ ih => exact List.mem_cons_of_mem _ ih

/-- A walk is cut at the last place where it passes through `a`. -/
theorem split {l : List α} {a b : α} (h : Walk E r l b) (ha : a ∈ l) :
    ∃ after before, l = after ++ before ∧ a ∉ after ∧ Walk E r before a ∧ Walk E a (after ++ [a]) b := by
  induction h with
  | start =>
    obtain rfl := List.mem_singleton.mp ha
    exact ⟨[], [a], rfl, List.not_mem_nil, .start, .start⟩
  | @step l b c hw he ih =>
    rcases Classical.em (a = c) with rfl | hne
    · exact ⟨[], a :: l, rfl, List.not_mem_nil, .step hw he, .start⟩
    · obtain ⟨after, before, rfl, hnot, hbefore, hafter⟩ := ih (List.mem_of_ne_of_mem hne ha)
      refine ⟨c :: after, before, rfl, ?_, hbefore, .step hafter he⟩
      simp [hne, hnot]

/-- A walk may be continued by another. -/
theorem append {before after : List α} {a b : α} (h : Walk E r before a)
    (k : Walk E a (after ++ [a]) b) : Walk E r (after ++ before) b := by
  generalize hm : after ++ [a] = m at k
  induction k generalizing after with
  | start =>
    obtain rfl : after = [] := by simpa using hm
    exact h
  | @step l b c _ he ih =>
    cases after with
    | nil =>
      obtain ⟨rfl, rfl⟩ : a = c ∧ [] = l := by simpa using hm
      rename_i hw
      cases hw
    | cons x after =>
      obtain ⟨rfl, htail⟩ : x = c ∧ after ++ [a] = l := by simpa using hm
      exact .step (ih htail) he

/-- A walk may begin one edge earlier. -/
theorem prepend {l : List α} {a b : α} (h : Walk E r l b) (he : E a r) : Walk E a (l ++ [a]) b := by
  induction h with
  | start => exact .step .start he
  | step _ he ih => exact .step ih he

/-- Walks along some of the edges. -/
theorem mono {F : α → α → Prop} (hle : ∀ a b, E a b → F a b) {l : List α} {b : α}
    (h : Walk E r l b) : Walk F r l b := by
  induction h with
  | start => exact .start
  | step _ he ih => exact .step ih (hle _ _ he)

/-- Two edge relations that agree on the nodes that can be reached have the same walks. -/
theorem congr {F : α → α → Prop} (hiff : ∀ a b, Reachable E r a → (E a b ↔ F a b)) {l : List α}
    {b : α} (h : Walk E r l b) : Walk F r l b := by
  induction h with
  | start => exact .start
  | step hw he ih => exact .step ih ((hiff _ _ ⟨_, hw⟩).mp he)

theorem reachable_of_mem {l : List α} {a b : α} (h : Walk E r l b) (ha : a ∈ l) :
    Reachable E r a := by
  obtain ⟨_, before, _, _, hbefore, _⟩ := h.split ha
  exact ⟨before, hbefore⟩

end Walk

namespace Reachable

theorem root : Reachable E r r := ⟨[r], .start⟩

theorem step {b c : α} (h : Reachable E r b) (he : E b c) : Reachable E r c := by
  obtain ⟨l, hl⟩ := h
  exact ⟨c :: l, .step hl he⟩

/-- A node is entered for the first time from a node that it does not dominate. -/
theorem exists_first_pred {b : α} (h : Reachable E r b) (hne : b ≠ r) :
    ∃ a, Reachable E r a ∧ E a b ∧ ¬ Dominates E r b a := by
  obtain ⟨l, hl⟩ := h
  induction hn : l.length using Nat.strongRecOn generalizing l with
  | _ n ih =>
    cases hl with
    | start => exact absurd rfl hne
    | @step l a _ hw he =>
      by_cases hb : b ∈ l
      · obtain ⟨after, before, rfl, -, hbefore, -⟩ := hw.split hb
        refine ih before.length ?_ before hbefore rfl
        simp only [List.length_cons, List.length_append] at hn
        omega
      · exact ⟨a, ⟨l, hw⟩, he, fun hdom => hb (hdom l hw)⟩

/-- A node can be reached by a walk that has not been there before. -/
theorem exists_first {b : α} (h : Reachable E r b) : ∃ l, Walk E r (b :: l) b ∧ b ∉ l := by
  by_cases hb : b = r
  · subst hb
    exact ⟨[], .start, List.not_mem_nil⟩
  · obtain ⟨a, -, he, hnot⟩ := h.exists_first_pred hb
    obtain ⟨l, hl, hfirst⟩ : ∃ l, Walk E r l a ∧ b ∉ l := by simpa [Dominates] using hnot
    exact ⟨l, .step hl he, hfirst⟩

end Reachable

/-! ## Dominance -/

namespace Dominates

theorem refl (b : α) : Dominates E r b b := fun _ h => h.end_mem

theorem root (b : α) : Dominates E r r b := fun _ h => h.root_mem

theorem trans {a b c : α} (hab : Dominates E r a b) (hbc : Dominates E r b c) :
    Dominates E r a c := by
  intro l hl
  obtain ⟨after, before, rfl, _, hbefore, _⟩ := hl.split (hbc l hl)
  exact List.mem_append_right _ (hab before hbefore)

/-- A node that dominates another one can be reached if the other can. -/
theorem reachable {a b : α} (hab : Dominates E r a b) (hb : Reachable E r b) : Reachable E r a := by
  obtain ⟨l, hl⟩ := hb
  exact hl.reachable_of_mem (hab l hl)

/-- The dominators of a node, itself apart, dominate all nodes from which it is entered. -/
theorem of_edge {a b c : α} (hac : Dominates E r a c) (hne : a ≠ c) (he : E b c) :
    Dominates E r a b := by
  intro l hl
  exact List.mem_of_ne_of_mem hne (hac (c :: l) (.step hl he))

/-- What dominates all nodes from which `c` is entered dominates `c`. -/
theorem of_forall_edge {a c : α} (hne : c ≠ r)
    (h : ∀ b, Reachable E r b → E b c → Dominates E r a b) : Dominates E r a c := by
  intro l hl
  cases hl with
  | start => exact absurd rfl hne
  | step hw he => exact List.mem_cons_of_mem _ (h _ ⟨_, hw⟩ he _ hw)

theorem eq_root {a : α} (h : Dominates E r a r) : a = r :=
  List.mem_singleton.mp (h [r] .start)

/-- Two nodes that dominate each other are the same, if they can be reached. -/
theorem antisymm {a b : α} (hb : Reachable E r b) (hab : Dominates E r a b)
    (hba : Dominates E r b a) : a = b := by
  obtain ⟨l, hl⟩ := hb
  -- From a walk to `b` one gets a shorter one as long as `a` is another node.
  generalize hn : l.length = n
  induction n using Nat.strongRecOn generalizing l with
  | ind n ih =>
    refine Classical.byContradiction fun hne => ?_
    obtain ⟨after, before, rfl, _, hbefore, hafter⟩ := hl.split (hab l hl)
    obtain ⟨after', before', rfl, _, hbefore', _⟩ := hbefore.split (hba before hbefore)
    have hpos : after ≠ [] := by
      rintro rfl
      generalize hm : ([] : List α) ++ [a] = m at hafter
      cases hafter with
      | start => exact hne rfl
      | step hw he =>
        simp only [List.nil_append, List.cons.injEq] at hm
        exact hne hm.1
    have hlt : before'.length < n := by
      have := List.length_pos_iff.mpr hpos
      simp only [List.length_append] at hn
      omega
    exact hne (ih _ hlt before' hbefore' rfl)

/-- Of two dominators of a node, one dominates the other. -/
theorem total {a b c : α} (hc : Reachable E r c) (hac : Dominates E r a c)
    (hbc : Dominates E r b c) : Dominates E r a b ∨ Dominates E r b a := by
  refine Classical.byContradiction fun hnot => ?_
  obtain ⟨hnab, hnba⟩ := not_or.mp hnot
  obtain ⟨lb, hlb, hab⟩ : ∃ l, Walk E r l b ∧ a ∉ l := by simpa [Dominates] using hnab
  obtain ⟨la, hla, hba⟩ : ∃ l, Walk E r l a ∧ b ∉ l := by simpa [Dominates] using hnba
  obtain ⟨l, hl⟩ := hc
  obtain ⟨after, before, rfl, hnot, hbefore, hafter⟩ := hl.split (hac l hl)
  -- Whichever of the two comes last on a walk to `c` can be reached without the other.
  rcases Classical.em (b ∈ after) with hb | hb
  · obtain ⟨after', before', heq, hnot', hbefore', hafter'⟩ :=
      hafter.split (List.mem_append_left [a] hb)
    have hsub : a ∉ after' := by
      intro ha
      have : after' <+: after ++ [a] := ⟨before', heq.symm⟩
      rcases List.prefix_concat_iff.mp this with h | h
      · exact hnot' (h ▸ List.mem_append_left _ hb)
      · exact hnot (h.subset ha)
    have := hac _ (hlb.append hafter')
    exact (List.mem_append.mp this).elim hsub hab
  · have := hbc _ (hla.append hafter)
    exact (List.mem_append.mp this).elim hb hba

end Dominates

namespace StrictlyDominates

theorem irrefl (b : α) : ¬ StrictlyDominates E r b b := fun h => h.1 rfl

/-- What dominates a strict dominator is a strict dominator. -/
theorem of_dominates {a b c : α} (hc : Reachable E r c) (hab : Dominates E r a b)
    (hbc : StrictlyDominates E r b c) : StrictlyDominates E r a c := by
  refine ⟨?_, hab.trans hbc.2⟩
  rintro rfl
  exact hbc.1 (Dominates.antisymm hc hbc.2 hab)

theorem asymm {a b : α} (hb : Reachable E r b) (hab : StrictlyDominates E r a b) :
    ¬ Dominates E r b a := fun hba => hab.1 (Dominates.antisymm hb hab.2 hba)

theorem of_edge {a b c : α} (hac : StrictlyDominates E r a c) (he : E b c) : Dominates E r a b :=
  hac.2.of_edge hac.1 he

end StrictlyDominates

namespace ImmediatelyDominates

theorem unique {d e b : α} (hb : Reachable E r b) (hd : ImmediatelyDominates E r d b)
    (he : ImmediatelyDominates E r e b) : d = e :=
  Dominates.antisymm (he.1.2.reachable hb) (he.2 d hd.1) (hd.2 e he.1)

/-- The dominators of a node are the node and the dominators of its immediate dominator. -/
theorem dominates_iff {d b x : α} (h : ImmediatelyDominates E r d b) :
    Dominates E r x b ↔ x = b ∨ Dominates E r x d := by
  constructor
  · intro hx
    by_cases hxb : x = b
    · exact .inl hxb
    · exact .inr (h.2 x ⟨hxb, hx⟩)
  · rintro (rfl | hx)
    · exact .refl x
    · exact hx.trans h.1.2

theorem ne_of_dominates {d b x : α} (h : ImmediatelyDominates E r d b) (hb : Reachable E r b)
    (hx : Dominates E r x d) : x ≠ b := by
  rintro rfl
  exact h.1.asymm hb hx

end ImmediatelyDominates

/-! ## Graphs with the same walks -/

theorem reachable_congr {F : α → α → Prop} (hE : ∀ a b, Reachable E r a → (E a b ↔ F a b))
    (hF : ∀ a b, Reachable F r a → (F a b ↔ E a b)) {b : α} : Reachable E r b ↔ Reachable F r b := by
  constructor
  · rintro ⟨l, hl⟩
    exact ⟨l, hl.congr hE⟩
  · rintro ⟨l, hl⟩
    exact ⟨l, hl.congr hF⟩

/-- Dominance depends on the edges out of reachable nodes only. -/
theorem dominates_congr {F : α → α → Prop} (hE : ∀ a b, Reachable E r a → (E a b ↔ F a b))
    (hF : ∀ a b, Reachable F r a → (F a b ↔ E a b)) {a b : α} :
    Dominates E r a b ↔ Dominates F r a b := by
  constructor
  · intro h l hl
    exact h l (hl.congr hF)
  · intro h l hl
    exact h l (hl.congr hE)

/-! ## Renumbered graphs -/

section Renumbering

variable {β : Type} {F : β → β → Prop}

theorem Walk.map {f : α → β} (hf : ∀ a b, Reachable E r a → E a b → F (f a) (f b)) {l : List α} {b : α}
    (h : Walk E r l b) : Walk F (f r) (l.map f) (f b) := by
  induction h with
  | start => exact .start
  | step hw he ih => exact .step ih (hf _ _ ⟨_, hw⟩ he)

/-- Dominance does not depend on how the nodes are named. -/
theorem dominates_map_iff {f : α → β} {g : β → α}
    (hf : ∀ a b, Reachable E r a → E a b → F (f a) (f b))
    (hg : ∀ y z, Reachable F (f r) y → F y z → E (g y) (g z))
    (hgf : ∀ a, Reachable E r a → g (f a) = a) (hfg : ∀ y, Reachable F (f r) y → f (g y) = y)
    {a b : α} (ha : Reachable E r a) (hb : Reachable E r b) :
    Dominates F (f r) (f a) (f b) ↔ Dominates E r a b := by
  constructor
  · intro h l hl
    obtain ⟨a', ha', heq⟩ := List.mem_map.mp (h _ (hl.map hf))
    rw [← hgf a ha, ← heq, hgf a' (hl.reachable_of_mem ha')]
    exact ha'
  · intro h m hm
    have hback := hm.map hg
    rw [hgf r .root, hgf b hb] at hback
    obtain ⟨y, hy, rfl⟩ := List.mem_map.mp (h _ hback)
    rw [hfg y (hm.reachable_of_mem hy)]
    exact hy

end Renumbering

/-! ## Bypassing a node -/

/-- The edges `F` are those of `E` with the node `x` taken out; who went to `x` now goes on to `y`. -/
structure Bypasses (E F : α → α → Prop) (x y : α) : Prop where
  ne : x ≠ y
  out : ∀ b, E x b ↔ b = y
  edge : ∀ a b, F a b ↔ a ≠ x ∧ b ≠ x ∧ (E a b ∨ E a x ∧ b = y)

namespace Bypasses

variable [DecidableEq α] {F : α → α → Prop} {x y : α}

/-- Without the node that is bypassed a walk is a walk along the new edges. -/
theorem filter_walk (h : Bypasses E F x y) (hr : r ≠ x) {l : List α} {b : α} (hw : Walk E r l b) :
    (b ≠ x → Walk F r (l.filter (· ≠ x)) b) ∧
      (b = x → ∃ a, a ≠ x ∧ E a x ∧ Walk F r (l.filter (· ≠ x)) a) := by
  induction hw with
  | start =>
    refine ⟨fun _ => ?_, fun hx => absurd hx hr⟩
    rw [List.filter_cons_of_pos (by simpa using hr)]
    exact .start
  | @step l b c hw he ih =>
    rcases Classical.em (b = x) with rfl | hb
    · -- The walk has just passed the bypassed node, so it goes on to its only successor.
      obtain ⟨a, ha, hax, hF⟩ := ih.2 rfl
      obtain rfl := (h.out c).mp he
      refine ⟨fun hc => ?_, fun hc => absurd hc.symm h.ne⟩
      rw [List.filter_cons_of_pos (by simpa using hc)]
      exact .step hF ((h.edge a c).mpr ⟨ha, hc, .inr ⟨hax, rfl⟩⟩)
    · have hF := ih.1 hb
      refine ⟨fun hc => ?_, ?_⟩
      · rw [List.filter_cons_of_pos (by simpa using hc)]
        exact .step hF ((h.edge b c).mpr ⟨hb, hc, .inl he⟩)
      · rintro rfl
        rw [List.filter_cons_of_neg (by simp)]
        exact ⟨b, hb, he, hF⟩

/-- Every walk along the new edges comes from a walk along the old ones. -/
theorem exists_walk (h : Bypasses E F x y) (hr : r ≠ x) {l : List α} {b : α} (hw : Walk F r l b) :
    ∃ m, Walk E r m b ∧ m.filter (· ≠ x) = l := by
  induction hw with
  | start =>
    refine ⟨[r], .start, ?_⟩
    rw [List.filter_cons_of_pos (by simpa using hr), List.filter_nil]
  | @step l b c _ he ih =>
    obtain ⟨m, hm, rfl⟩ := ih
    obtain ⟨_, hc, hedge | ⟨hbx, rfl⟩⟩ := (h.edge b c).mp he
    · refine ⟨c :: m, .step hm hedge, ?_⟩
      rw [List.filter_cons_of_pos (by simpa using hc)]
    · refine ⟨c :: x :: m, .step (.step hm hbx) ((h.out c).mpr rfl), ?_⟩
      rw [List.filter_cons_of_pos (by simpa using hc), List.filter_cons_of_neg (by simp)]

theorem reachable_iff (h : Bypasses E F x y) (hr : r ≠ x) {b : α} :
    Reachable F r b ↔ Reachable E r b ∧ b ≠ x := by
  constructor
  · rintro ⟨l, hl⟩
    obtain ⟨m, hm, rfl⟩ := h.exists_walk hr hl
    exact ⟨⟨m, hm⟩, by simpa using (List.mem_filter.mp hl.end_mem).2⟩
  · rintro ⟨⟨l, hl⟩, hb⟩
    exact ⟨_, (h.filter_walk hr hl).1 hb⟩

/-- Taking a node out of all walks does not change which of the others dominate which. -/
theorem dominates_iff (h : Bypasses E F x y) (hr : r ≠ x) {a b : α} (ha : a ≠ x) (hb : b ≠ x) :
    Dominates F r a b ↔ Dominates E r a b := by
  constructor
  · intro hF l hl
    exact (List.mem_filter.mp (hF _ ((h.filter_walk hr hl).1 hb))).1
  · intro hE l hl
    obtain ⟨m, hm, rfl⟩ := h.exists_walk hr hl
    exact List.mem_filter.mpr ⟨hE m hm, by simpa using ha⟩

end Bypasses

end SsaFlow
