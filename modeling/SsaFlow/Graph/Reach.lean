-- SUMMARY: What a depth-first exploration reaches: exactly the nodes that a start leads to, each once.
import SsaFlow.Graph.DepthFirst

/-!
# What an exploration reaches

`Leads` is the relation "there is a path": it speaks of neighbours only, not of marks or pending visits.
`reached_iff` says that the marks of an exploration are exact for it, and `mem_preorder_trace` and
`nodup_preorder_trace` that its trace enters the same nodes, each of them once.
-/

namespace SsaFlow.DepthFirst

/-- There is a path along `next` from one node to another, all of it below the bound. -/
inductive Leads (next : Nat → List Nat) (bound : Nat) : Nat → Nat → Prop
  | refl {a : Nat} : a < bound → Leads next bound a a
  | step {a b c : Nat} : Leads next bound a b → c ∈ next b → c < bound → Leads next bound a c

/-- A path may be lengthened at its start. -/
theorem Leads.head {next : Nat → List Nat} {bound a b c : Nat} (ha : a < bound) (hb : b ∈ next a)
    (h : Leads next bound b c) : Leads next bound a c := by
  induction h with
  | refl hlt => exact .step (.refl ha) hb hlt
  | step _ hm hlt ih => exact .step ih hm hlt

/-! ## The nodes entered by a list of visits -/

/-- The nodes that are entered by the visits in a list. -/
theorem mem_preorder {visits : List Visit} {b : Nat} :
    b ∈ preorder visits ↔ ∃ d, Visit.enter b d ∈ visits := by
  simp only [preorder, List.mem_filterMap]
  constructor
  · rintro ⟨v, hv, h⟩
    cases v with
    | enter node depth => exact ⟨depth, by simp at h; exact h ▸ hv⟩
    | leave node => simp at h
  · rintro ⟨d, hd⟩
    exact ⟨_, hd, rfl⟩

theorem preorder_append (xs ys : List Visit) : preorder (xs ++ ys) = preorder xs ++ preorder ys := by
  simp [preorder]

theorem preorder_map_enter (nodes : List Nat) (depth : Nat) :
    preorder (nodes.map (.enter · depth)) = nodes := by
  induction nodes with
  | nil => rfl
  | cons node nodes ih => exact congrArg (node :: ·) ih

/-! ## What the marks say -/

/-- Marking a node marks that node and no other. -/
theorem marked_set {seen : Array Bool} {node x : Nat} (h : node < seen.size) :
    (seen.set node true)[x]? = some true ↔ x = node ∨ seen[x]? = some true := by
  rw [Array.getElem?_set]
  by_cases hx : node = x
  · subst hx
    simp [h]
  · simp only [hx, if_false, Ne.symm hx, false_or]

@[simp] theorem size_explore (next : Nat → List Nat) (seen : Array Bool) (trace pending : List Visit) :
    (explore next seen trace pending).1.size = seen.size := by
  fun_induction explore next seen trace pending with
  | case1 => rfl
  | case2 _ _ _ _ ih => exact ih
  | case3 seen trace node depth pending h hseen ih => simpa using ih
  | case4 _ _ _ _ _ _ _ ih => exact ih
  | case5 _ _ _ _ _ _ ih => exact ih

/-- A mark stays. -/
theorem explore_keeps {next : Nat → List Nat} {seen : Array Bool} {trace pending : List Visit}
    {b : Nat} (h : seen[b]? = some true) : (explore next seen trace pending).1[b]? = some true := by
  fun_induction explore next seen trace pending with
  | case1 => exact h
  | case2 _ _ _ _ ih => exact ih h
  | case3 seen trace node depth pending hlt hseen ih =>
    refine ih ?_
    rw [Array.getElem?_set]
    split
    · rfl
    · exact h
  | case4 _ _ _ _ _ _ _ ih => exact ih h
  | case5 _ _ _ _ _ _ ih => exact ih h

/-- Every node that is marked at the end was marked before or is led to by a pending visit. -/
theorem leads_of_explore {next : Nat → List Nat} {seen : Array Bool} {trace pending : List Visit}
    {b : Nat} (h : (explore next seen trace pending).1[b]? = some true) :
    seen[b]? = some true ∨ ∃ a ∈ preorder pending, Leads next seen.size a b := by
  fun_induction explore next seen trace pending with
  | case1 => exact .inl h
  | case2 seen trace node pending ih =>
    rcases ih h with h | ⟨a, ha, hl⟩
    · exact .inl h
    · exact .inr ⟨a, by simpa [preorder] using ha, hl⟩
  | case3 seen trace node depth pending hlt hseen ih =>
    rcases ih h with h | ⟨a, ha, hl⟩
    -- the node itself is new, the others were marked before
    · by_cases hb : node = b
      · exact .inr ⟨node, by simp [preorder], hb ▸ .refl hlt⟩
      · rw [Array.getElem?_set] at h
        simp only [hb, if_false] at h
        exact .inl h
    · rw [Array.size_set] at hl
      rw [preorder_append, preorder_map_enter] at ha
      rcases List.mem_append.mp ha with ha | ha
      · exact .inr ⟨node, by simp [preorder], .head hlt ha hl⟩
      · exact .inr ⟨a, by
        simp only [preorder, List.filterMap_cons, List.mem_cons] at ha ⊢
        exact .inr ha, hl⟩
  | case4 seen trace node depth pending hlt hseen ih =>
    rcases ih h with h | ⟨a, ha, hl⟩
    · exact .inl h
    · exact .inr ⟨a, by simp only [preorder] at ha ⊢; simp [ha], hl⟩
  | case5 seen trace node depth pending hlt ih =>
    rcases ih h with h | ⟨a, ha, hl⟩
    · exact .inl h
    · exact .inr ⟨a, by simp only [preorder] at ha ⊢; simp [ha], hl⟩

/-- Pending visits to nodes below the bound are made, and the neighbours of a marked node are marked in
the end if, at the start, each of them was marked or pending. -/
theorem explore_closed {next : Nat → List Nat} {seen : Array Bool} {trace pending : List Visit}
    (inv : ∀ x : Nat, seen[x]? = some true → ∀ y ∈ next x, y < seen.size →
      seen[y]? = some true ∨ y ∈ preorder pending) :
    (∀ x ∈ preorder pending, x < seen.size → (explore next seen trace pending).1[x]? = some true) ∧
    (∀ x : Nat, (explore next seen trace pending).1[x]? = some true → ∀ y ∈ next x, y < seen.size →
      (explore next seen trace pending).1[y]? = some true) := by
  fun_induction explore next seen trace pending with
  | case1 seen trace =>
    refine ⟨fun x hx => by simp [preorder] at hx, fun x hx y hy hlt => ?_⟩
    rcases inv x hx y hy hlt with h | h
    · exact h
    · simp [preorder] at h
  | case2 seen trace node pending ih =>
    obtain ⟨h2, h3⟩ := ih (by simpa [preorder] using inv)
    exact ⟨by simpa [preorder] using h2, h3⟩
  | case3 seen trace node depth pending hlt hseen ih =>
    -- the node is marked now, and its neighbours are pending in its place
    have inv' : ∀ x : Nat, (seen.set node true)[x]? = some true → ∀ y ∈ next x,
        y < (seen.set node true).size → (seen.set node true)[y]? = some true ∨
          y ∈ preorder ((next node).map (.enter · (depth + 1)) ++ .leave node :: pending) := by
      intro x hx y hy hylt
      rw [Array.size_set] at hylt
      rw [preorder_append, preorder_map_enter, List.mem_append, marked_set hlt]
      rcases (marked_set hlt).mp hx with rfl | hx
      · exact .inr (.inl hy)
      · rcases inv x hx y hy hylt with h | h
        · exact .inl (.inr h)
        · simp only [preorder, List.filterMap_cons, List.mem_cons] at h
          rcases h with rfl | h
          · exact .inl (.inl rfl)
          · exact .inr (.inr (by simpa [preorder] using h))
    obtain ⟨h2, h3⟩ := ih inv'
    rw [Array.size_set] at h2 h3
    refine ⟨fun x hx hxlt => ?_, h3⟩
    simp only [preorder, List.filterMap_cons, List.mem_cons] at hx
    rcases hx with rfl | hx
    · exact explore_keeps ((marked_set hlt).mpr (.inl rfl))
    · refine h2 x ?_ hxlt
      rw [preorder_append, preorder_map_enter, List.mem_append]
      exact .inr (by simpa [preorder] using hx)
  | case4 seen trace node depth pending hlt hseen ih =>
    -- the node is marked already, so the visit can be dropped
    have hnode : seen[node]? = some true := by
      rw [Array.getElem?_eq_getElem hlt, Bool.not_eq_false _ |>.mp hseen]
    obtain ⟨h2, h3⟩ := ih (by
      intro x hx y hy hylt
      rcases inv x hx y hy hylt with h | h
      · exact .inl h
      · simp only [preorder, List.filterMap_cons, List.mem_cons] at h
        rcases h with rfl | h
        · exact .inl hnode
        · exact .inr h)
    refine ⟨fun x hx hxlt => ?_, h3⟩
    simp only [preorder, List.filterMap_cons, List.mem_cons] at hx
    rcases hx with rfl | hx
    · exact explore_keeps hnode
    · exact h2 x hx hxlt
  | case5 seen trace node depth pending hlt ih =>
    obtain ⟨h2, h3⟩ := ih (by
      intro x hx y hy hylt
      rcases inv x hx y hy hylt with h | h
      · exact .inl h
      · simp only [preorder, List.filterMap_cons, List.mem_cons] at h
        rcases h with rfl | h
        · exact absurd hylt hlt
        · exact .inr h)
    refine ⟨fun x hx hxlt => ?_, h3⟩
    simp only [preorder, List.filterMap_cons, List.mem_cons] at hx
    rcases hx with rfl | hx
    · exact absurd hxlt hlt
    · exact h2 x hx hxlt

/-- Exactly the nodes that a start leads to are reached. -/
theorem reached_iff {next : Nat → List Nat} {bound : Nat} {starts : List Nat} {b : Nat} :
    (reached next bound starts)[b]? = some true ↔ ∃ s ∈ starts, Leads next bound s b := by
  have hnone : ∀ x : Nat, (Array.replicate bound false)[x]? ≠ some true := by
    intro x
    rw [Array.getElem?_replicate]
    split <;> simp
  constructor
  · intro h
    rcases leads_of_explore h with h | ⟨a, ha, hl⟩
    · exact absurd h (hnone b)
    · rw [preorder_map_enter] at ha
      rw [Array.size_replicate] at hl
      exact ⟨a, ha, hl⟩
  · rintro ⟨s, hs, hl⟩
    obtain ⟨h2, h3⟩ :=
      @explore_closed next (Array.replicate bound false) [] (starts.map (.enter · 0))
        (fun x hx => absurd hx (hnone x))
    rw [preorder_map_enter, Array.size_replicate] at h2
    rw [Array.size_replicate] at h3
    induction hl with
    | refl hlt => exact h2 s hs hlt
    | step _ hm hlt ih => exact h3 _ ih _ hm hlt

/-! ## What the trace says -/

/-- The nodes entered on the way are the ones newly marked, each of them once. -/
theorem preorder_explore {next : Nat → List Nat} {seen : Array Bool} {trace pending : List Visit}
    (nodup : (preorder trace).Nodup) (marked : ∀ b ∈ preorder trace, seen[b]? = some true) :
    (preorder (explore next seen trace pending).2).Nodup ∧
      ∀ b, b ∈ preorder (explore next seen trace pending).2 ↔
        b ∈ preorder trace ∨
          (explore next seen trace pending).1[b]? = some true ∧ seen[b]? ≠ some true := by
  fun_induction explore next seen trace pending with
  | case1 seen trace =>
    refine ⟨nodup, fun b => ⟨.inl, ?_⟩⟩
    rintro (h | ⟨h, h'⟩)
    · exact h
    · exact absurd h h'
  | case2 seen trace node pending ih =>
    have hleave : preorder (.leave node :: trace) = preorder trace := rfl
    rw [hleave] at ih
    exact ih nodup marked
  | case3 seen trace node depth pending hlt hseen ih =>
    have henter : preorder (.enter node depth :: trace) = node :: preorder trace := rfl
    -- the node is not marked, so it has not been entered before
    have hfresh : seen[node]? ≠ some true := by
      rw [Array.getElem?_eq_getElem hlt, hseen]
      simp
    rw [henter] at ih
    obtain ⟨h1, h2⟩ := ih (List.nodup_cons.mpr ⟨fun h => hfresh (marked node h), nodup⟩) (by
      intro b hb
      rcases List.mem_cons.mp hb with rfl | hb
      · exact (marked_set hlt).mpr (.inl rfl)
      · exact (marked_set hlt).mpr (.inr (marked b hb)))
    refine ⟨h1, fun b => (h2 b).trans ?_⟩
    have hkept : (explore next (seen.set node true) (.enter node depth :: trace)
        ((next node).map (.enter · (depth + 1)) ++ .leave node :: pending)).1[node]? = some true :=
      explore_keeps ((marked_set hlt).mpr (.inl rfl))
    rw [List.mem_cons, ne_eq, marked_set hlt, not_or]
    constructor
    · rintro ((rfl | h) | ⟨h, -, h'⟩)
      · exact .inr ⟨hkept, hfresh⟩
      · exact .inl h
      · exact .inr ⟨h, h'⟩
    · rintro (h | ⟨h, h'⟩)
      · exact .inl (.inr h)
      · by_cases hb : b = node
        · exact .inl (.inl hb)
        · exact .inr ⟨h, hb, h'⟩
  | case4 seen trace node depth pending hlt hseen ih => exact ih nodup marked
  | case5 seen trace node depth pending hlt ih => exact ih nodup marked

/-- A trace enters exactly the nodes that a start leads to. -/
theorem mem_preorder_trace {next : Nat → List Nat} {bound : Nat} {starts : List Nat} {b : Nat} :
    b ∈ preorder (trace next bound starts) ↔ ∃ s ∈ starts, Leads next bound s b := by
  have h := (@preorder_explore next (Array.replicate bound false) [] (starts.map (.enter · 0))
    .nil (fun _ h => nomatch h)).2 b
  rw [← reached_iff, reached, trace, preorder, List.filterMap_reverse, List.mem_reverse]
  refine h.trans ⟨?_, fun hr => .inr ⟨hr, ?_⟩⟩
  · rintro (h | h)
    · exact nomatch h
    · exact h.1
  · rw [Array.getElem?_replicate]
    split <;> simp

/-- A trace enters no node twice. -/
theorem nodup_preorder_trace (next : Nat → List Nat) (bound : Nat) (starts : List Nat) :
    (preorder (trace next bound starts)).Nodup := by
  rw [trace, preorder, List.filterMap_reverse]
  exact List.pairwise_reverse.mpr ((@preorder_explore next (Array.replicate bound false) []
    (starts.map (.enter · 0)) .nil (fun _ h => nomatch h)).1.imp Ne.symm)

end SsaFlow.DepthFirst
