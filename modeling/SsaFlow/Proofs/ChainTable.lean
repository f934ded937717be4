-- SUMMARY: The rounds over dominator chains settle, and the chains they settle on are exact.
import Mathlib
import SsaFlow.Dominator.Chain
import SsaFlow.Proofs.Walk

/-!
# Chains settle on the dominators

Positions are numbered so that every position after the entry has a predecessor before it, as they are
in a reverse postorder. Then each round can only move the immediate dominator of a position up its
chain, so the rounds settle, and a position lies on the chain of another exactly if it dominates it.

The argument rests on one fixed way back to the entry for every position, along predecessors that come
before it (`Fore`). All chains stay within these ways, and that keeps the chains comparable while the
table is only partly renewed.
-/

namespace SsaFlow.ChainTable

/-! ## Chains -/

/-- Position `x` lies on the chain of a position. -/
inductive On (t : ChainTable) (x : Nat) : Nat → Prop
  | here : On t x x
  | up {q d : Nat} : t.up q = some d → On t x d → On t x q

/-- Chains lead to smaller positions and end at the entry. -/
structure Descending (t : ChainTable) : Prop where
  entry : t.up 0 = some 0
  lt : ∀ {q d : Nat}, t.up q = some d → q ≠ 0 → d < q
  next : ∀ {q d : Nat}, t.up q = some d → (t.up d).isSome

theorem up_setIfInBounds {t : ChainTable} {pos q m : Nat} (h : pos < t.size) :
    up (t.setIfInBounds pos (some m)) q = if pos = q then some m else t.up q := by
  rw [up, Array.getElem?_setIfInBounds, up]
  by_cases hq : pos = q
  · subst hq
    simp [h]
  · simp [hq]

theorem lt_size_of_up {t : ChainTable} {q : Nat} (h : (t.up q).isSome) : q < t.size := by
  refine Classical.byContradiction fun hge => ?_
  rw [up, Array.getElem?_eq_none (by omega)] at h
  simp at h

theorem On.trans {t : ChainTable} {x y z : Nat} (h : On t x y) (k : On t y z) : On t x z := by
  induction k with
  | here => exact h
  | up hd _ ih => exact .up hd ih

/-- What lies on the chain of another position lies on the chain of the next one up. -/
theorem On.next {t : ChainTable} {x q d : Nat} (h : On t x q) (hne : x ≠ q)
    (hd : t.up q = some d) : On t x d := by
  cases h with
  | here => exact absurd rfl hne
  | up hd' hx =>
    rw [hd] at hd'
    obtain rfl := Option.some.inj hd'
    exact hx

namespace Descending

variable {t : ChainTable}

/-- The chain of the entry has the entry only. -/
theorem eq_zero (ht : Descending t) {x : Nat} (h : On t x 0) : x = 0 := by
  generalize hz : 0 = z at h
  induction h with
  | here => rfl
  | @up q d hd _ ih =>
    subst hz
    rw [ht.entry] at hd
    obtain rfl := Option.some.inj hd
    exact ih rfl

/-- Chains only lead backwards. -/
theorem le (ht : Descending t) {x q : Nat} (h : On t x q) : x ≤ q := by
  induction h with
  | here => exact Nat.le_refl x
  | @up q d hd _ ih =>
    rcases Nat.eq_zero_or_pos q with rfl | hq
    · rw [ht.entry] at hd
      obtain rfl := Option.some.inj hd
      exact ih
    · have := ht.lt hd (by omega)
      omega

theorem isSome_of_on (ht : Descending t) {x q : Nat} (h : On t x q) (hq : (t.up q).isSome) :
    (t.up x).isSome := by
  induction h with
  | here => exact hq
  | up hd _ ih => exact ih (ht.next hd)

/-! ## Where chains meet -/

/-- The meeting point of two chains lies on both, and all that lies on both lies on its chain. -/
theorem meet_spec (ht : Descending t) {fuel a b : Nat} (hfuel : a + b ≤ fuel)
    (ha : (t.up a).isSome) (hb : (t.up b).isSome) :
    On t (t.meet fuel a b) a ∧ On t (t.meet fuel a b) b ∧
      ∀ x, On t x a → On t x b → On t x (t.meet fuel a b) := by
  induction fuel generalizing a b with
  | zero =>
    obtain rfl : a = 0 := by omega
    obtain rfl : b = 0 := by omega
    exact ⟨.here, .here, fun x hx _ => hx⟩
  | succ fuel ih =>
    rw [meet]
    split
    · next heq =>
      subst heq
      exact ⟨.here, .here, fun x hx _ => hx⟩
    · split
      · next hlt =>
        obtain ⟨d, hd⟩ := Option.isSome_iff_exists.mp ha
        -- the larger position is not on the chain of the other one, so nothing common is lost when it moves up
        have hda := ht.lt hd (by omega)
        obtain ⟨h1, h2, h3⟩ := ih (a := d) (b := b) (by omega) (ht.next hd) hb
        simp only [hd]
        refine ⟨.up hd h1, h2, fun x hxa hxb => h3 x (hxa.next ?_ hd) hxb⟩
        have := ht.le hxb
        omega
      · next hne hge =>
        obtain ⟨d, hd⟩ := Option.isSome_iff_exists.mp hb
        have hdb := ht.lt hd (by omega)
        obtain ⟨h1, h2, h3⟩ := ih (a := a) (b := d) (by omega) ha (ht.next hd)
        simp only [hd]
        refine ⟨h1, .up hd h2, fun x hxa hxb => h3 x hxa (hxb.next ?_ hd)⟩
        have := ht.le hxa
        omega

/-- Folding a list of resolved positions into a meeting point. -/
theorem foldl_meet_spec (ht : Descending t) {ps : List Nat} (hps : ∀ p ∈ ps, (t.up p).isSome)
    {m : Nat} (hm : (t.up m).isSome) :
    ∃ m', ps.foldl (fun found p =>
        match found with
        | none => some p
        | some current => some (t.meet (2 * t.size) p current)) (some m) = some m' ∧
      (t.up m').isSome ∧ ∀ x, On t x m' ↔ On t x m ∧ ∀ p ∈ ps, On t x p := by
  induction ps generalizing m with
  | nil => exact ⟨m, rfl, hm, fun x => by simp⟩
  | cons p ps ih =>
    have hp := hps p List.mem_cons_self
    have hlt := lt_size_of_up hp
    have hlt' := lt_size_of_up hm
    obtain ⟨h1, h2, h3⟩ := ht.meet_spec (show p + m ≤ 2 * t.size by omega) hp hm
    obtain ⟨m', hfold, hm', hiff⟩ :=
      ih (fun q hq => hps q (List.mem_cons_of_mem _ hq)) (ht.isSome_of_on h2 hm)
    refine ⟨m', hfold, hm', fun x => (hiff x).trans ?_⟩
    simp only [List.mem_cons, forall_eq_or_imp]
    constructor
    · rintro ⟨hx, hrest⟩
      exact ⟨hx.trans h2, hx.trans h1, hrest⟩
    · rintro ⟨hxm, hxp, hrest⟩
      exact ⟨h3 x hxp hxm, hrest⟩

/-- With a resolved predecessor there is a meeting point, and its chain holds exactly what lies on the
chains of all resolved predecessors. -/
theorem meetAll_spec (ht : Descending t) {ps : List Nat} (h : ∃ p ∈ ps, (t.up p).isSome) :
    ∃ m, t.meetAll ps = some m ∧ (t.up m).isSome ∧
      ∀ x, On t x m ↔ ∀ p ∈ ps, (t.up p).isSome → On t x p := by
  have hmem : ∀ p, p ∈ ps.filter (fun p => (t.up p).isSome) ↔ p ∈ ps ∧ (t.up p).isSome := by
    intro p
    exact List.mem_filter
  rw [meetAll]
  generalize ps.filter (fun p => (t.up p).isSome) = resolved at hmem
  cases resolved with
  | nil =>
    obtain ⟨p, hp, hup⟩ := h
    exact absurd ((hmem p).mpr ⟨hp, hup⟩) List.not_mem_nil
  | cons q qs =>
    have hup : ∀ p ∈ q :: qs, (t.up p).isSome := fun p hp => ((hmem p).mp hp).2
    obtain ⟨m, hfold, hm, hiff⟩ := ht.foldl_meet_spec
      (fun p hp => hup p (List.mem_cons_of_mem _ hp)) (hup q List.mem_cons_self)
    refine ⟨m, hfold, hm, fun x => (hiff x).trans ?_⟩
    constructor
    · rintro ⟨hq, hqs⟩ p hp hsome
      rcases List.mem_cons.mp ((hmem p).mpr ⟨hp, hsome⟩) with rfl | hp
      · exact hq
      · exact hqs p hp
    · intro hall
      refine ⟨?_, fun p hp => ?_⟩
      · obtain ⟨h1, h2⟩ := (hmem q).mp List.mem_cons_self
        exact hall q h1 h2
      · obtain ⟨h1, h2⟩ := (hmem p).mp (List.mem_cons_of_mem _ hp)
        exact hall p h1 h2

end Descending

/-! ## The way back to the entry -/

/-- The edges between positions below `n`. -/
def PosEdge (preds : Nat → List Nat) (n p q : Nat) : Prop := q < n ∧ p ∈ preds q

/-- Predecessors are positions of the order, and every position after the entry has one before it. -/
structure Forward (preds : Nat → List Nat) (n : Nat) : Prop where
  pos : 0 < n
  lt : ∀ {p q : Nat}, q < n → p ∈ preds q → p < n
  before : ∀ {q : Nat}, q ≠ 0 → q < n → ∃ p ∈ preds q, p < q

/-- A predecessor that comes before the position, the first one listed. -/
def fore (preds : Nat → List Nat) (q : Nat) : Nat := ((preds q).find? (· < q)).getD 0

/-- Position `x` lies on the way from a position back to the entry. -/
inductive Fore (preds : Nat → List Nat) (x : Nat) : Nat → Prop
  | here : Fore preds x x
  | back {q : Nat} : q ≠ 0 → Fore preds x (fore preds q) → Fore preds x q

namespace Forward

variable {preds : Nat → List Nat} {n : Nat}

/-- Every position after the entry has a predecessor before it. -/
theorem fore_spec (hf : Forward preds n) {q : Nat} (h0 : q ≠ 0) (hq : q < n) :
    fore preds q ∈ preds q ∧ fore preds q < q := by
  obtain ⟨p, hp, hlt⟩ := hf.before h0 hq
  cases hfind : (preds q).find? (· < q) with
  | none =>
    rw [List.find?_eq_none] at hfind
    exact absurd (by simpa using hlt) (hfind p hp)
  | some d =>
    have hd : fore preds q = d := by simp [fore, hfind]
    rw [hd]
    exact ⟨List.mem_of_find?_eq_some hfind, by simpa using List.find?_some hfind⟩

theorem fore_le (hf : Forward preds n) {x q : Nat} (h : Fore preds x q) (hq : q < n) : x ≤ q := by
  induction h with
  | here => exact Nat.le_refl x
  | back h0 _ ih =>
    have := (hf.fore_spec h0 hq).2
    have := ih (by omega)
    omega

theorem fore_trans {x y z : Nat} (h : Fore preds x y) (k : Fore preds y z) : Fore preds x z := by
  induction k with
  | here => exact h
  | back h0 _ ih => exact .back h0 ih

/-- A walk to `d` goes on to every position whose way back passes `d`, through larger positions. -/
theorem walk_of_fore (hf : Forward preds n) {d q : Nat} (h : Fore preds d q) (hq : q < n)
    {l : List Nat} (hl : Walk (PosEdge preds n) 0 l d) :
    ∃ m, Walk (PosEdge preds n) 0 (m ++ l) q ∧ ∀ w ∈ m, d < w := by
  induction h with
  | here => exact ⟨[], hl, fun w hw => absurd hw List.not_mem_nil⟩
  | @back q h0 hfore ih =>
    obtain ⟨hmem, hlt⟩ := hf.fore_spec h0 hq
    obtain ⟨m, hm, hall⟩ := ih (by omega)
    have hle := hf.fore_le hfore (by omega)
    refine ⟨q :: m, .step hm ⟨hq, hmem⟩, fun w hw => ?_⟩
    rcases List.mem_cons.mp hw with rfl | hw
    · omega
    · exact hall w hw

/-- A dominator that is not larger than `d` dominates `d` as well, if `d` lies on the way back. -/
theorem dominates_of_fore (hf : Forward preds n) {x d q : Nat} (h : Fore preds d q) (hq : q < n)
    (hx : Dominates (PosEdge preds n) 0 x q) (hle : x ≤ d) :
    Dominates (PosEdge preds n) 0 x d := by
  intro l hl
  obtain ⟨m, hm, hall⟩ := hf.walk_of_fore h hq hl
  rcases List.mem_append.mp (hx _ hm) with hxm | hxl
  · have := hall x hxm
    omega
  · exact hxl

end Forward

/-! ## What holds while a round is under way -/

/-- What holds of a table when the positions before `stage` have been renewed in the present round. -/
structure Settling (preds : Nat → List Nat) (n : Nat) (t : ChainTable) (stage : Nat) : Prop where
  size : t.size = n
  desc : Descending t
  done : ∀ q, q < stage → (t.up q).isSome
  /-- Chains stay within the ways back to the entry. -/
  fore : ∀ {q d : Nat}, q ≠ 0 → t.up q = some d → Fore preds d q
  /-- A renewed position has its immediate dominator from the chain of its way back. -/
  fresh : ∀ {q d : Nat}, q ≠ 0 → q < stage → t.up q = some d → On t d (ChainTable.fore preds q)
  /-- Renewing a position can only move it up. -/
  bound : ∀ {q d : Nat}, q ≠ 0 → t.up q = some d →
    ∀ x, (∀ p ∈ preds q, (t.up p).isSome → On t x p) → x ≤ d
  /-- No strict dominator has been passed over. -/
  kept : ∀ {q d : Nat}, q ≠ 0 → t.up q = some d →
    ∀ x, StrictlyDominates (PosEdge preds n) 0 x q → x ≤ d

namespace Settling

variable {preds : Nat → List Nat} {n stage : Nat} {t : ChainTable}

/-- A round may begin anew at any time. -/
theorem restart (h : Settling preds n t stage) : Settling preds n t 1 where
  size := h.size
  desc := h.desc
  done := by
    intro q hq
    obtain rfl : q = 0 := by omega
    simp [h.desc.entry]
  fore := h.fore
  fresh := by
    intro q d h0 hq
    omega
  bound := h.bound
  kept := h.kept

theorem lt_of_up (h : Settling preds n t stage) {q : Nat} (hq : (t.up q).isSome) : q < n :=
  h.size ▸ lt_size_of_up hq

/-- While the table settles, the positions on a chain lie on the way back to the entry. -/
theorem fore_of_on (h : Settling preds n t stage) {x q : Nat} (hx : On t x q) :
    Fore preds x q := by
  induction hx with
  | here => exact .here
  | @up q d hd hx ih =>
    rcases Nat.eq_zero_or_pos q with rfl | hpos
    · rw [h.desc.entry] at hd
      obtain rfl := Option.some.inj hd
      exact ih
    · exact Forward.fore_trans ih (h.fore (by omega) hd)

/-- Dominators lie on the chain. -/
theorem on_of_dominates (hf : Forward preds n) (h : Settling preds n t stage) {x q : Nat}
    (hq : (t.up q).isSome) (hx : Dominates (PosEdge preds n) 0 x q) : On t x q := by
  induction q using Nat.strongRecOn with
  | ind q ih =>
    by_cases hne : x = q
    · exact hne ▸ .here
    · obtain ⟨d, hd⟩ := Option.isSome_iff_exists.mp hq
      have hqn := h.lt_of_up hq
      have h0 : q ≠ 0 := by
        rintro rfl
        exact hne hx.eq_root
      have hle := h.kept h0 hd x ⟨hne, hx⟩
      have hxd := hf.dominates_of_fore (h.fore h0 hd) hqn hx hle
      exact .up hd (ih d (h.desc.lt hd h0) (h.desc.next hd) hxd)

/-- What lies on the chain of a renewed position lies on the chains along its way back, as long as it
is not larger than the place looked at. -/
theorem on_back (hf : Forward preds n) (h : Settling preds n t stage) {x d w : Nat}
    (hback : Fore preds d w) (hw : w < stage) (hwn : w < n) (hx : On t x w) (hle : x ≤ d) :
    On t x d := by
  induction hback with
  | here => exact hx
  | @back w h0 hrest ih =>
    obtain ⟨-, hlt⟩ := hf.fore_spec h0 hwn
    have hdle := hf.fore_le hrest (by omega)
    obtain ⟨e, he⟩ := Option.isSome_iff_exists.mp (h.done w hw)
    have hxe : On t x e := hx.next (by omega) he
    exact ih (by omega) (by omega) (hxe.trans (h.fresh h0 hw he))

end Settling

/-! ## Renewing one position -/

/-- Writing what is there already changes nothing. -/
theorem setIfInBounds_eq_self {t : ChainTable} {pos m : Nat} (h : t.up pos = some m) :
    t.setIfInBounds pos (some m) = t := by
  refine Array.ext_getElem? fun i => ?_
  rw [Array.getElem?_setIfInBounds]
  split
  · next heq =>
    subst heq
    split
    · next hlt =>
      rw [up, Array.getElem?_eq_getElem hlt] at h
      rw [Array.getElem?_eq_getElem hlt]
      exact congrArg some h.symm
    · next hge => exact (Array.getElem?_eq_none (by omega)).symm
  · rfl

theorem isSome_up_set {t : ChainTable} {pos q m : Nat} (hpos : pos < t.size) (hq : (t.up q).isSome) :
    (up (t.setIfInBounds pos (some m)) q).isSome := by
  rw [up_setIfInBounds hpos]
  split
  · rfl
  · exact hq

/-- Chains still descend when a position gets a resolved one before it. -/
theorem Descending.set {t : ChainTable} (ht : Descending t) {pos m : Nat} (h0 : pos ≠ 0) (hpos : pos < t.size)
    (hlt : m < pos) (hm : (t.up m).isSome) : Descending (t.setIfInBounds pos (some m)) where
  entry := by rw [up_setIfInBounds hpos, if_neg h0, ht.entry]
  lt := by
    intro q d hd hq0
    rw [up_setIfInBounds hpos] at hd
    split at hd
    · next heq =>
      obtain rfl := Option.some.inj hd
      omega
    · exact ht.lt hd hq0
  next := by
    intro q d hd
    rw [up_setIfInBounds hpos] at hd
    split at hd
    · obtain rfl := Option.some.inj hd
      exact isSome_up_set hpos hm
    · exact isSome_up_set hpos (ht.next hd)

/-- Chains that start below a position do not see it change. -/
theorem on_set_of_lt {t : ChainTable} (ht : Descending t) {pos m x z : Nat} (hpos : pos < t.size)
    (hz : z < pos) : On (t.setIfInBounds pos (some m)) x z ↔ On t x z := by
  have hup : ∀ q, q < pos → up (t.setIfInBounds pos (some m)) q = t.up q := by
    intro q hq
    rw [up_setIfInBounds hpos, if_neg (by omega)]
  have hlt : ∀ q d, q < pos → t.up q = some d → d < pos := by
    intro q d hq hd
    rcases Nat.eq_zero_or_pos q with rfl | h0
    · rw [ht.entry] at hd
      obtain rfl := Option.some.inj hd
      exact hq
    · have := ht.lt hd (by omega)
      omega
  constructor
  · intro h
    induction h with
    | here => exact .here
    | @up q d hd _ ih =>
      rw [hup q hz] at hd
      exact .up hd (ih (hlt q d hz hd))
  · intro h
    induction h with
    | here => exact .here
    | @up q d hd _ ih => exact .up ((hup q hz).trans hd) (ih (hlt q d hz hd))

/-- If a position only moves up its chain, no chain grows. -/
theorem on_of_on_set {t : ChainTable} (ht : Descending t) {pos m x z : Nat} (hpos : pos < t.size)
    (hm : m < pos) (hmove : ∀ d, t.up pos = some d → On t m d) (hz : (t.up z).isSome)
    (h : On (t.setIfInBounds pos (some m)) x z) : On t x z := by
  induction h with
  | here => exact .here
  | @up q d hd hx ih =>
    rw [up_setIfInBounds hpos] at hd
    split at hd
    · next heq =>
      subst heq
      obtain rfl := Option.some.inj hd
      obtain ⟨d, hd'⟩ := Option.isSome_iff_exists.mp hz
      exact .up hd' (((on_set_of_lt ht hpos hm).mp hx).trans (hmove d hd'))
    · exact .up hd (ih (ht.next hd))

/-- The sum of all immediate dominators, where an unresolved position counts as `n`. -/
def weight (n : Nat) (t : ChainTable) : Nat := ∑ q ∈ Finset.range n, (t.up q).getD n

/-- A position that gets a smaller one above it makes the table lighter. -/
theorem weight_set_lt {n : Nat} {t : ChainTable} {pos m : Nat} (hsize : t.size = n) (hpos : pos < n)
    (hlt : m < (t.up pos).getD n) : weight n (t.setIfInBounds pos (some m)) < weight n t := by
  have hup : ∀ q, up (t.setIfInBounds pos (some m)) q = if pos = q then some m else t.up q :=
    fun q => up_setIfInBounds (by omega)
  refine Finset.sum_lt_sum (fun q _ => ?_) ⟨pos, Finset.mem_range.mpr hpos, ?_⟩
  · rw [hup]
    split
    · next heq =>
      subst heq
      exact Nat.le_of_lt hlt
    · exact Nat.le_refl _
  · rw [hup, if_pos rfl]
    exact hlt

namespace Settling

variable {preds : Nat → List Nat} {n pos : Nat} {t : ChainTable}

/-- The new immediate dominator of a position: below it, on the chain of its way back, and up the chain
from the present one. -/
theorem renew_spec (hf : Forward preds n) (h : Settling preds n t pos) (h0 : pos ≠ 0)
    (hpos : pos < n) :
    ∃ m, renew preds t pos = t.setIfInBounds pos (some m) ∧ m < pos ∧ (t.up m).isSome ∧
      On t m (ChainTable.fore preds pos) ∧
      (∀ x, (∀ p ∈ preds pos, (t.up p).isSome → On t x p) → On t x m) ∧
      ∀ d, t.up pos = some d → On t m d := by
  obtain ⟨hmem, hlt⟩ := hf.fore_spec h0 hpos
  have hsome := h.done _ hlt
  obtain ⟨m, hmeet, hm, hiff⟩ := h.desc.meetAll_spec ⟨_, hmem, hsome⟩
  have hall := (hiff m).mp .here
  have hback := hall _ hmem hsome
  have hmlt : m < pos := Nat.lt_of_le_of_lt (h.desc.le hback) hlt
  refine ⟨m, ?_, hmlt, hm, hback, fun x hx => (hiff x).mpr hx, fun d hd => ?_⟩
  · rw [renew, hmeet]
  · have hle := h.bound h0 hd m hall
    have hdlt := h.desc.lt hd h0
    have hfore : Fore preds d (ChainTable.fore preds pos) := by
      cases h.fore h0 hd with
      | here => omega
      | back _ hrest => exact hrest
    exact h.on_back hf hfore hlt (by omega) hback hle

/-- Renewing the next position of a round. -/
theorem renew (hf : Forward preds n) (h : Settling preds n t pos) (h0 : pos ≠ 0) (hpos : pos < n) :
    Settling preds n (ChainTable.renew preds t pos) (pos + 1) := by
  obtain ⟨m, heq, hmlt, hm, hback, hmeet, hmove⟩ := h.renew_spec hf h0 hpos
  have hsize : pos < t.size := by rw [h.size]; exact hpos
  have hup : ∀ q, up (t.setIfInBounds pos (some m)) q = if pos = q then some m else t.up q :=
    fun q => up_setIfInBounds hsize
  have hstill : ∀ q, (t.up q).isSome → (up (t.setIfInBounds pos (some m)) q).isSome :=
    fun q hq => isSome_up_set hsize hq
  -- chains only lose positions
  have hshrink : ∀ x z, (t.up z).isSome → On (t.setIfInBounds pos (some m)) x z → On t x z :=
    fun x z hz hx => on_of_on_set h.desc hsize hmlt hmove hz hx
  obtain ⟨-, hforelt⟩ := hf.fore_spec h0 hpos
  have hfresh := (on_set_of_lt (m := m) h.desc hsize hforelt).mpr hback
  rw [heq]
  constructor
  case size => rw [Array.size_setIfInBounds, h.size]
  case desc => exact h.desc.set h0 hsize hmlt hm
  case done =>
    intro q hq
    rw [hup]
    split
    · rfl
    · exact h.done q (by omega)
  case fore =>
    intro q d hq0 hd
    rw [hup] at hd
    split at hd
    · next hq =>
      obtain rfl := Option.some.inj hd
      exact hq ▸ .back h0 (h.fore_of_on hback)
    · exact h.fore hq0 hd
  case fresh =>
    intro q d hq0 hq hd
    rw [hup] at hd
    split at hd
    · next heq =>
      subst heq
      obtain rfl := Option.some.inj hd
      exact hfresh
    · have hlt := (hf.fore_spec hq0 (by omega)).2
      exact (on_set_of_lt h.desc hsize (by omega)).mpr (h.fresh hq0 (by omega) hd)
  case bound =>
    intro q d hq0 hd x hx
    have hx' : ∀ p ∈ preds q, (t.up p).isSome → On t x p :=
      fun p hp hsome => hshrink x p hsome (hx p hp (hstill p hsome))
    rw [hup] at hd
    split at hd
    · next heq =>
      subst heq
      obtain rfl := Option.some.inj hd
      exact h.desc.le (hmeet x hx')
    · exact h.bound hq0 hd x hx'
  case kept =>
    intro q d hq0 hd x hx
    rw [hup] at hd
    split at hd
    · next heq =>
      subst heq
      obtain rfl := Option.some.inj hd
      refine h.desc.le (hmeet x fun p hp hsome => ?_)
      exact h.on_of_dominates hf hsome (hx.of_edge ⟨hpos, hp⟩)
    · exact h.kept hq0 hd x hx

/-- Renewing a position changes nothing or makes the table lighter. -/
theorem renew_weight (hf : Forward preds n) (h : Settling preds n t pos) (h0 : pos ≠ 0)
    (hpos : pos < n) :
    ChainTable.renew preds t pos = t ∨ weight n (ChainTable.renew preds t pos) < weight n t := by
  obtain ⟨m, heq, hmlt, -, -, -, hmove⟩ := h.renew_spec hf h0 hpos
  rw [heq]
  cases hd : t.up pos with
  | none =>
    refine .inr (weight_set_lt h.size hpos ?_)
    rw [hd]
    exact Nat.lt_trans hmlt hpos
  | some d =>
    have hle := h.desc.le (hmove d hd)
    rcases Nat.eq_or_lt_of_le hle with rfl | hlt
    · exact .inl (setIfInBounds_eq_self hd)
    · refine .inr (weight_set_lt h.size hpos ?_)
      rw [hd]
      exact hlt

end Settling

/-! ## Rounds -/

namespace Settling

variable {preds : Nat → List Nat} {n pos : Nat} {t : ChainTable}

/-- Renewing positions one after the other either leaves the table alone at each of them or makes it
lighter. -/
theorem foldl_renew (hf : Forward preds n) {count : Nat} (h : Settling preds n t pos) (h0 : pos ≠ 0)
    (hn : pos + count = n) :
    Settling preds n ((List.range' pos count).foldl (ChainTable.renew preds) t) n ∧
      ((List.range' pos count).foldl (ChainTable.renew preds) t = t ∧
          (∀ q, pos ≤ q → q < n → ChainTable.renew preds t q = t) ∨
        weight n ((List.range' pos count).foldl (ChainTable.renew preds) t) < weight n t) := by
  induction count generalizing pos t with
  | zero =>
    obtain rfl : pos = n := by omega
    exact ⟨h, .inl ⟨rfl, fun q h1 h2 => by omega⟩⟩
  | succ count ih =>
    have hpos : pos < n := by omega
    rw [List.range'_succ, List.foldl_cons]
    obtain ⟨hend, hcase⟩ := ih (h.renew hf h0 hpos) (by omega) (by omega)
    refine ⟨hend, ?_⟩
    rcases h.renew_weight hf h0 hpos with hsame | hlt
    · rw [hsame] at hcase ⊢
      refine hcase.imp (fun ⟨hfold, hall⟩ => ⟨hfold, fun q h1 h2 => ?_⟩) id
      rcases Nat.eq_or_lt_of_le h1 with rfl | h1
      · exact hsame
      · exact hall q h1 h2
    · refine .inr ?_
      rcases hcase with ⟨hfold, -⟩ | hlt'
      · rw [hfold]
        exact hlt
      · exact Nat.lt_trans hlt' hlt

/-- A round renews all positions. If it changes anything, then the table gets lighter, so rounds
come to an end. -/
theorem round_spec (hf : Forward preds n) (h : Settling preds n t 1) :
    Settling preds n (round preds t) n ∧
      (round preds t = t ∧ (∀ q, 1 ≤ q → q < n → ChainTable.renew preds t q = t) ∨
        weight n (round preds t) < weight n t) := by
  have hpos := hf.pos
  have hlist : (List.range t.size).tail = List.range' 1 (n - 1) := by
    rw [h.size, List.range_eq_range', List.tail_range']
  rw [round, hlist]
  exact h.foldl_renew hf (by omega) (by omega)

/-- The rounds settle on a table that no renewal changes. -/
theorem settle_spec (hf : Forward preds n) {fuel : Nat} (h : Settling preds n t 1)
    (hfuel : weight n t ≤ fuel) :
    Settling preds n (settle preds fuel t) n ∧
      ∀ q, 1 ≤ q → q < n → ChainTable.renew preds (settle preds fuel t) q = settle preds fuel t := by
  induction fuel generalizing t with
  | zero =>
    obtain ⟨hround, ⟨hsame, hall⟩ | hlt⟩ := h.round_spec hf
    · exact ⟨hsame ▸ hround, hall⟩
    · omega
  | succ fuel ih =>
    obtain ⟨hround, hcase⟩ := h.round_spec hf
    simp only [settle]
    split
    · next hsame =>
      rcases hcase with ⟨-, hall⟩ | hlt
      · exact ⟨hsame ▸ hround, hall⟩
      · rw [hsame] at hlt
        omega
    · next hne =>
      rcases hcase with ⟨hsame, -⟩ | hlt
      · exact absurd hsame hne
      · exact ih hround.restart (by omega)

end Settling

/-! ## The table that the rounds settle on -/

theorem up_initial {n q : Nat} (hn : 0 < n) : (initial n).up q = if q = 0 then some 0 else none := by
  rw [initial, up_setIfInBounds (by simpa using hn)]
  by_cases hq : q = 0
  · simp [hq]
  · rw [if_neg (Ne.symm hq), if_neg hq, up, Array.getElem?_replicate]
    split <;> rfl

/-- The rounds start from a table in which the entry alone is resolved. -/
theorem settling_initial {preds : Nat → List Nat} {n : Nat} (hn : 0 < n) :
    Settling preds n (initial n) 1 := by
  have hnone : ∀ {q d : Nat}, q ≠ 0 → (initial n).up q ≠ some d := by
    intro q d hq
    rw [up_initial hn, if_neg hq]
    simp
  constructor
  case size => simp [initial]
  case desc =>
    constructor
    case entry => rw [up_initial hn, if_pos rfl]
    case lt => exact fun hd h0 => absurd hd (hnone h0)
    case next =>
      intro q d hd
      rw [up_initial hn] at hd
      split at hd
      · obtain rfl := Option.some.inj hd
        rw [up_initial hn, if_pos rfl]
        rfl
      · cases hd
  case done =>
    intro q hq
    obtain rfl : q = 0 := by omega
    rw [up_initial hn, if_pos rfl]
    rfl
  case fore => exact fun h0 hd => absurd hd (hnone h0)
  case fresh => exact fun h0 _ hd => absurd hd (hnone h0)
  case bound => exact fun h0 hd => absurd hd (hnone h0)
  case kept => exact fun h0 hd => absurd hd (hnone h0)

/-- The number of rounds allowed is enough. -/
theorem weight_initial_le (n : Nat) : weight n (initial n) ≤ (n + 1) ^ n := by
  rcases Nat.eq_zero_or_pos n with rfl | hn
  · simp [weight]
  · have hle : weight n (initial n) ≤ n * n := by
      have : weight n (initial n) ≤ ∑ _q ∈ Finset.range n, n := by
        refine Finset.sum_le_sum fun q _ => ?_
        rw [up_initial hn]
        split
        · exact Nat.zero_le n
        · exact Nat.le_refl n
      simpa using this
    rcases Nat.eq_or_lt_of_le (Nat.succ_le_of_lt hn) with rfl | h2
    · exact Nat.le_trans hle (by decide)
    · calc weight n (initial n) ≤ n * n := hle
        _ ≤ (n + 1) ^ 2 := by rw [Nat.pow_two]; exact Nat.mul_le_mul (by omega) (by omega)
        _ ≤ (n + 1) ^ n := Nat.pow_le_pow_right (by omega) h2

section Resolve

variable {preds : Nat → List Nat} {n : Nat} (hf : Forward preds n)
include hf

theorem settling_resolve : Settling preds n (resolve preds n) n :=
  ((settling_initial hf.pos).settle_spec hf (weight_initial_le n)).1

/-- No renewal changes the settled table. -/
theorem renew_resolve {q : Nat} (h0 : q ≠ 0) (hq : q < n) :
    renew preds (resolve preds n) q = resolve preds n :=
  ((settling_initial hf.pos).settle_spec hf (weight_initial_le n)).2 q (by omega) hq

/-- In the settled table every position has what lies on the chains of all its predecessors. -/
theorem on_pred_of_on_up {x p q d : Nat} (h0 : q ≠ 0) (hq : q < n)
    (hd : (resolve preds n).up q = some d) (hx : On (resolve preds n) x d) (hp : p ∈ preds q) :
    On (resolve preds n) x p := by
  have hs := settling_resolve hf
  have hsome : ∀ p, p < n → ((resolve preds n).up p).isSome := hs.done
  obtain ⟨r, hr, -⟩ := hf.before h0 hq
  obtain ⟨m, hmeet, -, hiff⟩ := hs.desc.meetAll_spec ⟨r, hr, hsome r (hf.lt hq hr)⟩
  have hm : (resolve preds n).up q = some m := by
    have hset : (resolve preds n).setIfInBounds q (some m) = resolve preds n := by
      have hsame := renew_resolve hf h0 hq
      rw [renew, hmeet] at hsame
      exact hsame
    rw [← hset, up_setIfInBounds (by rw [hs.size]; exact hq), if_pos rfl]
  obtain rfl : m = d := Option.some.inj (hm.symm.trans hd)
  exact (hiff x).mp hx p hp (hsome p (hf.lt hq hp))

/-- A position lies on the chain of another exactly if it dominates it. -/
theorem on_resolve_iff {x q : Nat} (hq : q < n) :
    On (resolve preds n) x q ↔ Dominates (PosEdge preds n) 0 x q := by
  have hs := settling_resolve hf
  constructor
  · intro hx l hl
    induction hl with
    | start => exact List.mem_singleton.mpr (hs.desc.eq_zero hx)
    | @step l p q hw he ih =>
      by_cases hne : x = q
      · exact hne ▸ List.mem_cons_self
      · by_cases h0 : q = 0
        · subst h0
          exact absurd (hs.desc.eq_zero hx) hne
        · obtain ⟨d, hd⟩ := Option.isSome_iff_exists.mp (hs.done q hq)
          have hxp := on_pred_of_on_up hf h0 hq hd (hx.next hne hd) he.2
          exact List.mem_cons_of_mem _ (ih (hf.lt hq he.2) hxp)
  · exact hs.on_of_dominates hf (hs.done q hq)

/-- The settled table holds the immediate dominators. -/
theorem immediatelyDominates_of_up {q d : Nat} (h0 : q ≠ 0) (hq : q < n)
    (hd : (resolve preds n).up q = some d) :
    ImmediatelyDominates (PosEdge preds n) 0 d q := by
  have hs := settling_resolve hf
  have hlt := hs.desc.lt hd h0
  refine ⟨⟨by omega, (on_resolve_iff hf hq).mp (.up hd .here)⟩, fun x hx => ?_⟩
  have hxq := (on_resolve_iff hf hq).mpr hx.2
  exact (on_resolve_iff hf (by omega)).mp (hxq.next hx.1 hd)

end Resolve

end SsaFlow.ChainTable
