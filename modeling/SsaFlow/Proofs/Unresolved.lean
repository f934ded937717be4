-- SUMMARY: Positions at the end of an order that no chain reaches stay unresolved and change nothing for the others.
import SsaFlow.Proofs.ChainTable

/-!
# Unresolved positions

An order may end in positions that cannot be reached from the entry. None of them has a predecessor below,
though they may lead back to positions below. Such positions stay unresolved, and the chains of the others are
the ones that rounds over the positions below give by themselves (`prolongs_resolve`). A table `Prolongs`
another if it is longer, and unresolved where it is longer; each step of a round keeps that relation, because
where chains meet depends on the chains alone.
-/

namespace SsaFlow.ChainTable

variable {preds : Nat → List Nat} {n : Nat} {t s : ChainTable}

/-- The predecessors of a position that lie below `n`. -/
def below (preds : Nat → List Nat) (n q : Nat) : List Nat := (preds q).filter (· < n)

@[simp] theorem mem_below {p q : Nat} : p ∈ below preds n q ↔ p ∈ preds q ∧ p < n := by
  simp [below]

/-- The first table is at least as long as the second, and it resolves the same positions in the same way. -/
structure Prolongs (t s : ChainTable) : Prop where
  size : s.size ≤ t.size
  up : ∀ q, t.up q = s.up q

theorem ext_up (hsize : t.size = s.size) (hup : ∀ q, t.up q = s.up q) : t = s := by
  refine Array.ext hsize fun q hq hq' => ?_
  have h := hup q
  rwa [ChainTable.up, ChainTable.up, Array.getElem?_eq_getElem hq, Array.getElem?_eq_getElem hq'] at h

theorem size_renew (preds : Nat → List Nat) (t : ChainTable) (pos : Nat) : (renew preds t pos).size = t.size := by
  unfold renew
  split
  · rfl
  · exact Array.size_setIfInBounds

theorem size_foldl_renew (preds : Nat → List Nat) (ps : List Nat) (t : ChainTable) :
    (ps.foldl (renew preds) t).size = t.size := by
  induction ps generalizing t with
  | nil => rfl
  | cons p ps ih => rw [List.foldl_cons, ih, size_renew]

theorem size_round (preds : Nat → List Nat) (t : ChainTable) : (round preds t).size = t.size :=
  size_foldl_renew preds _ t

theorem size_settle (preds : Nat → List Nat) (fuel : Nat) (t : ChainTable) :
    (settle preds fuel t).size = t.size := by
  induction fuel generalizing t with
  | zero => rfl
  | succ fuel ih =>
    simp only [settle]
    split
    · rfl
    · rw [ih, size_round]

theorem settle_of_round_eq (h : round preds t = t) (fuel : Nat) : settle preds fuel t = t := by
  cases fuel with
  | zero => rfl
  | succ fuel => simp only [settle, h, if_true]

/-- Without a resolved predecessor there is no meeting point. -/
theorem meetAll_eq_none {ps : List Nat} (h : ∀ p ∈ ps, t.up p = none) : t.meetAll ps = none := by
  have hfilter : ps.filter (fun p => (t.up p).isSome) = [] := by
    rw [List.filter_eq_nil_iff]
    intro p hp
    rw [h p hp]
    exact Bool.false_ne_true
  rw [meetAll, hfilter]
  rfl

/-- A position is known by what lies on its chain. -/
theorem Descending.eq_of_on_iff (ht : Descending t) {a b : Nat} (h : ∀ x, On t x a ↔ On t x b) : a = b :=
  Nat.le_antisymm (ht.le ((h a).mp .here)) (ht.le ((h b).mpr .here))

/-! ## One position -/

namespace Prolongs

/-- A prolonged table has the same chains. -/
theorem on_iff (h : Prolongs t s) {x q : Nat} : On t x q ↔ On s x q := by
  constructor <;> intro hx
  · induction hx with
    | here => exact .here
    | up hd _ ih => exact .up ((h.up _).symm.trans hd) ih
  · induction hx with
    | here => exact .here
    | up hd _ ih => exact .up ((h.up _).trans hd) ih

theorem descending (h : Prolongs t s) (hs : Descending s) : Descending t where
  entry := (h.up 0).trans hs.entry
  lt hd := hs.lt ((h.up _).symm.trans hd)
  next hd := by
    rw [h.up]
    exact hs.next ((h.up _).symm.trans hd)

/-- Chains meet at the same place in both tables, in whatever order and with whatever bound they are followed. -/
theorem meetAll_eq (h : Prolongs t s) (hs : Descending s) {ps qs : List Nat}
    (hps : ∀ p, (s.up p).isSome → (p ∈ ps ↔ p ∈ qs)) : t.meetAll ps = s.meetAll qs := by
  by_cases hsome : ∃ p ∈ qs, (s.up p).isSome
  · obtain ⟨p, hp, hup⟩ := hsome
    obtain ⟨m, hm, -, hiff⟩ := hs.meetAll_spec ⟨p, hp, hup⟩
    obtain ⟨m', hm', -, hiff'⟩ := (h.descending hs).meetAll_spec ⟨p, (hps p hup).mpr hp, by rwa [h.up]⟩
    have hsame : m' = m := by
      refine hs.eq_of_on_iff fun x => ?_
      rw [← h.on_iff, hiff', hiff]
      constructor
      · intro hall p hp hup
        exact h.on_iff.mp (hall p ((hps p hup).mpr hp) (by rwa [h.up]))
      · intro hall p hp hup
        rw [h.up] at hup
        exact h.on_iff.mpr (hall p ((hps p hup).mp hp) hup)
    rw [hm, hm', hsame]
  · have hnone : ∀ p ∈ qs, s.up p = none := by
      intro p hp
      exact Option.not_isSome_iff_eq_none.mp fun hup => hsome ⟨p, hp, hup⟩
    rw [meetAll_eq_none hnone, meetAll_eq_none fun p hp => ?_]
    rw [h.up]
    exact Option.not_isSome_iff_eq_none.mp fun hup => hsome ⟨p, (hps p hup).mp hp, hup⟩

/-- Renewing a position below. -/
theorem renew (h : Prolongs t s) (hs : Descending s) (hn : s.size = n) {pos : Nat} (hpos : pos < n) :
    Prolongs (ChainTable.renew preds t pos) (ChainTable.renew (below preds n) s pos) := by
  have hmeet : t.meetAll (preds pos) = s.meetAll (below preds n pos) :=
    h.meetAll_eq hs fun p hp => by
      have hlt := lt_size_of_up hp
      rw [mem_below]
      exact ⟨fun hmem => ⟨hmem, hn ▸ hlt⟩, fun hmem => hmem.1⟩
  refine ⟨?_, fun q => ?_⟩
  · rw [size_renew, size_renew]
    exact h.size
  · unfold ChainTable.renew
    rw [hmeet]
    cases s.meetAll (below preds n pos) with
    | none => exact h.up q
    | some d =>
      have hpos' : pos < s.size := hn ▸ hpos
      dsimp only
      rw [up_setIfInBounds (Nat.lt_of_lt_of_le hpos' h.size), up_setIfInBounds hpos', h.up]

/-- Renewing a position above changes nothing. -/
theorem renew_above (h : Prolongs t s) (hn : s.size = n) {pos : Nat} (habove : ∀ p ∈ preds pos, n ≤ p) :
    ChainTable.renew preds t pos = t := by
  have hmeet : t.meetAll (preds pos) = none := meetAll_eq_none fun p hp => by
    rw [h.up]
    refine Option.not_isSome_iff_eq_none.mp fun hup => ?_
    exact absurd (lt_size_of_up hup) (Nat.not_lt_of_le (hn ▸ habove p hp))
  rw [ChainTable.renew, hmeet]

/-! ## Rounds -/

theorem foldl_renew (hf : Forward (below preds n) n) {pos count : Nat} (h : Prolongs t s)
    (hs : Settling (below preds n) n s pos) (h0 : pos ≠ 0) (hcount : pos + count = n) :
    Prolongs ((List.range' pos count).foldl (ChainTable.renew preds) t)
      ((List.range' pos count).foldl (ChainTable.renew (below preds n)) s) := by
  induction count generalizing pos t s with
  | zero => exact h
  | succ count ih =>
    rw [List.range'_succ, List.foldl_cons, List.foldl_cons]
    exact ih (h.renew hs.desc hs.size (by omega)) (hs.renew hf h0 (by omega)) (by omega) (by omega)

/-- Positions with all their predecessors behind the front stay unresolved. -/
theorem foldl_renew_above (h : Prolongs t s) (hn : s.size = n) {ps : List Nat}
    (habove : ∀ q ∈ ps, ∀ p ∈ preds q, n ≤ p) : ps.foldl (ChainTable.renew preds) t = t := by
  induction ps with
  | nil => rfl
  | cons q ps ih =>
    rw [List.foldl_cons, h.renew_above hn (habove q List.mem_cons_self)]
    exact ih fun q hq => habove q (List.mem_cons_of_mem _ hq)

/-- A round over the longer table is a round over the shorter one, as the positions above come last. -/
theorem round (hf : Forward (below preds n) n) (habove : ∀ q, n ≤ q → ∀ p ∈ preds q, n ≤ p)
    (h : Prolongs t s) (hs : Settling (below preds n) n s 1) :
    Prolongs (ChainTable.round preds t) (ChainTable.round (below preds n) s) := by
  have hpos := hf.pos
  have hle : n ≤ t.size := hs.size ▸ h.size
  have hlist : (List.range t.size).tail = List.range' 1 (n - 1) ++ List.range' n (t.size - n) := by
    rw [List.range_eq_range', List.tail_range']
    have happend := @List.range'_append_1 1 (n - 1) (t.size - n)
    rw [show 1 + (n - 1) = n by omega, show n - 1 + (t.size - n) = t.size - 1 by omega] at happend
    exact happend.symm
  have hlist' : (List.range s.size).tail = List.range' 1 (n - 1) := by
    rw [hs.size, List.range_eq_range', List.tail_range']
  have hfirst := h.foldl_renew hf hs (by omega) (show 1 + (n - 1) = n by omega)
  rw [ChainTable.round, ChainTable.round, hlist, hlist', List.foldl_append]
  rw [hfirst.foldl_renew_above (by rw [size_foldl_renew, hs.size]) fun q hq =>
    habove q (List.mem_range'_1.mp hq).1]
  exact hfirst

/-- The rounds over both tables settle at the same time. -/
theorem settle (hf : Forward (below preds n) n) (habove : ∀ q, n ≤ q → ∀ p ∈ preds q, n ≤ p)
    (h : Prolongs t s) (hs : Settling (below preds n) n s 1) {fuel fuel' : Nat} (hfuel : weight n s ≤ fuel)
    (hfuel' : weight n s ≤ fuel') :
    Prolongs (ChainTable.settle preds fuel t) (ChainTable.settle (below preds n) fuel' s) := by
  induction fuel generalizing t s fuel' with
  | zero =>
    obtain ⟨-, ⟨hsame, -⟩ | hlt⟩ := hs.round_spec hf
    · rw [settle_of_round_eq hsame]
      exact h
    · omega
  | succ fuel ih =>
    have hround := h.round hf habove hs
    obtain ⟨hs', ⟨hsame, -⟩ | hlt⟩ := hs.round_spec hf
    -- the two tables come to rest in the same round
    · have hsame' : ChainTable.round preds t = t := by
        rw [hsame] at hround
        exact ext_up (size_round preds t) fun q => (hround.up q).trans (h.up q).symm
      rw [settle_of_round_eq hsame, settle_of_round_eq hsame']
      exact h
    -- as long as one of them moves, so does the other
    · have hmoves : ChainTable.round (below preds n) s ≠ s := by
        intro hsame
        rw [hsame] at hlt
        exact Nat.lt_irrefl _ hlt
      have hmoves' : ChainTable.round preds t ≠ t := by
        intro hsame
        rw [hsame] at hround
        exact hmoves (ext_up (size_round _ s) fun q => (hround.up q).symm.trans (h.up q))
      cases fuel' with
      | zero => omega
      | succ fuel' =>
        simp only [ChainTable.settle, hmoves, hmoves', if_false]
        exact ih hround hs'.restart (by omega) (by omega)

/-- What follows in the longer table is unresolved. -/
theorem toList_eq (h : Prolongs t s) :
    t.toList = s.toList ++ List.replicate (t.size - s.size) none := by
  have hsize := h.size
  refine List.ext_getElem (by simp; omega) fun q hq hq' => ?_
  rw [Array.length_toList] at hq
  have hup := h.up q
  rw [ChainTable.up, ChainTable.up, Array.getElem?_eq_getElem hq, Option.join_some] at hup
  rw [Array.getElem_toList, hup]
  by_cases hlt : q < s.size
  · simp [hlt]
  · rw [List.getElem_append_right (by simpa using hlt)]
    simp [hlt]

end Prolongs

/-- The table that the rounds over all positions settle on. -/
theorem prolongs_resolve (hf : Forward (below preds n) n) (habove : ∀ q, n ≤ q → ∀ p ∈ preds q, n ≤ p) {N : Nat}
    (hle : n ≤ N) : Prolongs (resolve preds N) (resolve (below preds n) n) := by
  have hpos := hf.pos
  have hinitial : Prolongs (initial N) (initial n) := by
    refine ⟨by simpa [initial] using hle, fun q => ?_⟩
    rw [up_initial hpos, up_initial (Nat.lt_of_lt_of_le hpos hle)]
  refine hinitial.settle hf habove (settling_initial hpos) ?_ (weight_initial_le n)
  calc weight n (initial n) ≤ (n + 1) ^ n := weight_initial_le n
    _ ≤ (N + 1) ^ n := Nat.pow_le_pow_left (by omega) n
    _ ≤ (N + 1) ^ N := Nat.pow_le_pow_right (by omega) hle

end SsaFlow.ChainTable
